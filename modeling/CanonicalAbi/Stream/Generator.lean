import CanonicalAbi.Log
import CanonicalAbi.Stream.Instr

/-!
# Generating a stream

A generator drives a backend.
-/

namespace CanonicalAbi

/-- Why a stream breaks off: a failure, or a value that a backend threw. -/
inductive Abort where
  | failure (f : Failure)
  | value (shown : String)

namespace Abort

def message : Abort → String
  | failure f => f.message
  | value shown => shown

def toFailure : Abort → Failure
  | failure (.report r cause) => .report r cause
  | failure f => .wrap .generate .invalidInput (some f) "translation aborted"
  | value shown => .invalidInput .generate ("translation aborted: " ++ shown)

end Abort

/-- What a generator needs of a backend with operands of type `ω` and state of type `σ`. -/
structure Backend (σ ω : Type) where
  emit : Instr → List ω → σ → Except Abort (List ω) × σ
  openBlock : σ → σ
  closeBlock : List ω → σ → σ
  returnPointer : UInt32 → UInt32 → σ → ω × σ
  movesRaw : RawRule

/-- The height of the stack below a block, and the finished blocks that wait outside it. -/
structure OpenBlock where
  height : Nat
  waiting : Nat
  deriving DecidableEq, Repr

/-- The state of a generator: the operands on its stack and the blocks that are open. -/
structure Generation (σ ω : Type) where
  backend : σ
  stack : List ω := []
  finished : Nat := 0
  blocks : List OpenBlock := []
  log : List LogEntry := []

/-- Work of a generator, which may break off. -/
abbrev Gen (σ ω : Type) := ExceptT Abort (StateM (Generation σ ω))

namespace Gen

variable {σ ω : Type}

def fail {α : Type} (f : Failure) : Gen σ ω α := throw (.failure f)

def ofExcept {α : Type} : Except Failure α → Gen σ ω α
  | .ok a => pure a
  | .error f => fail f

def note (entry : LogEntry) : Gen σ ω Unit := modify fun s => { s with log := entry :: s.log }

def push (a : ω) : Gen σ ω Unit := modify fun s => { s with stack := a :: s.stack }

def pushAll (as : List ω) : Gen σ ω Unit :=
  modify fun s => { s with stack := as.reverse ++ s.stack }

/-- Takes the `n` topmost operands, the topmost last. A block cannot take what was there before it.
-/
def popN (n : Nat) : Gen σ ω (List ω) := do
  let s ← get
  if s.stack.length < n then
    fail (.stackMismatch .generate "pop" n s.stack.length)
  if s.blocks.head?.any fun b => decide (s.stack.length - n < b.height) then
    fail (.unbalancedBlock .generate "pop below block entry")
  set { s with stack := s.stack.drop n }
  return (s.stack.take n).reverse

def pop : Gen σ ω ω := do
  match ← popN 1 with
  | [a] => return a
  | _ => fail (.stackMismatch .generate "pop" 1 0)

def emit (b : Backend σ ω) (i : Instr) : Gen σ ω Unit := do
  let s ← get
  if s.stack.length < i.operands then
    fail (.stackMismatch .generate i.name i.operands s.stack.length)
  if s.finished ≠ i.blocks then
    fail (.unbalancedBlock .generate (i.name ++ " consumes " ++ toString i.blocks ++ " blocks, "
      ++ toString s.finished ++ " finished"))
  let rest := s.stack.drop i.operands
  match b.emit i (s.stack.take i.operands).reverse s.backend with
  | (.error abort, backend) =>
    set { s with backend, stack := rest, finished := 0 }
    throw abort
  | (.ok results, backend) =>
    set { s with backend, stack := rest, finished := 0 }
    if results.length ≠ i.results then
      fail (.stackMismatch .generate (i.name ++ " results") i.results results.length)
    pushAll results

def emitOne (b : Backend σ ω) (i : Instr) : Gen σ ω ω := do
  emit b i
  pop

def openBlock (b : Backend σ ω) : Gen σ ω Unit := do
  let s ← get
  set { s with blocks := ⟨s.stack.length, s.finished⟩ :: s.blocks, finished := 0 }
  note (.pushBlock (s.blocks.length + 1))
  modify fun s => { s with backend := b.openBlock s.backend }

/-- Closes the innermost block with `n` results, which must be all that it put on the stack. -/
def closeBlock (b : Backend σ ω) (n : Nat) : Gen σ ω Unit := do
  let s ← get
  match s.blocks with
  | [] => fail (.unbalancedBlock .generate "finish without push")
  | block :: outer =>
    if s.finished ≠ 0 then
      fail (.unbalancedBlock .generate "nested block never consumed")
    if s.stack.length ≠ block.height + n then
      fail (.stackMismatch .generate "block result" (block.height + n) s.stack.length)
    set { s with blocks := outer }
    let operands ← popN n
    note (.finishBlock (outer.length + 1) n)
    modify fun s =>
      { s with backend := b.closeBlock operands s.backend, finished := block.waiting + 1 }

def block (b : Backend σ ω) (n : Nat) (body : Gen σ ω Unit) : Gen σ ω Unit := do
  openBlock b
  body
  closeBlock b n

def returnPointer (b : Backend σ ω) (size align : UInt32) : Gen σ ω ω := do
  let s ← get
  let (a, backend) := b.returnPointer size align s.backend
  set { s with backend }
  return a

end Gen

def Shape.impassable : Shape → Failure
  | .channel l _ =>
    .unsupported .generate [] l.spelling.get "async values have no canonical lowering"
  | .resource l => .bareResource .generate l.spelling.get
  | s => .unknownKind .generate s.spelling

namespace Failure

def cannot (verb : String) : Failure := of .generate .invalidInput ("cannot " ++ verb ++ " <nil>")

end Failure

/-! ## Memory and slots -/

namespace Gen

variable {σ ω : Type} (b : Backend σ ω)

def store (op : StoreOp) (addr : ω) (offset : UInt32) : Gen σ ω Unit := do
  push addr
  emit b (.store op offset)

def load (op : LoadOp) (addr : ω) (offset : UInt32) : Gen σ ω Unit := do
  push addr
  emit b (.load op offset)

def castSlots (source target : List CoreType) : Gen σ ω Unit := do
  let casts ← ofExcept (Bitcast.pairwise source target)
  if casts.any (· ≠ .none) then emit b (.bitcasts casts)

def storePair (addr : ω) (offset : UInt32) : Gen σ ω Unit := do
  store b .i32 addr (offset + 4)
  store b .i32 addr offset

def loadPair (addr : ω) (offset : UInt32) : Gen σ ω Unit := do
  load b .i32 addr offset
  load b .i32 addr (offset + 4)

end Gen

def IntWidth.storeOp : IntWidth → StoreOp
  | .u8 => .i32To8
  | .u16 => .i32To16
  | .u32 | .u64 => .i32

def IntWidth.loadOp : IntWidth → LoadOp
  | .u8 => .i32From8U
  | .u16 => .i32From16U
  | .u32 | .u64 => .i32

def Scalar.storeOp : Scalar → StoreOp
  | .bool | .u8 | .s8 => .i32To8
  | .u16 | .s16 => .i32To16
  | .u32 | .s32 | .char => .i32
  | .u64 | .s64 => .i64
  | .f32 => .f32
  | .f64 => .f64

def Scalar.loadOp : Scalar → LoadOp
  | .bool | .u8 => .i32From8U
  | .s8 => .i32From8S
  | .u16 => .i32From16U
  | .s16 => .i32From16S
  | .u32 | .s32 | .char => .i32
  | .u64 | .s64 => .i64
  | .f32 => .f32
  | .f64 => .f64

def fieldOffsets (fields : Parts) : Except Failure (List UInt32) := do
  return (Layout.product (← fieldLayouts fields)).offsets

def payloadOffset (payloads : Parts) : Except Failure UInt32 := do
  return (Layout.sum (tagWidth payloads.length) (← payloadLayouts payloads)).payload

end CanonicalAbi
