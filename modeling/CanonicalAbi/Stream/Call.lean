import CanonicalAbi.Stream.Free
import CanonicalAbi.Stream.Lift
import CanonicalAbi.Stream.Lower

/-!
# The adapter of a function

The two halves of a call, for each direction.
-/

namespace CanonicalAbi

def defaultRealloc : String := "cabi_realloc"

/-- A generator for one function: which half of which direction it makes, and with which allocator.
-/
structure Generator where
  dir : Direction
  mode : Mode
  realloc : String := ""
  used : Bool := false
  deriving DecidableEq, Repr

namespace Generator

def allocator (g : Generator) : String := if g.realloc.isEmpty then defaultRealloc else g.realloc

/-- The name of the function that allocates lowered texts and lists, empty if they last for the call
only. -/
def loweringAllocator (g : Generator) : String :=
  if g.dir = .imported ∧ g.mode = .lowerArgs then "" else g.allocator

end Generator

namespace Gen

variable {σ ω : Type} (b : Backend σ ω) (g : Generator)

def lowerParams (index : Nat) : Parts → Gen σ ω Unit
  | [] => pure ()
  | s :: shapes => do
    emit b (.getArg index)
    lower? b g.loweringAllocator s
    lowerParams (index + 1) shapes

/-- Arguments from number `index` on, stored at their offsets from an address. -/
def writeParams (addr : ω) (index : Nat) : Parts → List UInt32 → Gen σ ω Unit
  | s :: shapes, o :: offsets => do
    emit b (.getArg index)
    write? b g.loweringAllocator s addr o
    writeParams addr (index + 1) shapes offsets
  | _, _ => pure ()

/-- Memory for arguments, which an export's caller hands over. -/
def paramPointer (size align : UInt32) : Gen σ ω ω :=
  match g.dir with
  | .imported => returnPointer b size align
  | .exported => emitOne b (.allocate g.allocator size align)

/-- Lowers the arguments, behind a pointer if there are too many. -/
def lowerArgValues (f : FunctionShape) (signature : CoreSignature) : Gen σ ω Unit := do
  if signature.indirectParams then
    let layout := Layout.product (← ofExcept (fieldLayouts f.params))
    let addr ← paramPointer b g layout.size layout.align
    writeParams b g addr 0 f.params layout.offsets
    push addr
  else lowerParams b g 0 f.params

/-- Adds the pointer for results that an import's caller provides. -/
def resultPointer (f : FunctionShape) (signature : CoreSignature) : Gen σ ω (Option ω) := do
  if signature.returnPointer.isSome && g.dir = .imported then
    let layout := Layout.product (← ofExcept (fieldLayouts f.results))
    let addr ← returnPointer b layout.size layout.align
    push addr
    return some addr
  else return none

def lowerArgs (f : FunctionShape) (signature : CoreSignature) : Gen σ ω (Option ω) := do
  lowerArgValues b g f signature
  resultPointer b g f signature

/-- Lifts the results, from memory if there are too many: at the pointer that the caller provided,
or at the one that the callee returned. -/
def liftResults (f : FunctionShape) (signature : CoreSignature) (provided : Option ω) :
    Gen σ ω Unit := do
  if signature.returnPointer.isSome then
    let addr ← match provided with
      | some addr => pure addr
      | none => pop
    let offsets ← ofExcept (fieldOffsets f.results)
    readFields b f.results offsets addr 0
  else liftFields b f.results (← popN signature.results.length)
  emit b (.ret f.results.length)

def getArgs (index : Nat) : Nat → Gen σ ω Unit
  | 0 => pure ()
  | count + 1 => do
    emit b (.getArg index)
    getArgs (index + 1) count

/-- Parameters lifted one after another from the core arguments from number `index` on. -/
def liftParams (index : Nat) : Parts → Gen σ ω Unit
  | [] => pure ()
  | s :: shapes => do
    let flat ← ofExcept (flat? s)
    getArgs b index flat.length
    lift? b s
    liftParams (index + flat.length) shapes

/-- Lifts the arguments, from memory if there are too many. An export's callee then owns that memory
and frees it. -/
def liftArgs (f : FunctionShape) (signature : CoreSignature) : Gen σ ω Unit := do
  if signature.indirectParams then
    let addr ← emitOne b (.getArg 0)
    let layout := Layout.product (← ofExcept (fieldLayouts f.params))
    readFields b f.params layout.offsets addr 0
    if g.dir = .exported then
      push addr
      emit b (.free layout.size layout.align)
  else liftParams b 0 f.params

/-- Lowers the results, through memory if there are too many: at the pointer that an import's caller
provided, or in memory of the export's own, whose pointer is returned. -/
def lowerResults (f : FunctionShape) (signature : CoreSignature) : Gen σ ω Unit := do
  let values ← popN f.results.length
  if signature.returnPointer.isSome then
    let layout := Layout.product (← ofExcept (fieldLayouts f.results))
    match g.dir with
    | .imported =>
      let addr ← emitOne b (.getArg (signature.params.length - 1))
      writeFields b g.loweringAllocator f.results values layout.offsets addr 0
      emit b (.ret 0)
    | .exported =>
      let addr ← returnPointer b layout.size layout.align
      writeFields b g.loweringAllocator f.results values layout.offsets addr 0
      push addr
      emit b (.ret 1)
  else
    lowerFields b g.loweringAllocator f.results values
    emit b (.ret signature.results.length)

def finish (f : FunctionShape) : Gen σ ω Unit := do
  let s ← get
  if s.stack.length ≠ 0 then
    fail (.stackMismatch .generate ("stack at exit of " ++ f.name) 0 s.stack.length)
  if s.blocks.length ≠ 0 then
    fail (.unbalancedBlock .generate ("block left open at exit of " ++ f.name))
  if s.finished ≠ 0 then
    fail (.unbalancedBlock .generate "finished block never consumed")
  note (.generated f.name)

/-- One half of a call, up to the checks at its end. -/
def half (f : FunctionShape) : Gen σ ω Unit := do
  note (.generating f.name g.dir g.mode)
  let signature ← ofExcept (f.signature g.dir)
  match g.mode with
  | .lowerArgs =>
    let provided ← lowerArgs b g f signature
    emit b (.callCore f.name signature)
    liftResults b f signature provided
  | .liftArgs =>
    liftArgs b g f signature
    emit b (.callInterface f)
    lowerResults b g f signature
  | .neither => pure ()

def call (f : FunctionShape) : Gen σ ω Unit := do
  half b g f
  finish f

/-- Frees the results of an export, up to the checks at the end. -/
def freeResults (f : FunctionShape) : Gen σ ω Unit := do
  note (.generating f.name g.dir g.mode)
  if g.dir ≠ .exported then
    fail (.invalidInput .generate "post-return only exists for exports")
  let signature ← ofExcept (f.signature .exported)
  if signature.returnPointer.isSome then
    let offsets ← ofExcept (fieldOffsets f.results)
    let addr ← emitOne b (.getArg 0)
    freeFields b f.results offsets addr 0
  emit b (.ret 0)

def postReturn (f : FunctionShape) : Gen σ ω Unit := do
  freeResults b g f
  finish f

end Gen

/-- How a generator ended, with what the backend and the log are then. -/
structure Generated (σ : Type) where
  result : Except Abort Unit
  backend : σ
  log : List LogEntry

namespace Generator

variable {σ ω : Type}

def run (work : Gen σ ω Unit) (backend : σ) : Generated σ :=
  let (result, s) := work.run.run { backend }
  ⟨result, s.backend, s.log⟩

def runOnce (g : Generator) (work : Gen σ ω Unit) (backend : σ) : Generated σ :=
  if g.used then ⟨.error (.failure (.invalidInput .generate "generator reused")), backend, []⟩
  else run work backend

/-- What one run of a generator gives, and the generator after it, which is used up. -/
def use (run : Generator → Generated σ) : StateM Generator (Generated σ) :=
  fun g => (run g, { g with used := true })

def call (g : Generator) (b : Backend σ ω) (f : FunctionShape) (backend : σ) : Generated σ :=
  g.runOnce (Gen.call b g f) backend

def postReturn (g : Generator) (b : Backend σ ω) (f : FunctionShape) (backend : σ) :
    Generated σ :=
  g.runOnce (Gen.postReturn b g f) backend

end Generator

end CanonicalAbi
