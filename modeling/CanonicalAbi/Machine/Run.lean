import CanonicalAbi.Machine.Program
import CanonicalAbi.Machine.Scalars
import CanonicalAbi.Machine.World
import CanonicalAbi.Text.Utf8

/-!
# Running programs

A machine runs a program in a world.
-/

namespace CanonicalAbi

/-- A running program: the world, its registers, and all that it has to give back. -/
structure Machine (α : Type) where
  world : World α
  registers : Array Value
  borrowed : AllocationList := []
  scratch : AllocationList := []
  lent : List Handle := []
  results : List Value := []

/-- What is done on a machine, which may fail. -/
abbrev Exec (α : Type) := ExceptT Failure (StateM (Machine α))

/-- What instructions refer to that is in no register: arguments, and the element or payload at
hand. -/
structure Scope where
  args : List Value := []
  elem : Value := .nothing
  base : UInt32 := 0
  payload : Value := .nothing

/-- What does not change during a run: the outside, and whether lifted handles are owned. -/
structure Setting (α : Type) where
  host : Host α
  owned : Bool

namespace Exec

variable {α : Type}

def act {β : Type} (a : Action α β) : Exec α β := do
  let m ← get
  let (result, world) := a.run.run m.world
  set { m with world }
  match result with
  | .ok b => pure b
  | .error f => throw f

def ofExcept {β : Type} : Except Failure β → Exec α β
  | .ok b => pure b
  | .error f => throw f

def getRegs (regs : List Reg) : Exec α (List Value) := do
  let registers := (← get).registers
  return regs.map fun r => registers.getD r .nothing

def setRegs (regs : List Reg) (values : List Value) : Exec α Unit :=
  modify fun m => { m with
    registers := (regs.zip values).foldl (fun rs (r, v) => rs.setIfInBounds r v) m.registers }

/-! ## Memory -/

/-- Frees a block, unless its size is zero: such a block owns no memory and may begin where another
one does. -/
def free [Allocator α] (ptr size align : UInt32) : Exec α Unit :=
  if size = 0 then pure () else act (.free ptr size align)

def freeOwned [Allocator α] (c : Setting α) (ptr size align : UInt32) : Exec α Unit :=
  if c.owned then free ptr size align else pure ()

/-- A block for lowered data, which is freed when the run ends if no allocator of the guest is
named. -/
def allocFor [Allocator α] (realloc : String) (size align : UInt32) : Exec α UInt32 := do
  let ptr ← act (.alloc size align)
  if realloc.isEmpty then
    modify fun m => { m with borrowed := ⟨ptr, size, align⟩ :: m.borrowed }
  return ptr

def putBytes [Allocator α] (realloc : String) (data : List UInt8) : Exec α (List Value) := do
  let length := UInt32.ofNat data.length
  let ptr ← allocFor realloc length 1
  unless data.isEmpty do act (.write ptr data)
  return [.ofU32 ptr, .ofU32 length]

def bytesAt (ptr length : UInt32) : Exec α (List UInt8) :=
  if length = 0 then pure [] else act (.read ptr length)

def load (op : LoadOp) (addr : UInt32) : Exec α Value :=
  match op with
  | .i32From8U => .u64 <$> act (.load .u8 addr)
  | .i32From8S => do return .ofI32 (← act (.load .u8 addr)).toUInt8.toInt8.toInt32
  | .i32From16U => .u64 <$> act (.load .u16 addr)
  | .i32From16S => do return .ofI32 (← act (.load .u16 addr)).toUInt16.toInt16.toInt32
  | .i32 | .f32 => .u64 <$> act (.load .u32 addr)
  | .i64 | .f64 => .u64 <$> act (.load .u64 addr)

def store (op : StoreOp) (addr : UInt32) (v : UInt64) : Exec α Unit :=
  match op with
  | .i32To8 => act (.store .u8 addr v)
  | .i32To16 => act (.store .u16 addr v)
  | .i32 | .f32 => act (.store .u32 addr v)
  | .i64 | .f64 => act (.store .u64 addr v)

/-! ## Texts and lists -/

def liftString [Allocator α] (c : Setting α) (ptr length : UInt32) : Exec α Value := do
  let data ← bytesAt ptr length
  unless Text.Utf8.isValid data do
    throw (.report { phase := .eval, kind := .invalidData, type := "string",
                     detail := "invalid UTF-8 at " ++ toString ptr } none)
  freeOwned c ptr length 1
  return .string data

def requireBytes (elem : Option Shape) : Exec α Unit :=
  if Program.isByte elem then pure ()
  else throw (.notImplemented .eval
    ("canonical list<" ++ (elem.map Shape.spelling).getD "_" ++ ">"))

def lowerElems (body : Scope → Exec α (List Value)) (size : UInt32) :
    UInt32 → List Value → Exec α Unit
  | _, [] => pure ()
  | base, v :: vs => do
    let _ ← body { elem := v, base }
    lowerElems body size (base + size) vs

/-- Runs `body` for each of `count` addresses and collects what it yields behind `before`, which is
the newest first. -/
def liftElems (body : Scope → Exec α (List Value)) (size : UInt32) (before : List Value) :
    UInt32 → Nat → Exec α (List Value)
  | _, 0 => return before.reverse
  | base, count + 1 => do
    let out ← body { base }
    liftElems body size (out.headD .nothing :: before) (base + size) count

def freeElems (body : Scope → Exec α (List Value)) (size : UInt32) : UInt32 → Nat → Exec α Unit
  | _, 0 => pure ()
  | base, count + 1 => do
    let _ ← body { base }
    freeElems body size (base + size) count

/-! ## Handles -/

def requireTable : Exec α Unit := do
  if (← get).world.table.isNone then throw (.invalidInput .eval "no handle table")

def lowerHandle (form : HandleForm) (l : Label) (resource : Option Label) (v : Value) :
    Exec α Value := do
  requireTable
  match form, v with
  | .own, .own rep => return .ofU32 (← act (.onTable (.addOwned resource rep)))
  | .borrow, .borrow rep lender =>
    let h ← act (.onTable
      (if lender = 0 then .addBorrowed resource rep else .lend lender resource))
    modify fun m => { m with lent := h :: m.lent }
    return .ofU32 h
  | _, v => throw (v.mismatch l.spelling.get)

def liftHandle (form : HandleForm) (resource : Option Label) (h : Handle) : Exec α Value := do
  requireTable
  match form with
  | .own => return .own (← act (.onTable (.take h resource)))
  | .borrow => return .borrow (← act (.onTable (.rep h resource))) 0

/-! ## Calls -/

/-- The outcome of a call of something outside, which has to give `count` results. -/
def outcome {β : Type} (name : String) (count : Nat) (call : Action α (List β)) :
    Exec α (List β) := do
  let m ← get
  let (result, world) := call.run.run m.world
  set { m with world }
  match result with
  | .error f => throw (.wrap .eval .invalidData (some f) ("call " ++ name))
  | .ok results =>
    if results.length ≠ count then
      throw (.stackMismatch .eval ("results of " ++ name) count results.length)
    return results

def crossCore (f : String → List UInt64 → Action α (List UInt64)) (name : String)
    (params : List UInt64) : Action α (List UInt64) := do
  Action.note (.callCore name params)
  modify fun w => { w with crossing := { w.crossing with called := some (name, params) } }
  f name params

def callCore (c : Setting α) (name : String) (signature : CoreSignature) (args : List Value) :
    Exec α (List Value) :=
  match c.host.core with
  | none => throw (.notFound .eval "wasm function" name)
  | some f => do
    let params := args.map Value.core
    return Value.ofCore (← outcome name signature.results.length (crossCore f name params))

def crossInterface (f : FunctionShape → List Value → Action α (List Value))
    (function : FunctionShape) (args : List Value) : Action α (List Value) := do
  Action.note (.callInterface function.name args.length)
  modify fun w => { w with crossing := { w.crossing with seen := some args } }
  f function args

def callInterface (c : Setting α) (function : FunctionShape) (args : List Value) :
    Exec α (List Value) :=
  match c.host.interface with
  | none => throw (.notFound .eval "interface function" function.name)
  | some f => outcome function.name function.results.length (crossInterface f function args)

/-! ## Steps -/

/-- Runs the block of a case number. How many there are is counted modulo 2³². -/
def runCase (count : Nat) (run : Nat → Scope → Exec α (List Value)) (index : UInt32)
    (scope : Scope) : Exec α (List Value) :=
  if index < .ofNat count then run index.toNat scope
  else throw (.invalidDiscriminant .eval [] index (.ofNat count - 1))

def instr [Allocator α] (c : Setting α) (scope : Scope) (blocks : Nat)
    (run : Nat → Scope → Exec α (List Value)) (i : Instr) (args : List Value) :
    Exec α (List Value) :=
  let arg := args.headD .nothing
  let first := arg.core
  let second := (args.getD 1 .nothing).core
  match i with
  | .getArg index =>
    match scope.args[index]? with
    | some v => return [v]
    | none => throw (.invalidInput .eval
        ("argument " ++ toString index ++ " of " ++ toString scope.args.length))
  | .i32Const value => return [.ofI32 value]
  | .constZero types => return types.map fun _ => .u64 0
  | .bitcasts casts => return List.zipWith (fun cast v => .u64 (cast.apply v.core)) casts args
  | .load op offset => do return [← load op (first.toUInt32 + offset)]
  | .store op offset => do
    store op (second.toUInt32 + offset) first
    return []
  | .lowerScalar s => do return [← ofExcept (s.lowerValue arg)]
  | .liftScalar s => do return [← ofExcept (s.liftValue first)]
  | .lowerHandle form l resource => do return [← lowerHandle form l resource arg]
  | .liftHandle form _ resource => do return [← liftHandle form resource first.toUInt32]
  | .lowerString realloc =>
    match arg with
    | .string data => putBytes realloc data
    | v => throw (v.mismatch "string")
  | .liftString => do return [← liftString c first.toUInt32 second.toUInt32]
  | .lowerBytes _ elem realloc => do
    requireBytes elem
    match arg with
    | .bytes data => putBytes realloc data
    | v => throw (v.mismatch "list<u8>")
  | .liftBytes _ elem => do
    requireBytes elem
    let data ← bytesAt first.toUInt32 second.toUInt32
    freeOwned c first.toUInt32 second.toUInt32 1
    return [.bytes data]
  | .lowerList l elem realloc =>
    match arg with
    | .list elems => do
      let layout ← ofExcept (optLayout elem)
      let length := UInt32.ofNat elems.length
      let ptr ← allocFor realloc (layout.size * length) layout.align
      lowerElems (run 0) layout.size ptr elems
      return [.ofU32 ptr, .ofU32 length]
    | v => throw (v.mismatch l.spelling.get)
  | .liftList _ elem => do
    let layout ← ofExcept (optLayout elem)
    let ptr := first.toUInt32
    let length := second.toUInt32
    let elems ← liftElems (run 0) layout.size [] ptr length.toNat
    freeOwned c ptr (layout.size * length) layout.align
    return [.list elems]
  | .iterElem _ => return [scope.elem]
  | .iterBase => return [.ofU32 scope.base]
  | .lowerProduct _ l fields =>
    match arg with
    | .list values =>
      if values.length = fields then return values else throw (arg.mismatch l.spelling.get)
    | v => throw (v.mismatch l.spelling.get)
  | .liftProduct _ _ _ => return [.list args]
  | .lowerFlags l count =>
    match arg with
    | .flags flags => return (flagLanes flags (FlagsStorage.ofCount count).lanes).map .ofU32
    | v => throw (v.mismatch l.spelling.get)
  | .liftFlags _ count =>
    return [.flags (laneFlags (args.map (·.core.toUInt32)) count)]
  | .payload => return [scope.payload]
  | .lowerSum _ l _ _ =>
    match arg with
    | .case index payload => runCase blocks run index { payload }
    | v => throw (v.mismatch l.spelling.get)
  | .liftSum _ _ _ => do
    let out ← runCase blocks run first.toUInt32 {}
    return [.case first.toUInt32 (out.headD .nothing)]
  | .lowerEnum l _ =>
    match arg with
    | .u32 n => return [.ofU32 n]
    | v => throw (v.mismatch l.spelling.get)
  | .liftEnum _ cases =>
    let n := first.toUInt32
    if n < .ofNat cases then return [.u32 n]
    else throw (.invalidDiscriminant .eval [] n (.ofNat cases - 1))
  | .callCore name signature => callCore c name signature args
  | .callInterface function => callInterface c function args
  | .ret _ => do
    modify fun m => { m with results := args }
    return []
  | .allocate _ size align => do return [.ofU32 (← act (.alloc size align))]
  | .free size align => do
    free first.toUInt32 size align
    return []
  | .freeString => do
    free first.toUInt32 second.toUInt32 1
    return []
  | .freeList _ elem => do
    let layout ← ofExcept (optLayout elem)
    let ptr := first.toUInt32
    let length := second.toUInt32
    freeElems (run 0) layout.size ptr length.toNat
    free ptr (layout.size * length) layout.align
    return []
  | .freeSum _ _ => do
    let _ ← runCase blocks run first.toUInt32 {}
    return []

mutual

def step [Allocator α] (c : Setting α) (scope : Scope) : Step → Exec α Unit
  | .exec i args outs blocks => do
    let values ← getRegs args
    let results ← instr c scope blocks.length (fun n scope => nth c scope n blocks) i values
    setRegs outs results
  | .scratch size align out => do
    let ptr ← act (.alloc size align)
    modify fun m => { m with scratch := ⟨ptr, size, align⟩ :: m.scratch }
    setRegs [out] [.ofU32 ptr]

def steps [Allocator α] (c : Setting α) (scope : Scope) : List Step → Exec α Unit
  | [] => pure ()
  | s :: ss => do
    step c scope s
    steps c scope ss

def block [Allocator α] (c : Setting α) (scope : Scope) : Block → Exec α (List Value)
  | .mk ss results => do
    steps c scope ss
    getRegs results

def nth [Allocator α] (c : Setting α) (scope : Scope) : Nat → List Block → Exec α (List Value)
  | 0, b :: _ => block c scope b
  | n + 1, _ :: bs => nth c scope n bs
  | _, [] => pure []

end

end Exec

namespace Program

variable {α : Type}

def ownsLifted (p : Program) : Bool :=
  (p.dir = .exported ∧ p.mode = .liftArgs) ∨ (p.dir = .imported ∧ p.mode = .lowerArgs)

def returnBorrow (h : Handle) : Action α Unit := do
  try Action.onTable (.endBorrow h)
  catch f => Action.note (.borrowKept h f)

/-- What happens when a run ends: loans are taken back and memory that lasted for the run is freed.
-/
def cleanUp [Allocator α] (p : Program) (m : Machine α) : Action α Unit := do
  m.lent.reverse.forM returnBorrow
  Action.freeAll m.borrowed.reverse
  if p.dir = .imported then Action.freeAll m.scratch.reverse

/-- Runs a program, and cleans up whether it succeeds or fails. -/
def run [Allocator α] (p : Program) (host : Host α) (args : List Value) :
    Action α (List Value) := do
  Action.note (.run p.function.name p.dir p.mode args.length)
  let world ← get
  let (result, m) := (Exec.block ⟨host, p.ownsLifted⟩ { args } p.body).run.run
    { world, registers := Array.replicate p.registers .nothing }
  set m.world
  match result with
  | .ok _ =>
    cleanUp p m
    return m.results
  | .error f =>
    Action.note (.runFailed p.function.name f)
    cleanUp p m
    throw f

end Program

end CanonicalAbi
