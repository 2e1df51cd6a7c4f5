import CanonicalAbi.Stream.Generator

/-!
# Lifting

`lift` turns the core values on top of the stack into a value of the interface, and `read` makes one
from linear memory.
-/

namespace CanonicalAbi

namespace Gen

variable {σ ω : Type} (b : Backend σ ω)

def liftList (l : Label) (elem : Option Shape) (read : ω → Gen σ ω Unit) : Gen σ ω Unit :=
  if b.movesRaw elem then emit b (.liftBytes l elem)
  else do
    block b 1 do
      let addr ← emitOne b .iterBase
      read addr
    emit b (.liftList l elem)

def loadLanes (addr : ω) (offset : UInt32) : Nat → Gen σ ω Unit
  | 0 => pure ()
  | lanes + 1 => do
    load b .i32 addr offset
    loadLanes addr (offset + 4) lanes

def loadFlags (count : Nat) (addr : ω) (offset : UInt32) : Gen σ ω Unit :=
  let storage := FlagsStorage.ofCount count
  if storage.unit = .u32 then loadLanes b addr offset storage.lanes
  else load b storage.unit.loadOp addr offset

mutual

def lift : Shape → Gen σ ω Unit
  | .scalar s => emit b (.liftScalar s)
  | .string => emit b .liftString
  | .product l form fields => do
    let flat ← ofExcept (flatFields fields)
    liftFields fields (← popN flat.length)
    emit b (.liftProduct form l fields.length)
  | .sum l form payloads => do
    let joined := flatSum (← ofExcept (flatPayloads payloads))
    match ← popN joined.length with
    | [] => pure ()
    | tag :: values =>
      liftCases joined.tail values payloads
      push tag
      emit b (.liftSum form l payloads.length)
  | .enum l cases => emit b (.liftEnum l cases)
  | .flags l count => emit b (.liftFlags l count)
  | .list l elem => liftList b l elem fun addr => read? elem addr 0
  | .handle l form resource => emit b (.liftHandle form l resource)
  | .synonym _ target => lift? target
  | .channel l form => fail (Shape.channel l form).impassable
  | .resource l => fail (Shape.resource l).impassable
  | .unfinished l => fail (Shape.unfinished l).impassable

def lift? : Option Shape → Gen σ ω Unit
  | none => fail (.cannot "lift")
  | some s => lift s

def liftFields : Parts → List ω → Gen σ ω Unit
  | [], _ => pure ()
  | s :: shapes, values => do
    let flat ← ofExcept (flat? s)
    pushAll (values.take flat.length)
    lift? s
    liftFields shapes (values.drop flat.length)

/-- The blocks of the cases, for the shared slots `slots` that hold `values`. -/
def liftCases (slots : List CoreType) (values : List ω) : Parts → Gen σ ω Unit
  | [] => pure ()
  | none :: payloads => do
    block b 0 (pure ())
    liftCases slots values payloads
  | some p :: payloads => do
    block b 1 do
      let own ← ofExcept p.flat
      pushAll (values.take own.length)
      castSlots b (slots.take own.length) own
      lift p
    liftCases slots values payloads

def read : Shape → ω → UInt32 → Gen σ ω Unit
  | .scalar s, addr, offset => do
    load b s.loadOp addr offset
    emit b (.liftScalar s)
  | .string, addr, offset => do
    loadPair b addr offset
    emit b .liftString
  | .product l form fields, addr, offset => do
    let offsets ← ofExcept (fieldOffsets fields)
    readFields fields offsets addr offset
    emit b (.liftProduct form l fields.length)
  | .sum l form payloads, addr, offset => do
    let start ← ofExcept (payloadOffset payloads)
    load b (tagWidth payloads.length).loadOp addr offset
    readCases addr (offset + start) payloads
    emit b (.liftSum form l payloads.length)
  | .enum l cases, addr, offset => do
    load b (tagWidth cases).loadOp addr offset
    emit b (.liftEnum l cases)
  | .flags l count, addr, offset => do
    loadFlags b count addr offset
    emit b (.liftFlags l count)
  | .list l elem, addr, offset => do
    loadPair b addr offset
    liftList b l elem fun addr => read? elem addr 0
  | .handle l form resource, addr, offset => do
    load b .i32 addr offset
    emit b (.liftHandle form l resource)
  | .synonym _ target, addr, offset => read? target addr offset
  | .channel l form, _, _ => fail (Shape.channel l form).impassable
  | .resource l, _, _ => fail (Shape.resource l).impassable
  | .unfinished l, _, _ => fail (Shape.unfinished l).impassable

def read? : Option Shape → ω → UInt32 → Gen σ ω Unit
  | none, _, _ => fail (.cannot "load")
  | some s, addr, offset => read s addr offset

/-- Makes the stored values of several types, each at its own offset from `offset`. -/
def readFields : Parts → List UInt32 → ω → UInt32 → Gen σ ω Unit
  | s :: shapes, o :: offsets, addr, offset => do
    read? s addr (offset + o)
    readFields shapes offsets addr offset
  | _, _, _, _ => pure ()

def readCases (addr : ω) (start : UInt32) : Parts → Gen σ ω Unit
  | [] => pure ()
  | none :: payloads => do
    block b 0 (pure ())
    readCases addr start payloads
  | some p :: payloads => do
    block b 1 (read p addr start)
    readCases addr start payloads

end

end Gen

end CanonicalAbi
