import CanonicalAbi.Stream.Generator

/-!
# Lowering

`lower` turns a value of the interface on top of the stack into its core values, and `write` stores
it in linear memory. Both follow the shape of the value.
-/

namespace CanonicalAbi

namespace Gen

variable {σ ω : Type} (b : Backend σ ω) (realloc : String)

/-- Lowers a list, whose elements are written by `write` to the address given to it. -/
def lowerList (l : Label) (elem : Option Shape) (write : ω → Gen σ ω Unit) : Gen σ ω Unit :=
  if b.movesRaw elem then emit b (.lowerBytes l elem realloc)
  else do
    block b 0 do
      emit b (.iterElem elem)
      let addr ← emitOne b .iterBase
      write addr
    emit b (.lowerList l elem realloc)

def padZeros (types : List CoreType) : Gen σ ω Unit :=
  if types.isEmpty then pure () else emit b (.constZero types)

def storeLanes (addr : ω) (offset : UInt32) : List ω → Gen σ ω Unit
  | [] => pure ()
  | lane :: lanes => do
    push lane
    store b .i32 addr offset
    storeLanes addr (offset + 4) lanes

/-- Stores the integers of a set of flags: one small one, or those of 32 bits one after another. -/
def storeFlags (count : Nat) (addr : ω) (offset : UInt32) : Gen σ ω Unit := do
  let storage := FlagsStorage.ofCount count
  if storage.unit = .u32 then storeLanes b addr offset (← popN storage.lanes)
  else store b storage.unit.storeOp addr offset

mutual

def lower : Shape → Gen σ ω Unit
  | .scalar s => emit b (.lowerScalar s)
  | .string => emit b (.lowerString realloc)
  | .product l form fields => do
    emit b (.lowerProduct form l fields.length)
    lowerFields fields (← popN fields.length)
  | .sum l form payloads => do
    let results := flatSum (← ofExcept (flatPayloads payloads))
    lowerCases results.tail 0 payloads
    emit b (.lowerSum form l payloads.length results)
  | .enum l cases => emit b (.lowerEnum l cases)
  | .flags l count => emit b (.lowerFlags l count)
  | .list l elem => lowerList b realloc l elem fun addr => write? elem addr 0
  | .handle l form resource => emit b (.lowerHandle form l resource)
  | .synonym _ target => lower? target
  | .channel l form => fail (Shape.channel l form).impassable
  | .resource l => fail (Shape.resource l).impassable
  | .unfinished l => fail (Shape.unfinished l).impassable

def lower? : Option Shape → Gen σ ω Unit
  | none => fail (.cannot "lower")
  | some s => lower s

def lowerFields : Parts → List ω → Gen σ ω Unit
  | s :: shapes, v :: values => do
    push v
    lower? s
    lowerFields shapes values
  | _, _ => pure ()

/-- The blocks of the cases from number `index` on, for the shared slots `slots`. -/
def lowerCases (slots : List CoreType) (index : Nat) : Parts → Gen σ ω Unit
  | [] => pure ()
  | none :: payloads => do
    block b (slots.length + 1) do
      let _ ← emitOne b .payload
      emit b (.i32Const (.ofNat index))
      padZeros b slots
    lowerCases slots (index + 1) payloads
  | some p :: payloads => do
    block b (slots.length + 1) do
      let value ← emitOne b .payload
      emit b (.i32Const (.ofNat index))
      push value
      lower p
      let own ← ofExcept p.flat
      castSlots b own slots
      padZeros b (slots.drop own.length)
    lowerCases slots (index + 1) payloads

def write : Shape → ω → UInt32 → Gen σ ω Unit
  | .scalar s, addr, offset => do
    emit b (.lowerScalar s)
    store b s.storeOp addr offset
  | .string, addr, offset => do
    emit b (.lowerString realloc)
    storePair b addr offset
  | .product l form fields, addr, offset => do
    emit b (.lowerProduct form l fields.length)
    let offsets ← ofExcept (fieldOffsets fields)
    writeFields fields (← popN fields.length) offsets addr offset
  | .sum l form payloads, addr, offset => do
    let start ← ofExcept (payloadOffset payloads)
    writeCases (tagWidth payloads.length) addr offset (offset + start) 0 payloads
    emit b (.lowerSum form l payloads.length [])
  | .enum l cases, addr, offset => do
    emit b (.lowerEnum l cases)
    store b (tagWidth cases).storeOp addr offset
  | .flags l count, addr, offset => do
    emit b (.lowerFlags l count)
    storeFlags b count addr offset
  | .list l elem, addr, offset => do
    lowerList b realloc l elem fun addr => write? elem addr 0
    storePair b addr offset
  | .handle l form resource, addr, offset => do
    emit b (.lowerHandle form l resource)
    store b .i32 addr offset
  | .synonym _ target, addr, offset => write? target addr offset
  | .channel l form, _, _ => fail (Shape.channel l form).impassable
  | .resource l, _, _ => fail (Shape.resource l).impassable
  | .unfinished l, _, _ => fail (Shape.unfinished l).impassable

def write? : Option Shape → ω → UInt32 → Gen σ ω Unit
  | none, _, _ => fail (.cannot "store")
  | some s, addr, offset => write s addr offset

def writeFields : Parts → List ω → List UInt32 → ω → UInt32 → Gen σ ω Unit
  | s :: shapes, v :: values, o :: offsets, addr, offset => do
    push v
    write? s addr (offset + o)
    writeFields shapes values offsets addr offset
  | _, _, _, _, _ => pure ()

/-- The blocks of the cases from number `index` on. The case number is stored at `offset` and the
payload at `start`. -/
def writeCases (tag : IntWidth) (addr : ω) (offset start : UInt32) (index : Nat) :
    Parts → Gen σ ω Unit
  | [] => pure ()
  | none :: payloads => do
    block b 0 do
      let _ ← emitOne b .payload
      emit b (.i32Const (.ofNat index))
      store b tag.storeOp addr offset
    writeCases tag addr offset start (index + 1) payloads
  | some p :: payloads => do
    block b 0 do
      let value ← emitOne b .payload
      emit b (.i32Const (.ofNat index))
      store b tag.storeOp addr offset
      push value
      write p addr start
    writeCases tag addr offset start (index + 1) payloads

end

end Gen

end CanonicalAbi
