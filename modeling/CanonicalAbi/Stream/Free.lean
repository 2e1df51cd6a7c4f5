import CanonicalAbi.Stream.Generator

/-!
# Freeing results

After an exported function has returned and its results have been lifted, the memory that they own
is freed. Types that own no memory emit nothing.
-/

namespace CanonicalAbi

namespace Gen

variable {σ ω : Type} (b : Backend σ ω)

mutual

def free : Shape → ω → UInt32 → Gen σ ω Unit
  | .string, addr, offset => do
    loadPair b addr offset
    emit b .freeString
  | .list l elem, addr, offset => do
    loadPair b addr offset
    block b 0 do
      if ownsMemory? elem then
        let base ← emitOne b .iterBase
        free? elem base 0
    emit b (.freeList l elem)
  | .product _ _ fields, addr, offset => do
    let offsets ← ofExcept (fieldOffsets fields)
    freeFields fields offsets addr offset
  | .sum l _ payloads, addr, offset => do
    if anyOwnsMemory payloads then
      let start ← ofExcept (payloadOffset payloads)
      load b (tagWidth payloads.length).loadOp addr offset
      freeCases addr (offset + start) payloads
      emit b (.freeSum l payloads.length)
  | .synonym _ target, addr, offset => free? target addr offset
  | .scalar _, _, _ | .enum _ _, _, _ | .flags _ _, _, _ | .handle _ _ _, _, _
  | .channel _ _, _, _ | .resource _, _, _ | .unfinished _, _, _ => pure ()

def free? : Option Shape → ω → UInt32 → Gen σ ω Unit
  | none, _, _ => pure ()
  | some s, addr, offset => free s addr offset

def freeFields : Parts → List UInt32 → ω → UInt32 → Gen σ ω Unit
  | s :: shapes, o :: offsets, addr, offset => do
    if ownsMemory? s then free? s addr (offset + o)
    freeFields shapes offsets addr offset
  | _, _, _, _ => pure ()

def freeCases (addr : ω) (start : UInt32) : Parts → Gen σ ω Unit
  | [] => pure ()
  | p :: payloads => do
    block b 0 do
      if ownsMemory? p then free? p addr start
    freeCases addr start payloads

end

end Gen

end CanonicalAbi
