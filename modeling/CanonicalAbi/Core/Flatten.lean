import CanonicalAbi.Core.Type
import CanonicalAbi.Layout.Basic

/-!
# Flattening

The core types of a value that is passed by value, and the properties of a type that decide how
lists of it are moved and whether its values own memory.
-/

namespace CanonicalAbi

namespace Failure

def cannotFlatten : Failure := of .signature .invalidInput "cannot flatten <nil>"

end Failure

def Scalar.coreType : Scalar → CoreType
  | .bool | .s8 | .u8 | .s16 | .u16 | .s32 | .u32 | .char => .i32
  | .s64 | .u64 => .i64
  | .f32 => .f32
  | .f64 => .f64

def joinSlots : List CoreType → List CoreType → List CoreType
  | a :: as, b :: bs => a.join b :: joinSlots as bs
  | as, [] => as
  | [], bs => bs

/-- The core types of a sum whose payloads have the given ones: the case number and the shared
slots. -/
def flatSum (payloads : List (List CoreType)) : List CoreType :=
  .i32 :: payloads.foldl joinSlots []

mutual

/-- The core types that a value is passed as. -/
def Shape.flat : Shape → Except Failure (List CoreType)
  | .scalar s => .ok [s.coreType]
  | .string | .list _ _ => .ok [.i32, .i32]
  | .product _ _ fields => flatFields fields
  | .sum _ _ payloads => do return flatSum (← flatPayloads payloads)
  | .enum _ _ | .handle _ _ _ | .channel _ _ => .ok [.i32]
  | .flags _ count => .ok (List.replicate (FlagsStorage.ofCount count).lanes .i32)
  | .synonym _ target => flat? target
  | .resource l => .error (.bareResource .signature l.spelling.get)
  | .unfinished l => .error (.unknownKind .signature l.spelling.get)

def flat? : Option Shape → Except Failure (List CoreType)
  | none => .error .cannotFlatten
  | some s => s.flat

def flatFields : Parts → Except Failure (List CoreType)
  | [] => .ok []
  | f :: fs => do return (← flat? f) ++ (← flatFields fs)

def flatPayloads : Parts → Except Failure (List (List CoreType))
  | [] => .ok []
  | none :: ps => flatPayloads ps
  | some p :: ps => do return (← p.flat) :: (← flatPayloads ps)

end

def sumCasts (payloads : Parts) : Except Failure (List (List Bitcast)) := do
  let slots := (flatSum (← flatPayloads payloads)).tail
  payloads.mapM fun
    | none => .ok []
    | some p => do Bitcast.pairwise (← p.flat) slots

mutual

/-- Whether every bit pattern in the place of a value is a value, so that lists of the type can be
moved as bytes. -/
def Shape.isRaw : Shape → Bool
  | .scalar .bool | .scalar .char => false
  | .scalar _ => true
  | .product _ _ fields => areRaw fields
  | .synonym _ target => isRaw? target
  | _ => false

def isRaw? : Option Shape → Bool
  | none => false
  | some s => s.isRaw

def areRaw : Parts → Bool
  | [] => true
  | f :: fs => isRaw? f && areRaw fs

end

mutual

def Shape.ownsMemory : Shape → Bool
  | .string | .list _ _ => true
  | .product _ _ parts | .sum _ _ parts => anyOwnsMemory parts
  | .synonym _ target => ownsMemory? target
  | _ => false

def ownsMemory? : Option Shape → Bool
  | none => false
  | some s => s.ownsMemory

def anyOwnsMemory : Parts → Bool
  | [] => false
  | p :: ps => ownsMemory? p || anyOwnsMemory ps

end

end CanonicalAbi
