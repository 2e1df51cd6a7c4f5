import CanonicalAbi.Failure
import CanonicalAbi.Interface.Graph

/-!
# Values

The values of the interface as a running program holds them.
-/

namespace CanonicalAbi

/-- Values of the interface and core values. Floats are given by their bits, and texts by their
bytes, which need not be well formed. -/
inductive Value where
  | nothing
  | bool (b : Bool)
  | s8 (n : Int8)
  | u8 (n : UInt8)
  | s16 (n : Int16)
  | u16 (n : UInt16)
  | s32 (n : Int32)
  | u32 (n : UInt32)
  | s64 (n : Int64)
  | u64 (n : UInt64)
  | f32 (bits : UInt32)
  | f64 (bits : UInt64)
  | string (bytes : List UInt8)
  | bytes (bytes : List UInt8)
  | flags (flags : List Bool)
  | list (elems : List Value)
  | case (index : UInt32) (payload : Value)
  | own (rep : UInt32)
  /-- A borrowed resource by its representation, or, if `lender` is not zero, as a loan of the owned
  handle `lender`. -/
  | borrow (rep lender : UInt32)

namespace Value

def typeName : Value → String
  | nothing => "<nil>"
  | bool _ => "bool"
  | s8 _ => "int8"
  | u8 _ => "uint8"
  | s16 _ => "int16"
  | u16 _ => "uint16"
  | s32 _ => "int32"
  | u32 _ => "uint32"
  | s64 _ => "int64"
  | u64 _ => "uint64"
  | f32 _ => "float32"
  | f64 _ => "float64"
  | string _ => "string"
  | bytes _ => "[]uint8"
  | flags _ => "[]bool"
  | list _ => "[]interface \x7b\x7d"
  | case _ _ => "eval.Case"
  | own _ => "eval.Own"
  | borrow _ _ => "eval.Borrow"

def mismatch (want : String) (v : Value) : Failure := .typeMismatch .eval [] want v.typeName

def core : Value → UInt64
  | u64 n => n
  | _ => 0

def ofU32 (n : UInt32) : Value := u64 n.toUInt64

def ofI32 (n : Int32) : Value := u64 n.toUInt32.toUInt64

def ofCore (flat : List UInt64) : List Value := flat.map u64

def toCore : List Value → Except Failure (List UInt64)
  | [] => .ok []
  | u64 n :: vs => do return n :: (← toCore vs)
  | v :: _ => .error (v.mismatch "core value")

end Value

end CanonicalAbi
