import CanonicalAbi.Failure
import CanonicalAbi.Interface.Spelling

/-!
# Core types

Across the boundary every value is a sequence of core values of four types.
-/

namespace CanonicalAbi

/-- The types of core values. -/
inductive CoreType where
  | i32
  | i64
  | f32
  | f64
  deriving DecidableEq, Repr

namespace CoreType

def name : CoreType → String
  | i32 => "i32"
  | i64 => "i64"
  | f32 => "f32"
  | f64 => "f64"

def nameOfCode (code : Nat) : String :=
  match code with
  | 0x7f => i32.name
  | 0x7e => i64.name
  | 0x7d => f32.name
  | 0x7c => f64.name
  | 0x6f => "externref"
  | _ => "unknown"

/-- The type of a slot that holds values of both types. -/
def join (a b : CoreType) : CoreType :=
  if a = b then a
  else match a, b with
    | i32, f32 | f32, i32 => i32
    | _, _ => i64

end CoreType

def bracketed (names : List String) : String := "[" ++ commas names ++ "]"

def showTypes (ts : List CoreType) : String := bracketed (ts.map CoreType.name)

/-- A change of the type of a core value that keeps its bits. -/
inductive Bitcast where
  | none
  | i32ToF32
  | f32ToI32
  | i32ToI64
  | i64ToI32
  | f32ToI64
  | i64ToF32
  | f64ToI64
  | i64ToF64
  deriving DecidableEq, Repr

namespace Bitcast

def name : Bitcast → String
  | none => "none"
  | i32ToF32 => "i32->f32"
  | f32ToI32 => "f32->i32"
  | i32ToI64 => "i32->i64"
  | i64ToI32 => "i64->i32"
  | f32ToI64 => "f32->i64"
  | i64ToF32 => "i64->f32"
  | f64ToI64 => "f64->i64"
  | i64ToF64 => "i64->f64"

def all : List Bitcast :=
  [none, i32ToF32, f32ToI32, i32ToI64, i64ToI32, f32ToI64, i64ToF32, f64ToI64, i64ToF64]

def nameOfNumber (n : Nat) : String := (all[n]?.map name).getD "unknown"

def between (source target : CoreType) : Except Failure Bitcast :=
  match source, target with
  | .i32, .i32 | .i64, .i64 | .f32, .f32 | .f64, .f64 => .ok none
  | .i32, .i64 => .ok i32ToI64
  | .f32, .i32 => .ok f32ToI32
  | .f64, .i64 => .ok f64ToI64
  | .i64, .i32 => .ok i64ToI32
  | .i32, .f32 => .ok i32ToF32
  | .i64, .f64 => .ok i64ToF64
  | .f32, .i64 => .ok f32ToI64
  | .i64, .f32 => .ok i64ToF32
  | _, _ => .error (.of .signature .invalidInput
      ("no bitcast from " ++ source.name ++ " to " ++ target.name))

def pairwise : List CoreType → List CoreType → Except Failure (List Bitcast)
  | s :: ss, t :: ts => do return (← between s t) :: (← pairwise ss ts)
  | _, _ => .ok []

end Bitcast

end CanonicalAbi
