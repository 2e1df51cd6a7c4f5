import CanonicalAbi.Machine.Value
import CanonicalAbi.Stream.Instr

/-!
# Scalars and flags as core values

A value of 32 bits or less sits in the low half of a core value with zeros above it.
-/

namespace CanonicalAbi

namespace Bitcast

/-- A core value under a cast. Going from 64 to 32 bits drops the high half; all other casts keep
the bits, since narrow values have zeros there. -/
def apply : Bitcast → UInt64 → UInt64
  | i64ToI32, v | i64ToF32, v => v.toUInt32.toUInt64
  | _, v => v

end Bitcast

namespace Failure

def invalidChar (c : UInt32) : Failure :=
  report { phase := .eval, kind := .invalidData, type := "char",
           detail := "invalid scalar value 0x" ++ Text.hex 0 c.toNat } none

end Failure

namespace Scalar

def lowerValue (s : Scalar) (v : Value) : Except Failure Value :=
  match s, v with
  | .bool, .bool b => .ok (.u64 (if b then 1 else 0))
  | .char, .s32 n | .s32, .s32 n => .ok (.ofI32 n)
  | .u8, .u8 n => .ok (.u64 n.toUInt64)
  | .s8, .s8 n => .ok (.ofI32 n.toInt32)
  | .u16, .u16 n => .ok (.u64 n.toUInt64)
  | .s16, .s16 n => .ok (.ofI32 n.toInt32)
  | .u32, .u32 n => .ok (.ofU32 n)
  | .u64, .u64 n => .ok (.u64 n)
  | .s64, .s64 n => .ok (.u64 n.toUInt64)
  | .f32, .f32 bits => .ok (.ofU32 bits)
  | .f64, .f64 bits => .ok (.u64 bits)
  | s, v => .error (v.mismatch (Instr.lowerName s))

def liftValue (s : Scalar) (n : UInt64) : Except Failure Value :=
  match s with
  | .bool => .ok (.bool (n.toUInt32 != 0))
  | .char =>
    let c := n.toUInt32
    if c.toNat.isValidChar then .ok (.s32 c.toInt32) else .error (.invalidChar c)
  | .u8 => .ok (.u8 n.toUInt8)
  | .s8 => .ok (.s8 n.toUInt8.toInt8)
  | .u16 => .ok (.u16 n.toUInt16)
  | .s16 => .ok (.s16 n.toUInt16.toInt16)
  | .u32 => .ok (.u32 n.toUInt32)
  | .s32 => .ok (.s32 n.toUInt32.toInt32)
  | .u64 => .ok (.u64 n)
  | .s64 => .ok (.s64 n.toInt64)
  | .f32 => .ok (.f32 n.toUInt32)
  | .f64 => .ok (.f64 n)

end Scalar

def packFlags : List Bool → UInt32
  | [] => 0
  | f :: fs => (if f then (1 : UInt32) else 0) ||| (packFlags fs <<< 1)

def flagLanes (flags : List Bool) : Nat → List UInt32
  | 0 => []
  | lanes + 1 => packFlags (flags.take 32) :: flagLanes (flags.drop 32) lanes

def laneFlag (lanes : List UInt32) (k : Nat) : Bool :=
  ((lanes.getD (k / 32) 0) >>> UInt32.ofNat (k % 32)) &&& 1 != 0

def laneFlags (lanes : List UInt32) (count : Nat) : List Bool :=
  (List.range count).map (laneFlag lanes)

end CanonicalAbi
