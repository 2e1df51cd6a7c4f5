/-!
# Widths and alignment

Offsets and sizes are unsigned 32-bit numbers, and arithmetic on them is modulo 2^32.
-/

namespace CanonicalAbi

/-- The widths of integers in memory. -/
inductive IntWidth where
  | u8
  | u16
  | u32
  | u64
  deriving DecidableEq, Repr

namespace IntWidth

def size : IntWidth → UInt32
  | u8 => 1
  | u16 => 2
  | u32 => 4
  | u64 => 8

def align (w : IntWidth) : UInt32 := w.size

def name : IntWidth → String
  | u8 => "u8"
  | u16 => "u16"
  | u32 => "u32"
  | u64 => "u64"

def ofNumber : Nat → IntWidth
  | 0 => u8
  | 1 => u16
  | 2 => u32
  | _ => u64

end IntWidth

/-- The offset rounded up to a multiple of the alignment, for an alignment that is a power of two.
Alignment zero means no alignment. -/
def alignUp (offset align : UInt32) : UInt32 :=
  if align = 0 then offset else (offset + align - 1) &&& ~~~(align - 1)

/-- The narrowest integer that numbers the given count of cases. -/
def tagWidth (cases : Nat) : IntWidth :=
  if cases ≤ 256 then .u8 else if cases ≤ 65536 then .u16 else .u32

/-- How a set of flags is stored: a number of equal integers. -/
structure FlagsStorage where
  unit : IntWidth
  count : Int
  deriving DecidableEq, Repr

namespace FlagsStorage

/-- The storage of a number of flags: none, one small integer, or as many of 32 bits as needed. -/
def ofCount (flags : Nat) : FlagsStorage :=
  if flags = 0 then ⟨.u32, 0⟩
  else if flags ≤ 8 then ⟨.u8, 1⟩
  else if flags ≤ 16 then ⟨.u16, 1⟩
  else ⟨.u32, ((flags + 31) / 32 : Nat)⟩

/-- The storage for a number of flags that is given as a signed 64-bit integer, with the arithmetic
of such integers: a negative number counts as a small one, and rounding up wraps around. -/
def ofInt (flags : Int) : FlagsStorage :=
  if flags = 0 then ⟨.u32, 0⟩
  else if flags ≤ 8 then ⟨.u8, 1⟩
  else if flags ≤ 16 then ⟨.u16, 1⟩
  else ⟨.u32, (Int.bmod (flags + 31) UInt64.size).tdiv 32⟩

def lanes (s : FlagsStorage) : Nat := s.count.toNat

def size (s : FlagsStorage) : UInt32 := s.unit.size * UInt32.ofInt s.count

def align (s : FlagsStorage) : UInt32 := if s.count = 0 then 1 else s.unit.align

end FlagsStorage

end CanonicalAbi
