import CanonicalAbi.Failure
import CanonicalAbi.Layout.Align

/-!
# Linear memory

A fixed number of bytes. Integers are stored with the lowest byte first.
-/

namespace CanonicalAbi

/-- A linear memory. -/
structure Memory where
  bytes : Array UInt8

namespace Memory

def zeros (size : Nat) : Memory := ⟨Array.replicate size 0⟩

def size (m : Memory) : Nat := m.bytes.size

def covers (m : Memory) (offset : UInt32) (length : Nat) : Bool :=
  decide (offset.toNat + length ≤ m.size)

def slice (m : Memory) (start length : Nat) : List UInt8 :=
  (m.bytes.extract start (start + length)).toList

def splice (m : Memory) (start : Nat) : List UInt8 → Memory
  | [] => m
  | b :: bs => splice ⟨m.bytes.setIfInBounds start b⟩ (start + 1) bs

def read (m : Memory) (offset length : UInt32) : Except Failure (List UInt8) :=
  if m.covers offset length.toNat then .ok (m.slice offset.toNat length.toNat)
  else .error (.outOfBounds .eval [] offset length)

def write (m : Memory) (offset : UInt32) (data : List UInt8) : Except Failure Memory :=
  if m.covers offset data.length then .ok (m.splice offset.toNat data)
  else .error (.outOfBounds .eval [] offset (.ofNat data.length))

def toNumber : List UInt8 → UInt64
  | [] => 0
  | b :: bs => b.toUInt64 ||| (toNumber bs <<< 8)

def toBytes : Nat → UInt64 → List UInt8
  | 0, _ => []
  | count + 1, n => n.toUInt8 :: toBytes count (n >>> 8)

def load (m : Memory) (width : IntWidth) (offset : UInt32) : Except Failure UInt64 := do
  return toNumber (← m.read offset width.size)

def store (m : Memory) (width : IntWidth) (offset : UInt32) (value : UInt64) :
    Except Failure Memory :=
  m.write offset (toBytes width.size.toNat value)

/-- Puts the byte at an offset in front of the runs of changed bytes that follow it, if it changed.
-/
def addChange (before after : Memory) (offset : Nat) (runs : List (Nat × List UInt8)) :
    List (Nat × List UInt8) :=
  match before.bytes[offset]?, after.bytes[offset]?, runs with
  | old, some new, (start, data) :: rest =>
    if old = some new then runs
    else if start = offset + 1 then (offset, new :: data) :: rest
    else (offset, [new]) :: runs
  | old, some new, [] => if old = some new then [] else [(offset, [new])]
  | _, none, _ => runs

def changes (before after : Memory) : List (Nat × List UInt8) :=
  (List.range after.size).foldr (addChange before after) []

end Memory

end CanonicalAbi
