import CanonicalAbi.Failure
import CanonicalAbi.Layout.Align

/-!
# Allocators

An allocator hands out blocks of linear memory and takes them back.
-/

namespace CanonicalAbi

/-- A type whose values are states of an allocator. -/
class Allocator (α : Type) where
  alloc : α → UInt32 → UInt32 → Except Failure UInt32 × α
  free : α → UInt32 → UInt32 → UInt32 → α

/-- A block of memory as it was asked for. -/
structure Allocation where
  ptr : UInt32
  size : UInt32
  align : UInt32
  deriving DecidableEq, Repr

/-! ## Bump allocation -/

/-- An allocator that hands out memory from `next` up to `limit` and reuses none. -/
structure Bump where
  blocks : List Allocation := []
  next : UInt32
  limit : UInt32
  freed : Nat := 0
  deriving DecidableEq, Repr

namespace Bump

/-- An allocator for the memory from `base` up to `limit`; base zero stands for eight, so that no
block begins at zero. -/
def ofRange (base limit : UInt32) : Bump := { next := if base = 0 then 8 else base, limit }

def alloc (b : Bump) (size align : UInt32) : Except Failure UInt32 × Bump :=
  let align := if align = 0 then 1 else align
  let ptr := alignUp b.next align
  if b.limit.toNat < ptr.toNat + size.toNat then
    (.error (.allocationFailed .eval size align), b)
  else if size = 0 then (.ok ptr, { b with next := ptr })
  else (.ok ptr, { b with
    next := ptr + size
    blocks := ⟨ptr, size, align⟩ :: b.blocks.filter (·.ptr ≠ ptr) })

def free (b : Bump) (ptr : UInt32) : Bump :=
  if b.blocks.any (·.ptr = ptr) then
    { b with blocks := b.blocks.filter (·.ptr ≠ ptr), freed := b.freed + 1 }
  else b

def live (b : Bump) : Nat := b.blocks.length

def used (b : Bump) : UInt32 := b.next

instance : Allocator Bump where
  alloc := alloc
  free b ptr _ _ := b.free ptr

/-- The guest's allocator function, served by a bump allocator: with a new size of zero it takes
back the old block, otherwise it hands out a new one. -/
def realloc (oldPtr oldSize align newSize : UInt32) (b : Bump) : Except Failure UInt32 × Bump :=
  if newSize = 0 ∧ oldSize ≠ 0 then (.ok 0, b.free oldPtr) else b.alloc newSize align

def serve : List UInt64 → Bump → Except Failure (List UInt64) × Bump
  | [ptr, size, align, newSize], b =>
    let (result, b) := b.realloc ptr.toUInt32 size.toUInt32 align.toUInt32 newSize.toUInt32
    (result.map fun p => [p.toUInt64], b)
  | _, b => (.ok [], b)

end Bump

/-! ## Allocation by the guest -/

/-- An allocator that calls a function of the guest with the old pointer, the old size, the
alignment and the new size. -/
structure Realloc (γ : Type) where
  call : List UInt64 → γ → Except Failure (List UInt64) × γ
  guest : γ

namespace Realloc

variable {γ : Type}

def alloc (r : Realloc γ) (size align : UInt32) : Except Failure UInt32 × Realloc γ :=
  let (result, guest) := r.call [0, 0, align.toUInt64, size.toUInt64] r.guest
  (match result with
    | .error cause => .error (.wrap .eval .allocation (some cause)
        ("cabi_realloc(" ++ toString size ++ ", " ++ toString align ++ ")"))
    | .ok [] => .error (.allocationFailed .eval size align)
    | .ok (ptr :: _) => .ok ptr.toUInt32,
   { r with guest })

/-- Gives a block back by asking for it to shrink to nothing; whether that works is not looked at.
-/
def free (r : Realloc γ) (ptr size align : UInt32) : Realloc γ :=
  { r with guest := (r.call [ptr.toUInt64, size.toUInt64, align.toUInt64, 0] r.guest).2 }

instance : Allocator (Realloc γ) where
  alloc := alloc
  free := free

end Realloc

instance {α β : Type} [Allocator α] [Allocator β] : Allocator (α ⊕ β) where
  alloc
    | .inl a, size, align => (Allocator.alloc a size align).map id .inl
    | .inr b, size, align => (Allocator.alloc b size align).map id .inr
  free
    | .inl a, ptr, size, align => .inl (Allocator.free a ptr size align)
    | .inr b, ptr, size, align => .inr (Allocator.free b ptr size align)

/-! ## Blocks that are freed together -/

/-- Blocks in the order in which they are given back. -/
abbrev AllocationList := List Allocation

namespace AllocationList

def add (blocks : AllocationList) (ptr size align : UInt32) : AllocationList :=
  blocks ++ [⟨ptr, size, align⟩]

def free {α : Type} [Allocator α] (blocks : AllocationList) (a : α) : α :=
  blocks.foldl (fun a b => if b.size = 0 then a else Allocator.free a b.ptr b.size b.align) a

def reset (_ : AllocationList) : AllocationList := []

/-- Gives the blocks back and empties the list. Without an allocator they stay in it. -/
def release {α : Type} [Allocator α] (blocks : AllocationList) :
    Option α → AllocationList × Option α
  | none => (blocks, none)
  | some a => (blocks.reset, some (blocks.free a))

end AllocationList

end CanonicalAbi
