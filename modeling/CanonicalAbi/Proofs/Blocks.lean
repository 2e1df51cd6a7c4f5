import CanonicalAbi.Machine.World
import CanonicalAbi.Proofs.Extents

/-!
# Blocks of memory

What a bump allocator hands out: each block begins where the unused memory began, or a little later,
and ends where the unused memory begins afterwards.
-/

namespace CanonicalAbi

/-- The allocator refused. -/
inductive Failure.IsRefusal : Failure → Prop where
  | refused (size align : UInt32) : IsRefusal (.allocationFailed .eval size align)
  | wrapped {f : Failure} (phase : Phase) (kind : FailureKind) (detail : String) :
    f.IsRefusal → IsRefusal (.wrap phase kind (some f) detail)

/-! ## Bump allocation -/

/-- A bump allocator for a part of a memory of `size` bytes. Addresses are so small that rounding
one up does not wrap around. -/
structure Bump.Over (b : Bump) (size : Nat) : Prop where
  next_le : b.next.toNat ≤ 2 ^ 32 - 8
  limit_le : b.limit.toNat ≤ size
  size_le : size ≤ 2 ^ 32 - 8

/-- Where the unused memory begins, or the end if there is none. -/
def Bump.frontier (b : Bump) : Nat := min b.next.toNat b.limit.toNat

/-- What a bump allocator answers: a block at the beginning of the unused memory, or a refusal. -/
theorem Bump.Over.alloc_cases {b : Bump} {size : Nat} (h : b.Over size) (n : UInt32)
    {align : UInt32} (ha : IsAlignment align) :
    (∃ ptr b', b.alloc n align = (.ok ptr, b') ∧ b'.Over size ∧ b.frontier ≤ ptr.toNat
        ∧ ptr.toNat + n.toNat = b'.frontier)
      ∨ ∃ e, b.alloc n align = (.error e, b) ∧ e.IsRefusal := by
  have nonzero : align ≠ 0 := by
    rintro rfl
    exact absurd ha.pos (by decide)
  have le_eight := ha.le_eight
  have next_le := h.next_le
  have limit_le := h.limit_le
  have size_le := h.size_le
  have rounded : roundUp b.next.toNat align.toNat < 2 ^ 32 := by
    have := Nat.div_mul_le_self (b.next.toNat + align.toNat - 1) align.toNat
    rw [roundUp]
    omega
  have start := ha.alignUp_toNat rounded
  have after := le_roundUp b.next.toNat ha.pos
  simp only [Bump.alloc, Bump.frontier, if_neg nonzero]
  by_cases refused : b.limit.toNat < (alignUp b.next align).toNat + n.toNat
  · rw [if_pos refused]
    exact .inr ⟨_, rfl, .refused n align⟩
  · rw [if_neg refused]
    left
    by_cases hn : n = 0
    · subst hn
      simp only [UInt32.toNat_zero] at refused ⊢
      exact ⟨_, _, rfl, ⟨show (alignUp b.next align).toNat ≤ _ by omega, limit_le, size_le⟩,
        by omega, by simp only; omega⟩
    · rw [if_neg hn]
      have sum : (alignUp b.next align + n).toNat = (alignUp b.next align).toNat + n.toNat := by
        rw [UInt32.toNat_add, Nat.mod_eq_of_lt (by omega)]
      exact ⟨_, _, rfl, ⟨show (alignUp b.next align + n).toNat ≤ _ by omega, limit_le, size_le⟩,
        by omega, by simp only [sum]; omega⟩

theorem Bump.Over.free {b : Bump} {size : Nat} (h : b.Over size) (ptr : UInt32) :
    (b.free ptr).Over size := by
  rw [Bump.free]
  split
  · exact ⟨h.next_le, h.limit_le, h.size_le⟩
  · exact h

theorem Bump.frontier_free (b : Bump) (ptr : UInt32) : (b.free ptr).frontier = b.frontier := by
  rw [Bump.free]
  split <;> rfl

/-- An allocator that answers as a bump allocator does, which is part of its state. -/
class BumpLike (α : Type) extends Allocator α where
  bump : α → Bump
  alloc_bump : ∀ a size align,
    (bump a).alloc size align = ((alloc a size align).1, bump (alloc a size align).2)
  free_bump : ∀ a ptr size align, bump (free a ptr size align) = (bump a).free ptr

instance : BumpLike Bump where
  bump b := b
  alloc_bump _ _ _ := rfl
  free_bump _ _ _ _ := rfl

/-! ## Calls of an allocator -/

/-- A call of the allocator that it answered. -/
inductive AllocatorCall where
  | alloc (block : Allocation)
  | free (block : Allocation)

/-- The calls that give back some blocks; those of size zero are never given back. -/
def freeCalls (blocks : List Allocation) : List AllocatorCall :=
  (blocks.filter (·.size ≠ 0)).map .free

@[simp] theorem freeCalls_append (bs bs' : List Allocation) :
    freeCalls (bs ++ bs') = freeCalls bs ++ freeCalls bs' := by
  simp [freeCalls]

/-- The allocator answers the calls in order. -/
inductive Performs {α : Type} [Allocator α] : α → List AllocatorCall → α → Prop where
  | nil (a : α) : Performs a [] a
  | alloc {a a' a'' : α} {ptr size align : UInt32} {calls : List AllocatorCall} :
    Allocator.alloc a size align = (.ok ptr, a') → Performs a' calls a'' →
    Performs a (.alloc ⟨ptr, size, align⟩ :: calls) a''
  | free {a a' : α} {b : Allocation} {calls : List AllocatorCall} :
    Performs (Allocator.free a b.ptr b.size b.align) calls a' → Performs a (.free b :: calls) a'

theorem Performs.append {α : Type} [Allocator α] {a a' a'' : α} {calls calls' : List AllocatorCall}
    (h : Performs a calls a') (h' : Performs a' calls' a'') :
    Performs a (calls ++ calls') a'' := by
  induction h with
  | nil => exact h'
  | alloc hp _ ih => exact .alloc hp (ih h')
  | free _ ih => exact .free (ih h')

theorem performs_free {α : Type} [Allocator α] (blocks : AllocationList) (a : α) :
    Performs a (freeCalls blocks) (blocks.free a) := by
  induction blocks generalizing a with
  | nil => exact .nil a
  | cons b bs ih =>
    simp only [AllocationList.free, List.foldl_cons, freeCalls]
    by_cases hb : b.size = 0
    · rw [if_pos hb, List.filter_cons_of_neg (by simpa using hb)]
      exact ih a
    · rw [if_neg hb, List.filter_cons_of_pos (by simpa using hb)]
      exact .free (ih _)

theorem Performs.over_free {α : Type} [BumpLike α] {a a' : α} {blocks : List Allocation}
    {size : Nat} (h : Performs a (blocks.map .free) a') (ho : (BumpLike.bump a).Over size) :
    (BumpLike.bump a').Over size ∧ (BumpLike.bump a').frontier = (BumpLike.bump a).frontier := by
  induction blocks generalizing a with
  | nil =>
    cases h
    exact ⟨ho, rfl⟩
  | cons b bs ih =>
    cases h with
    | free h =>
      obtain ⟨bounds, frontier⟩ := ih h (BumpLike.free_bump a b.ptr b.size b.align ▸ ho.free b.ptr)
      rw [BumpLike.free_bump, Bump.frontier_free] at frontier
      exact ⟨bounds, frontier⟩

end CanonicalAbi
