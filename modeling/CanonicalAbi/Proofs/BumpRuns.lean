import CanonicalAbi.Proofs.Accounts
import CanonicalAbi.Proofs.Layouts

/-!
# Runs of a bump allocator

What a bump allocator hands out over any sequence of requests. Each block lies in the range of the
allocator, at a multiple of its alignment and behind all blocks before it, and the counters add up.
-/

namespace CanonicalAbi

open List

/-- What is asked of an allocator. -/
inductive AllocatorRequest where
  | alloc (size align : UInt32)
  | free (ptr size align : UInt32)

def effectiveAlign (align : UInt32) : UInt32 := if align = 0 then 1 else align

/-- The alignment that a block is asked with is zero or a power of two. -/
def AllocatorRequest.Aligned : AllocatorRequest → Prop
  | alloc _ align => align = 0 ∨ ∃ k < 32, align = .ofNat (2 ^ k)
  | free _ _ _ => True

/-- The alignment that a block is asked with is at most `most`. -/
def AllocatorRequest.AlignedWithin (most : Nat) : AllocatorRequest → Prop
  | alloc _ align => (effectiveAlign align).toNat ≤ most
  | free _ _ _ => True

variable {size : UInt32}

theorem exists_pow_of_aligned {align : UInt32}
    (h : (AllocatorRequest.alloc size align).Aligned) :
    ∃ k < 32, effectiveAlign align = .ofNat (2 ^ k) := by
  rcases h with rfl | ⟨k, hk, rfl⟩
  · exact ⟨0, by omega, rfl⟩
  · refine ⟨k, hk, if_neg fun zero => ?_⟩
    have power := toNat_pow hk
    rw [zero, UInt32.toNat_zero] at power
    exact absurd power.symm (Nat.two_pow_pos k).ne'

/-! ## Rounding up to the end of all addresses -/

theorem roundUp_le_of_dvd {n align m : Nat} (pos : 0 < align) (le : n ≤ m) (dvd : align ∣ m) :
    roundUp n align ≤ m := (isLeast_roundUp n pos).2 ⟨dvd, le⟩

theorem roundUp_lt_add (n : Nat) {align : Nat} (pos : 0 < align) :
    roundUp n align < n + align := by
  have := Nat.div_mul_le_self (n + align - 1) align
  rw [roundUp]
  omega

theorem alignUp_cases (next : UInt32) {k : Nat} (hk : k < 32) :
    (roundUp next.toNat (2 ^ k) = 2 ^ 32 ∧ (alignUp next (.ofNat (2 ^ k))).toNat = 0)
      ∨ (roundUp next.toNat (2 ^ k) < 2 ^ 32
        ∧ (alignUp next (.ofNat (2 ^ k))).toNat = roundUp next.toNat (2 ^ k)) := by
  have most : roundUp next.toNat (2 ^ k) ≤ 2 ^ 32 :=
    roundUp_le_of_dvd (Nat.two_pow_pos k) next.toNat_lt.le (pow_dvd_pow 2 hk.le)
  rw [alignUp_pow_toNat next hk]
  rcases most.eq_or_lt with top | below
  · exact .inl ⟨top, by rw [top, Nat.mod_self]⟩
  · exact .inr ⟨below, Nat.mod_eq_of_lt below⟩

namespace Bump

/-! ## Requests -/

def after (b : Bump) : AllocatorRequest → Bump
  | .alloc size align => (b.alloc size align).2
  | .free ptr _ _ => b.free ptr

/-- The block that a request is answered with, if it asks for one and is not refused. -/
def answer (b : Bump) : AllocatorRequest → Option Allocation
  | .alloc size align =>
    (b.alloc size align).1.toOption.map fun ptr => ⟨ptr, size, effectiveAlign align⟩
  | .free _ _ _ => none

def afterAll (b : Bump) : List AllocatorRequest → Bump
  | [] => b
  | r :: rs => (b.after r).afterAll rs

/-- The blocks that a sequence of requests is answered with, in order. -/
def answers (b : Bump) : List AllocatorRequest → List Allocation
  | [] => []
  | r :: rs => (b.answer r).toList ++ (b.after r).answers rs

def NeverNull (b : Bump) (requests : List AllocatorRequest) : Prop :=
  ∀ block ∈ b.answers requests, block.ptr ≠ 0

theorem afterAll_append (b : Bump) (rs rs' : List AllocatorRequest) :
    b.afterAll (rs ++ rs') = (b.afterAll rs).afterAll rs' := by
  induction rs generalizing b with
  | nil => rfl
  | cons r rs ih => exact ih (b.after r)

theorem answers_append (b : Bump) (rs rs' : List AllocatorRequest) :
    b.answers (rs ++ rs') = b.answers rs ++ (b.afterAll rs).answers rs' := by
  induction rs generalizing b with
  | nil => rfl
  | cons r rs ih => rw [cons_append, answers, answers, afterAll, ih, append_assoc]

theorem NeverNull.split {b : Bump} {rs rs' : List AllocatorRequest} (h : b.NeverNull (rs ++ rs')) :
    b.NeverNull rs ∧ (b.afterAll rs).NeverNull rs' := by
  rw [NeverNull, answers_append] at h
  exact ⟨fun block mem => h block (mem_append_left _ mem),
    fun block mem => h block (mem_append_right _ mem)⟩

theorem alloc_cases (b : Bump) (size align : UInt32) :
    (b.limit.toNat < (alignUp b.next (effectiveAlign align)).toNat + size.toNat
        ∧ b.alloc size align = (.error (.allocationFailed .eval size (effectiveAlign align)), b))
      ∨ ∃ ptr, ptr = alignUp b.next (effectiveAlign align)
        ∧ ptr.toNat + size.toNat ≤ b.limit.toNat
        ∧ b.alloc size align = (.ok ptr, { b with
            next := ptr + size
            blocks := if size = 0 then b.blocks
              else ⟨ptr, size, effectiveAlign align⟩ :: b.blocks.filter (·.ptr ≠ ptr) }) := by
  have unfolded : b.alloc size align
      = if b.limit.toNat < (alignUp b.next (effectiveAlign align)).toNat + size.toNat then
          (.error (.allocationFailed .eval size (effectiveAlign align)), b)
        else if size = 0 then (.ok (alignUp b.next (effectiveAlign align)),
          { b with next := alignUp b.next (effectiveAlign align) })
        else (.ok (alignUp b.next (effectiveAlign align)), { b with
          next := alignUp b.next (effectiveAlign align) + size
          blocks := ⟨alignUp b.next (effectiveAlign align), size, effectiveAlign align⟩
            :: b.blocks.filter (·.ptr ≠ alignUp b.next (effectiveAlign align)) }) := rfl
  rw [unfolded]
  by_cases refused : b.limit.toNat < (alignUp b.next (effectiveAlign align)).toNat + size.toNat
  · exact .inl ⟨refused, if_pos refused⟩
  · refine .inr ⟨_, rfl, by omega, ?_⟩
    rw [if_neg refused]
    by_cases empty : size = 0
    · subst empty
      rw [if_pos rfl, if_pos rfl, UInt32.add_zero]
    · rw [if_neg empty, if_neg empty]

theorem free_eq (b : Bump) (ptr : UInt32) :
    b.free ptr = { b with
      blocks := b.blocks.filter (·.ptr ≠ ptr)
      freed := b.freed + if ∃ a ∈ b.blocks, a.ptr = ptr then 1 else 0 } := by
  by_cases used : ∃ a ∈ b.blocks, a.ptr = ptr
  · rw [free, if_pos (by simpa using used), if_pos used]
  · have kept : b.blocks.filter (·.ptr ≠ ptr) = b.blocks := by
      refine filter_eq_self.mpr fun a ha => ?_
      simpa using fun same => used ⟨a, ha, same⟩
    rw [free, if_neg (by simpa using used), if_neg used, kept]
    rfl

/-! ## The invariant -/

def start (base : UInt32) : Nat := if base = 0 then 8 else base.toNat

/-- An allocator that begins at `first` and ends at `limit`, after it handed out the blocks `given`,
those of size zero left out. -/
structure Handed (first : Nat) (limit : UInt32) (b : Bump) (given : List Allocation) : Prop where
  limit_eq : b.limit = limit
  first_le : first ≤ b.next.toNat
  before : ∀ a ∈ given, a.ptr.toNat + a.size.toNat ≤ b.next.toNat
  within : ∀ a ∈ given, a.size ≠ 0 ∧ a.align.toNat ∣ a.ptr.toNat ∧ first ≤ a.ptr.toNat
    ∧ a.ptr.toNat + a.size.toNat ≤ limit.toNat
  apart : given.Pairwise fun a a' => a.ptr.toNat + a.size.toNat ≤ a'.ptr.toNat
  remembered : ∀ a ∈ b.blocks, a ∈ given
  distinct : (b.blocks.map (·.ptr)).Nodup
  counted : b.blocks.length + b.freed = given.length

section Steps

variable {first : Nat} {limit : UInt32} {b : Bump} {given : List Allocation}

theorem handed_ofRange (base limit : UInt32) :
    Handed (start base) limit (ofRange base limit) [] where
  limit_eq := rfl
  first_le := by
    simp only [start, ofRange]
    split <;> simp
  before := nofun
  within := nofun
  apart := .nil
  remembered := nofun
  distinct := .nil
  counted := rfl

theorem length_filter_ptr {blocks : List Allocation} (h : (blocks.map (·.ptr)).Nodup)
    (ptr : UInt32) :
    (blocks.filter (·.ptr ≠ ptr)).length + (if ∃ a ∈ blocks, a.ptr = ptr then 1 else 0)
      = blocks.length := by
  induction blocks with
  | nil => rfl
  | cons a blocks ih =>
    obtain ⟨fresh, rest⟩ := nodup_cons.mp h
    by_cases same : a.ptr = ptr
    · subst same
      have others : ∀ a' ∈ blocks, a'.ptr ≠ a.ptr := fun a' ha' e =>
        fresh (mem_map.mpr ⟨a', ha', e⟩)
      have kept : blocks.filter (·.ptr ≠ a.ptr) = blocks :=
        filter_eq_self.mpr fun a' ha' => by simpa using others a' ha'
      rw [filter_cons_of_neg (by simp), kept, if_pos ⟨a, mem_cons_self, rfl⟩,
        length_cons]
    · have there : (∃ a' ∈ a :: blocks, a'.ptr = ptr) ↔ ∃ a' ∈ blocks, a'.ptr = ptr := by
        simp [same]
      have counted := ih rest
      rw [filter_cons_of_pos (by simpa using same), length_cons, length_cons]
      simp only [there]
      omega

theorem Handed.free (h : Handed first limit b given) (ptr : UInt32) :
    Handed first limit (b.free ptr) given := by
  rw [free_eq]
  refine ⟨h.limit_eq, h.first_le, h.before, h.within, h.apart, ?_, ?_, ?_⟩
  · exact fun a ha => h.remembered a (mem_of_mem_filter ha)
  · exact h.distinct.sublist (filter_sublist.map _)
  · have counted := h.counted
    have filtered := length_filter_ptr h.distinct ptr
    simp only
    omega

theorem Handed.alloc (h : Handed first limit b given) {align : UInt32} {block : Allocation}
    (aligned : (AllocatorRequest.alloc size align).Aligned)
    (answered : b.answer (.alloc size align) = some block) (nonnull : block.ptr ≠ 0) :
    b.next.toNat ≤ (b.after (.alloc size align)).next.toNat
      ∧ Handed first limit (b.after (.alloc size align)) (given ++ solid [block]) := by
  obtain ⟨k, hk, power⟩ := exists_pow_of_aligned aligned
  have pos := Nat.two_pow_pos k
  rw [answer] at answered
  rw [after]
  rcases b.alloc_cases size align with ⟨_, refused⟩ | ⟨ptr, hptr, inside, granted⟩
  · rw [refused] at answered
    cases answered
  rw [granted] at answered ⊢
  cases answered
  rw [power] at hptr ⊢
  have rounded : ptr.toNat = roundUp b.next.toNat (2 ^ k) := by
    rcases alignUp_cases b.next hk with ⟨_, null⟩ | ⟨_, exact⟩
    · exact absurd (UInt32.toNat.inj (hptr ▸ null)) nonnull
    · rw [hptr, exact]
  have behind : b.next.toNat ≤ ptr.toNat := rounded ▸ le_roundUp _ pos
  have dvd : 2 ^ k ∣ ptr.toNat := rounded ▸ dvd_roundUp _ _
  have limit_lt := b.limit.toNat_lt
  have sum : (ptr + size).toNat = ptr.toNat + size.toNat := by
    rw [UInt32.toNat_add, Nat.mod_eq_of_lt (by omega)]
  have first_le := h.first_le
  refine ⟨by simp only [sum]; omega, ?_⟩
  by_cases empty : size = 0
  · subst empty
    have none : solid [(⟨ptr, 0, .ofNat (2 ^ k)⟩ : Allocation)] = [] := rfl
    rw [if_pos rfl, none, append_nil]
    refine ⟨h.limit_eq, by simp only [sum]; omega, fun a ha => ?_, h.within, h.apart, h.remembered,
      h.distinct, h.counted⟩
    have before := h.before a ha
    simp only [sum]
    omega
  · have one : solid [(⟨ptr, size, .ofNat (2 ^ k)⟩ : Allocation)]
      = [⟨ptr, size, .ofNat (2 ^ k)⟩] := by
      simp [solid, empty]
    -- No block in use begins where this one does, so none is forgotten.
    have fresh : ∀ a ∈ b.blocks, a.ptr ≠ ptr := by
      intro a ha same
      have mem := h.remembered a ha
      have before := h.before a mem
      have solid : 0 < a.size.toNat :=
        Nat.pos_of_ne_zero fun zero => (h.within a mem).1 (UInt32.toNat.inj zero)
      rw [same] at before
      omega
    have kept : b.blocks.filter (·.ptr ≠ ptr) = b.blocks :=
      filter_eq_self.mpr fun a ha => by simpa using fresh a ha
    rw [if_neg empty, one, kept]
    refine ⟨h.limit_eq, by simp only [sum]; omega, ?_, ?_, ?_, ?_, ?_, ?_⟩
    · refine forall_mem_append.mpr ⟨fun a ha => ?_, forall_mem_singleton.mpr ?_⟩
      · have before := h.before a ha
        simp only [sum]
        omega
      · simp only [sum]
        exact Nat.le_refl _
    · refine forall_mem_append.mpr ⟨h.within, forall_mem_singleton.mpr ?_⟩
      refine ⟨empty, ?_, ?_, ?_⟩
      · rwa [toNat_pow hk]
      · exact Nat.le_trans first_le behind
      · rw [← h.limit_eq]
        exact inside
    · refine pairwise_append.mpr ⟨h.apart, pairwise_singleton _ _, fun a ha a' ha' => ?_⟩
      rw [mem_singleton.mp ha']
      exact Nat.le_trans (h.before a ha) behind
    · refine forall_mem_cons.mpr ⟨?_, fun a ha => ?_⟩
      · exact mem_append_right _ mem_cons_self
      · exact mem_append_left _ (h.remembered a ha)
    · refine nodup_cons.mpr ⟨?_, h.distinct⟩
      rintro mem
      obtain ⟨a, ha, same⟩ := mem_map.mp mem
      exact fresh a ha same
    · have counted := h.counted
      simp only [length_cons, length_append, length_nil]
      omega

theorem Handed.step (h : Handed first limit b given) {r : AllocatorRequest} (aligned : r.Aligned)
    (nonnull : ∀ block, b.answer r = some block → block.ptr ≠ 0) :
    b.next.toNat ≤ (b.after r).next.toNat
      ∧ Handed first limit (b.after r) (given ++ solid (b.answer r).toList) := by
  cases r with
  | free ptr size align =>
    refine ⟨?_, ?_⟩
    · rw [after, free_eq]
    · exact (append_nil given).symm ▸ h.free ptr
  | alloc size align =>
    cases answered : b.answer (.alloc size align) with
    | some block => exact h.alloc aligned answered (nonnull block answered)
    | none =>
      rcases b.alloc_cases size align with ⟨_, refused⟩ | ⟨ptr, _, _, granted⟩
      · rw [after, refused, Option.toList_none]
        exact ⟨Nat.le_refl _, (append_nil given).symm ▸ h⟩
      · rw [answer, granted] at answered
        cases answered

variable {requests : List AllocatorRequest}

theorem Handed.run (h : Handed first limit b given)
    (aligned : ∀ r ∈ requests, r.Aligned) (nonnull : b.NeverNull requests) :
    b.next.toNat ≤ (b.afterAll requests).next.toNat
      ∧ Handed first limit (b.afterAll requests) (given ++ solid (b.answers requests)) := by
  induction requests generalizing b given with
  | nil => exact ⟨Nat.le_refl _, (append_nil given).symm ▸ h⟩
  | cons r rs ih =>
    have nonnull_r : ∀ block, b.answer r = some block → block.ptr ≠ 0 := fun block answered =>
      nonnull block (mem_append_left _ (by rw [answered]; exact mem_cons_self))
    obtain ⟨grown, handed⟩ := h.step (aligned r mem_cons_self) nonnull_r
    obtain ⟨grown', handed'⟩ := ih handed (tail_parts aligned)
      fun block mem => nonnull block (mem_append_right _ mem)
    refine ⟨Nat.le_trans grown grown', ?_⟩
    rw [answers, solid_append, ← append_assoc]
    exact handed'

/-- A block at zero is handed out if and only if rounding up wraps around and the block would fit
there. -/
theorem answers_null_iff (positive : 0 < b.next.toNat) {align : UInt32}
    (aligned : (AllocatorRequest.alloc size align).Aligned) :
    (b.alloc size align).1 = .ok 0
      ↔ 2 ^ 32 ≤ roundUp b.next.toNat (effectiveAlign align).toNat
        ∧ size.toNat ≤ b.limit.toNat := by
  obtain ⟨k, hk, power⟩ := exists_pow_of_aligned aligned
  have behind := le_roundUp b.next.toNat (Nat.two_pow_pos k)
  have rounded := alignUp_cases b.next hk
  have cases := b.alloc_cases size align
  rw [power] at cases ⊢
  rw [toNat_pow hk]
  rcases cases with ⟨outside, refused⟩ | ⟨ptr, rfl, inside, granted⟩
  · rw [refused]
    refine ⟨nofun, fun ⟨wraps, fits⟩ => ?_⟩
    omega
  · rw [granted]
    constructor
    · intro null
      have zero : (alignUp b.next (.ofNat (2 ^ k))).toNat = 0 :=
        congrArg UInt32.toNat (Except.ok.inj null)
      omega
    · rintro ⟨wraps, fits⟩
      have zero : (alignUp b.next (.ofNat (2 ^ k))).toNat = 0 := by omega
      exact congrArg Except.ok (UInt32.toNat.inj zero)

theorem neverNull_of_room {most : Nat} (room : b.next.toNat + most ≤ 2 ^ 32)
    (room' : b.limit.toNat + most ≤ 2 ^ 32) (positive : 0 < b.next.toNat)
    (aligned : ∀ r ∈ requests, r.Aligned)
    (within : ∀ r ∈ requests, r.AlignedWithin most) : b.NeverNull requests := by
  induction requests generalizing b with
  | nil => exact nofun
  | cons r rs ih =>
    obtain ⟨aligned_r, aligned_rs⟩ := forall_mem_cons.mp aligned
    obtain ⟨within_r, within_rs⟩ := forall_mem_cons.mp within
    cases r with
    | free ptr size align =>
      refine ih ?_ ?_ ?_ aligned_rs within_rs <;> rw [after, free_eq] <;> assumption
    | alloc size align =>
      obtain ⟨k, hk, power⟩ := exists_pow_of_aligned aligned_r
      have pos := Nat.two_pow_pos k
      rw [AllocatorRequest.AlignedWithin, power, toNat_pow hk] at within_r
      have behind := le_roundUp b.next.toNat pos
      have near := roundUp_lt_add b.next.toNat pos
      have rounded := alignUp_cases b.next hk
      rw [NeverNull, answers, answer, after]
      have cases := b.alloc_cases size align
      rw [power] at cases ⊢
      rcases cases with ⟨_, refused⟩ | ⟨ptr, rfl, inside, granted⟩
      · rw [refused]
        exact ih room room' positive aligned_rs within_rs
      · rw [granted]
        have sum : (alignUp b.next (.ofNat (2 ^ k)) + size).toNat
            = (alignUp b.next (.ofNat (2 ^ k))).toNat + size.toNat := by
          rw [UInt32.toNat_add, Nat.mod_eq_of_lt (by have := b.limit.toNat_lt; omega)]
        refine forall_mem_cons.mpr ⟨fun null => ?_, ?_⟩
        · have zero : (alignUp b.next (.ofNat (2 ^ k))).toNat = 0 := congrArg UInt32.toNat null
          omega
        · refine ih (b := { b with next := _, blocks := _ }) ?_ room' ?_ aligned_rs within_rs <;>
            simp only [sum] <;> omega

end Steps

/-! ## Whole runs -/

/-- What the answers of a bump allocator to any requests have in common. -/
structure Orderly (base limit : UInt32) (requests : List AllocatorRequest) : Prop where
  /-- Every block lies in the range, not at zero and at a multiple of its alignment. -/
  placed : ∀ block ∈ solid ((ofRange base limit).answers requests), block.ptr ≠ 0
    ∧ block.align.toNat ∣ block.ptr.toNat ∧ start base ≤ block.ptr.toNat
    ∧ block.ptr.toNat + block.size.toNat ≤ limit.toNat
  /-- Every block lies behind all blocks before it, whether they were taken back or not. -/
  apart : (solid ((ofRange base limit).answers requests)).Pairwise fun a a' =>
    a.ptr.toNat + a.size.toNat ≤ a'.ptr.toNat
  refused : ∀ size align e,
    (((ofRange base limit).afterAll requests).alloc size align).1 = .error e →
    (((ofRange base limit).afterAll requests).alloc size align).2
      = (ofRange base limit).afterAll requests
  grows : ∀ n, ((ofRange base limit).afterAll (requests.take n)).used
    ≤ ((ofRange base limit).afterAll requests).used
  counted : ((ofRange base limit).afterAll requests).live
    + ((ofRange base limit).afterAll requests).freed
      = (solid ((ofRange base limit).answers requests)).length

end Bump

open Bump in
/-- A bump allocator is orderly as long as it hands out no block at zero. It hands one out when
rounding up the beginning of the unused memory wraps around and the size is within the limit, and
only then. With room for the largest alignment behind its range this never happens. -/
theorem bump_orderly_until_null (base limit : UInt32) {requests : List AllocatorRequest}
    (aligned : ∀ r ∈ requests, r.Aligned) :
    ((ofRange base limit).NeverNull requests → Orderly base limit requests
      ∧ ∀ size align, (AllocatorRequest.alloc size align).Aligned →
        ((((ofRange base limit).afterAll requests).alloc size align).1 = .ok 0
          ↔ 2 ^ 32 ≤ roundUp ((ofRange base limit).afterAll requests).used.toNat
              (effectiveAlign align).toNat ∧ size.toNat ≤ limit.toNat))
    ∧ ∀ most, start base + most ≤ 2 ^ 32 → limit.toNat + most ≤ 2 ^ 32 →
      (∀ r ∈ requests, r.AlignedWithin most) → (ofRange base limit).NeverNull requests := by
  have begins := handed_ofRange base limit
  have positive : 0 < start base := by
    rw [start]
    split
    · decide
    · next nonzero => exact Nat.pos_of_ne_zero fun zero => nonzero (UInt32.toNat.inj zero)
  refine ⟨fun nonnull => ?_, fun most room room' within => ?_⟩
  · obtain ⟨_, handed⟩ := begins.run aligned nonnull
    rw [List.nil_append] at handed
    refine ⟨⟨fun block mem => ?_, handed.apart, fun size align e failed => ?_, fun n => ?_,
      handed.counted⟩, fun size align aligned' => ?_⟩
    · obtain ⟨_, dvd, first_le, inside⟩ := handed.within block mem
      exact ⟨nonnull block (mem_solid.mp mem).1, dvd, first_le, inside⟩
    · rcases alloc_cases _ size align with ⟨_, refused⟩ | ⟨ptr, _, _, granted⟩
      · rw [refused]
      · rw [granted] at failed
        cases failed
    · rw [← List.take_append_drop n requests] at aligned nonnull
      obtain ⟨nonnull1, nonnull2⟩ := nonnull.split
      obtain ⟨aligned1, aligned2⟩ := List.forall_mem_append.mp aligned
      obtain ⟨grown, _⟩ := (begins.run aligned1 nonnull1).2.run aligned2 nonnull2
      rw [← afterAll_append, List.take_append_drop] at grown
      exact UInt32.le_iff_toNat_le.mpr grown
    · have null := answers_null_iff (b := (ofRange base limit).afterAll requests)
        (Nat.lt_of_lt_of_le positive handed.first_le) aligned'
      rwa [handed.limit_eq] at null
  · have next : (ofRange base limit).next.toNat = start base := by
      rw [start, ofRange]
      split <;> rfl
    exact neverNull_of_room (next ▸ room) room' (next ▸ positive) aligned within

namespace BumpRuns

/-- Two blocks of which the first is given back, and one that is refused. -/
def requests : List AllocatorRequest := [.alloc 5 1, .alloc 8 8, .free 8 5 1, .alloc 64 4]

def large : List AllocatorRequest := [.alloc 4294967281 1]

end BumpRuns

open Bump BumpRuns in
/-- Two blocks lie behind each other in 64 bytes. With all addresses in range, a block that ends
seven bytes before 2^32 is followed by one at zero, which overlaps it. -/
theorem bump_orderly_until_null_near_end :
    (Orderly 0 64 requests ∧ solid ((ofRange 0 64).answers requests) = [⟨8, 5, 1⟩, ⟨16, 8, 8⟩])
    ∧ (ofRange 0 4294967295).NeverNull large
    ∧ (((ofRange 0 4294967295).afterAll large).alloc 16 8).1 = .ok 0
    ∧ ((((ofRange 0 4294967295).afterAll large).alloc 16 8).2.used
      < ((ofRange 0 4294967295).afterAll large).used) := by
  have aligned : ∀ r ∈ requests, r.Aligned := by
    simp only [requests, List.forall_mem_cons, AllocatorRequest.Aligned]
    exact ⟨.inr ⟨0, by decide, rfl⟩, .inr ⟨3, by decide, rfl⟩, trivial, .inr ⟨2, by decide, rfl⟩,
      nofun⟩
  have aligned' : ∀ r ∈ large, r.Aligned := by
    simp only [large, List.forall_mem_cons, AllocatorRequest.Aligned]
    exact ⟨.inr ⟨0, by decide, rfl⟩, nofun⟩
  have nonnull : (ofRange 0 4294967295).NeverNull large := by
    rw [NeverNull]
    decide
  have orderly := (bump_orderly_until_null 0 64 aligned).1
    ((bump_orderly_until_null 0 64 aligned).2 8 (by decide) (by decide) (by
      simp only [requests, List.forall_mem_cons, AllocatorRequest.AlignedWithin]
      exact ⟨by decide, by decide, trivial, by decide, nofun⟩))
  have null := (bump_orderly_until_null 0 4294967295 aligned').1 nonnull
  refine ⟨⟨orderly.1, by decide⟩, nonnull,
    (null.2 16 8 (.inr ⟨3, by decide, rfl⟩)).mpr ?_, by decide⟩
  decide

end CanonicalAbi
