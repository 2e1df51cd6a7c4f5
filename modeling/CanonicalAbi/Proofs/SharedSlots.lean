import CanonicalAbi.Proofs.Encodings
import Mathlib.Data.List.Perm.Basic

/-!
# The slots of a sum

The payloads of a sum share the slots behind the case number. A slot has the join of the types that
payloads put there, in whatever order the cases stand, and a payload goes into its slots and comes
back out of them unchanged.
-/

namespace CanonicalAbi

open List

variable {payloads payloads' : Parts}

namespace CoreType

/-- The join of some core types, if there are any. -/
def joinAll : List CoreType → Option CoreType
  | [] => none
  | t :: ts => some (ts.foldl join t)

instance : Std.Commutative join := ⟨join_comm⟩

instance : Std.Associative join := ⟨join_assoc⟩

theorem foldl_merge_some (os : List (Option CoreType)) (t : CoreType) :
    os.foldl (Option.merge join) (some t) = some ((os.filterMap id).foldl join t) := by
  induction os generalizing t with
  | nil => rfl
  | cons o os ih => cases o <;> simp [ih]

theorem foldl_merge_none (os : List (Option CoreType)) :
    os.foldl (Option.merge join) none = joinAll (os.filterMap id) := by
  induction os with
  | nil => rfl
  | cons o os ih =>
    cases o with
    | none => simpa using ih
    | some t => simpa [joinAll] using foldl_merge_some os t

/-- A type and the type of a slot, with casts both ways: a value of the type becomes one of the
slot's type, and then again what it was. -/
def GoesThrough (own slot : CoreType) : Prop :=
  ∃ up down, Bitcast.between own slot = .ok up ∧ Bitcast.between slot own = .ok down
    ∧ ∀ x, own.Holds x → slot.Holds (up.apply x) ∧ down.apply (up.apply x) = x

theorem GoesThrough.of_join {own slot : CoreType} (h : own.join slot = slot) :
    own.GoesThrough slot :=
  ⟨_, _, Bitcast.between_up h, Bitcast.between_down h, fun _ hx =>
    ⟨Bitcast.holds_up h hx, Bitcast.down_up h hx⟩⟩

end CoreType

theorem FitSlots.goesThrough : {own slots : List CoreType} → FitSlots own slots →
    Forall₂ CoreType.GoesThrough own (slots.take own.length)
  | [], _, _ => .nil
  | _ :: _, _ :: _, h => .cons (.of_join h.1) h.2.goesThrough

/-! ## Slot by slot -/

theorem getElem?_joinSlots (as bs : List CoreType) (j : Nat) :
    (joinSlots as bs)[j]? = Option.merge CoreType.join as[j]? bs[j]? := by
  fun_induction joinSlots as bs generalizing j with
  | case1 a as b bs ih => cases j <;> simp [ih]
  | case2 as => simp
  | case3 bs => simp

theorem getElem?_foldl_joinSlots (flats : List (List CoreType)) (init : List CoreType) (j : Nat) :
    (flats.foldl joinSlots init)[j]?
      = (flats.map (·[j]?)).foldl (Option.merge CoreType.join) init[j]? := by
  induction flats generalizing init with
  | nil => rfl
  | cons own flats ih => rw [foldl_cons, ih, getElem?_joinSlots, map_cons, foldl_cons]

/-! ## Payloads that have core types -/

/-- The core types of a payload that has some. -/
def ownTypes (p : Option Shape) : List CoreType := (flat? p).toOption.getD []

def sharedSlots (payloads : Parts) : List CoreType :=
  (payloads.map ownTypes).foldl joinSlots []

theorem getElem?_sharedSlots (payloads : Parts) (j : Nat) : (sharedSlots payloads)[j]?
      = CoreType.joinAll (payloads.filterMap fun p => (ownTypes p)[j]?) := by
  rw [sharedSlots, getElem?_foldl_joinSlots, map_map, getElem?_nil, CoreType.foldl_merge_none,
    filterMap_map]
  rfl

theorem sharedSlots_perm (h : payloads.Perm payloads') :
    sharedSlots payloads = sharedSlots payloads' := ext_getElem? fun j => by
  rw [sharedSlots, sharedSlots, getElem?_foldl_joinSlots, getElem?_foldl_joinSlots]
  exact ((h.map _).map _).foldl_eq _

theorem fitSlots_shared {p : Option Shape} (h : p ∈ payloads) :
    FitSlots (ownTypes p) (sharedSlots payloads) :=
  .foldl_mem (mem_map_of_mem h) []

theorem mapM_eq_ok {α β : Type} {f : α → Except Failure β} {g : α → β} {xs : List α}
    (h : ∀ x ∈ xs, f x = .ok (g x)) : xs.mapM f = .ok (xs.map g) := by
  induction xs with
  | nil => rfl
  | cons x xs ih =>
    rw [mapM_cons, h x mem_cons_self, ih fun x hx => h x (mem_cons_of_mem _ hx)]
    rfl

/-- Whether each payload has core types. -/
def FlatPayloads (payloads : Parts) : Prop :=
  ∀ p, some p ∈ payloads → ∃ own, p.flat = .ok own

namespace FlatPayloads

theorem flat_eq (h : FlatPayloads payloads) {p : Shape} (hp : some p ∈ payloads) :
    p.flat = .ok (ownTypes (some p)) := by
  obtain ⟨own, flat⟩ := h p hp
  rw [ownTypes, flat?, flat]
  rfl

theorem flatSum_eq (h : FlatPayloads payloads) :
    ∃ flats, flatPayloads payloads = .ok flats ∧ flatSum flats = .i32 :: sharedSlots payloads := by
  -- a case without payload adds no slots, so the fold may as well go through all cases
  suffices ∀ init, ∃ flats, flatPayloads payloads = .ok flats
      ∧ flats.foldl joinSlots init = (payloads.map ownTypes).foldl joinSlots init by
    obtain ⟨flats, ok, same⟩ := this []
    exact ⟨flats, ok, congrArg (CoreType.i32 :: ·) same⟩
  induction payloads with
  | nil => exact fun _ => ⟨[], rfl, rfl⟩
  | cons p ps ih =>
    intro init
    obtain ⟨flats, ok, same⟩ := ih (tail_parts h) (joinSlots init (ownTypes p))
    cases p with
    | none =>
      have unchanged : joinSlots init (ownTypes none) = init := by cases init <;> rfl
      exact ⟨flats, ok, by rw [map_cons, foldl_cons, ← same, unchanged]⟩
    | some p =>
      refine ⟨ownTypes (some p) :: flats, ?_, same⟩
      rw [flatPayloads, h.flat_eq mem_cons_self, ok]
      rfl

theorem flat_sum_eq (h : FlatPayloads payloads) (l : Label) (form : SumForm) :
    (Shape.sum l form payloads).flat = .ok (.i32 :: sharedSlots payloads) := by
  obtain ⟨flats, ok, slots⟩ := h.flatSum_eq
  rw [Shape.flat, ok, ← slots]
  rfl

theorem sumCasts_eq (h : FlatPayloads payloads) : sumCasts payloads
      = .ok (payloads.map fun p => castsBetween (ownTypes p) (sharedSlots payloads)) := by
  obtain ⟨flats, ok, slots⟩ := h.flatSum_eq
  rw [sumCasts, ok]
  change payloads.mapM _ = _
  rw [slots]
  refine mapM_eq_ok fun p hp => ?_
  cases p with
  | none => rfl
  | some p =>
    dsimp only
    rw [h.flat_eq hp]
    exact pairwise_up (fitSlots_shared hp)

end FlatPayloads

/-- The payloads of a sum share its slots. Behind the case number, slot `j` has the join of the
types that payloads have at `j`, and so the slots are the same for any order of the cases. Casts
lead from each type of a payload to the type of its slot and back: a core value of the one becomes a
core value of the other, and then again the value it was. -/
theorem payloads_share_slots (h : FlatPayloads payloads) (l : Label) (form : SumForm) :
    ∃ slots : List CoreType, (Shape.sum l form payloads).flat = .ok (.i32 :: slots)
      ∧ (∀ j : Nat, slots[j]? = CoreType.joinAll (payloads.filterMap fun p => (ownTypes p)[j]?))
      ∧ (∀ payloads', payloads.Perm payloads' →
          (Shape.sum l form payloads').flat = .ok (.i32 :: slots))
      ∧ (∃ casts, sumCasts payloads = .ok casts
          ∧ Forall₂ (fun p cs => Bitcast.pairwise (ownTypes p) slots = .ok cs) payloads casts)
      ∧ ∀ p own, some p ∈ payloads → p.flat = .ok own →
          Forall₂ CoreType.GoesThrough own (slots.take own.length) := by
  refine ⟨sharedSlots payloads, h.flat_sum_eq l form, getElem?_sharedSlots payloads,
    fun payloads' perm => ?_, ⟨_, h.sumCasts_eq, ?_⟩, fun p own hp flat => ?_⟩
  · rw [sharedSlots_perm perm]
    exact FlatPayloads.flat_sum_eq (fun p hp => h p (perm.mem_iff.mpr hp)) l form
  · rw [forall₂_map_right_iff, forall₂_same]
    exact fun p hp => pairwise_up (fitSlots_shared hp)
  · obtain rfl := Except.ok.inj ((h.flat_eq hp).symm.trans flat)
    exact (fitSlots_shared hp).goesThrough

/-- The payloads of a reading: a name, nothing, a point in the plane or a count. -/
def readingPayloads : Parts :=
  [some .string, none,
    some (.product ⟨0, "point"⟩ .tuple [some (.scalar .f32), some (.scalar .f64)]),
    some (.scalar .u64)]

theorem payloads_share_slots_reading :
    FlatPayloads readingPayloads
    ∧ (Shape.sum ⟨1, "reading"⟩ .variant readingPayloads).flat = .ok [.i32, .i64, .i64]
    ∧ (Shape.sum ⟨1, "reading"⟩ .variant readingPayloads.reverse).flat = .ok [.i32, .i64, .i64]
    ∧ Forall₂ CoreType.GoesThrough [.f32, .f64] [.i64, .i64] := by
  have flat : FlatPayloads readingPayloads := by
    simp only [FlatPayloads, readingPayloads, mem_cons, not_mem_nil]
    rintro p (e | e | e | e | e) <;> cases e <;> exact ⟨_, rfl⟩
  obtain ⟨slots, sum, _, perm, _, through⟩ := payloads_share_slots flat ⟨1, "reading"⟩ .variant
  obtain rfl : [.i64, .i64] = slots := (cons.inj (Except.ok.inj sum)).2
  exact ⟨flat, sum, perm _ (reverse_perm _).symm,
    through (.product ⟨0, "point"⟩ .tuple [some (.scalar .f32), some (.scalar .f64)]) _
      (by simp [readingPayloads]) rfl⟩

end CanonicalAbi
