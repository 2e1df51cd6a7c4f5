import CanonicalAbi.Proofs.Shapes

/-!
# Shared slots

The core types form a semilattice under `join`, in which every float lies below the integers that
can hold its bits.
-/

namespace CanonicalAbi

open Bitcast

namespace CoreType

theorem join_self (a : CoreType) : a.join a = a := by cases a <;> rfl

theorem join_comm (a b : CoreType) : a.join b = b.join a := by cases a <;> cases b <;> rfl

theorem join_assoc (a b c : CoreType) : (a.join b).join c = a.join (b.join c) := by
  cases a <;> cases b <;> cases c <;> rfl

theorem join_join_left (a b : CoreType) : a.join (a.join b) = a.join b := by
  rw [← join_assoc, join_self]

end CoreType

/-- Core types that fit into slots: there is a slot for each, and its type is above. -/
def FitSlots : List CoreType → List CoreType → Prop
  | [], _ => True
  | _ :: _, [] => False
  | a :: as, b :: bs => a.join b = b ∧ FitSlots as bs

namespace FitSlots

theorem refl (as : List CoreType) : FitSlots as as := by
  induction as with
  | nil => trivial
  | cons a as ih => exact ⟨a.join_self, ih⟩

theorem trans : {as bs cs : List CoreType} → FitSlots as bs → FitSlots bs cs → FitSlots as cs
  | [], _, _, _, _ => trivial
  | a :: as, b :: bs, c :: cs, h1, h2 => by
    refine ⟨?_, trans h1.2 h2.2⟩
    rw [← h2.1, ← CoreType.join_assoc, h1.1]

theorem length_le : {as bs : List CoreType} → FitSlots as bs → as.length ≤ bs.length
  | [], _, _ => Nat.zero_le _
  | _ :: _, _ :: _, h => Nat.succ_le_succ (length_le h.2)

theorem joinSlots_left (as bs : List CoreType) : FitSlots as (joinSlots as bs) := by
  induction as generalizing bs with
  | nil => trivial
  | cons a as ih =>
    cases bs with
    | nil => exact refl _
    | cons b bs => exact ⟨a.join_join_left b, ih bs⟩

theorem joinSlots_right (as bs : List CoreType) : FitSlots bs (joinSlots as bs) := by
  induction as generalizing bs with
  | nil => cases bs <;> exact refl _
  | cons a as ih =>
    cases bs with
    | nil => trivial
    | cons b bs =>
      refine ⟨?_, ih bs⟩
      rw [CoreType.join_comm a b, CoreType.join_join_left]

theorem foldl_init (payloads : List (List CoreType)) (init : List CoreType) :
    FitSlots init (payloads.foldl joinSlots init) := by
  induction payloads generalizing init with
  | nil => exact refl init
  | cons p ps ih => exact (joinSlots_left init p).trans (ih (joinSlots init p))

theorem foldl_mem {payloads : List (List CoreType)} {own : List CoreType} (h : own ∈ payloads)
    (init : List CoreType) : FitSlots own (payloads.foldl joinSlots init) := by
  induction payloads generalizing init with
  | nil => simp at h
  | cons p ps ih =>
    rcases List.mem_cons.mp h with rfl | h
    · exact (joinSlots_right init own).trans (foldl_init ps _)
    · exact ih h (joinSlots init p)

theorem of_mem {payloads : Parts} {p : Shape} (h : some p ∈ payloads) :
    FitSlots p.slots (flatSum (payloadSlots payloads)).tail :=
  foldl_mem (mem_payloadSlots h) []

end FitSlots

/-! ## Casts -/

def Bitcast.total (source target : CoreType) : Bitcast :=
  match between source target with
  | .ok cast => cast
  | .error _ => .none

def castsBetween (source target : List CoreType) : List Bitcast :=
  List.zipWith total source target

theorem Bitcast.between_up {a b : CoreType} (h : a.join b = b) :
    between a b = .ok (total a b) := by
  cases a <;> cases b <;> first | rfl | exact absurd h (by decide)

theorem Bitcast.between_down {a b : CoreType} (h : a.join b = b) :
    between b a = .ok (total b a) := by
  cases a <;> cases b <;> first | rfl | exact absurd h (by decide)

theorem pairwise_up : {own slots : List CoreType} → FitSlots own slots →
    pairwise own slots = .ok (castsBetween own slots)
  | [], _, _ => rfl
  | a :: as, b :: bs, h => by
    simp only [pairwise, between_up h.1, pairwise_up h.2]
    rfl

theorem pairwise_down : {own slots : List CoreType} → FitSlots own slots →
    pairwise (slots.take own.length) own
      = .ok (castsBetween (slots.take own.length) own)
  | [], _, _ => by simp [pairwise, castsBetween]
  | a :: as, b :: bs, h => by
    simp only [List.length_cons, List.take_succ_cons, pairwise, between_down h.1,
      pairwise_down h.2]
    rfl

theorem length_castsBetween_up {own slots : List CoreType} (h : FitSlots own slots) :
    (castsBetween own slots).length = own.length := by
  simp [castsBetween, h.length_le]

theorem length_castsBetween_down {own slots : List CoreType} (h : FitSlots own slots) :
    (castsBetween (slots.take own.length) own).length = own.length := by
  have := h.length_le
  simp only [castsBetween, List.length_zipWith, List.length_take]
  omega

end CanonicalAbi
