import CanonicalAbi.Proofs.Halves

/-!
# Ownership of memory

Whatever a call takes from the allocator is given back once, as it was taken. For an import this is
so when the call is over.
-/

namespace CanonicalAbi

/-! ## Ledgers -/

/-- A bump allocator that notes its calls. -/
structure Ledger where
  bump : Bump
  calls : List AllocatorCall := []

namespace Ledger

def alloc (a : Ledger) (size align : UInt32) : Except Failure UInt32 × Ledger :=
  match a.bump.alloc size align with
  | (.ok ptr, bump) => (.ok ptr, ⟨bump, .alloc ⟨ptr, size, align⟩ :: a.calls⟩)
  | (.error e, bump) => (.error e, ⟨bump, a.calls⟩)

def free (a : Ledger) (ptr size align : UInt32) : Ledger :=
  ⟨a.bump.free ptr, .free ⟨ptr, size, align⟩ :: a.calls⟩

instance : BumpLike Ledger where
  alloc := alloc
  free := free
  bump := bump
  alloc_bump a size align := by
    simp only [alloc]
    rcases a.bump.alloc size align with ⟨_ | _, _⟩ <;> rfl
  free_bump _ _ _ _ := rfl

theorem calls_of_performs {a a' : Ledger} {calls : List AllocatorCall}
    (h : Performs a calls a') : a'.calls = calls.reverse ++ a.calls := by
  induction h with
  | nil => rfl
  | @alloc a a1 a2 ptr size align calls handed _ ih =>
    have entered : a1.calls = .alloc ⟨ptr, size, align⟩ :: a.calls := by
      have handed : a.alloc size align = (.ok ptr, a1) := handed
      rw [alloc] at handed
      split at handed
      · obtain ⟨hptr, rfl⟩ := Prod.mk.inj handed
        cases hptr
        rfl
      · cases (Prod.mk.inj handed).1
    rw [ih, entered, List.reverse_cons, List.append_assoc]
    rfl
  | free _ ih =>
    rw [ih, List.reverse_cons, List.append_assoc]
    rfl

/-- Blocks in use according to the ledger, of those that own memory. There is no answer if a block
was given back that was not in use, or one of size zero. -/
def inUse (a : Ledger) : Option (List Allocation) := (outstanding [] a.calls.reverse).map solid

end Ledger

theorem World.Balances.inUse {w w' : World Ledger} {bump : Bump} {left : List Allocation}
    (h : w.Balances [] w' left) (hw : w.allocator = some ⟨bump, []⟩) :
    ∃ a used, w'.allocator = some a ∧ a.inUse = some used ∧ used.Perm (solid left) := by
  obtain ⟨calls, ⟨a, a', ha, ha', performs⟩, used, ho, hleft⟩ := h
  rw [hw] at ha
  cases ha
  refine ⟨a', solid used, ha', ?_, hleft⟩
  rw [Ledger.inUse, Ledger.calls_of_performs performs, List.append_nil, List.reverse_reverse, ho]
  rfl

/-! ## Calls -/

theorem FunctionShape.eq_of_perm_returnBlocks {f : FunctionShape} {dir : Direction}
    {returned : List UInt64} {used : List Allocation}
    (h : used.Perm (solid (f.returnBlocks dir returned))) :
    used = solid (f.returnBlocks dir returned) := by
  have few : (solid (f.returnBlocks dir returned)).length ≤ 1 := by
    refine Nat.le_trans (List.length_filter_le _ _) ?_
    rw [returnBlocks]
    split <;> simp
  cases hs : solid (f.returnBlocks dir returned) with
  | nil => exact (hs ▸ h).eq_nil
  | cons b rest =>
    have alone : rest = [] := by
      rw [hs, List.length_cons] at few
      exact List.eq_nil_of_length_eq_zero (by omega)
    rw [hs, alone] at h
    rw [alone]
    exact List.perm_singleton.mp h

/-- Whatever a call takes from the allocator is given back once, with the pointer, the size and the
alignment that it was taken with, and nothing else is given back. When an import is over no block
that owns memory is in use. After an export the function that frees its results succeeds, and then
only the area is in use in which they were returned. -/
theorem allocations_settled {raw : RawRule}
    (bytes : ∀ elem, raw elem = true → Program.isByte elem = true) {g : Graph} (acyclic : g.Acyclic)
    {f : Function} (valid : validate g (some f) = []) (fits : (g.shapes.function f).Fits)
    {w : World Ledger} {bump : Bump} (allocator : w.allocator = some ⟨bump, []⟩)
    (bounds : bump.Over w.memory.size) {args : List Value}
    (typed : FieldsAdmit raw none (g.shapes.function f).params args)
    {impl : FunctionShape → List Value → Action Ledger (List Value)}
    (served : ∀ ws w₁ rs w₂, runFrom (impl (g.shapes.function f) ws) w₁ = (.ok rs, w₂) →
      w₂.memory = w₁.memory ∧ w₂.allocator = w₁.allocator
        ∧ FieldsAdmit raw none (g.shapes.function f).results rs) :
    (∀ results w',
      runFrom (callThrough .imported raw (.ofGraph g (some f)) (some impl) args) w
        = (.ok results, w') →
      ∃ a, w'.allocator = some a ∧ a.inUse = some [])
    ∧ ∀ results w',
      runFrom (callThrough .exported raw (.ofGraph g (some f)) (some impl) args) w
        = (.ok results, w') →
      ∃ returned freed w'' a, w'.crossing.returned = some returned
        ∧ runFrom (freeResults raw (.ofGraph g (some f)) returned) w' = (.ok freed, w'')
        ∧ w''.allocator = some a
        ∧ a.inUse = some (solid ((g.shapes.function f).returnBlocks .exported returned)) := by
  have serves : Serves raw none 0 (g.shapes.function f) impl (Value.receivedAll none args) := by
    intro ws _ w₁
    rw [Does]
    rcases ran : runFrom (impl (g.shapes.function f) ws) w₁ with ⟨e | rs, w₂⟩
    · exact fun strict => absurd strict (by decide)
    · obtain ⟨memory, allocator, admits⟩ := served ws w₁ rs w₂ ran
      exact ⟨memory, allocator, fun strict => absurd strict (by decide), admits,
        fun strict => absurd strict (by decide)⟩
  have passes : w.Passes none [] (Value.handlesAll args + 0) := fun _ h => absurd h (by simp)
  have unasked : (none : Option HandleTable).isSome = true →
      AllBorrowless (g.shapes.function f).results := fun strict => absurd strict (by decide)
  have calls (dir : Direction) := callThrough_does bytes acyclic valid fits dir unasked typed serves
    ⟨_, allocator, bounds⟩ passes
  constructor
  · intro results w' ran
    obtain ⟨area, rs, returned, o, _, completed⟩ := (calls .imported).elim_ok ran
    obtain ⟨a, used, ha, inUse, perm⟩ := (completed.balances []).inUse allocator
    obtain rfl := perm.eq_nil
    exact ⟨a, ha, inUse⟩
  · intro results w' ran
    obtain ⟨area, rs, returned, o, _, completed⟩ := (calls .exported).elim_ok ran
    have frees := freeResults_does (E := fun _ => False) acyclic valid completed.ready
      completed.passed
    rw [Does] at frees
    revert frees
    rcases freed : runFrom (freeResults raw (.ofGraph g (some f)) returned) w' with ⟨e | vs, w''⟩
    · exact False.elim
    · intro balances
      have called := completed.balances []
      rw [if_pos rfl, List.append_assoc, List.append_nil, List.append_nil] at called
      obtain ⟨a, used, ha, inUse, perm⟩ := (called.trans (balances _)).inUse allocator
      rw [FunctionShape.eq_of_perm_returnBlocks perm] at inUse
      exact ⟨returned, vs, w'', a, completed.kept, freed, ha, inUse⟩

/-- Letters that go into a postbox and come out of it leave only the area in use that the second one
was returned in. -/
theorem allocations_settled_postbox :
    let w : World Ledger :=
      { memory := .zeros 256, allocator := some ⟨.ofRange 0 256, []⟩, table := some .empty }
    ∃ results w' returned freed w'' a,
      runFrom (callThrough .exported Program.isByte Postbox.subject
        (some Postbox.answer) Postbox.args) w = (.ok results, w')
      ∧ w'.crossing.returned = some returned
      ∧ runFrom (freeResults Program.isByte Postbox.subject returned) w'
        = (.ok freed, w'')
      ∧ w''.allocator = some a
      ∧ a.inUse = some (solid
        ((Postbox.graph.shapes.function Postbox.swap).returnBlocks .exported returned)) := by
  intro w
  have served (ws : List Value) (w1 : World Ledger) (rs : List Value) (w2 : World Ledger)
      (ran : runFrom (Postbox.answer (Postbox.graph.shapes.function Postbox.swap) ws) w1
        = (.ok rs, w2)) :
      w2.memory = w1.memory ∧ w2.allocator = w1.allocator
        ∧ FieldsAdmit Program.isByte none (Postbox.graph.shapes.function Postbox.swap).results
          rs := by
    cases ran
    exact ⟨rfl, rfl, Postbox.admits_letter _⟩
  have settled := allocations_settled (fun _ h => h) Postbox.acyclic Postbox.validate_swap
    Postbox.fits_swap (w := w) rfl Postbox.over_start (Postbox.admits_args _) served
  have enough : (runFrom (callThrough .exported Program.isByte
      Postbox.subject (some Postbox.answer) Postbox.args) w).1.isOk
        = true := by
    decide +kernel
  rcases ran : runFrom (callThrough .exported Program.isByte
    Postbox.subject (some Postbox.answer) Postbox.args) w with
    ⟨e | results, w'⟩
  · rw [ran] at enough
    cases enough
  · obtain ⟨returned, freed, w'', a, outcome⟩ := settled.2 results w' ran
    exact ⟨results, w', returned, freed, w'', a, rfl, outcome⟩

end CanonicalAbi
