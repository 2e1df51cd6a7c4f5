import CanonicalAbi.Proofs.TableRuns

/-!
# Borrows in a table

A run makes entries, takes owned ones out and looks resources up; it ends borrows only when it is
over.
-/

namespace CanonicalAbi

variable {r : Except Failure (Option Handle)} {c : TableCommand}

namespace TableCommand

def lends : TableCommand → Bool
  | addBorrowed _ _ | lend _ _ => true
  | _ => false

def inRun : TableCommand → Bool
  | addOwned _ _ | addBorrowed _ _ | lend _ _ | rep _ _ | take _ _ => true
  | _ => false

end TableCommand

namespace HandleTable

variable {t t' : HandleTable} {h : Handle} {e : HandleEntry}

def BorrowsKept (t t' : HandleTable) : Prop :=
  ∀ h e, t.get? h = some e → e.owned = false → t'.get? h = some e

theorem Joined.borrowsKept (joined : t.Joined h e t')
    (lender : ∀ l, t.get? e.lender = some l → l.owned = true) : t.BorrowsKept t' := by
  intro h' e' he' borrowed
  have ne : h' ≠ h := by
    rintro rfl
    rw [joined.fresh] at he'
    cases he'
  have other : h' ≠ e.lender := by
    rintro rfl
    have owned := lender e' he'
    rw [borrowed] at owned
    cases owned
  rw [joined.others h' ne, he', Option.map_some, if_neg other]

theorem Released.borrow_kept (released : t.Released h e t') (ht : t.Consistent)
    (he : t.get? h = some e) {h' : Handle} {e' : HandleEntry} (ne : h' ≠ h)
    (he' : t.get? h' = some e') (borrowed : e'.owned = false) : t'.get? h' = some e' := by
  have other : h' ≠ e.lender := by
    rintro rfl
    have nonzero := (le_size_of_get? he').1
    cases owned : e.owned with
    | true => exact nonzero (ht.owner h e he owned).1
    | false =>
      obtain ⟨l, hl, lowned, _⟩ := (ht.borrow h e he owned).2 nonzero
      rw [he'] at hl
      cases hl
      rw [borrowed] at lowned
      cases lowned
  rw [released.others h' ne, he', Option.map_some, if_neg other]

theorem BorrowsKept.refl (t : HandleTable) : t.BorrowsKept t := fun _ _ he _ => he

theorem eq_of_rep {resource : Option Label}
    (ran : runFrom (TableCommand.rep h resource).perform t = (r, t')) : t' = t := by
  rw [TableCommand.perform, runFrom_bind, TableOp.rep, runFrom_bind] at ran
  rcases TableOp.lookup_cases t h resource with ⟨e, _, _, found⟩ | ⟨f, failed, _⟩
  · rw [found] at ran
    cases ran
    rfl
  · rw [failed] at ran
    cases ran
    rfl

theorem Consistent.joined_lend (ht : t.Consistent) (lends : c.lends = true)
    (ran : runFrom c.perform t = (.ok (some h), t')) (few : t'.entries.size < 2 ^ 32) :
    ∃ e, e.owned = false ∧ t.Joined h e t'
      ∧ ∀ l, t.get? e.lender = some l → l.owned = true := by
  cases perform_move ht.cleared c ran with
  | @added _ e _ _ _ lenderless command run =>
    refine ⟨e, ?_, (ht.toNumbered.insert run few).joined lenderless, fun l hl => ?_⟩
    · cases owned : e.owned with
      | false => rfl
      | true =>
        rw [command, owned] at lends
        cases lends
    · rw [lenderless, get?_zero] at hl
      cases hl
  | lent hl owned run =>
    refine ⟨_, rfl, ht.joined_lent hl run few, fun l' hl' => ?_⟩
    rw [hl] at hl'
    cases hl'
    exact owned

theorem Consistent.borrowsKept (ht : t.Consistent) (own : c.inRun = true)
    (ran : runFrom c.perform t = (r, t')) (few : t'.entries.size < 2 ^ 32) : t.BorrowsKept t' := by
  cases perform_move ht.cleared c ran with
  | refused _ => exact .refl t
  | looked _ _ => exact .refl t
  | added _ lenderless _ run =>
    refine ((ht.toNumbered.insert run few).joined lenderless).borrowsKept fun l hl => ?_
    rw [lenderless, get?_zero] at hl
    cases hl
  | lent hl owned run =>
    refine (ht.joined_lent hl run few).borrowsKept fun l' hl' => ?_
    rw [hl] at hl'
    cases hl'
    exact owned
  | @removed _ h e kind he removes =>
    have owned : e.owned = true := by
      cases c with
      | take _ _ => exact removes.2.1
      | drop _ => cases own
      | endBorrow _ => cases own
      | _ => exact removes.elim
    intro h' e' he' borrowed
    have ne : h' ≠ h := by
      rintro rfl
      rw [he] at he'
      cases he'
      rw [borrowed] at owned
      cases owned
    exact (ht.released he kind).borrow_kept ht he ne he' borrowed
  | _ => cases own

theorem size_le_of_insert {r : Except Failure Handle} {kind : HandleEventKind}
    (ran : runFrom (TableOp.insert e kind) t = (r, t')) : t.entries.size ≤ t'.entries.size := by
  cases closed : t.closed with
  | true =>
    simp only [TableOp.insert, runFrom_bind, runFrom_get, continueWith_ok, closed] at ran
    cases ran
    exact Nat.le_refl _
  | false =>
    cases freed : t.freed with
    | cons h rest =>
      rw [TableOp.insert_reusing closed freed] at ran
      cases ran
      exact Nat.le_of_eq (size_put t h _).symm
    | nil =>
      rw [TableOp.insert_growing closed freed] at ran
      cases ran
      change t.entries.size ≤ (t.entries.push (some e)).size
      rw [Array.size_push]
      omega

theorem size_le_of_inRun (own : c.inRun = true) (ran : runFrom c.perform t = (r, t')) :
    t.entries.size ≤ t'.entries.size := by
  have mapped : ∀ {op : TableOp Handle}, runFrom (some <$> op) t = (r, t') →
      ∃ r', runFrom op t = (r', t') := by
    intro op ran
    rw [runFrom_map] at ran
    revert ran
    rcases runFrom op t with ⟨f | h, t1⟩ <;> intro ran <;> cases ran <;> exact ⟨_, rfl⟩
  cases c with
  | addOwned resource rep =>
    obtain ⟨_, inserted⟩ := mapped ran
    exact size_le_of_insert inserted
  | addBorrowed resource rep =>
    obtain ⟨_, inserted⟩ := mapped ran
    exact size_le_of_insert inserted
  | lend o resource =>
    obtain ⟨_, lent⟩ := mapped ran
    rcases TableOp.lend_gated t o resource with ⟨l, _, _, counted⟩ | ⟨f, refused, _⟩
    · rw [counted] at lent
      have grown := size_le_of_insert lent
      rwa [size_put] at grown
    · rw [refused] at lent
      cases lent
      exact Nat.le_refl _
  | rep h resource => exact Nat.le_of_eq (by rw [eq_of_rep ran])
  | take h resource =>
    rw [TableCommand.perform] at ran
    rcases TableOp.take_gated t h resource with ⟨e, _, _, taken⟩ | ⟨f, failed, _⟩
    · rw [runFrom_bind_ok taken] at ran
      cases ran
      exact Nat.le_of_eq (size_release t h e .dropped).symm
    · rw [runFrom_bind_error failed] at ran
      cases ran
      exact Nat.le_refl _
  | _ => cases own

/-! ## The end of a borrow -/

theorem size_endBorrow (t : HandleTable) (h : Handle) :
    (runFrom (TableOp.endBorrow h) t).2.entries.size = t.entries.size := by
  rcases TableOp.endBorrow_gated t h with ⟨e, _, _, ended⟩ | ⟨f, failed, _⟩
  · rw [ended]
    exact size_release t h e .borrowReturned
  · rw [failed]

theorem Consistent.endBorrow (ht : t.Consistent) (he : t.get? h = some e)
    (borrowed : e.owned = false) :
    (runFrom (TableOp.endBorrow h) t).2.Consistent
    ∧ (runFrom (TableOp.endBorrow h) t).2.get? h = none
    ∧ (∀ h', t.get? h' = none → (runFrom (TableOp.endBorrow h) t).2.get? h' = none)
    ∧ ∀ h' e', h' ≠ h → t.get? h' = some e' → e'.owned = false →
        (runFrom (TableOp.endBorrow h) t).2.get? h' = some e' := by
  have ended := (TableOp.endBorrow_gated t h).of_allowed he borrowed
  have unlent : e.owned = true → e.loans = 0 := fun owned => by
    rw [borrowed] at owned
    cases owned
  have released := ht.released he .borrowReturned
  rw [ended]
  refine ⟨consistent_release ht he unlent .borrowReturned, released.self, fun h' vacant => ?_,
    fun h' e' ne he' borrowed' => released.borrow_kept ht he ne he' borrowed'⟩
  have ne : h' ≠ h := by
    rintro rfl
    rw [he] at vacant
    cases vacant
  rw [get?_notify, released.others h' ne, vacant]
  rfl

end HandleTable

end CanonicalAbi
