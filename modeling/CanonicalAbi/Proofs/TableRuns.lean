import CanonicalAbi.Proofs.Lending

/-!
# Runs of a handle table

Whatever is done to a handle table, one thing after another, its invariant `Consistent` holds.
-/

namespace CanonicalAbi

open TableOp

/-! ## When operations succeed -/

namespace TableOp

open HandleTable

variable {β : Type} {t t' : HandleTable} {h : Handle} {e : HandleEntry} {resource : Option Label}
  {allowed : HandleEntry → Prop} {done : HandleEntry → Except Failure β × HandleTable}

theorem lookup_cases (t : HandleTable) (h : Handle) (resource : Option Label) :
    (∃ e, t.get? h = some e ∧ SameResource resource e.resource
      ∧ runFrom (lookup h resource) t = (.ok e, t))
    ∨ ∃ f, runFrom (lookup h resource) t = (.error f, t)
      ∧ ∀ e, t.get? h = some e → ¬ SameResource resource e.resource := by
  cases he : t.get? h with
  | none =>
    right
    refine ⟨.of .eval .notFound ("invalid handle " ++ toString h), ?_, fun e he' => ?_⟩
    · simp only [lookup, runFrom_bind, runFrom_get, continueWith_ok, he]
      rfl
    · cases he'
  | some e =>
    by_cases hr : SameResource resource e.resource
    · exact .inl ⟨e, rfl, hr, lookup_eq he hr⟩
    · right
      cases hw : resource with
      | none =>
        refine absurd (fun r hr => ?_) hr
        rw [hw] at hr
        cases hr
      | some r =>
        cases hf : e.resource with
        | none =>
          refine absurd (fun r _ r' hr' => ?_) hr
          rw [hf] at hr'
          cases hr'
        | some r' =>
          have differ : r.id ≠ r'.id := by
            intro heq
            refine hr fun x hx y hy => ?_
            rw [hw] at hx
            rw [hf] at hy
            cases hx
            cases hy
            exact heq
          refine ⟨.typeMismatch .eval [] r.spelling.get "*types.TypeDef", ?_, fun e' he' => ?_⟩
          · simp only [lookup, runFrom_bind, runFrom_get, continueWith_ok, he, hf, if_neg differ]
            rfl
          · cases he'
            rw [hw] at hr
            exact hr

theorem insert_cases (t : HandleTable) (e : HandleEntry) (kind : HandleEventKind) :
    (t.closed = false ∧ ∃ h t', runFrom (insert e kind) t = (.ok h, t'))
    ∨ t.closed = true ∧ ∃ f, runFrom (insert e kind) t = (.error f, t) := by
  cases closed : t.closed with
  | false =>
    left
    cases hf : t.freed with
    | cons h freed => exact ⟨rfl, _, _, insert_reusing closed hf e kind⟩
    | nil => exact ⟨rfl, _, _, insert_growing closed hf e kind⟩
  | true =>
    right
    refine ⟨rfl, .invalidInput .eval "handle table closed", ?_⟩
    simp only [insert, runFrom_bind, runFrom_get, continueWith_ok, closed]
    rfl

theorem remove_eq (t : HandleTable) (h : Handle) (e : HandleEntry) (kind : HandleEventKind) :
    runFrom (remove h e kind) t
      = (.ok (), (t.release h e kind).2.notify (t.release h e kind).1) := rfl

theorem refuseLent_cases (t : HandleTable) (h : Handle) (e : HandleEntry) :
    (e.loans = 0 ∧ runFrom (refuseLent h e) t = (.ok (), t))
    ∨ e.loans ≠ 0 ∧ ∃ f, runFrom (refuseLent h e) t = (.error f, t) := by
  by_cases hl : e.loans = 0
  · exact .inl ⟨hl, by simp [refuseLent, hl]⟩
  · refine .inr ⟨hl, .invalidInput .eval ("handle " ++ toString h ++ " has " ++ toString e.loans
      ++ " outstanding borrows"), ?_⟩
    rw [refuseLent, if_pos (Nat.pos_of_ne_zero hl)]
    rfl

/-- The operation needs an entry of the handle `h` that is `allowed`, and then ends as `done` says.
Otherwise it fails, and the table stays as it is. -/
def Gated (op : TableOp β) (t : HandleTable) (h : Handle) (allowed : HandleEntry → Prop)
    (done : HandleEntry → Except Failure β × HandleTable) : Prop :=
  (∃ e, t.get? h = some e ∧ allowed e ∧ runFrom op t = done e)
  ∨ ∃ f, runFrom op t = (.error f, t) ∧ ∀ e, t.get? h = some e → ¬ allowed e

theorem Gated.of_lookup
    (rest : ∀ e, (allowed e ∧ runFrom (op e) t = done e)
      ∨ ¬ allowed e ∧ ∃ f, runFrom (op e) t = (.error f, t)) :
    Gated (lookup h resource >>= op) t h
      (fun e => SameResource resource e.resource ∧ allowed e) done := by
  rcases lookup_cases t h resource with ⟨e, he, hr, found⟩ | ⟨f, failed, mismatch⟩
  · rw [Gated, runFrom_bind_ok found]
    rcases rest e with ⟨met, ran⟩ | ⟨unmet, f, refused⟩
    · exact .inl ⟨e, he, ⟨hr, met⟩, ran⟩
    · refine .inr ⟨f, refused, fun e' he' met => unmet ?_⟩
      rw [he] at he'
      cases he'
      exact met.2
  · exact .inr ⟨f, runFrom_bind_error failed, fun e he met => mismatch e he met.1⟩

theorem Gated.of_lookup_any
    (rest : ∀ e, (allowed e ∧ runFrom (op e) t = done e)
      ∨ ¬ allowed e ∧ ∃ f, runFrom (op e) t = (.error f, t)) :
    Gated (lookup h none >>= op) t h allowed done := by
  have gated : Gated (TableOp.lookup h none >>= op) t h _ done := .of_lookup rest
  simpa [SameResource] using gated

theorem Gated.of_allowed (gated : Gated op t h allowed done) (he : t.get? h = some e)
    (met : allowed e) : runFrom op t = done e := by
  rcases gated with ⟨e', he', _, ran⟩ | ⟨_, _, unmet⟩
  · rw [he] at he'
    cases he'
    exact ran
  · exact absurd met (unmet e he)

theorem Gated.refused (gated : Gated op t h allowed done) (he : t.get? h = some e)
    (unmet : ¬ allowed e) : ∃ f, runFrom op t = (.error f, t) := by
  rcases gated with ⟨e', he', met, _⟩ | ⟨f, failed, _⟩
  · rw [he] at he'
    cases he'
    exact absurd met unmet
  · exact ⟨f, failed⟩

theorem Gated.of_ok (gated : Gated op t h allowed done) (run : runFrom op t = (.ok b, t')) :
    ∃ e, t.get? h = some e ∧ allowed e ∧ done e = (.ok b, t') := by
  rcases gated with ⟨e, he, met, ran⟩ | ⟨f, failed, _⟩
  · exact ⟨e, he, met, ran.symm.trans run⟩
  · rw [failed] at run
    cases run

theorem take_gated (t : HandleTable) (h : Handle) (resource : Option Label) :
    Gated (take h resource) t h
      (fun e => SameResource resource e.resource ∧ e.owned = true ∧ e.loans = 0)
      fun e => (.ok e.rep, (t.release h e .dropped).2.notify (t.release h e .dropped).1) := by
  refine .of_lookup fun e => ?_
  rw [runFrom_ite]
  by_cases owned : e.owned = true
  · rw [if_pos owned]
    rcases refuseLent_cases t h e with ⟨unlent, passed⟩ | ⟨lent, f, refused⟩
    · refine .inl ⟨⟨owned, unlent⟩, ?_⟩
      rw [runFrom_bind_ok passed, runFrom_bind_ok (remove_eq t h e .dropped)]
      rfl
    · exact .inr ⟨fun met => lent met.2, f, runFrom_bind_error refused⟩
  · rw [if_neg owned]
    exact .inr ⟨fun met => owned met.1, _, rfl⟩

theorem drop_gated (t : HandleTable) (h : Handle) :
    Gated (drop h) t h (·.loans = 0)
      fun e => (.ok (), (t.release h e .dropped).2.notify (t.release h e .dropped).1) := by
  refine .of_lookup_any fun e => ?_
  rcases refuseLent_cases t h e with ⟨unlent, passed⟩ | ⟨lent, f, refused⟩
  · exact .inl ⟨unlent, by rw [runFrom_bind_ok passed, remove_eq]⟩
  · exact .inr ⟨lent, f, runFrom_bind_error refused⟩

theorem endBorrow_gated (t : HandleTable) (h : Handle) :
    Gated (endBorrow h) t h (·.owned = false) fun e =>
      (.ok (), (t.release h e .borrowReturned).2.notify (t.release h e .borrowReturned).1) := by
  refine .of_lookup_any fun e => ?_
  cases owned : e.owned with
  | true => exact .inr ⟨Bool.noConfusion, _, rfl⟩
  | false => exact .inl ⟨rfl, rfl⟩

theorem lend_gated (t : HandleTable) (o : Handle) (resource : Option Label) :
    Gated (lend o resource) t o (fun e => SameResource resource e.resource ∧ e.owned = true)
      fun e => runFrom (insert { resource := e.resource, rep := e.rep, owned := false, lender := o }
        .borrowed) (t.put o (some { e with loans := e.loans + 1 })) := by
  refine .of_lookup fun e => ?_
  cases owned : e.owned with
  | true => exact .inl ⟨rfl, rfl⟩
  | false => exact .inr ⟨Bool.noConfusion, _, rfl⟩

end TableOp

/-! ## Giving back all borrows -/

namespace HandleTable

variable {t t' : HandleTable} {h : Handle} {e : HandleEntry}

theorem consistent_release (ht : t.Consistent) (he : t.get? h = some e)
    (unlent : e.owned = true → e.loans = 0) (kind : HandleEventKind) :
    ((t.release h e kind).2.notify (t.release h e kind).1).Consistent :=
  (ht.of_released he unlent (ht.released he kind)).notify _

/-- The entries of owners are still there, but for the number of their loans. -/
def OwnersKept (t t' : HandleTable) : Prop :=
  ∀ h e, t.get? h = some e → e.owned = true → ∃ loans, t'.get? h = some { e with loans }

theorem Released.ownersKept (released : t.Released h e t') (he : t.get? h = some e)
    (borrowed : e.owned = false) : t.OwnersKept t' := by
  intro o l hl owned
  have ne : o ≠ h := by
    rintro rfl
    rw [he] at hl
    cases hl
    rw [borrowed] at owned
    cases owned
  rw [released.others o ne, hl, Option.map_some]
  by_cases lender : o = e.lender
  · exact ⟨l.loans - 1, by rw [if_pos lender]⟩
  · exact ⟨l.loans, by rw [if_neg lender]⟩

/-- A table without borrows, in which the owners of `t` are. -/
structure Returned (t t' : HandleTable) : Prop where
  consistent : t'.Consistent
  owned : ∀ h e, t'.get? h = some e → e.owned = true
  kept : t.OwnersKept t'

/-- The induction is on the numbers that are left; those up to `n` belong to owners. -/
theorem Consistent.releaseFrom (count : Nat) : ∀ {t : HandleTable} (n : Nat), t.Consistent →
    n + count = t.entries.size →
    (∀ h e, t.get? h = some e → h.toNat ≤ n → e.owned = true) →
    t.Returned (t.releaseFrom (UInt32.ofNat (n + 1)) count).2 := by
  induction count with
  | zero =>
    intro t n ht size owners
    refine ⟨ht, fun h e he => owners h e he ?_, fun h e he _ => ⟨e.loans, he⟩⟩
    have inside : h.toNat ≤ t.entries.size := (le_size_of_get? he).2
    omega
  | succ count ih =>
    intro t n ht size owners
    have few := ht.few
    have number : (UInt32.ofNat (n + 1)).toNat = n + 1 :=
      UInt32.toNat_ofNat_of_lt' (show n + 1 < 2 ^ 32 by omega)
    have next : UInt32.ofNat (n + 1) + 1 = UInt32.ofNat (n + 1 + 1) := by
      rw [UInt32.ofNat_add (n + 1) 1]
      rfl
    have upTo : ∀ h : Handle, h.toNat ≤ n + 1 → h ≠ UInt32.ofNat (n + 1) → h.toNat ≤ n := by
      intro h le ne
      have : h.toNat ≠ n + 1 := fun heq => ne (UInt32.toNat_inj.mp (heq.trans number.symm))
      omega
    rw [HandleTable.releaseFrom, next]
    cases he : t.get? (UInt32.ofNat (n + 1)) with
    | none =>
      refine ih (n + 1) ht (by omega) fun h e he' le => owners h e he' (upTo h le ?_)
      rintro rfl
      rw [he] at he'
      cases he'
    | some e =>
      by_cases owned : e.owned = true
      · simp only [if_pos owned]
        refine ih (n + 1) ht (by omega) fun h e' he' le => ?_
        by_cases hh : h = UInt32.ofNat (n + 1)
        · rw [hh, he] at he'
          cases he'
          exact owned
        · exact owners h e' he' (upTo h le hh)
      · simp only [if_neg owned]
        have borrowed := Bool.eq_false_iff.mpr owned
        have released := ht.released he .borrowReturned
        have rest := ih (n + 1)
          (ht.of_released he (fun owned' => absurd owned' owned) released)
          (by rw [released.size]; omega) (fun h e' he' le => ?_)
        · refine ⟨rest.consistent, rest.owned, fun h e' he' owned' => ?_⟩
          obtain ⟨loans, kept⟩ := released.ownersKept he borrowed h e' he' owned'
          obtain ⟨loans', kept'⟩ := rest.kept h { e' with loans } kept owned'
          exact ⟨loans', kept'⟩
        · have hh : h ≠ UInt32.ofNat (n + 1) := by
            rintro rfl
            rw [released.self] at he'
            cases he'
          rw [released.others h hh] at he'
          obtain ⟨e0, he0, rfl⟩ := Option.map_eq_some_iff.mp he'
          have owned0 := owners h e0 he0 (upTo h le hh)
          split <;> exact owned0

theorem Returned.notify (returned : t.Returned t') (events : List HandleEvent) :
    t.Returned (events.foldl HandleTable.notify t') := by
  induction events generalizing t' with
  | nil => exact returned
  | cons event events ih =>
    exact ih ⟨returned.consistent.notify event, returned.owned, returned.kept⟩

theorem Consistent.endBorrows (ht : t.Consistent) : t.Returned t.endBorrows.2 := by
  refine (Consistent.releaseFrom t.entries.size 0 ht (Nat.zero_add _) fun h e he le => ?_).notify _
  exact absurd (UInt32.toNat_inj.mp (Nat.le_zero.mp le)) (le_size_of_get? he).1

theorem Returned.loans_eq_zero (returned : t.Returned t') (he : t'.get? h = some e) :
    e.loans = 0 := by
  rw [(returned.consistent.owner h e he (returned.owned h e he)).2]
  refine loansOf_eq_zero returned.consistent.few fun h' e' he' => ?_
  simp [HandleEntry.isLoanOf, returned.owned h' e' he']

end HandleTable

/-! ## Runs -/

/-- A command to a table of handles. -/
inductive TableCommand where
  | addOwned (resource : Option Label) (rep : UInt32)
  | addBorrowed (resource : Option Label) (rep : UInt32)
  | lend (owner : Handle) (resource : Option Label)
  | rep (h : Handle) (resource : Option Label)
  | take (h : Handle) (resource : Option Label)
  | drop (h : Handle)
  | endBorrow (h : Handle)
  | endBorrows
  | close
  | subscribe (o : Observer)
  | unsubscribe (o : Observer)

/-- Does it, and returns the handle that was issued if there is one. -/
def TableCommand.perform : TableCommand → TableOp (Option Handle)
  | addOwned resource r => some <$> TableOp.addOwned resource r
  | addBorrowed resource r => some <$> TableOp.addBorrowed resource r
  | lend owner resource => some <$> TableOp.lend owner resource
  | rep h resource => do
    let _ ← TableOp.rep h resource
    return none
  | take h resource => do
    let _ ← TableOp.take h resource
    return none
  | drop h => do
    TableOp.drop h
    return none
  | endBorrow h => do
    TableOp.endBorrow h
    return none
  | endBorrows => do
    set (← get).endBorrows.2
    return none
  | close => do
    modify HandleTable.close
    return none
  | subscribe o => do
    modify (·.subscribe o)
    return none
  | unsubscribe o => do
    modify (·.unsubscribe o)
    return none

namespace HandleTable

/-- The tables that a run leads to, in which there are never more numbers than handles. -/
inductive Reachable : HandleTable → Prop where
  | start : Reachable empty
  | step {t t' : HandleTable} {r : Except Failure (Option Handle)} (c : TableCommand) :
    Reachable t → runFrom c.perform t = (r, t') → t'.entries.size < 2 ^ 32 → Reachable t'

/-- What a command asks of the entry of the handle `h` that it removes, and how it is announced. -/
def Removes (h : Handle) (e : HandleEntry) (kind : HandleEventKind) : TableCommand → Prop
  | .take h' _ => h' = h ∧ e.owned = true ∧ e.loans = 0 ∧ kind = .dropped
  | .drop h' => h' = h ∧ e.loans = 0 ∧ kind = .dropped
  | .endBorrow h' => h' = h ∧ e.owned = false ∧ kind = .borrowReturned
  | _ => False

/-- What a command does to a table. -/
inductive Move (t : HandleTable) :
    TableCommand → Except Failure (Option Handle) → HandleTable → Prop where
  | refused {c : TableCommand} (f : Failure) : Move t c (.error f) t
  | looked (h : Handle) (resource : Option Label) : Move t (.rep h resource) (.ok none) t
  | added {c : TableCommand} {e : HandleEntry} {h : Handle} {t' : HandleTable}
      (unlent : e.loans = 0) (lenderless : e.lender = 0)
      (command : c = if e.owned then .addOwned e.resource e.rep else .addBorrowed e.resource e.rep)
      (run : runFrom (insert e (if e.owned then .created else .borrowed)) t = (.ok h, t')) :
      Move t c (.ok (some h)) t'
  | lent {o h : Handle} {l : HandleEntry} {resource : Option Label} {t' : HandleTable}
      (hl : t.get? o = some l) (owned : l.owned = true)
      (run : runFrom (insert
          { resource := l.resource, rep := l.rep, owned := false, lender := o } .borrowed)
        (t.put o (some { l with loans := l.loans + 1 })) = (.ok h, t')) :
      Move t (.lend o resource) (.ok (some h)) t'
  | removed {c : TableCommand} {h : Handle} {e : HandleEntry} {kind : HandleEventKind}
      (he : t.get? h = some e) (removes : Removes h e kind c) :
      Move t c (.ok none) ((t.release h e kind).2.notify (t.release h e kind).1)
  | returned : Move t .endBorrows (.ok none) t.endBorrows.2
  | closed : Move t .close (.ok none) t.close
  | subscribed (o : Observer) : Move t (.subscribe o) (.ok none) (t.subscribe o)
  | unsubscribed (o : Observer) : Move t (.unsubscribe o) (.ok none) (t.unsubscribe o)

/-- What a step from the table `t` leads to: an invariant that holds, and a handle that was not in
use if one is issued. -/
structure Steps (t : HandleTable) (r : Except Failure (Option Handle)) (t' : HandleTable) :
    Prop where
  consistent : t'.Consistent
  issued : ∀ h, r = .ok (some h) → h ≠ 0 ∧ t.get? h = none

variable {t t' : HandleTable} {h o : Handle} {e : HandleEntry}
  {r : Except Failure (Option Handle)}

variable {c : TableCommand}

theorem Removes.unlent {kind : HandleEventKind} (removes : Removes h e kind c) :
    e.owned = true → e.loans = 0 := by
  intro owned
  cases c with
  | take _ _ => exact removes.2.2.1
  | drop _ => exact removes.2.1
  | endBorrow _ =>
    rw [removes.2.1] at owned
    cases owned
  | _ => exact removes.elim

theorem Move.eq_of_error {f : Failure} (move : t.Move c (.error f) t') :
    t' = t := by
  cases move
  rfl

theorem move_insert (unlent : e.loans = 0) (lenderless : e.lender = 0)
    (command : c = if e.owned then .addOwned e.resource e.rep else .addBorrowed e.resource e.rep)
    (run : runFrom (some <$> insert e (if e.owned then .created else .borrowed)) t
      = (r, t')) : t.Move c r t' := by
  rw [runFrom_map] at run
  rcases insert_cases t e (if e.owned then .created else .borrowed)
    with ⟨_, h, t1, inserted⟩ | ⟨_, f, refused⟩
  · rw [inserted] at run
    cases run
    exact .added unlent lenderless command inserted
  · rw [refused] at run
    cases run
    exact .refused f

theorem insert_put (cleared : t.closed = true → t.entries = #[]) (he : t.get? h = some e)
    (e₁ e₂ : HandleEntry) (kind : HandleEventKind) :
    ∃ h' t', runFrom (insert e₂ kind) (t.put h (some e₁)) = (.ok h', t') := by
  rcases insert_cases (t.put h (some e₁)) e₂ kind with ⟨_, inserted⟩ | ⟨closed, _⟩
  · exact inserted
  · have closed : t.closed = true := closed
    rw [isOpen_of_get? cleared he] at closed
    cases closed

theorem move_lend (cleared : t.closed = true → t.entries = #[]) {resource : Option Label}
    (run : runFrom (some <$> lend o resource) t = (r, t')) :
    t.Move (.lend o resource) r t' := by
  rw [runFrom_map] at run
  rcases lend_gated t o resource with ⟨l, hl, ⟨_, owned⟩, lent⟩ | ⟨f, refused, _⟩
  · obtain ⟨h, t1, inserted⟩ := insert_put cleared hl { l with loans := l.loans + 1 } _ _
    rw [lent.trans inserted] at run
    cases run
    exact .lent hl owned inserted
  · rw [refused] at run
    cases run
    exact .refused f

theorem move_removed {β : Type} {op : TableOp β} {allowed : HandleEntry → Prop}
    {result : HandleEntry → β} {kind : HandleEventKind}
    (gated : Gated op t h allowed fun e =>
      (.ok (result e), (t.release h e kind).2.notify (t.release h e kind).1))
    (removes : ∀ e, allowed e → Removes h e kind c)
    (run : runFrom (op >>= fun _ => pure none) t = (r, t')) : t.Move c r t' := by
  rcases gated with ⟨e, he, met, done⟩ | ⟨f, failed, _⟩
  · rw [runFrom_bind_ok done] at run
    cases run
    exact .removed he (removes e met)
  · rw [runFrom_bind_error failed] at run
    cases run
    exact .refused f

theorem perform_move (cleared : t.closed = true → t.entries = #[]) (c : TableCommand)
    (run : runFrom c.perform t = (r, t')) : t.Move c r t' := by
  cases c with
  | addOwned resource rep =>
    exact move_insert (e := { resource, rep, owned := true }) rfl rfl rfl run
  | addBorrowed resource rep =>
    exact move_insert (e := { resource, rep, owned := false }) rfl rfl rfl run
  | lend owner resource => exact move_lend cleared run
  | rep h resource =>
    rcases TableOp.lookup_cases t h resource with ⟨e, _, _, found⟩ | ⟨f, failed, _⟩
    · have looked : runFrom (TableOp.rep h resource) t = (.ok e.rep, t) := runFrom_bind_ok found
      rw [TableCommand.perform, runFrom_bind_ok looked] at run
      cases run
      exact .looked h resource
    · have looked : runFrom (TableOp.rep h resource) t = (.error f, t) := runFrom_bind_error failed
      rw [TableCommand.perform, runFrom_bind_error looked] at run
      cases run
      exact .refused f
  | take h resource =>
    exact move_removed (take_gated t h resource) (fun _ met => ⟨rfl, met.2.1, met.2.2, rfl⟩) run
  | drop h => exact move_removed (drop_gated t h) (fun _ met => ⟨rfl, met, rfl⟩) run
  | endBorrow h => exact move_removed (endBorrow_gated t h) (fun _ met => ⟨rfl, met, rfl⟩) run
  | endBorrows =>
    cases run
    exact .returned
  | close =>
    cases run
    exact .closed
  | subscribe o =>
    cases run
    exact .subscribed o
  | unsubscribe o =>
    cases run
    exact .unsubscribed o

theorem Consistent.joined_lent (ht : t.Consistent) {l : HandleEntry} (hl : t.get? o = some l)
    (run : runFrom (insert
        { resource := l.resource, rep := l.rep, owned := false, lender := o } .borrowed)
      (t.put o (some { l with loans := l.loans + 1 })) = (.ok h, t'))
    (few : t'.entries.size < 2 ^ 32) :
    t.Joined h { resource := l.resource, rep := l.rep, owned := false, lender := o } t' :=
  Added.joined_lent hl ((ht.toNumbered.put hl _).insert run few) rfl rfl

theorem Consistent.steps (ht : t.Consistent) (c : TableCommand)
    (run : runFrom c.perform t = (r, t')) (few : t'.entries.size < 2 ^ 32) : t.Steps r t' := by
  -- Only the commands that make an entry issue a handle.
  have quiet : ∀ {t'' : HandleTable}, t''.Consistent → t.Steps (.ok none) t'' := fun ht' =>
    ⟨ht', fun _ hr => by cases hr⟩
  have observed : ∀ observers, ({ t with observers } : HandleTable).Consistent := fun _ =>
    ⟨⟨ht.nodup, ht.mem_freed, ht.few, ht.cleared⟩, ht.owner, ht.borrow⟩
  cases perform_move ht.cleared c run with
  | refused f => exact ⟨ht, fun _ hr => by cases hr⟩
  | looked _ _ => exact quiet ht
  | added unlent lenderless _ run =>
    have joined := (ht.toNumbered.insert run few).joined lenderless
    refine ⟨ht.of_joined joined unlent (fun _ => lenderless) (absurd lenderless), fun h' hr => ?_⟩
    cases hr
    exact ⟨joined.nonzero, joined.fresh⟩
  | lent hl owned run =>
    have joined := ht.joined_lent hl run few
    refine ⟨ht.of_joined joined rfl (fun h => by cases h)
      (fun _ => ⟨_, hl, owned, rfl, rfl⟩), fun h' hr => ?_⟩
    cases hr
    exact ⟨joined.nonzero, joined.fresh⟩
  | removed he removes => exact quiet (consistent_release ht he removes.unlent _)
  | returned => exact quiet ht.endBorrows.consistent
  | closed => exact quiet (consistent_of_no_entries rfl rfl)
  | subscribed o => exact quiet (observed _)
  | unsubscribed o => exact quiet (observed _)

theorem Reachable.consistent (ht : t.Reachable) : t.Consistent := by
  induction ht with
  | start => exact consistent_of_no_entries rfl rfl
  | step c _ run few ih => exact (ih.steps c run few).consistent

theorem Consistent.lender_lent (ht : t.Consistent) (he : t.get? h = some e)
    (borrowed : e.owned = false) (lent : e.lender ≠ 0) :
    ∃ l, t.get? e.lender = some l ∧ l.owned = true ∧ l.loans ≠ 0 := by
  obtain ⟨l, hl, owned, _⟩ := (ht.borrow h e he borrowed).2 lent
  refine ⟨l, hl, owned, ?_⟩
  have pos := loansOf_pos he ((ht.isLoanOf_iff he lent).mpr rfl)
  rw [(ht.owner _ l hl owned).2]
  omega

theorem Consistent.lender_stays (ht : t.Consistent) (he : t.get? h = some e)
    (borrowed : e.owned = false) (lent : e.lender ≠ 0) (resource : Option Label) :
    (∃ f, runFrom (take e.lender resource) t = (.error f, t))
    ∧ ∃ f, runFrom (drop e.lender) t = (.error f, t) := by
  obtain ⟨l, hl, _, loans⟩ := ht.lender_lent he borrowed lent
  exact ⟨(take_gated t _ resource).refused hl fun met => loans met.2.2,
    (drop_gated t _).refused hl loans⟩

theorem Returned.take (returned : t.Returned t') (he : t.get? h = some e) (owned : e.owned = true)
    {resource : Option Label} (same : SameResource resource e.resource) :
    t'.get? h = some { e with loans := 0 }
    ∧ ∃ t'', runFrom (take h resource) t' = (.ok e.rep, t'') := by
  obtain ⟨loans, kept⟩ := returned.kept h e he owned
  obtain rfl : loans = 0 := returned.loans_eq_zero kept
  have taken := (take_gated t' h resource).of_allowed kept ⟨same, owned, rfl⟩
  exact ⟨kept, _, taken⟩

/-- In every run the invariant holds, a handle that is issued is not in use, what is lent stays, and
when all borrows were given back only owners are left, each of which can be taken. -/
theorem run_keeps_loans (ht : t.Reachable) :
    t.Consistent
    ∧ (∀ (c : TableCommand) h t', runFrom c.perform t = (.ok (some h), t') →
        t'.entries.size < 2 ^ 32 → h ≠ 0 ∧ t.get? h = none)
    ∧ (∀ h e, t.get? h = some e → e.owned = false → e.lender ≠ 0 → ∀ resource,
        (∃ f, runFrom (TableOp.take e.lender resource) t = (.error f, t))
        ∧ ∃ f, runFrom (TableOp.drop e.lender) t = (.error f, t))
    ∧ (∀ h e, t.endBorrows.2.get? h = some e → e.owned = true)
    ∧ ∀ h e resource, t.get? h = some e → e.owned = true → SameResource resource e.resource →
        t.endBorrows.2.get? h = some { e with loans := 0 }
        ∧ ∃ t', runFrom (TableOp.take h resource) t.endBorrows.2 = (.ok e.rep, t') := by
  have consistent := ht.consistent
  refine ⟨consistent, fun c h t' run few => ?_, fun h e he borrowed lent resource => ?_,
    consistent.endBorrows.owned, fun h e resource he owned same => ?_⟩
  · exact (consistent.steps c run few).issued h rfl
  · exact consistent.lender_stays he borrowed lent resource
  · exact consistent.endBorrows.take he owned same

/-- A table in which the handle `1` is lent twice, once under a number that was in use before. -/
def lentTwice : HandleTable :=
  [.addOwned none 7, .addOwned none 8, .lend 1 none, .drop 2, .lend 1 none].foldl
    (fun t (c : TableCommand) => (runFrom c.perform t).2) empty

theorem run_keeps_loans_lentTwice :
    lentTwice.Reachable ∧ (lentTwice.get? 1).map (·.loans) = some 2
    ∧ (∃ f, runFrom (TableOp.take 1 none) lentTwice = (.error f, lentTwice))
    ∧ ∃ t', runFrom (TableOp.take 1 none) lentTwice.endBorrows.2 = (.ok 7, t') := by
  have reachable : lentTwice.Reachable :=
    .step (.lend 1 none) (.step (.drop 2) (.step (.lend 1 none) (.step (.addOwned none 8)
      (.step (.addOwned none 7) .start rfl (by decide)) rfl (by decide)) rfl (by decide))
      rfl (by decide)) rfl (by decide)
  obtain ⟨_, _, stays, _, takes⟩ := run_keeps_loans reachable
  refine ⟨reachable, rfl, (stays 2 _ rfl rfl (by decide) none).1, ?_⟩
  exact (takes 1 _ none rfl rfl (fun _ hr => by cases hr)).2

end HandleTable

end CanonicalAbi
