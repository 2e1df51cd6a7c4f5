import CanonicalAbi.Proofs.TableRuns

/-!
# What table operations come to

In every table that a run leads to, an operation succeeds exactly under its condition, and one that
fails leaves the table as it was, though a loan is counted before the new entry is made.
-/

namespace CanonicalAbi

open TableOp

def TableOp.Succeeds {β : Type} (op : TableOp β) (t : HandleTable) : Prop :=
  ∃ b t', runFrom op t = (.ok b, t')

theorem TableOp.succeeds_iff {β : Type} {op : TableOp β} {t : HandleTable} {condition : Prop}
    (outcome : (condition ∧ ∃ b t', runFrom op t = (.ok b, t'))
      ∨ ¬ condition ∧ ∃ f, runFrom op t = (.error f, t)) : op.Succeeds t ↔ condition := by
  rcases outcome with ⟨met, success⟩ | ⟨unmet, f, failed⟩
  · exact ⟨fun _ => met, fun _ => success⟩
  · refine ⟨fun ⟨b, t', run⟩ => ?_, fun met => absurd met unmet⟩
    rw [failed] at run
    cases run

theorem TableOp.succeeds_iff_of_gated {β : Type} {op : TableOp β} {t : HandleTable} {h : Handle}
    {allowed : HandleEntry → Prop} {done : HandleEntry → Except Failure β × HandleTable}
    (gated : Gated op t h allowed done)
    (ends : ∀ e, t.get? h = some e → ∃ b t', done e = (.ok b, t')) :
    op.Succeeds t ↔ ∃ e, t.get? h = some e ∧ allowed e := by
  apply succeeds_iff
  rcases gated with ⟨e, he, met, run⟩ | ⟨f, failed, unmet⟩
  · exact .inl ⟨⟨e, he, met⟩, by rw [run]; exact ends e he⟩
  · exact .inr ⟨fun ⟨e, he, met⟩ => unmet e he met, f, failed⟩

namespace HandleTable

variable {t t' : HandleTable} {h : Handle} {e : HandleEntry} {c : TableCommand}
  {r : Except Failure (Option Handle)}

/-! ## All tables -/

/-- A table that commands lead to. -/
inductive Arises : HandleTable → Prop where
  | start : Arises empty
  | step {t t' : HandleTable} {r : Except Failure (Option Handle)} (c : TableCommand) :
    Arises t → runFrom c.perform t = (r, t') → Arises t'

/-- A closed table is empty, and owners have no lender. -/
structure Tidy (t : HandleTable) : Prop where
  cleared : t.closed = true → t.entries = #[]
  owners : ∀ e, some e ∈ t.entries → e.owned = true → e.lender = 0

theorem mem_entries_of_get? (he : t.get? h = some e) : some e ∈ t.entries :=
  Array.mem_iff_getElem?.mpr ⟨_, getElem?_of_get? he⟩

theorem mem_put {x : Option HandleEntry} (he : some e ∈ (t.put h x).entries) :
    x = some e ∨ some e ∈ t.entries := by
  obtain ⟨n, hn⟩ := Array.mem_iff_getElem?.mp he
  rw [put, Array.getElem?_setIfInBounds] at hn
  split at hn
  · split at hn
    · exact .inl (Option.some.inj hn)
    · cases hn
  · exact .inr (Array.mem_iff_getElem?.mpr ⟨n, hn⟩)

theorem Tidy.of_entries (ht : t.Tidy) (isOpen : t.closed = false) (closed : t'.closed = t.closed)
    (entries : ∀ e, some e ∈ t'.entries → some e ∈ t.entries ∨ (e.owned = true → e.lender = 0)) :
    t'.Tidy := by
  refine ⟨fun hc => ?_, fun e he => ?_⟩
  · rw [closed, isOpen] at hc
    cases hc
  · rcases entries e he with old | new
    · exact ht.owners e old
    · exact new

theorem Tidy.put (ht : t.Tidy) (he : t.get? h = some e) (loans : Nat) :
    (t.put h (some { e with loans })).Tidy := by
  refine ht.of_entries (isOpen_of_get? ht.cleared he) rfl fun e' he' => ?_
  rcases mem_put he' with new | old
  · cases new
    exact .inr (ht.owners e (mem_entries_of_get? he))
  · exact .inl old

theorem Tidy.insert (ht : t.Tidy) (owner : e.owned = true → e.lender = 0) {kind : HandleEventKind}
    (run : runFrom (insert e kind) t = (.ok h, t')) : t'.Tidy := by
  rcases insert_cases t e kind with ⟨isOpen, _⟩ | ⟨_, f, refused⟩
  · cases hf : t.freed with
    | cons number freed =>
      rw [insert_reusing isOpen hf] at run
      cases run
      refine ht.of_entries isOpen rfl fun e' he' => ?_
      rcases mem_put he' with new | old
      · cases new
        exact .inr owner
      · exact .inl old
    | nil =>
      rw [insert_growing isOpen hf] at run
      cases run
      refine ht.of_entries isOpen rfl fun e' he' => ?_
      rcases Array.mem_push.mp he' with old | new
      · exact .inl old
      · cases new
        exact .inr owner
  · rw [refused] at run
    cases run

theorem Tidy.release (ht : t.Tidy) (he : t.get? h = some e) (kind : HandleEventKind) :
    (t.release h e kind).2.Tidy := by
  have repaid : (t.repaid e.lender).Tidy := by
    rcases t.repaid_cases e.lender with ⟨same, _⟩ | ⟨l, hl, repaid⟩
    · rwa [same]
    · rw [repaid]
      exact ht.put hl _
  have isOpen : (t.repaid e.lender).closed = false := by
    have isOpen := isOpen_of_get? ht.cleared he
    rcases t.repaid_cases e.lender with ⟨same, _⟩ | ⟨l, hl, repaid⟩
    · rwa [same]
    · rwa [repaid]
  refine repaid.of_entries isOpen rfl fun e' he' => ?_
  rcases mem_put he' with new | old
  · cases new
  · exact .inl old

theorem Tidy.releaseFrom (count : Nat) : ∀ {t : HandleTable} (h : Handle), t.Tidy →
    (t.releaseFrom h count).2.Tidy := by
  induction count with
  | zero => exact fun _ ht => ht
  | succ count ih =>
    intro t h ht
    rw [HandleTable.releaseFrom]
    cases he : t.get? h with
    | none => exact ih (h + 1) ht
    | some e =>
      by_cases owned : e.owned = true
      · simp only [if_pos owned]
        exact ih (h + 1) ht
      · simp only [if_neg owned]
        exact ih (h + 1) (ht.release he _)

theorem Tidy.notify (ht : t.Tidy) (event : HandleEvent) : (t.notify event).Tidy :=
  ⟨ht.cleared, ht.owners⟩

theorem Tidy.foldl_notify (ht : t.Tidy) (events : List HandleEvent) :
    (events.foldl HandleTable.notify t).Tidy := by
  induction events generalizing t with
  | nil => exact ht
  | cons event events ih => exact ih (ht.notify event)

theorem Tidy.move (ht : t.Tidy) (move : t.Move c r t') : t'.Tidy := by
  cases move with
  | refused _ => exact ht
  | looked _ _ => exact ht
  | added _ lenderless _ run => exact ht.insert (fun _ => lenderless) run
  | lent hl _ run => exact (ht.put hl _).insert (fun owned => by cases owned) run
  | removed he _ => exact (ht.release he _).notify _
  | returned => exact (Tidy.releaseFrom _ 1 ht).foldl_notify _
  | closed => exact ⟨fun _ => rfl, fun e he => by simp [close] at he⟩
  | subscribed _ => exact ⟨ht.cleared, ht.owners⟩
  | unsubscribed _ => exact ⟨ht.cleared, ht.owners⟩

theorem Arises.tidy (ht : t.Arises) : t.Tidy := by
  induction ht with
  | start => exact ⟨fun _ => rfl, fun e he => by simp [empty] at he⟩
  | step c _ run ih => exact ih.move (perform_move ih.cleared c run)

/-! ## What success changes -/

/-- The entry `e` of the handle `h` is gone. No other entry changed but that of the lender of a
borrow, which is lent once less. -/
structure Vacated (t : HandleTable) (h : Handle) (e : HandleEntry) (t' : HandleTable) : Prop where
  found : t.get? h = some e
  owner : e.owned = true → e.lender = 0
  self : t'.get? h = none
  others : ∀ h' ≠ h, t'.get? h' = (t.get? h').map fun e' =>
    if h' = e.lender then { e' with loans := e'.loans - 1 } else e'

theorem Tidy.vacated (ht : t.Tidy) (he : t.get? h = some e) (kind : HandleEventKind) :
    t.Vacated h e ((t.release h e kind).2.notify (t.release h e kind).1) :=
  ⟨he, ht.owners e (mem_entries_of_get? he), get?_release_self he kind,
    fun _ ne => get?_release_ne he kind ne⟩

/-- The entry that a command adds. -/
def Issues (t : HandleTable) (e : HandleEntry) : TableCommand → Prop
  | .addOwned resource rep => e = { resource, rep, owned := true }
  | .addBorrowed resource rep => e = { resource, rep, owned := false }
  | .lend o _ => ∃ l, t.get? o = some l
    ∧ e = { resource := l.resource, rep := l.rep, owned := false, lender := o }
  | _ => False

theorem Consistent.issued (ht : t.Consistent) (run : runFrom c.perform t = (.ok (some h), t'))
    (few : t'.entries.size < 2 ^ 32) : ∃ e, t.Issues e c ∧ t.Joined h e t' := by
  cases perform_move ht.cleared c run with
  | @added _ e _ _ unlent lenderless command run =>
    refine ⟨e, ?_, (ht.toNumbered.insert run few).joined lenderless⟩
    obtain ⟨resource, rep, owned, loans, lender⟩ := e
    cases unlent
    cases lenderless
    cases owned <;> rw [command] <;> rfl
  | lent hl _ run => exact ⟨_, ⟨_, hl, rfl⟩, ht.joined_lent hl run few⟩

/-- The tables that a run from the table `origin` leads to while the handle `h` is in use. -/
inductive Lasting (h : Handle) (origin : HandleTable) : HandleTable → Prop where
  | start : Lasting h origin origin
  | step {t t' : HandleTable} {r : Except Failure (Option Handle)} (c : TableCommand) :
    Lasting h origin t → runFrom c.perform t = (r, t') → t'.entries.size < 2 ^ 32 →
    (t'.get? h).isSome → Lasting h origin t'

theorem Joined.keeps {h' : Handle} {e' : HandleEntry} (joined : t.Joined h' e' t')
    (he : t.get? h = some e) : ∃ loans, t'.get? h = some { e with loans } := by
  have ne : h ≠ h' := by
    rintro rfl
    rw [joined.fresh] at he
    cases he
  rw [joined.others h ne, he, Option.map_some]
  split
  · exact ⟨e.loans + 1, rfl⟩
  · exact ⟨e.loans, rfl⟩

theorem Consistent.owner_lasts (ht : t.Consistent) (move : t.Move c r t')
    (few : t'.entries.size < 2 ^ 32) (he : t.get? h = some e) (owned : e.owned = true)
    (live : (t'.get? h).isSome) : ∃ loans, t'.get? h = some { e with loans } := by
  cases move with
  | added _ lenderless _ run => exact ((ht.toNumbered.insert run few).joined lenderless).keeps he
  | lent hl _ run => exact (ht.joined_lent hl run few).keeps he
  | @removed _ h' e' kind he' _ =>
    have ne : h ≠ h' := by
      rintro rfl
      rw [get?_notify, get?_release_self he' kind] at live
      cases live
    rw [get?_notify, get?_release_ne he' kind ne, he, Option.map_some]
    split
    · exact ⟨e.loans - 1, rfl⟩
    · exact ⟨e.loans, rfl⟩
  | returned => exact ht.endBorrows.kept h e he owned
  | closed =>
    obtain ⟨e', he'⟩ := Option.isSome_iff_exists.mp live
    simp [get?, close] at he'
  | _ => exact ⟨e.loans, he⟩

theorem Lasting.entry {origin : HandleTable} (lasting : Lasting h origin t)
    (consistent : origin.Consistent) (he : origin.get? h = some e) (owned : e.owned = true) :
    t.Consistent ∧ ∃ loans, t.get? h = some { e with loans } := by
  induction lasting with
  | start => exact ⟨consistent, e.loans, he⟩
  | step c _ run few live ih =>
    obtain ⟨ht, loans, kept⟩ := ih
    obtain ⟨loans', kept'⟩ := ht.owner_lasts (perform_move ht.cleared c run) few kept owned live
    exact ⟨(ht.steps c run few).consistent, loans', kept'⟩

/-! ## Conditions -/

theorem take_succeeds_iff (t : HandleTable) (h : Handle) (resource : Option Label) :
    (take h resource).Succeeds t ↔
      ∃ e, t.get? h = some e ∧ SameResource resource e.resource ∧ e.owned = true ∧ e.loans = 0 :=
  succeeds_iff_of_gated (take_gated t h resource) fun _ _ => ⟨_, _, rfl⟩

theorem drop_succeeds_iff (t : HandleTable) (h : Handle) :
    (drop h).Succeeds t ↔ ∃ e, t.get? h = some e ∧ e.loans = 0 :=
  succeeds_iff_of_gated (drop_gated t h) fun _ _ => ⟨_, _, rfl⟩

theorem endBorrow_succeeds_iff (t : HandleTable) (h : Handle) :
    (endBorrow h).Succeeds t ↔ ∃ e, t.get? h = some e ∧ e.owned = false :=
  succeeds_iff_of_gated (endBorrow_gated t h) fun _ _ => ⟨_, _, rfl⟩

theorem Tidy.lend_succeeds_iff (ht : t.Tidy) (o : Handle) (resource : Option Label) :
    (lend o resource).Succeeds t ↔
      ∃ e, t.get? o = some e ∧ SameResource resource e.resource ∧ e.owned = true :=
  succeeds_iff_of_gated (lend_gated t o resource) fun _ he => insert_put ht.cleared he _ _ _

theorem insert_succeeds_iff (t : HandleTable) (e : HandleEntry) (kind : HandleEventKind) :
    (insert e kind).Succeeds t ↔ t.closed = false := by
  apply succeeds_iff
  rcases insert_cases t e kind with ⟨isOpen, success⟩ | ⟨closed, failure⟩
  · exact .inl ⟨isOpen, success⟩
  · refine .inr ⟨fun isOpen => ?_, failure⟩
    rw [isOpen] at closed
    cases closed

/-- In every table that a run leads to, each operation succeeds exactly under its condition, a
failed command leaves the table as it was, observers included, and a success changes the entry of
its handle and the loans of a lender only. An owner is taken with what its handle was issued for. -/
theorem operations_exact (ht : t.Arises) :
    ((∀ h resource, (TableOp.take h resource).Succeeds t ↔ ∃ e, t.get? h = some e
        ∧ SameResource resource e.resource ∧ e.owned = true ∧ e.loans = 0)
      ∧ (∀ h, (TableOp.drop h).Succeeds t ↔ ∃ e, t.get? h = some e ∧ e.loans = 0)
      ∧ (∀ o resource, (TableOp.lend o resource).Succeeds t ↔
        ∃ e, t.get? o = some e ∧ SameResource resource e.resource ∧ e.owned = true)
      ∧ (∀ h, (TableOp.endBorrow h).Succeeds t ↔ ∃ e, t.get? h = some e ∧ e.owned = false)
      ∧ (∀ resource rep, (TableOp.addOwned resource rep).Succeeds t ↔ t.closed = false)
      ∧ ∀ resource rep, (TableOp.addBorrowed resource rep).Succeeds t ↔ t.closed = false)
    ∧ (∀ (c : TableCommand) f t', runFrom c.perform t = (.error f, t') → t' = t)
    ∧ (∀ h resource rep t', runFrom (TableOp.take h resource) t = (.ok rep, t') →
        ∃ e, rep = e.rep ∧ e.owned = true ∧ t.Vacated h e t')
    ∧ (∀ h t', runFrom (TableOp.drop h) t = (.ok (), t') → ∃ e, t.Vacated h e t')
    ∧ (∀ h t', runFrom (TableOp.endBorrow h) t = (.ok (), t') →
        ∃ e, e.owned = false ∧ t.Vacated h e t')
    ∧ (t.Reachable → ∀ (c : TableCommand) h t', runFrom c.perform t = (.ok (some h), t') →
        t'.entries.size < 2 ^ 32 → ∃ e, t.Issues e c ∧ t.Joined h e t')
    ∧ ∀ resource rep h t₁ t₂ resource' rep' t₃, t.Reachable →
        runFrom (TableOp.addOwned resource rep) t = (.ok h, t₁) → t₁.entries.size < 2 ^ 32 →
        Lasting h t₁ t₂ → runFrom (TableOp.take h resource') t₂ = (.ok rep', t₃) → rep' = rep := by
  have tidy := ht.tidy
  refine ⟨⟨t.take_succeeds_iff, t.drop_succeeds_iff, tidy.lend_succeeds_iff,
    t.endBorrow_succeeds_iff, fun _ _ => t.insert_succeeds_iff _ _,
    fun _ _ => t.insert_succeeds_iff _ _⟩, fun c f t' run => ?_, fun h resource rep t' run => ?_,
    fun h t' run => ?_, fun h t' run => ?_, fun reachable c h t' run few => ?_,
    fun resource rep h t₁ t₂ resource' rep' t₃ reachable issued few lasting taken => ?_⟩
  · exact (perform_move tidy.cleared c run).eq_of_error
  · obtain ⟨e, he, ⟨_, owned, _⟩, ran⟩ := (take_gated t h resource).of_ok run
    cases ran
    exact ⟨e, rfl, owned, tidy.vacated he _⟩
  · obtain ⟨e, he, _, ran⟩ := (drop_gated t h).of_ok run
    cases ran
    exact ⟨e, tidy.vacated he _⟩
  · obtain ⟨e, he, borrowed, ran⟩ := (endBorrow_gated t h).of_ok run
    cases ran
    exact ⟨e, borrowed, tidy.vacated he _⟩
  · exact reachable.consistent.issued run few
  · have performed : runFrom (TableCommand.addOwned resource rep).perform t
        = (.ok (some h), t₁) := by
      rw [TableCommand.perform, runFrom_map, issued]
      rfl
    obtain ⟨_, rfl, joined⟩ := reachable.consistent.issued performed few
    obtain ⟨_, loans, kept⟩ := lasting.entry
      (reachable.consistent.steps _ performed few).consistent joined.self rfl
    obtain ⟨e, he, _, ran⟩ := (take_gated t₂ h resource').of_ok taken
    rw [kept] at he
    cases he
    cases ran
    rfl

/-- The owner that is lent twice is neither taken nor dropped, it can be lent again, and one of its
loans can be given back. -/
theorem operations_exact_lentTwice :
    lentTwice.Arises ∧ ¬ (TableOp.take 1 none).Succeeds lentTwice
    ∧ ¬ (TableOp.drop 1).Succeeds lentTwice ∧ (TableOp.lend 1 none).Succeeds lentTwice
    ∧ (TableOp.endBorrow 2).Succeeds lentTwice
    ∧ ∀ f t', runFrom (TableCommand.take 1 none).perform lentTwice = (.error f, t') →
      t' = lentTwice := by
  have arises : lentTwice.Arises :=
    .step (.lend 1 none) (.step (.drop 2) (.step (.lend 1 none) (.step (.addOwned none 8)
      (.step (.addOwned none 7) .start rfl) rfl) rfl) rfl) rfl
  have unnamed : SameResource none none := fun _ hr => by cases hr
  obtain ⟨⟨take, drop, lend, endBorrow, _⟩, failed, _⟩ := operations_exact arises
  refine ⟨arises, fun taken => ?_, fun dropped => ?_, (lend 1 none).mpr ⟨_, rfl, unnamed, rfl⟩,
    (endBorrow 2).mpr ⟨_, rfl, rfl⟩, failed _⟩
  · obtain ⟨e, he, _, _, unlent⟩ := (take 1 none).mp taken
    cases he
    cases unlent
  · obtain ⟨e, he, unlent⟩ := (drop 1).mp dropped
    cases he
    cases unlent

end HandleTable

end CanonicalAbi
