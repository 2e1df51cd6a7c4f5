import CanonicalAbi.Proofs.TableRuns
import Mathlib.Data.List.Chain

/-!
# What observers see

An observer that is there from the start can tell from the events what is in the table, as long as
the table is not closed.
-/

namespace CanonicalAbi

open List

/-- The event begins the use of a handle. -/
def HandleEventKind.opens : HandleEventKind → Bool
  | created | borrowed => true
  | dropped | borrowReturned => false

namespace HandleEvent

/-- The event tells of the entry it made. -/
structure Announces (ev : HandleEvent) (e : HandleEntry) : Prop where
  kind : ev.kind = if e.owned then .created else .borrowed
  resource : ev.resource = e.resource
  rep : ev.rep = e.rep

/-- The event `c` ends the use of a handle that the event `o` began. -/
structure EndedBy (o c : HandleEvent) : Prop where
  opens : o.kind.opens = true
  closes : c.kind.opens = false
  resource : c.resource = o.resource
  rep : c.rep = o.rep
  borrowed : c.kind = .borrowReturned → o.kind = .borrowed

/-- The event `next` comes after the event `ev` of the same handle. -/
def Precedes (ev next : HandleEvent) : Prop :=
  ev.EndedBy next ∨ ev.kind.opens = false ∧ next.kind.opens = true

theorem Announces.opens {ev : HandleEvent} {e : HandleEntry} (told : ev.Announces e) :
    ev.kind.opens = true := by
  rw [told.kind]
  split <;> rfl

/-- The events of one handle begin and end its uses in turn. -/
structure Uses (events : List HandleEvent) : Prop where
  first : ∀ ev ∈ events.head?, ev.kind.opens = true
  chain : events.IsChain Precedes

theorem Uses.snoc {events : List HandleEvent} {ev : HandleEvent} (uses : Uses events)
    (first : events = [] → ev.kind.opens = true)
    (last : ∀ before ∈ events.getLast?, before.Precedes ev) : Uses (events ++ [ev]) := by
  refine ⟨fun x hx => ?_, uses.chain.append (isChain_singleton ev) fun before hb y hy => ?_⟩
  · cases events with
    | nil =>
      cases hx
      exact first rfl
    | cons y ys => exact uses.first x hx
  · cases hy
    exact last before hb

end HandleEvent

namespace HandleTable

open HandleEvent

variable {t t' : HandleTable} {h : Handle} {e : HandleEntry} {o : Observer} {ev : HandleEvent}
  {log : List HandleEvent} {c : TableCommand}

/-! ## The number of entries -/

theorem count_eq (t : HandleTable) : t.count = t.entries.countP (·.isSome) := by
  have counted : ∀ (es : List (Option HandleEntry)) (n : Nat),
      es.foldl (fun n e => if e.isSome then n + 1 else n) n = n + es.countP (·.isSome) := by
    intro es
    induction es with
    | nil => exact fun _ => rfl
    | cons e es ih =>
      intro n
      rw [foldl_cons, ih, countP_cons]
      cases e with
      | none => rfl
      | some e => exact Nat.add_right_comm n 1 _
  rw [count, ← Array.foldl_toList, counted, Array.countP_toList, Nat.zero_add]

theorem count_put (nonzero : h ≠ 0) (inside : h.toNat ≤ t.entries.size) (x : Option HandleEntry) :
    (t.put h x).count + (if (t.get? h).isSome then 1 else 0)
      = t.count + if x.isSome then 1 else 0 := by
  rw [count_eq, count_eq]
  exact countP_put (·.isSome) nonzero inside x

theorem count_put_some (he : t.get? h = some e) (e' : HandleEntry) :
    (t.put h (some e')).count = t.count := by
  obtain ⟨nonzero, inside⟩ := le_size_of_get? he
  have counted := count_put nonzero inside (some e')
  rw [he] at counted
  exact Nat.add_right_cancel counted

/-! ## What is told -/

theorem Numbered.insert_told (ht : t.Numbered) {kind : HandleEventKind}
    (run : runFrom (TableOp.insert e kind) t = (.ok h, t')) :
    t'.count = t.count + 1 ∧ ∃ entries freed,
      t' = ({ t with entries, freed } : HandleTable).notify ⟨kind, h, e.resource, e.rep⟩ := by
  rcases TableOp.insert_cases t e kind with ⟨isOpen, _⟩ | ⟨_, f, refused⟩
  · cases hf : t.freed with
    | cons number freed =>
      obtain ⟨nonzero, inside, vacant⟩ := (ht.mem_freed number).mp (hf ▸ mem_cons_self)
      have counted := count_put nonzero inside (some e)
      rw [vacant] at counted
      rw [TableOp.insert_reusing isOpen hf] at run
      cases run
      exact ⟨counted, _, _, rfl⟩
    | nil =>
      rw [TableOp.insert_growing isOpen hf] at run
      cases run
      refine ⟨?_, t.entries.push (some e), t.freed, rfl⟩
      rw [count_eq, count_eq]
      exact Array.countP_push ..
  · rw [refused] at run
    cases run

theorem Consistent.count_release (ht : t.Consistent) (he : t.get? h = some e)
    (kind : HandleEventKind) : (t.release h e kind).2.count + 1 = t.count := by
  have he' : (t.repaid e.lender).get? h = some e := by
    rw [get?_repaid, he, Option.map_some, if_neg (ht.lender_ne he)]
  have same : (t.repaid e.lender).count = t.count := by
    rcases t.repaid_cases e.lender with ⟨same, _⟩ | ⟨l, hl, repaid⟩
    · rw [same]
    · rw [repaid]
      exact count_put_some hl _
  obtain ⟨nonzero, inside⟩ := le_size_of_get? he'
  have counted := count_put nonzero inside none
  rw [he', same] at counted
  exact counted

theorem release_frame (t : HandleTable) (h : Handle) (e : HandleEntry) (kind : HandleEventKind) :
    ∃ entries freed, (t.release h e kind).2 = { t with entries, freed } := by
  rw [release_eq]
  rcases t.repaid_cases e.lender with ⟨same, _⟩ | ⟨l, hl, repaid⟩
  · rw [same]
    exact ⟨_, _, rfl⟩
  · rw [repaid]
    exact ⟨_, _, rfl⟩

/-- What an observer was told, in order. -/
def seenBy (o : Observer) (t : HandleTable) : List HandleEvent :=
  ((t.told.filter (·.1 == o)).map (·.2)).reverse

theorem seenBy_notify (once : t.observers.count o = 1) (ev : HandleEvent) :
    (t.notify ev).seenBy o = t.seenBy o ++ [ev] := by
  have told : ((t.observers.map (·, ev)).reverse.filter (·.1 == o)).map (·.2) = [ev] := by
    rw [filter_reverse, filter_map, map_reverse, map_map, Function.comp_def,
      Function.comp_def, filter_beq, once]
    rfl
  rw [seenBy, notify, filter_append, map_append, told, reverse_append]
  rfl

/-! ## The invariant -/

def eventsOf (h : Handle) (log : List HandleEvent) : List HandleEvent :=
  log.filter (·.handle == h)

theorem eventsOf_snoc_self (log : List HandleEvent) (ev : HandleEvent) :
    eventsOf ev.handle (log ++ [ev]) = eventsOf ev.handle log ++ [ev] := by
  simp [eventsOf]

theorem eventsOf_snoc_ne (log : List HandleEvent) (ne : h ≠ ev.handle) :
    eventsOf h (log ++ [ev]) = eventsOf h log := by
  simp [eventsOf, Ne.symm ne]

/-- The log tells which handles are live, and as what. -/
structure Tracks (log : List HandleEvent) (t : HandleTable) : Prop where
  uses : ∀ h, Uses (eventsOf h log)
  live : ∀ h e, t.get? h = some e → ∃ ev ∈ (eventsOf h log).getLast?, ev.Announces e
  vacant : ∀ h, t.get? h = none → ∀ ev ∈ (eventsOf h log).getLast?, ev.kind.opens = false
  count : t.count + log.countP (!·.kind.opens) = log.countP (·.kind.opens)

theorem Tracks.of_entries (ht : Tracks log t) (same : t'.entries = t.entries) : Tracks log t' := by
  have lookup : ∀ h, t'.get? h = t.get? h := fun h => by simp only [get?, same]
  refine ⟨ht.uses, fun h e he => ht.live h e ((lookup h).symm.trans he),
    fun h vacant => ht.vacant h ((lookup h).symm.trans vacant), ?_⟩
  rw [HandleTable.count, same]
  exact ht.count

theorem Announces.with_loans {cond : Prop} [Decidable cond] {loans : Nat}
    (told : ev.Announces e) : ev.Announces (if cond then { e with loans } else e) := by
  split
  · exact ⟨told.kind, told.resource, told.rep⟩
  · exact told

theorem Tracks.opening (ht : Tracks log t) (joined : t.Joined ev.handle e t')
    (told : ev.Announces e) (count : t'.count = t.count + 1) : Tracks (log ++ [ev]) t' := by
  refine ⟨fun h => ?_, fun h e' he' => ?_, fun h vacant => ?_, ?_⟩
  · by_cases hh : h = ev.handle
    · subst hh
      rw [eventsOf_snoc_self]
      refine (ht.uses _).snoc (fun _ => told.opens) fun before hb => .inr ⟨?_, told.opens⟩
      exact ht.vacant _ joined.fresh before hb
    · rw [eventsOf_snoc_ne log hh]
      exact ht.uses h
  · by_cases hh : h = ev.handle
    · subst hh
      rw [joined.self] at he'
      cases he'
      rw [eventsOf_snoc_self, getLast?_concat]
      exact ⟨ev, rfl, told⟩
    · rw [joined.others h hh] at he'
      obtain ⟨e0, he0, rfl⟩ := Option.map_eq_some_iff.mp he'
      obtain ⟨ev0, last, told0⟩ := ht.live h e0 he0
      rw [eventsOf_snoc_ne log hh]
      exact ⟨ev0, last, Announces.with_loans told0⟩
  · have hh : h ≠ ev.handle := by
      rintro rfl
      rw [joined.self] at vacant
      cases vacant
    rw [joined.others h hh, Option.map_eq_none_iff] at vacant
    rw [eventsOf_snoc_ne log hh]
    exact ht.vacant h vacant
  · have before := ht.count
    simp only [countP_append, countP_singleton, told.opens, count]
    simp only [Bool.not_true, Bool.false_eq_true, if_false, if_true]
    omega

theorem Tracks.closing (ht : Tracks log t) (released : t.Released ev.handle e t')
    (he : t.get? ev.handle = some e) (closes : ev.kind.opens = false)
    (resource : ev.resource = e.resource) (rep : ev.rep = e.rep)
    (borrowed : ev.kind = .borrowReturned → e.owned = false) (count : t'.count + 1 = t.count) :
    Tracks (log ++ [ev]) t' := by
  obtain ⟨opening, last, told⟩ := ht.live _ e he
  refine ⟨fun h => ?_, fun h e' he' => ?_, fun h vacant => ?_, ?_⟩
  · by_cases hh : h = ev.handle
    · subst hh
      rw [eventsOf_snoc_self]
      refine (ht.uses _).snoc (fun none => ?_) fun before hb => .inl ?_
      · rw [none] at last
        cases last
      · cases Option.mem_unique last hb
        refine ⟨told.opens, closes, resource.trans told.resource.symm, rep.trans told.rep.symm,
          fun returned => ?_⟩
        rw [told.kind, borrowed returned]
        rfl
    · rw [eventsOf_snoc_ne log hh]
      exact ht.uses h
  · have hh : h ≠ ev.handle := by
      rintro rfl
      rw [released.self] at he'
      cases he'
    rw [released.others h hh] at he'
    obtain ⟨e0, he0, rfl⟩ := Option.map_eq_some_iff.mp he'
    obtain ⟨ev0, last, told0⟩ := ht.live h e0 he0
    rw [eventsOf_snoc_ne log hh]
    exact ⟨ev0, last, Announces.with_loans told0⟩
  · by_cases hh : h = ev.handle
    · subst hh
      rw [eventsOf_snoc_self, getLast?_concat]
      rintro _ ⟨⟩
      exact closes
    · rw [released.others h hh, Option.map_eq_none_iff] at vacant
      rw [eventsOf_snoc_ne log hh]
      exact ht.vacant h vacant
  · have before := ht.count
    simp only [countP_append, countP_singleton, closes]
    simp only [Bool.not_false, Bool.false_eq_true, if_false, if_true]
    omega

theorem Tracks.release (ht : Tracks log t) (consistent : t.Consistent) (he : t.get? h = some e)
    (kind : HandleEventKind) (closes : kind.opens = false)
    (borrowed : kind = .borrowReturned → e.owned = false) :
    Tracks (log ++ [(t.release h e kind).1]) (t.release h e kind).2 :=
  ht.closing (consistent.released he kind) he closes rfl rfl borrowed
    (consistent.count_release he kind)

theorem Tracks.releaseFrom (count : Nat) : ∀ {log : List HandleEvent} {t : HandleTable}
    (h : Handle), Tracks log t → t.Consistent →
    Tracks (log ++ (t.releaseFrom h count).1) (t.releaseFrom h count).2
      ∧ ∃ entries freed, (t.releaseFrom h count).2 = { t with entries, freed } := by
  induction count with
  | zero =>
    intro log t h ht _
    rw [HandleTable.releaseFrom, append_nil]
    exact ⟨ht, _, _, rfl⟩
  | succ count ih =>
    intro log t h ht consistent
    rw [HandleTable.releaseFrom]
    cases he : t.get? h with
    | none => exact ih (h + 1) ht consistent
    | some e =>
      by_cases owned : e.owned = true
      · simp only [if_pos owned]
        exact ih (h + 1) ht consistent
      · simp only [if_neg owned]
        have released := consistent.released he .borrowReturned
        obtain ⟨tracks, entries, freed, frame⟩ := ih (h + 1)
          (ht.release consistent he .borrowReturned rfl
            fun _ => Bool.eq_false_iff.mpr owned)
          (consistent.of_released he (fun owned' => absurd owned' owned) released)
        refine ⟨?_, entries, freed, ?_⟩
        · rw [append_assoc] at tracks
          exact tracks
        · obtain ⟨_, _, same⟩ := t.release_frame h e .borrowReturned
          rw [frame, same]

/-! ## Runs -/

/-- The command neither closes the table nor changes whether the observer is told. -/
def Spares (o : Observer) (c : TableCommand) : Prop :=
  c ≠ .close ∧ c ≠ .subscribe o ∧ c ≠ .unsubscribe o

/-- A table that `o` observes from the start on. -/
inductive Observed (o : Observer) : HandleTable → Prop where
  | start : Observed o (empty.subscribe o)
  | step {t t' : HandleTable} {r : Except Failure (Option Handle)} (c : TableCommand) :
    Observed o t → Spares o c → runFrom c.perform t = (r, t') → t'.entries.size < 2 ^ 32 →
    Observed o t'

/-- The observer is told once of each event, and what it was told is what is in the table. -/
structure Watched (o : Observer) (t : HandleTable) : Prop where
  once : t.observers.count o = 1
  tracks : Tracks (t.seenBy o) t

theorem Removes.closes {kind : HandleEventKind} (removes : Removes h e kind c) :
    kind.opens = false ∧ (kind = .borrowReturned → e.owned = false) := by
  cases c with
  | take _ _ =>
    cases removes.2.2.2
    exact ⟨rfl, fun returned => by cases returned⟩
  | drop _ =>
    cases removes.2.2
    exact ⟨rfl, fun returned => by cases returned⟩
  | endBorrow _ =>
    cases removes.2.2
    exact ⟨rfl, fun _ => removes.2.1⟩
  | _ => exact removes.elim

theorem Watched.foldl_notify (events : List HandleEvent) : ∀ {t : HandleTable},
    t.observers.count o = 1 → Tracks (t.seenBy o ++ events) t →
    Watched o (events.foldl notify t) := by
  induction events with
  | nil =>
    intro t once tracks
    rw [append_nil] at tracks
    exact ⟨once, tracks⟩
  | cons ev events ih =>
    intro t once tracks
    refine ih (t := t.notify ev) once ?_
    rw [seenBy_notify once, append_assoc]
    exact tracks.of_entries rfl

theorem Watched.opening (ht : Watched o t) (joined : t.Joined ev.handle e t')
    (told : ev.Announces e) (count : t'.count = t.count + 1)
    (frame : ∃ entries freed, t' = ({ t with entries, freed } : HandleTable).notify ev) :
    Watched o t' := by
  have tracks := ht.tracks.opening joined told count
  obtain ⟨entries, freed, rfl⟩ := frame
  exact Watched.foldl_notify [ev] (t := { t with entries, freed }) ht.once (tracks.of_entries rfl)

theorem Watched.closing {events : List HandleEvent} (ht : Watched o t)
    (tracks : Tracks (t.seenBy o ++ events) t')
    (frame : ∃ entries freed, t' = { t with entries, freed }) :
    Watched o (events.foldl notify t') := by
  obtain ⟨entries, freed, rfl⟩ := frame
  exact Watched.foldl_notify events ht.once tracks

theorem Watched.move (ht : Watched o t) (consistent : t.Consistent) (spares : Spares o c)
    {r : Except Failure (Option Handle)} (move : t.Move c r t') (few : t'.entries.size < 2 ^ 32) :
    Watched o t' := by
  have observed : ∀ observers : List Observer, observers.count o = 1 →
      Watched o { t with observers } := fun _ once =>
    ⟨once, ht.tracks.uses, ht.tracks.live, ht.tracks.vacant, ht.tracks.count⟩
  cases move with
  | refused _ => exact ht
  | looked _ _ => exact ht
  | @added _ e h _ _ lenderless _ run =>
    obtain ⟨count, frame⟩ := consistent.toNumbered.insert_told run
    exact ht.opening ((consistent.toNumbered.insert run few).joined lenderless) ⟨rfl, rfl, rfl⟩
      count frame
  | @lent owner h l _ _ hl _ run =>
    obtain ⟨count, entries, freed, frame⟩ :=
      (consistent.toNumbered.put hl { l with loans := l.loans + 1 }).insert_told run
    rw [count_put_some hl] at count
    exact ht.opening (consistent.joined_lent hl run few) ⟨rfl, rfl, rfl⟩ count
      ⟨entries, freed, frame⟩
  | @removed _ h e kind he removes =>
    have tracks := ht.tracks.release consistent he kind removes.closes.1 removes.closes.2
    exact ht.closing tracks (t.release_frame h e kind)
  | returned =>
    obtain ⟨tracks, frame⟩ := Tracks.releaseFrom t.entries.size 1 ht.tracks consistent
    exact ht.closing tracks frame
  | closed => exact absurd rfl spares.1
  | subscribed o' =>
    refine observed _ ?_
    have ne : o' ≠ o := fun heq => spares.2.1 (heq ▸ rfl)
    rw [count_append, ht.once, count_singleton, if_neg (by simpa using ne)]
  | unsubscribed o' =>
    refine observed _ ?_
    have ne : o' ≠ o := fun heq => spares.2.2 (heq ▸ rfl)
    rw [count_erase_of_ne (Ne.symm ne), ht.once]

theorem Observed.watched (ht : Observed o t) : t.Consistent ∧ Watched o t := by
  induction ht with
  | start =>
    refine ⟨consistent_of_no_entries rfl rfl, by simp [empty, subscribe],
      fun _ => ⟨nofun, .nil⟩, fun h e he => ?_, nofun, rfl⟩
    simp [get?, empty, subscribe] at he
  | step c _ spares run few ih =>
    obtain ⟨consistent, watched⟩ := ih
    exact ⟨(consistent.steps c run few).consistent,
      watched.move consistent spares (perform_move consistent.cleared c run) few⟩

/-- For an observer from the start, until the table is closed, the events of each handle begin and
end its uses in turn, each end with the resource of its beginning. The handles in use are those
whose last event began a use, which tells what their entry is. -/
theorem events_determine_table (ht : Observed o t) :
    (∀ h, Uses (eventsOf h (t.seenBy o)))
    ∧ (∀ h, (t.get? h).isSome = true ↔
        ∃ ev ∈ (eventsOf h (t.seenBy o)).getLast?, ev.kind.opens = true)
    ∧ (∀ h e, t.get? h = some e → ∃ ev ∈ (eventsOf h (t.seenBy o)).getLast?, ev.Announces e)
    ∧ t.count = (t.seenBy o).countP (·.kind.opens) - (t.seenBy o).countP (!·.kind.opens)
    ∧ (t.seenBy o).countP (!·.kind.opens) ≤ (t.seenBy o).countP (·.kind.opens) := by
  have tracks := ht.watched.2.tracks
  have count := tracks.count
  refine ⟨tracks.uses, fun h => ⟨fun live => ?_, fun ⟨ev, last, opens⟩ => ?_⟩, tracks.live,
    by omega, by omega⟩
  · obtain ⟨e, he⟩ := Option.isSome_iff_exists.mp live
    obtain ⟨ev, last, told⟩ := tracks.live h e he
    exact ⟨ev, last, told.opens⟩
  · rw [Option.isSome_iff_ne_none]
    intro vacant
    rw [tracks.vacant h vacant ev last] at opens
    cases opens

/-- A table that issued the handle `2` twice. -/
def reissued : HandleTable :=
  [.addOwned none 7, .addOwned none 8, .drop 2, .lend 1 none].foldl
    (fun t (c : TableCommand) => (runFrom c.perform t).2) (empty.subscribe "log")

theorem events_determine_table_reissued :
    Observed "log" reissued ∧ Uses (eventsOf 2 (reissued.seenBy "log"))
    ∧ (eventsOf 2 (reissued.seenBy "log")).map (·.kind) = [.created, .dropped, .borrowed]
    ∧ reissued.count = (reissued.seenBy "log").countP (·.kind.opens)
      - (reissued.seenBy "log").countP (!·.kind.opens) := by
  have observed : Observed "log" reissued :=
    .step (.lend 1 none) (.step (.drop 2) (.step (.addOwned none 8) (.step (.addOwned none 7)
      .start ⟨nofun, nofun, nofun⟩ rfl (by decide)) ⟨nofun, nofun, nofun⟩ rfl (by decide))
      ⟨nofun, nofun, nofun⟩ rfl (by decide)) ⟨nofun, nofun, nofun⟩ rfl (by decide)
  obtain ⟨uses, _, _, count, _⟩ := events_determine_table observed
  exact ⟨observed, uses 2, rfl, count⟩

end HandleTable

end CanonicalAbi
