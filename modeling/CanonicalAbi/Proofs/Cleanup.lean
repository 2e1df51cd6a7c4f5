import CanonicalAbi.Proofs.Holding

/-!
# Cleaning up

However a run ends, it frees the blocks that it held for its own time, and takes back the borrows
that it handed out, provided that what it called left those alone.
-/

namespace CanonicalAbi

open List

variable {α β : Type}

/-! ## Blocks -/

namespace Books

variable {holds : Bool} {k k' : Books}

theorem Step.granted (s : Step true k k')
    (h : (Journal.granted k.journal).Perm (k.borrowed ++ k.scratch)) :
    (Journal.granted k'.journal).Perm (k'.borrowed ++ k'.scratch) := by
  cases s with
  | borrow b => exact h.cons b
  | scratch b => exact (h.cons b).trans perm_middle.symm
  | grant b loose => cases loose
  | free b => exact h
  | table c own quiet ht ran => exact h
  | lend c lends ht ran => exact h
  | call after => exact h

theorem Step.lent (s : Step holds k k') (h : Journal.lent k.journal = k.lent) :
    Journal.lent k'.journal = k'.lent := by
  cases s with
  | lend c lends ht ran => exact congrArg (_ :: ·) h
  | _ => exact h

end Books

/-! ## Borrows -/

/-- A call leaves handles alone: their entries are the same before and after it. It keeps a table in
order that it finds so, and numbers have not run out. -/
structure LeavesAlone (handles : List Handle) (before after : Option HandleTable) : Prop where
  few : ∀ t, before = some t → t.entries.size < 2 ^ 32
  consistent : (∀ t, before = some t → t.Consistent) → ∀ t, after = some t → t.Consistent
  entries : ∀ h ∈ handles, after.bind (·.get? h) = before.bind (·.get? h)

/-- All calls left alone the borrows that had been handed out by then. -/
def Journal.Benign : Journal → Prop
  | [] => True
  | .call before after :: rest => LeavesAlone (Journal.lent rest) before after ∧ Journal.Benign rest
  | _ :: rest => Journal.Benign rest

namespace Books

variable {holds : Bool} {k k' : Books}

/-- The loans of a run are live borrows of a consistent table, each noted once. -/
structure Good (k : Books) : Prop where
  consistent : ∀ t, k.table = some t → t.Consistent
  valid : ∀ h ∈ k.lent, ∃ t e, k.table = some t ∧ t.get? h = some e ∧ e.owned = false
  nodup : k.lent.Nodup

/-- Books that are good as long as calls leave borrows alone and numbers do not run out. -/
def Sound (k : Books) : Prop :=
  Journal.Benign k.journal → (∀ t, k.table = some t → t.entries.size < 2 ^ 32) → k.Good

theorem Step.sound (s : Step holds k k') (hlent : Journal.lent k.journal = k.lent)
    (h : k.Sound) : k'.Sound := by
  intro benign few
  cases s with
  | borrow b => exact ⟨(h benign few).consistent, (h benign few).valid, (h benign few).nodup⟩
  | scratch b => exact ⟨(h benign few).consistent, (h benign few).valid, (h benign few).nodup⟩
  | grant b loose => exact ⟨(h benign few).consistent, (h benign few).valid, (h benign few).nodup⟩
  | free b => exact ⟨(h benign few).consistent, (h benign few).valid, (h benign few).nodup⟩
  | @table t t' r c own quiet ht ran =>
    have few' := few t' rfl
    have good := h benign fun t0 ht0 => by
      rw [ht] at ht0
      cases ht0
      exact Nat.lt_of_le_of_lt (HandleTable.size_le_of_inRun own ran) few'
    have consistent := good.consistent t ht
    refine ⟨fun t0 ht0 => ?_, fun b hb => ?_, good.nodup⟩
    · cases ht0
      exact (consistent.steps c ran few').consistent
    · obtain ⟨t0, e, ht0, he, borrowed⟩ := good.valid b hb
      rw [ht] at ht0
      cases ht0
      exact ⟨t', e, rfl, consistent.borrowsKept own ran few' b e he borrowed, borrowed⟩
  | @lend t t' h' c lends ht ran =>
    have few' := few t' rfl
    have own : c.inRun = true := by
      cases c <;> first | rfl | cases lends
    have good := h benign fun t0 ht0 => by
      rw [ht] at ht0
      cases ht0
      exact Nat.lt_of_le_of_lt (HandleTable.size_le_of_inRun own ran) few'
    have consistent := good.consistent t ht
    obtain ⟨e', borrowed', joined, _⟩ := consistent.joined_lend lends ran few'
    refine ⟨fun t0 ht0 => ?_, fun b hb => ?_, nodup_cons.mpr ⟨fun listed => ?_, good.nodup⟩⟩
    · cases ht0
      exact (consistent.steps c ran few').consistent
    · rcases mem_cons.mp hb with rfl | hb
      · exact ⟨t', e', rfl, joined.self, borrowed'⟩
      · obtain ⟨t0, e, ht0, he, borrowed⟩ := good.valid b hb
        rw [ht] at ht0
        cases ht0
        exact ⟨t', e, rfl, consistent.borrowsKept own ran few' b e he borrowed, borrowed⟩
    · obtain ⟨t0, e, ht0, he, _⟩ := good.valid h' listed
      rw [ht] at ht0
      cases ht0
      rw [joined.fresh] at he
      cases he
  | call after =>
    obtain ⟨alone, benign⟩ := benign
    have good := h benign alone.few
    refine ⟨alone.consistent good.consistent, fun b hb => ?_, good.nodup⟩
    obtain ⟨t, e, ht, he, borrowed⟩ := good.valid b hb
    have same := alone.entries b (hlent ▸ hb)
    rw [ht, Option.bind_some, he] at same
    obtain ⟨t', ht', he'⟩ := Option.bind_eq_some_iff.mp same
    exact ⟨t', e, ht', he', borrowed⟩

theorem sound_of_steps {table : Option HandleTable} (ht : ∀ t, table = some t → t.Consistent)
    (steps : Relation.ReflTransGen (Step holds) ⟨[], table, [], [], []⟩ k) :
    Journal.lent k.journal = k.lent ∧ k.Sound := by
  induction steps with
  | refl =>
    refine ⟨rfl, fun _ _ => ⟨ht, fun h hh => ?_, nodup_nil⟩⟩
    cases hh
  | tail _ s ih => exact ⟨s.lent ih.1, s.sound ih.1 ih.2⟩

theorem granted_of_steps {table : Option HandleTable}
    (steps : Relation.ReflTransGen (Step true) ⟨[], table, [], [], []⟩ k) :
    (Journal.granted k.journal).Perm (k.borrowed ++ k.scratch) := by
  induction steps with
  | refl => exact .refl _
  | tail _ s ih => exact s.granted ih

end Books

/-! ## Taking back -/

namespace Program

theorem returnBorrow_table (h : Handle) (w : World α) :
    (runFrom (returnBorrow h) w).2.table
      = w.table.map fun t => (runFrom (TableOp.endBorrow h) t).2 := by
  rw [runFrom_returnBorrow, Action.onTable, runFrom_bind_ok (runFrom_get w)]
  rcases ht : w.table with _ | t
  · exact ht
  · simp only [run_run_eq, Option.map_some]
    rcases runFrom (TableOp.endBorrow h) t with ⟨f | _, t'⟩ <;> rfl

theorem returnBorrows_cons (h : Handle) (hs : List Handle) (w : World α) :
    (runFrom ((h :: hs).forM returnBorrow) w).2
      = (runFrom (hs.forM returnBorrow) (runFrom (returnBorrow h) w).2).2 := by
  obtain ⟨w1, returned, _⟩ := returnBorrow_ok h w
  have split : (h :: hs).forM returnBorrow
      = (do returnBorrow h; hs.forM returnBorrow : Action α PUnit) := rfl
  rw [split, runFrom_bind_ok returned, returned]

theorem returnBorrows_size (hs : List Handle) (w : World α) :
    (runFrom (hs.forM returnBorrow) w).2.table.map (·.entries.size)
      = w.table.map (·.entries.size) := by
  induction hs generalizing w with
  | nil => rfl
  | cons h hs ih =>
    rw [returnBorrows_cons, ih, returnBorrow_table, Option.map_map]
    have same : (fun t : HandleTable => t.entries.size) ∘
        (fun t => (runFrom (TableOp.endBorrow h) t).2) = fun t => t.entries.size :=
      funext fun t => t.size_endBorrow h
    rw [same]

theorem returnBorrows_gone {hs : List Handle} (nodup : hs.Nodup) {w : World α} {t : HandleTable}
    (ht : w.table = some t) (consistent : t.Consistent)
    (valid : ∀ h ∈ hs, ∃ e, t.get? h = some e ∧ e.owned = false) :
    ∃ t', (runFrom (hs.forM returnBorrow) w).2.table = some t' ∧ t'.Consistent
      ∧ (∀ h ∈ hs, t'.get? h = none) ∧ ∀ h, t.get? h = none → t'.get? h = none := by
  induction hs generalizing w t with
  | nil => exact ⟨t, ht, consistent, fun h hh => absurd hh not_mem_nil, fun _ vacant => vacant⟩
  | cons h hs ih =>
    obtain ⟨unlisted, nodup⟩ := nodup_cons.mp nodup
    obtain ⟨e, he, borrowed⟩ := valid h mem_cons_self
    obtain ⟨consistent1, gone, vacant, kept⟩ := consistent.endBorrow he borrowed
    have table1 : (runFrom (returnBorrow h) w).2.table
        = some (runFrom (TableOp.endBorrow h) t).2 := by
      rw [returnBorrow_table, ht]
      rfl
    have valid1 : ∀ h' ∈ hs, ∃ e', (runFrom (TableOp.endBorrow h) t).2.get? h' = some e'
        ∧ e'.owned = false := by
      intro h' hh'
      obtain ⟨e', he', borrowed'⟩ := valid h' (mem_cons_of_mem _ hh')
      have ne : h' ≠ h := by
        rintro rfl
        exact unlisted hh'
      exact ⟨e', kept h' e' ne he' borrowed', borrowed'⟩
    obtain ⟨t', ht', consistent', gone', vacant'⟩ := ih nodup table1 consistent1 valid1
    rw [returnBorrows_cons]
    refine ⟨t', ht', consistent', fun h' hh' => ?_, fun h' hv => vacant' h' (vacant h' hv)⟩
    rcases mem_cons.mp hh' with rfl | hh'
    · exact vacant' h' gone
    · exact gone' h' hh'

variable [Allocator α]

theorem cleanUp_table (p : Program) (m : Machine α) (w : World α) :
    (runFrom (p.cleanUp m) w).2.table
      = (runFrom (m.lent.reverse.forM returnBorrow) w).2.table := by
  obtain ⟨w1, returned, _⟩ := returnBorrows_ok m.lent.reverse w
  rw [cleanUp, runFrom_bind_ok returned, returned, Action.freeAll,
    runFrom_bind_ok (runFrom_modify _ _), runFrom_ite]
  split <;> rfl

theorem ending_cleanUp (p : Program) (r : Except Failure Unit) (m : Machine α) :
    ∃ w, w.allocator = m.world.allocator ∧ w.table = m.world.table
      ∧ Cleaned p.dir m w (p.ending (r, m)).2
      ∧ (p.ending (r, m)).2.table = (runFrom (m.lent.reverse.forM returnBorrow) w).2.table := by
  rcases r with f | _
  · let noted : World α := { m.world with log := .runFailed p.function.name f :: m.world.log }
    obtain ⟨w', cleaned, effect⟩ := p.cleanUp_ok m noted
    have ended : (p.ending (.error f, m)).2 = w' := by
      rw [ending, Action.note, runFrom_bind_ok (runFrom_modify _ _), runFrom_bind_ok cleaned]
      rfl
    have table := p.cleanUp_table m noted
    rw [cleaned] at table
    exact ⟨noted, rfl, rfl, ended ▸ effect, ended ▸ table⟩
  · obtain ⟨w', cleaned, effect⟩ := p.cleanUp_ok m m.world
    have ended : (p.ending (.ok (), m)).2 = w' := by
      rw [ending, runFrom_bind_ok cleaned]
      rfl
    have table := p.cleanUp_table m m.world
    rw [cleaned] at table
    exact ⟨m.world, rfl, rfl, ended ▸ effect, ended ▸ table⟩

end Program

/-! ## The end of the journal -/

namespace Journal

theorem lent_memory (calls : List AllocatorCall) (journal : Journal) :
    lent (calls.map .memory ++ journal) = lent journal := by
  induction calls with
  | nil => rfl
  | cons call calls ih => exact ih

theorem benign_memory (calls : List AllocatorCall) (journal : Journal) :
    Benign (calls.map .memory ++ journal) ↔ Benign journal := by
  induction calls with
  | nil => exact Iff.rfl
  | cons call calls ih => exact ih

end Journal

variable [Allocator α]

theorem Cleaned.journal {dir : Direction} {m : Machine (Journaled α)} {w w' : World (Journaled α)}
    (h : Cleaned dir m w w') {inner : Option α} {journal : Journal}
    (hj : w.allocator = some ⟨inner, journal⟩) :
    w'.journal = (if inner.isSome then (freeCalls (m.borrowed.reverse
      ++ if dir = .imported then m.scratch.reverse else [])).reverse.map .memory else [])
        ++ journal := by
  have allocator := h.allocator
  rw [hj, Option.map_some] at allocator
  rw [World.journal, allocator, Option.map_some, Option.getD_some]
  rcases inner with _ | a
  · rw [Journaled.free_none, Journaled.free_none]
    rfl
  · rw [Journaled.free_some, Journaled.free_some, freeCalls_append, reverse_append,
      map_append, ← map_reverse, ← map_reverse, Option.isSome_some, if_pos rfl,
      append_assoc]

namespace Program

theorem traceSteps_reached {holds : Bool} {host : Host α}
    (keeps : holds = true → host.KeepsAllocator) (p : Program)
    (held : holds = true → StepsHeld p.body.steps) (args : List Value) (w : World α) :
    Reached holds ⟨[], w.table, [], [], []⟩ (p.traceSteps host args w).2 := by
  have start : Reached holds ⟨[], w.table, [], [], []⟩
      (p.startOn args.length (w.journaled [])) :=
    ⟨⟨w.allocator, [], rfl, fun _ some => absurd rfl some⟩, .refl⟩
  exact (Traced.steps_keeps keeps { args } p.body.steps held).invariant _ start

theorem trace_frees {host : Host α} (keeps : host.KeepsAllocator) {p : Program}
    (imported : p.dir = .imported) (held : StepsHeld p.body.steps) (args : List Value)
    (w : World α) :
    ∃ during freed,
      (p.trace host args w).2.journal.reverse = during ++ (freeCalls freed).map .memory
      ∧ (Journal.granted during).Perm freed := by
  have reached : Reached true _ (p.traceSteps host args w).2 :=
    traceSteps_reached (fun _ => keeps) p (fun _ => held) args w
  rw [trace]
  revert reached
  rcases p.traceSteps host args w with ⟨r, m⟩
  intro reached
  obtain ⟨inner, journal, hj, books, backed⟩ := reached.exists_journal
  have granted := Books.granted_of_steps reached.books
  rw [books] at granted
  obtain ⟨w0, allocator, _, cleaned, _⟩ := p.ending_cleanUp r m
  have ended := cleaned.journal (allocator.trans hj)
  rw [if_pos imported] at ended
  refine ⟨journal.reverse, m.borrowed.reverse ++ m.scratch.reverse, ?_, ?_⟩
  · rw [ended, reverse_append]
    by_cases present : inner.isSome = true
    · rw [if_pos present, map_reverse, reverse_reverse]
    · -- Without an allocator there was nothing to free.
      have none : Journal.granted journal = [] := by
        by_contra some
        exact present (backed rfl some)
      rw [none] at granted
      have nothing := append_eq_nil_iff.mp granted.nil_eq.symm
      rw [if_neg present]
      have borrowed : m.borrowed = [] := nothing.1
      have scratch : m.scratch = [] := nothing.2
      rw [borrowed, scratch]
      rfl
  · have turned : (Journal.granted journal.reverse).Perm (Journal.granted journal) :=
      (reverse_perm journal).filterMap _
    exact (turned.trans granted).trans
      ((reverse_perm _).symm.append (reverse_perm _).symm)

theorem trace_returns (p : Program) (host : Host α) (args : List Value) {w : World α}
    (consistent : ∀ t, w.table = some t → t.Consistent)
    (benign : Journal.Benign (p.trace host args w).2.journal) {t : HandleTable}
    (ht : (p.trace host args w).2.table = some t) (few : t.entries.size < 2 ^ 32) :
    t.Consistent ∧ ∀ h ∈ Journal.lent (p.trace host args w).2.journal, t.get? h = none := by
  have reached : Reached false _ (p.traceSteps host args w).2 :=
    traceSteps_reached (fun h => absurd h Bool.false_ne_true) p
      (fun h => absurd h Bool.false_ne_true) args w
  rw [trace] at benign ht ⊢
  revert reached benign ht
  rcases p.traceSteps host args w with ⟨r, m⟩
  intro benign ht reached
  obtain ⟨inner, journal, hj, books, _⟩ := reached.exists_journal
  obtain ⟨lent, sound⟩ := Books.sound_of_steps consistent reached.books
  obtain ⟨w0, allocator, table, cleaned, returned⟩ := p.ending_cleanUp r m
  have ended := cleaned.journal (allocator.trans hj)
  have journals : ∃ calls : List AllocatorCall,
      (p.ending (r, m)).2.journal = calls.map .memory ++ m.books.journal := by
    rw [ended, books]
    split
    · exact ⟨_, rfl⟩
    · exact ⟨[], rfl⟩
  obtain ⟨calls, journals⟩ := journals
  rw [journals, Journal.benign_memory] at benign
  rw [journals, Journal.lent_memory, lent]
  rw [returned] at ht
  have sizes := returnBorrows_size m.lent.reverse w0
  rw [ht, table] at sizes
  obtain ⟨t0, ht0, size⟩ := Option.map_eq_some_iff.mp sizes.symm
  have good := sound benign fun t1 ht1 => by
    have same : t1 = t0 := Option.some.inj (ht1.symm.trans ht0)
    rw [same, size]
    exact few
  have valid : ∀ h ∈ m.lent.reverse, ∃ e, t0.get? h = some e ∧ e.owned = false := by
    intro h hh
    obtain ⟨t1, e, ht1, he, borrowed⟩ := good.valid h (mem_reverse.mp hh)
    have same : t1 = t0 := Option.some.inj (ht1.symm.trans ht0)
    exact ⟨e, same ▸ he, borrowed⟩
  have nodup : m.lent.reverse.Nodup := nodup_reverse.mpr good.nodup
  obtain ⟨t', ht', consistent', gone, _⟩ := returnBorrows_gone nodup (table.trans ht0)
    (good.consistent t0 ht0) valid
  rw [ht] at ht'
  cases ht'
  exact ⟨consistent', fun h hh => gone h (mem_reverse.mpr hh)⟩

end Program

/-- A run cleans up however it ends, whatever the program, the arguments and what it calls are. With
a journal it is the same run. In the caller's half of an import it frees the blocks that it obtained
itself, each with its size and alignment, after all else that it does; blocks of no bytes need not
be freed. In every program, a borrow that the run handed out is no longer valid if the functions it
called left it alone, and since the table is in order, no owner counts it any more. -/
theorem run_cleans_up (p : Program) (host : Host α) (args : List Value) (w : World α) :
    (p.trace host args w).1 = (runFrom (p.run host args) w).1
    ∧ (p.trace host args w).2.plain = (runFrom (p.run host args) w).2
    ∧ (∀ raw s, (Program.compile .imported .lowerArgs raw s).1 = .ok p → host.KeepsAllocator →
      ∃ during freed,
        (p.trace host args w).2.journal.reverse = during ++ (freeCalls freed).map .memory
        ∧ (Journal.granted during).Perm freed)
    ∧ ((∀ t, w.table = some t → t.Consistent) → Journal.Benign (p.trace host args w).2.journal →
      ∀ t, (runFrom (p.run host args) w).2.table = some t → t.entries.size < 2 ^ 32 →
        t.Consistent ∧ ∀ h ∈ Journal.lent (p.trace host args w).2.journal, t.get? h = none) := by
  obtain ⟨result, journal, world⟩ := p.trace_tells host args w
  have plain : (p.trace host args w).2.plain = (runFrom (p.run host args) w).2 := by
    rw [world]
    exact World.plain_journaled _ journal
  refine ⟨result, plain, fun raw s compiled keeps => ?_, fun consistent benign t ht few => ?_⟩
  · obtain ⟨imported, held⟩ := Program.compile_held compiled
    exact Program.trace_frees keeps imported held args w
  · rw [← plain] at ht
    exact p.trace_returns host args consistent benign ht few

namespace Library

def graph : Graph where
  defs := #[{ name := "book", kind := some .resource }, { kind := some (.borrow (some 0)) }]

def find : Function where
  name := "find"
  params := [⟨"text", some .string⟩, ⟨"book", some (.defn 1)⟩]
  results := [⟨"", some (.scalar .u32)⟩]

theorem acyclic : graph.Acyclic := Graph.Descending.acyclic (by decide)

def caller : Program :=
  (Code.call Program.isByte { dir := .imported, mode := .lowerArgs }
    (graph.shapes.function find)).program (graph.shapes.function find) .imported .lowerArgs

def shelf : HandleTable :=
  (runFrom (TableCommand.addOwned (some (graph.label 0)) 7).perform .empty).2

def world : World Bump where
  memory := .zeros 64
  allocator := some (.ofRange 8 64)
  table := some shelf

def closed : Host Bump where
  core := some fun _ _ => throw (.invalidInput .eval "closed")

def args : List Value := [.string [65, 100, 97], .borrow 7 1]

end Library

open Library in
/-- A library that is closed has the book back, and the text that it was given is freed. -/
theorem run_cleans_up_library :
    (runFrom (caller.run closed args) world).1.isOk = false
    ∧ Journal.granted (caller.trace closed args world).2.journal = [⟨8, 3, 1⟩]
    ∧ (∃ during freed,
      (caller.trace closed args world).2.journal.reverse = during ++ (freeCalls freed).map .memory
      ∧ (Journal.granted during).Perm freed)
    ∧ Journal.lent (caller.trace closed args world).2.journal = [2]
    ∧ ∃ t, (runFrom (caller.run closed args) world).2.table = some t ∧ t.Consistent
      ∧ t.get? 2 = none := by
  have written : ∃ t, (caller.trace closed args world).2.journal = [.memory (.free ⟨8, 3, 1⟩),
      .call (some t) (some t), .lend 2, .memory (.alloc ⟨8, 3, 1⟩)] ∧ t.entries.size < 2 ^ 32 :=
    ⟨_, rfl, by decide⟩
  obtain ⟨found, hjournal, few⟩ := written
  obtain ⟨_, _, frees, returns⟩ := run_cleans_up caller closed args world
  have keeps : closed.KeepsAllocator := by
    refine ⟨fun f hf name params w hw => ?_, fun f hf => by cases hf⟩
    cases hf
    exact hw
  have consistent : ∀ t, world.table = some t → t.Consistent := by
    intro t ht
    cases ht
    have reached : shelf.Reachable :=
      .step (.addOwned (some (graph.label 0)) 7) .start rfl (by decide)
    exact reached.consistent
  have benign : Journal.Benign (caller.trace closed args world).2.journal := by
    rw [hjournal]
    refine ⟨⟨fun t ht => ?_, id, fun _ _ => rfl⟩, trivial⟩
    cases ht
    exact few
  have lent : Journal.lent (caller.trace closed args world).2.journal = [2] := by
    rw [hjournal]
    rfl
  obtain ⟨during, freed, ended, granted⟩ :=
    frees Program.isByte (.ofGraph graph (some find)) (compile_eq _ acyclic (by decide) _ _) keeps
  obtain ⟨t, ht, size⟩ : ∃ t, (runFrom (caller.run closed args) world).2.table = some t
      ∧ t.entries.size < 2 ^ 32 := ⟨_, rfl, by decide⟩
  obtain ⟨consistent', gone⟩ := returns consistent benign t ht size
  have blocks : Journal.granted (caller.trace closed args world).2.journal = [⟨8, 3, 1⟩] := by
    rw [hjournal]
    rfl
  refine ⟨rfl, blocks, ⟨during, freed, ended, granted⟩, lent, t, ht, consistent', gone 2 ?_⟩
  rw [lent]
  exact List.mem_singleton_self 2

end CanonicalAbi
