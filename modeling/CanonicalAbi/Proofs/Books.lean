import CanonicalAbi.Proofs.Borrows
import CanonicalAbi.Proofs.Journals
import Mathlib.Logic.Relation

/-!
# The books of a run

What a run owes when it ends: the blocks that it has to free and the borrows that it has to take
back, together with the journal and the handle table.
-/

namespace CanonicalAbi

variable {α β : Type}

/-! ## Steps -/

/-- What a machine keeps account of. -/
structure Books where
  journal : Journal
  table : Option HandleTable
  borrowed : AllocationList
  scratch : AllocationList
  lent : List Handle

def Machine.books (m : Machine (Journaled α)) : Books where
  journal := m.world.journal
  table := m.world.table
  borrowed := m.borrowed
  scratch := m.scratch
  lent := m.lent

/-- One thing that a run can do to its books. If it `holds` its blocks, it obtains none that it does
not free. -/
inductive Books.Step (holds : Bool) : Books → Books → Prop where
  | borrow (k : Books) (b : Allocation) : Step holds k
      { k with journal := .memory (.alloc b) :: k.journal, borrowed := b :: k.borrowed }
  | scratch (k : Books) (b : Allocation) : Step holds k
      { k with journal := .memory (.alloc b) :: k.journal, scratch := b :: k.scratch }
  | grant (k : Books) (b : Allocation) (loose : holds = false) : Step holds k
      { k with journal := .memory (.alloc b) :: k.journal }
  | free (k : Books) (b : Allocation) : Step holds k
      { k with journal := .memory (.free b) :: k.journal }
  | table {k : Books} {t t' : HandleTable} {r : Except Failure (Option Handle)} (c : TableCommand)
      (own : c.inRun = true) (quiet : c.lends = true → ∃ f, r = .error f) (ht : k.table = some t)
      (ran : runFrom c.perform t = (r, t')) : Step holds k { k with table := some t' }
  | lend {k : Books} {t t' : HandleTable} {h : Handle} (c : TableCommand) (lends : c.lends = true)
      (ht : k.table = some t) (ran : runFrom c.perform t = (.ok (some h), t')) : Step holds k
      { k with journal := .lend h :: k.journal, table := some t', lent := h :: k.lent }
  | call (k : Books) (after : Option HandleTable) : Step holds k
      { k with journal := .call k.table after :: k.journal, table := after }

/-- There is a journal. If a run holds its blocks, the allocator that they came from is there too.
-/
def World.Backed (holds : Bool) (w : World (Journaled α)) : Prop :=
  ∃ inner journal, w.allocator = some ⟨inner, journal⟩
    ∧ (holds = true → Journal.granted journal ≠ [] → inner.isSome)

/-- There is a journal, and the books come from `start` in steps. -/
structure Reached (holds : Bool) (start : Books) (m : Machine (Journaled α)) : Prop where
  backed : m.world.Backed holds
  books : Relation.ReflTransGen (Books.Step holds) start m.books

namespace Reached

variable {holds : Bool} {start : Books} {m m' : Machine (Journaled α)}

theorem same (h : Reached holds start m) (allocator : m'.world.allocator = m.world.allocator)
    (table : m'.world.table = m.world.table) (borrowed : m'.borrowed = m.borrowed)
    (scratch : m'.scratch = m.scratch) (lent : m'.lent = m.lent) : Reached holds start m' := by
  have books : m'.books = m.books := by
    simp only [Machine.books, World.journal, allocator, table, borrowed, scratch, lent]
  have backed : m'.world.Backed holds := by
    rw [World.Backed, allocator]
    exact h.backed
  exact ⟨backed, books ▸ h.books⟩

theorem step (h : Reached holds start m) (backed : m'.world.Backed holds)
    (s : Books.Step holds m.books m'.books) : Reached holds start m' :=
  ⟨backed, h.books.tail s⟩

theorem exists_journal (h : Reached holds start m) :
    ∃ inner journal, m.world.allocator = some ⟨inner, journal⟩ ∧ m.books.journal = journal
      ∧ (holds = true → Journal.granted journal ≠ [] → inner.isSome) := by
  obtain ⟨inner, journal, hj, backed⟩ := h.backed
  refine ⟨inner, journal, hj, ?_, backed⟩
  rw [Machine.books, World.journal, hj]
  rfl

end Reached

/-! ## What instructions do -/

def Action.KeepsAllocator (x : Action α β) : Prop :=
  ∀ w, w.allocator.isSome → (runFrom x w).2.allocator.isSome

/-- Calls outside never take the allocator away. -/
structure Host.KeepsAllocator (host : Host α) : Prop where
  core : ∀ f, host.core = some f → ∀ name params, (f name params).KeepsAllocator
  interface : ∀ f, host.interface = some f → ∀ function args, (f function args).KeepsAllocator

/-- Whether the blocks that an instruction obtains are freed by the run. -/
def Instr.Held : Instr → Prop
  | lowerString realloc | lowerBytes _ _ realloc | lowerList _ _ realloc => realloc.isEmpty = true
  | allocate _ _ _ => False
  | _ => True

theorem Instr.Held.realloc {i : Instr} (h : i.Held) {realloc : String}
    (hr : i.realloc? = some realloc) : realloc.isEmpty = true := by
  cases i <;> cases hr <;> exact h

def Machine.hold (m : Machine (Journaled α)) (inner : Option α) (journal : Journal) :
    Machine (Journaled α) :=
  { m with world := { m.world with allocator := some ⟨inner, journal⟩ } }

namespace Exec

variable {holds : Bool} {start : Books} {m : Machine (Journaled α)}

theorem act_same {a : Action (Journaled α) β}
    (h : ∀ w, (runFrom a w).2.allocator = w.allocator ∧ (runFrom a w).2.table = w.table)
    (hm : Reached holds start m) : Reached holds start (runFrom (act a) m).2 := by
  rw [runFrom_act]
  exact hm.same (h m.world).1 (h m.world).2 rfl rfl rfl

theorem onTable_reached {op : TableOp β} (c : TableCommand) (own : c.inRun = true)
    (quiet : c.lends = false) (same : ∀ t, (runFrom c.perform t).2 = (runFrom op t).2)
    (hm : Reached holds start m) : Reached holds start (runFrom (act (.onTable op)) m).2 := by
  cases ht : m.world.table with
  | none =>
    rw [runFrom_act, Action.onTable, runFrom_bind_ok (runFrom_get _), ht]
    exact hm.same rfl rfl rfl rfl rfl
  | some t =>
    rw [runFrom_onTable op ht]
    have ran : runFrom c.perform t = ((runFrom c.perform t).1, (runFrom op t).2) := by
      rw [← same t]
    have used : Books.Step holds m.books { m.books with table := some (runFrom op t).2 } :=
      .table c own (fun lends => by rw [quiet] at lends; cases lends) ht ran
    exact hm.step hm.backed used

theorem requireTable_reached (hm : Reached holds start m) :
    Reached holds start (runFrom requireTable m).2 := by
  cases ht : m.world.table with
  | none =>
    obtain ⟨e, refused⟩ := runFrom_requireTable_none ht
    rw [refused]
    exact hm
  | some t =>
    rw [runFrom_requireTable_some ht]
    exact hm

theorem outcome_reached (name : String) (count : Nat) {γ : Type}
    {call : Action (Journaled α) (List γ)} {x : Action α (List γ)}
    (noted : ∀ w, ∃ w1, w1.allocator = w.allocator ∧ w1.table = w.table
      ∧ runFrom call w = runFrom x.journaled w1) (keeps : holds = true → x.KeepsAllocator)
    (hm : Reached holds start m) :
    Reached holds start (runFrom (outcome name count call) m).2 := by
  obtain ⟨w1, allocator, table, same⟩ := noted m.world
  have called : Reached holds start { m with
      world := (runFrom x w1.plain).2.journaled
        (.call w1.table (runFrom x w1.plain).2.table :: w1.journal) } := by
    have journal : w1.journal = m.books.journal := by
      rw [World.journal, allocator]
      rfl
    have made : Books.Step holds m.books _ := .call m.books (runFrom x w1.plain).2.table
    have backed : World.Backed holds ((runFrom x w1.plain).2.journaled
        (.call w1.table (runFrom x w1.plain).2.table :: w1.journal)) := by
      obtain ⟨inner, _, hj, rfl, backed⟩ := hm.exists_journal
      refine ⟨_, _, rfl, fun held some => keeps held _ ?_⟩
      rw [World.plain, allocator, hj]
      exact backed held (journal ▸ some)
    refine hm.step backed ?_
    rw [journal, table]
    exact made
  rw [runFrom_outcome, same, Action.runFrom_journaled]
  exact called

theorem callCore_reached {host : Host α} (keeps : holds = true → host.KeepsAllocator) (owned : Bool)
    (name : String) (signature : CoreSignature) (args : List Value) (hm : Reached holds start m) :
    Reached holds start (runFrom (callCore ⟨host.journaled, owned⟩ name signature args) m).2 := by
  simp only [callCore, Host.journaled]
  rcases hf : host.core with _ | f
  · exact hm
  · simp only [Option.map_some, bind_pure_comp, runFrom_map]
    have called : Reached holds start (runFrom (outcome name signature.results.length
        (crossCore (fun name params => (f name params).journaled) name (args.map Value.core)))
        m).2 :=
      outcome_reached name _ (x := f name (args.map Value.core)) (fun w => ⟨{ w with
        log := .callCore name (args.map Value.core) :: w.log
        crossing := { w.crossing with called := some (name, args.map Value.core) } },
        rfl, rfl, rfl⟩) (fun held => (keeps held).core f hf _ _) hm
    revert called
    rcases runFrom (outcome name _ _) m with ⟨e | b, m'⟩ <;> exact id

theorem callInterface_reached {host : Host α} (keeps : holds = true → host.KeepsAllocator)
    (owned : Bool) (function : FunctionShape) (args : List Value) (hm : Reached holds start m) :
    Reached holds start (runFrom (callInterface ⟨host.journaled, owned⟩ function args) m).2 := by
  simp only [callInterface, Host.journaled]
  rcases hf : host.interface with _ | f
  · exact hm
  · exact outcome_reached function.name _ (x := f function args) (fun w => ⟨{ w with
      log := .callInterface function.name args.length :: w.log
      crossing := { w.crossing with seen := some args } }, rfl, rfl, rfl⟩)
      (fun held => (keeps held).interface f hf _ _) hm

variable [Allocator α]

theorem runFrom_alloc {inner : Option α} {journal : Journal}
    (hj : m.world.allocator = some ⟨inner, journal⟩) (size align : UInt32) :
    (∃ e inner', runFrom (act (.alloc size align)) m = (.error e, m.hold inner' journal)
      ∧ (inner.isSome → inner'.isSome))
    ∨ ∃ ptr inner', runFrom (act (.alloc size align)) m
        = (.ok ptr, m.hold inner' (.memory (.alloc ⟨ptr, size, align⟩) :: journal))
      ∧ inner'.isSome := by
  rw [runFrom_act, Action.alloc, runFrom_bind_ok (runFrom_get _), hj]
  rcases inner with _ | a
  · exact .inl ⟨_, none, rfl, id⟩
  · simp only [Allocator.alloc, Journaled.alloc]
    rcases Allocator.alloc a size align with ⟨f | ptr, a'⟩
    · exact .inl ⟨f, some a', rfl, fun _ => rfl⟩
    · exact .inr ⟨ptr, some a', rfl, rfl⟩

theorem free_reached (ptr size align : UInt32) (hm : Reached holds start m) :
    Reached holds start (runFrom (act (.free ptr size align)) m).2 := by
  obtain ⟨inner, journal, hj, books, _⟩ := hm.exists_journal
  rw [runFrom_act, Action.free, runFrom_modify]
  rw [hj, Option.map_some]
  rcases inner with _ | a
  · exact hm.same hj.symm rfl rfl rfl rfl
  · have freed : Books.Step holds m.books _ := .free m.books ⟨ptr, size, align⟩
    rw [books] at freed
    exact hm.step ⟨_, _, rfl, fun _ _ => rfl⟩ freed

theorem alloc_reached {f : UInt32 → Exec (Journaled α) β} (size align : UInt32)
    (hm : Reached holds start m)
    (hf : ∀ ptr inner, World.Backed holds
        (m.hold inner (.memory (.alloc ⟨ptr, size, align⟩) :: m.books.journal)).world →
      Reached holds start (runFrom (f ptr)
        (m.hold inner (.memory (.alloc ⟨ptr, size, align⟩) :: m.books.journal))).2) :
    Reached holds start (runFrom (do let ptr ← act (.alloc size align); f ptr) m).2 := by
  obtain ⟨inner, journal, hj, books, backed⟩ := hm.exists_journal
  rcases runFrom_alloc hj size align with
    ⟨e, inner', refused, kept⟩ | ⟨ptr, inner', granted, present⟩
  · rw [runFrom_bind_error refused]
    have unchanged : (m.hold inner' journal).books = m.books := by
      rw [← books]
      rfl
    refine ⟨⟨inner', journal, rfl, fun held some => kept (backed held some)⟩, ?_⟩
    rw [unchanged]
    exact hm.books
  · rw [runFrom_bind_ok granted, ← books]
    exact hf ptr inner' ⟨inner', _, rfl, fun _ _ => present⟩

theorem allocFor_reached {realloc : String} (held : holds = true → realloc.isEmpty = true)
    (size align : UInt32) (hm : Reached holds start m) :
    Reached holds start (runFrom (allocFor realloc size align) m).2 := by
  refine alloc_reached size align hm fun ptr inner backed => ?_
  by_cases temporary : realloc.isEmpty = true
  · rw [if_pos temporary]
    have noted : Books.Step holds m.books _ := .borrow m.books ⟨ptr, size, align⟩
    exact hm.step backed noted
  · rw [if_neg temporary]
    have loose : holds = false := by
      rw [Bool.eq_false_iff]
      exact fun h => temporary (held h)
    have granted : Books.Step holds m.books _ := .grant m.books ⟨ptr, size, align⟩ loose
    exact hm.step backed granted

omit [Allocator α] in
/-- Lending either fails and leaves what a failed use of the table leaves, or hands out a handle. -/
theorem lend_cases (l : Label) (resource : Option Label) (v : Value) (m : Machine (Journaled α)) :
    (∃ e, runFrom (lowerHandle .borrow l resource v) m = (.error e, m))
    ∨ ∃ (c : TableCommand) (t t' : HandleTable), c.lends = true ∧ c.inRun = true
      ∧ m.world.table = some t
      ∧ ((∃ e, runFrom c.perform t = (.error e, t')
          ∧ runFrom (lowerHandle .borrow l resource v) m
            = (.error e, { m with world := { m.world with table := some t' } }))
        ∨ ∃ h, runFrom c.perform t = (.ok (some h), t')
          ∧ runFrom (lowerHandle .borrow l resource v) m
            = (.ok (.ofU32 h), { m with
                world := { m.world with table := some t' }, lent := h :: m.lent })) := by
  cases ht : m.world.table with
  | none =>
    obtain ⟨e, refused⟩ := runFrom_requireTable_none ht
    exact .inl ⟨e, runFrom_bind_error refused⟩
  | some t =>
    have present := runFrom_requireTable_some ht
    cases v with
    | borrow rep lender =>
      -- A resource without a lender becomes a borrow of its own.
      obtain ⟨c, op, lends, own, performs, chosen⟩ : ∃ (c : TableCommand) (op : TableOp Handle),
          c.lends = true ∧ c.inRun = true ∧ c.perform = some <$> op
          ∧ (if lender = 0 then TableOp.addBorrowed resource rep else TableOp.lend lender resource)
            = op := by
        by_cases alone : lender = 0
        · exact ⟨.addBorrowed resource rep, _, rfl, rfl, rfl, if_pos alone⟩
        · exact ⟨.lend lender resource, _, rfl, rfl, rfl, if_neg alone⟩
      have unfolded : runFrom (lowerHandle .borrow l resource (.borrow rep lender)) m
          = runFrom (do
              let h ← act (.onTable op)
              modify fun m => { m with lent := h :: m.lent }
              return Value.ofU32 h) m := by
        rw [← chosen]
        exact runFrom_bind_ok present
      have used := runFrom_onTable op ht
      refine .inr ⟨c, t, (runFrom op t).2, lends, own, rfl, ?_⟩
      rw [performs, runFrom_map, unfolded]
      revert used
      rcases runFrom op t with ⟨e | h, t'⟩ <;> intro used
      · exact .inl ⟨e, rfl, runFrom_bind_error used⟩
      · exact .inr ⟨h, rfl, runFrom_bind_ok used⟩
    | _ => exact .inl ⟨_, runFrom_bind_ok present⟩

theorem steady_reached {host : Host α} (keeps : holds = true → host.KeepsAllocator) (owned : Bool)
    {i : Instr} (held : holds = true → i.Held)
    (quiet : ∀ l resource, i ≠ .lowerHandle .borrow l resource) :
    Steady (Related.Always (Reached holds start)) (Related.Always (Reached holds start))
      ⟨host.journaled, owned⟩ ⟨host.journaled, owned⟩ i where
  fails _ _ h := h
  owned := rfl
  reads read := .always fun m hm => act_same (fun w => by
    rw [runFrom_bind_ok (runFrom_get w)]
    rcases read w.memory with e | b <;> exact ⟨rfl, rfl⟩) hm
  writes _ write _ := .always fun m hm => act_same (fun w => by
    rw [runFrom_bind_ok (runFrom_get w)]
    rcases write w.memory with e | memory <;> exact ⟨rfl, rfl⟩) hm
  free ptr size align := .ite (.pure ()) (.always fun m hm => free_reached ptr size align hm)
  requires := .always fun m hm => requireTable_reached hm
  owns resource rep := .always fun m hm => onTable_reached (.addOwned resource rep) rfl rfl
    (fun t => by
    rw [TableCommand.perform, runFrom_map]
    rcases runFrom (TableOp.addOwned resource rep) t with ⟨e | h, t'⟩ <;> rfl) hm
  takes h resource := .always fun m hm => onTable_reached (.take h resource) rfl rfl (fun t => by
    rw [TableCommand.perform, runFrom_bind]
    rcases runFrom (TableOp.take h resource) t with ⟨e | h, t'⟩ <;> rfl) hm
  looks h resource := .always fun m hm => onTable_reached (.rep h resource) rfl rfl (fun t => by
    rw [TableCommand.perform, runFrom_bind]
    rcases runFrom (TableOp.rep h resource) t with ⟨e | h, t'⟩ <;> rfl) hm
  returns results := .always fun m hm => hm.same rfl rfl rfl rfl rfl
  lowers realloc hr size align := .always fun m hm =>
    allocFor_reached (fun h => (held h).realloc hr) size align hm
  obtains realloc size align hi := .always fun m hm => by
    have loose : holds = false := by
      rw [Bool.eq_false_iff]
      exact fun h => by simpa [hi, Instr.Held] using held h
    rw [← bind_pure (act _)]
    refine alloc_reached size align hm fun ptr inner backed => ?_
    have granted : Books.Step holds m.books _ := .grant m.books ⟨ptr, size, align⟩ loose
    exact hm.step backed granted
  lends l resource hi := absurd hi (quiet l resource)
  callsCore name signature _ args := .always fun m hm =>
    callCore_reached keeps owned name signature args hm
  callsInterface function _ args := .always fun m hm =>
    callInterface_reached keeps owned function args hm

end Exec

/-! ## What steps do -/

mutual

/-- Whether all blocks that a step obtains are freed by the run. -/
def Step.Held : Step → Prop
  | .exec i _ _ blocks => i.Held ∧ BlocksHeld blocks
  | .scratch _ _ _ => True

def StepsHeld : List Step → Prop
  | [] => True
  | s :: ss => s.Held ∧ StepsHeld ss

def BlocksHeld : List Block → Prop
  | [] => True
  | .mk ss _ :: bs => StepsHeld ss ∧ BlocksHeld bs

end

namespace Traced

variable {holds : Bool} {start : Books}

/-- A computation keeps the books in order, also when it fails. -/
abbrev Keeps (holds : Bool) (start : Books) (x : Exec (Journaled α) β) : Prop :=
  Related (Related.Always (Reached holds start)) (Related.Always (Reached holds start))
    (Related.Always (Reached holds start)) x x

theorem getRegs_keeps (regs : List Reg) :
    Keeps holds start (Exec.getRegs regs : Exec (Journaled α) (List Value)) :=
  .always fun _ hm => hm

theorem setRegs_keeps (regs : List Reg) (values : List Value) :
    Keeps holds start (Exec.setRegs regs values : Exec (Journaled α) Unit) :=
  .always fun _ hm => hm.same rfl rfl rfl rfl rfl

theorem lend_keeps (l : Label) (resource : Option Label) (v : Value) :
    Keeps holds start (do
      let h ← Exec.lowerHandle .borrow l resource v
      record (.lowerHandle .borrow l resource) [h]
      return [h] : Exec (Journaled α) (List Value)) := by
  refine .always fun m hm => ?_
  rcases Exec.lend_cases l resource v m with ⟨e, failed⟩ | ⟨c, t, t', lends, own, ht, outcome⟩
  · rw [runFrom_bind_error failed]
    exact hm
  · rcases outcome with ⟨e, ran, failed⟩ | ⟨h, ran, lent⟩
    · rw [runFrom_bind_error failed]
      have used : Books.Step holds m.books { m.books with table := some t' } :=
        .table c own (fun _ => ⟨e, rfl⟩) ht ran
      exact hm.step hm.backed used
    · rw [runFrom_bind_ok lent]
      obtain ⟨inner, journal, hj, books, backed⟩ := hm.exists_journal
      have noted : Books.Step holds m.books _ := .lend c lends ht ran
      rw [books] at noted
      have ended : (runFrom (do
          record (.lowerHandle .borrow l resource) [.ofU32 h]
          return [.ofU32 h] : Exec (Journaled α) (List Value)) { m with
            world := { m.world with table := some t' }, lent := h :: m.lent }).2
          = ({ m with world := { m.world with table := some t' }, lent := h :: m.lent } :
              Machine (Journaled α)).hold inner (.lend h :: journal) := by
        have number : (Value.ofU32 h).core.toUInt32 = h := UInt32.toUInt32_toUInt64 h
        change ({ m with
          world := World.tell (.lend (Value.ofU32 h).core.toUInt32)
            { m.world with table := some t' }
          lent := h :: m.lent } : Machine (Journaled α)) = _
        rw [number, World.tell]
        simp only [hj, Option.map_some]
        rfl
      rw [ended]
      exact hm.step ⟨inner, _, rfl, backed⟩ noted

variable [Allocator α] {host : Host α} {owned : Bool}

mutual

theorem step_keeps (keeps : holds = true → host.KeepsAllocator) (scope : Scope) :
    ∀ s : Step, (holds = true → s.Held) →
    Keeps holds start (step ⟨host.journaled, owned⟩ scope s)
  | .exec i args outs blocks, held => by
    refine (getRegs_keeps args).bind fun values => ?_
    by_cases lends : ∃ l resource, i = .lowerHandle .borrow l resource
    · obtain ⟨l, resource, rfl⟩ := lends
      have lent : Keeps holds start (do
          let results ← (do
            let h ← Exec.lowerHandle .borrow l resource (values.headD .nothing)
            record (.lowerHandle .borrow l resource) [h]
            return [h])
          Exec.setRegs outs results : Exec (Journaled α) Unit) :=
        (lend_keeps l resource _).bind fun results => setRegs_keeps outs results
      simpa only [Exec.instr, bind_assoc, pure_bind] using lent
    · have quiet : ∀ results, record (α := α) i results = pure () := by
        intro results
        unfold record
        split
        · next l resource => exact absurd ⟨l, resource, rfl⟩ lends
        · rfl
      simp only [quiet, pure_bind]
      refine Related.bind (S := Related.Always (Reached holds start)) ?_
        fun results => setRegs_keeps outs results
      exact Exec.instr_related (Exec.steady_reached keeps owned (fun h => (held h).1)
        fun l resource hi => lends ⟨l, resource, hi⟩) scope blocks.length
        (fun n scope => nth_keeps keeps scope n blocks fun h => (held h).2) values
  | .scratch size align out, _ => by
    refine .always fun m hm => Exec.alloc_reached size align hm fun ptr inner backed => ?_
    have noted : Books.Step holds m.books _ := .scratch m.books ⟨ptr, size, align⟩
    exact hm.step backed noted

theorem steps_keeps (keeps : holds = true → host.KeepsAllocator) (scope : Scope) :
    ∀ ss : List Step, (holds = true → StepsHeld ss) →
    Keeps holds start (steps ⟨host.journaled, owned⟩ scope ss)
  | [], _ => .pure ()
  | s :: ss, held =>
    (step_keeps keeps scope s fun h => (held h).1).bind fun _ =>
      steps_keeps keeps scope ss fun h => (held h).2

theorem nth_keeps (keeps : holds = true → host.KeepsAllocator) (scope : Scope) :
    ∀ (n : Nat) (blocks : List Block), (holds = true → BlocksHeld blocks) →
      Keeps holds start (nth ⟨host.journaled, owned⟩ scope n blocks)
  | 0, .mk ss results :: _, held =>
    (steps_keeps keeps scope ss fun h => (held h).1).bind fun _ => getRegs_keeps results
  | n + 1, .mk _ _ :: bs, held => nth_keeps keeps scope n bs fun h => (held h).2
  | _, [], _ => by
    rw [nth]
    exact .pure []

end

end Traced

end CanonicalAbi
