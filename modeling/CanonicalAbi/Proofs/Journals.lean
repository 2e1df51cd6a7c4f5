import CanonicalAbi.Proofs.Reception
import CanonicalAbi.Proofs.Relating

/-!
# Runs with a journal

A run that writes down what it does itself: the blocks that it obtains and gives back, the borrows
that it hands out, and the handle table before and after each call of something outside.
-/

namespace CanonicalAbi

variable {α β : Type}

/-! ## Journals -/

/-- A call of the allocator, a loan, or a call outside. -/
inductive JournalEntry where
  | memory (call : AllocatorCall)
  | lend (h : Handle)
  | call (before after : Option HandleTable)

/-- The newest entry is the first. -/
abbrev Journal := List JournalEntry

namespace Journal

/-- All blocks that were handed out. -/
def granted (journal : Journal) : List Allocation :=
  journal.filterMap fun
    | .memory (.alloc b) => some b
    | _ => none

/-- All loans. -/
def lent (journal : Journal) : List Handle :=
  journal.filterMap fun
    | .lend h => some h
    | _ => none

end Journal

/-- An allocator that journals what it is asked. -/
structure Journaled (α : Type) where
  inner : Option α
  journal : Journal

namespace Journaled

variable [Allocator α]

def alloc (j : Journaled α) (size align : UInt32) : Except Failure UInt32 × Journaled α :=
  match j.inner with
  | none => (.error (.invalidInput .eval "no allocator"), j)
  | some a =>
    match Allocator.alloc a size align with
    | (.ok ptr, a) => (.ok ptr, ⟨some a, .memory (.alloc ⟨ptr, size, align⟩) :: j.journal⟩)
    | (.error f, a) => (.error f, { j with inner := some a })

def free (j : Journaled α) (ptr size align : UInt32) : Journaled α :=
  match j.inner with
  | none => j
  | some a =>
    ⟨some (Allocator.free a ptr size align), .memory (.free ⟨ptr, size, align⟩) :: j.journal⟩

instance : Allocator (Journaled α) where
  alloc := alloc
  free := free

theorem free_none (blocks : AllocationList) (journal : Journal) :
    blocks.free (⟨none, journal⟩ : Journaled α) = ⟨none, journal⟩ := by
  induction blocks with
  | nil => rfl
  | cons b blocks ih =>
    rw [AllocationList.free, List.foldl_cons]
    have same : (if b.size = 0 then ⟨none, journal⟩ else Allocator.free ⟨none, journal⟩ b.ptr b.size
        b.align : Journaled α) = ⟨none, journal⟩ := by
      split <;> rfl
    rw [same]
    exact ih

theorem free_some (blocks : AllocationList) (a : α) (journal : Journal) :
    blocks.free (⟨some a, journal⟩ : Journaled α)
      = ⟨some (blocks.free a), ((freeCalls blocks).map .memory).reverse ++ journal⟩ := by
  induction blocks generalizing a journal with
  | nil => rfl
  | cons b blocks ih =>
    simp only [AllocationList.free, List.foldl_cons, freeCalls]
    by_cases empty : b.size = 0
    · rw [if_pos empty, if_pos empty, List.filter_cons_of_neg (by simpa using empty)]
      exact ih a journal
    · rw [if_neg empty, if_neg empty, List.filter_cons_of_pos (by simpa using empty), List.map_cons,
        List.map_cons, List.reverse_cons, List.append_assoc]
      exact ih _ _

end Journaled

namespace World

def journaled (w : World α) (journal : Journal) : World (Journaled α) where
  memory := w.memory
  allocator := some ⟨w.allocator, journal⟩
  table := w.table
  log := w.log
  crossing := w.crossing

/-- The world without the journal. -/
def plain (w : World (Journaled α)) : World α where
  memory := w.memory
  allocator := w.allocator.bind (·.inner)
  table := w.table
  log := w.log
  crossing := w.crossing

def journal (w : World (Journaled α)) : Journal := (w.allocator.map (·.journal)).getD []

def tell (entry : JournalEntry) (w : World (Journaled α)) : World (Journaled α) :=
  { w with allocator := w.allocator.map fun j => { j with journal := entry :: j.journal } }

@[simp] theorem plain_journaled (w : World α) (journal : Journal) :
    (w.journaled journal).plain = w := rfl

@[simp] theorem tell_journaled (w : World α) (journal : Journal) (entry : JournalEntry) :
    (w.journaled journal).tell entry = w.journaled (entry :: journal) := rfl

def Tells (w : World (Journaled α)) (w' : World α) : Prop := ∃ journal, w = w'.journaled journal

end World

def Action.journaled (x : Action α β) : Action (Journaled α) β := do
  let w ← get
  let (result, w') := x.run.run w.plain
  set (w'.journaled (.call w.table w'.table :: w.journal))
  match result with
  | .ok b => pure b
  | .error f => throw f

def Host.journaled (host : Host α) : Host (Journaled α) where
  core := host.core.map fun f name params => (f name params).journaled
  interface := host.interface.map fun f function args => (f function args).journaled

theorem Action.runFrom_journaled (x : Action α β) (w : World (Journaled α)) :
    runFrom x.journaled w = ((runFrom x w.plain).1, (runFrom x w.plain).2.journaled
      (.call w.table (runFrom x w.plain).2.table :: w.journal)) := by
  rw [journaled, runFrom_bind_ok (runFrom_get w)]
  simp only [run_run_eq]
  rcases runFrom x w.plain with ⟨f | b, w'⟩ <;> rfl

/-! ## Tracing -/

namespace Traced

/-- Writes down the borrow that an instruction handed out, if it did. -/
def record (i : Instr) (results : List Value) : Exec (Journaled α) Unit :=
  match i with
  | .lowerHandle .borrow _ _ =>
    modify fun m => { m with
      world := m.world.tell (.lend (results.headD .nothing).core.toUInt32) }
  | _ => pure ()

variable [Allocator α]

mutual

def step (c : Setting (Journaled α)) (scope : Scope) : Step → Exec (Journaled α) Unit
  | .exec i args outs blocks => do
    let values ← Exec.getRegs args
    let results ← Exec.instr c scope blocks.length (fun n scope => nth c scope n blocks) i values
    record i results
    Exec.setRegs outs results
  | .scratch size align out => do
    let ptr ← Exec.act (.alloc size align)
    modify fun m => { m with scratch := ⟨ptr, size, align⟩ :: m.scratch }
    Exec.setRegs [out] [.ofU32 ptr]

def steps (c : Setting (Journaled α)) (scope : Scope) : List Step → Exec (Journaled α) Unit
  | [] => pure ()
  | s :: ss => do
    step c scope s
    steps c scope ss

def block (c : Setting (Journaled α)) (scope : Scope) :
    Block → Exec (Journaled α) (List Value)
  | .mk ss results => do
    steps c scope ss
    Exec.getRegs results

def nth (c : Setting (Journaled α)) (scope : Scope) :
    Nat → List Block → Exec (Journaled α) (List Value)
  | 0, b :: _ => block c scope b
  | n + 1, _ :: bs => nth c scope n bs
  | _, [] => pure []

end

end Traced

/-- The machine at the end of the steps of a run with a journal, and how they ended. -/
def Program.traceSteps [Allocator α] (p : Program) (host : Host α) (args : List Value)
    (w : World α) : Except Failure Unit × Machine (Journaled α) :=
  runFrom (Traced.steps ⟨host.journaled, p.ownsLifted⟩ { args } p.body.steps)
    (p.startOn args.length (w.journaled []))

/-- The run of a program, with a journal. -/
def Program.trace [Allocator α] (p : Program) (host : Host α) (args : List Value) (w : World α) :
    Except Failure (List Value) × World (Journaled α) :=
  p.ending (p.traceSteps host args w)

/-! ## The journal changes nothing -/

namespace World

variable [Allocator α]

theorem answers_tells : World.Answers (World.Tells (α := α)) where
  memory := by
    rintro _ w ⟨journal, rfl⟩
    rfl
  table := by
    rintro _ w ⟨journal, rfl⟩
    rfl
  withMemory := by
    rintro _ w memory _ ⟨journal, rfl⟩
    exact ⟨journal, rfl⟩
  withTable := by
    rintro _ w table ⟨journal, rfl⟩
    exact ⟨journal, rfl⟩
  alloc size align := by
    refine .of_runFrom ?_
    rintro _ ⟨memory, allocator, table, log, crossing⟩ ⟨journal, rfl⟩
    rw [Action.alloc, Action.alloc, runFrom_bind_ok (runFrom_get _),
      runFrom_bind_ok (runFrom_get _)]
    rcases allocator with _ | a
    · exact ⟨rfl, journal, rfl⟩
    · simp only [journaled, Allocator.alloc, Journaled.alloc]
      rcases Allocator.alloc a size align with ⟨f | ptr, a'⟩
      · exact ⟨rfl, journal, rfl⟩
      · exact ⟨rfl, _, rfl⟩
  free ptr size align := by
    refine .update ?_
    rintro _ ⟨memory, allocator, table, log, crossing⟩ ⟨journal, rfl⟩
    rcases allocator with _ | a
    · exact ⟨journal, rfl⟩
    · exact ⟨_, rfl⟩

end World

theorem Action.journaled_related (x : Action α β) :
    Related World.Tells World.Tells World.Tells x.journaled x := by
  refine .of_runFrom ?_
  rintro _ w ⟨journal, rfl⟩
  rw [runFrom_journaled]
  exact ⟨rfl, _, rfl⟩

theorem Setting.matches_journaled (host : Host α) (owned : Bool) :
    Setting.Matches World.Tells ⟨host.journaled, owned⟩ ⟨host, owned⟩ where
  owned := rfl
  core := by
    change Option.Rel _ (host.core.map _) host.core
    rcases host.core with _ | f
    · exact .none
    · refine .some fun name params => ?_
      refine Related.bind (S := World.Tells) (.update ?_) fun _ =>
        Related.bind (S := World.Tells) (.update ?_) fun _ => (f name params).journaled_related
      all_goals
        rintro _ w ⟨journal, rfl⟩
        exact ⟨journal, rfl⟩
  interface := by
    change Option.Rel _ (host.interface.map _) host.interface
    rcases host.interface with _ | f
    · exact .none
    · refine .some fun function args => ?_
      refine Related.bind (S := World.Tells) (.update ?_) fun _ =>
        Related.bind (S := World.Tells) (.update ?_) fun _ => (f function args).journaled_related
      all_goals
        rintro _ w ⟨journal, rfl⟩
        exact ⟨journal, rfl⟩

namespace Traced

/-- The machine with the journal does what the other does. -/
abbrev Tells : Machine (Journaled α) → Machine α → Prop := Machine.Beside World.Tells Eq

theorem record_related (i : Instr) (results : List Value)
    {S : Machine (Journaled α) → Machine α → Prop}
    {x : Exec (Journaled α) β} {y : Exec α β} (h : Related Tells Tells S x y) :
    Related Tells Tells S (do record i results; x) y := by
  have kept : ∀ m (m' : Machine α), Tells m m' →
      ∃ m1, runFrom (record i results) m = (.ok (), m1) ∧ Tells m1 m' := by
    intro m m' hm
    unfold record
    split
    · obtain ⟨journal, hw⟩ := hm.world
      refine ⟨_, rfl, ⟨⟨.lend (results.headD .nothing).core.toUInt32 :: journal, ?_⟩, hm.registers,
        hm.borrowed, hm.scratch, hm.lent, hm.results⟩⟩
      simp only [hw, World.tell_journaled]
    · exact ⟨m, rfl, hm⟩
  intro m m' hm
  obtain ⟨m1, ran, hm1⟩ := kept m m' hm
  rw [runFrom_bind_ok ran]
  exact h m1 m' hm1

theorem getRegs_related (regs : List Reg) :
    Related (Tells (α := α)) Tells Tells (Exec.getRegs regs) (Exec.getRegs regs) := by
  intro m m' hm
  refine .inl ⟨regs.map m.reg, m, m', rfl, ?_, hm⟩
  have same : m.reg = m'.reg := by
    funext r
    rw [Machine.reg, hm.registers, Machine.reg]
  rw [same]
  rfl

theorem setRegs_related (regs : List Reg) (values : List Value) :
    Related (Tells (α := α)) Tells Tells (Exec.setRegs regs values) (Exec.setRegs regs values) :=
  .update fun m m' hm => ⟨hm.world, by simp only [hm.registers], hm.borrowed, hm.scratch, hm.lent,
    hm.results⟩

variable [Allocator α] {host : Host α} {owned : Bool}

mutual

theorem step_related (scope : Scope) : ∀ s : Step,
    Related Tells Tells Tells (step ⟨host.journaled, owned⟩ scope s)
      (Exec.step ⟨host, owned⟩ scope s)
  | .exec i args outs blocks => by
    refine (getRegs_related args).bind fun values => ?_
    have alike := Exec.instr_paired (F := Tells) (G := Eq) (fun _ _ h => h) World.answers_tells
      (Setting.matches_journaled host owned) scope blocks.length
      (fun n scope => nth_related scope n blocks) i values
    exact alike.bind fun results => record_related i results (setRegs_related outs results)
  | .scratch size align out => by
    refine (Exec.act_paired (fun _ _ h => h) (World.answers_tells.alloc size align)).bind
      fun ptr => ?_
    exact (Exec.scratch_paired ⟨ptr, size, align⟩).bind fun _ =>
      setRegs_related [out] [.ofU32 ptr]

theorem steps_related (scope : Scope) : ∀ ss : List Step,
    Related Tells Tells Tells (steps ⟨host.journaled, owned⟩ scope ss)
      (Exec.steps ⟨host, owned⟩ scope ss)
  | [] => .pure ()
  | s :: ss => (step_related scope s).bind fun _ => steps_related scope ss

theorem nth_related (scope : Scope) : ∀ (n : Nat) (blocks : List Block),
    Related Tells Tells Tells (nth ⟨host.journaled, owned⟩ scope n blocks)
      (Exec.nth ⟨host, owned⟩ scope n blocks)
  | 0, .mk ss results :: _ => (steps_related scope ss).bind fun _ => getRegs_related results
  | n + 1, _ :: bs => nth_related scope n bs
  | _, [] => by
    rw [nth, Exec.nth]
    exact .pure []

end

end Traced

theorem AllocationList.free_map_inner [Allocator α] (blocks : AllocationList) (w : World α)
    (journal : Journal) :
    ∃ journal', (some ⟨w.allocator, journal⟩ : Option (Journaled α)).map blocks.free
      = some ⟨w.allocator.map blocks.free, journal'⟩ := by
  rcases w.allocator with _ | a
  · exact ⟨journal, congrArg some (Journaled.free_none blocks journal)⟩
  · exact ⟨_, congrArg some (Journaled.free_some blocks a journal)⟩

namespace Program

variable [Allocator α]

theorem freeAll_related (blocks : AllocationList) :
    Related World.Tells World.Tells World.Tells (Action.freeAll blocks : Action (Journaled α) Unit)
      (Action.freeAll blocks) := by
  refine .update ?_
  rintro _ w ⟨journal, rfl⟩
  obtain ⟨journal', freed⟩ := blocks.free_map_inner w journal
  refine ⟨journal', ?_⟩
  simp only [World.journaled, freed]

omit [Allocator α] in
theorem note_related (entry : LogEntry) :
    Related World.Tells World.Tells World.Tells (Action.note entry : Action (Journaled α) Unit)
      (Action.note entry) := by
  refine .update ?_
  rintro _ w ⟨journal, rfl⟩
  exact ⟨journal, rfl⟩

theorem returnBorrow_related (h : Handle) :
    Related World.Tells World.Tells World.Tells (returnBorrow h : Action (Journaled α) Unit)
      (returnBorrow h) := by
  intro w w' hw
  rw [runFrom_returnBorrow, runFrom_returnBorrow]
  rcases World.answers_tells.onTable (.endBorrow h) w w' hw with
    ⟨b, w1, w1', ran, ran', hw1⟩ | ⟨e, w1, w1', ran, ran', hw1⟩ <;> rw [ran, ran']
  · exact .inl ⟨(), w1, w1', rfl, rfl, hw1⟩
  · obtain ⟨journal, rfl⟩ := hw1
    exact .inl ⟨(), _, _, rfl, rfl, journal, rfl⟩

theorem cleanUp_related (p : Program) {m : Machine (Journaled α)} {m' : Machine α}
    (hm : Traced.Tells m m') :
    Related World.Tells World.Tells World.Tells (p.cleanUp m) (p.cleanUp m') := by
  have returned : ∀ hs : List Handle, Related World.Tells World.Tells World.Tells
      (hs.forM returnBorrow : Action (Journaled α) PUnit) (hs.forM returnBorrow) := by
    intro hs
    induction hs with
    | nil => exact .pure _
    | cons h hs ih => exact (returnBorrow_related h).bind fun _ => ih
  rw [cleanUp, cleanUp, hm.lent, hm.borrowed, hm.scratch]
  refine (returned _).bind fun _ => (freeAll_related _).bind fun _ => ?_
  exact .ite (freeAll_related _) (.pure _)

theorem trace_tells (p : Program) (host : Host α) (args : List Value) (w : World α) :
    (p.trace host args w).1 = (runFrom (p.run host args) w).1
    ∧ World.Tells (p.trace host args w).2 (runFrom (p.run host args) w).2 := by
  have start : Traced.Tells (p.startOn args.length (w.journaled [])) (p.startOn args.length w) :=
    ⟨⟨[], rfl⟩, rfl, rfl, rfl, rfl, rfl⟩
  rw [runFrom_run_steps, trace, traceSteps]
  rcases Traced.steps_related { args } p.body.steps _ _ start with
    ⟨b, m, m', ran, ran', hm⟩ | ⟨e, m, m', ran, ran', hm⟩ <;> rw [ran, ran']
  · have ended : Related World.Tells World.Tells World.Tells (do p.cleanUp m; return m.results)
        (do p.cleanUp m'; return m'.results) := by
      rw [hm.results]
      exact (p.cleanUp_related hm).bind fun _ => .pure _
    exact ended.outcome hm.world
  · have ended : Related World.Tells World.Tells World.Tells
        (do Action.note (.runFailed p.function.name e); p.cleanUp m; throw e :
          Action _ (List Value))
        (do Action.note (.runFailed p.function.name e); p.cleanUp m'; throw e) :=
      (note_related _).bind fun _ => (p.cleanUp_related hm).bind fun _ => .throw (fun _ _ h => h) e
    exact ended.outcome hm.world

end Program

end CanonicalAbi
