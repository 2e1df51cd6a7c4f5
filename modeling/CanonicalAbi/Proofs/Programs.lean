import CanonicalAbi.Machine.Call
import CanonicalAbi.Proofs.Accounts
import CanonicalAbi.Proofs.Recordings

/-!
# Programs

The program of a half of a call is its code. A run of it begins with empty registers, does what the
code does, and cleans up: loans are taken back, and memory that lasted for the run is freed.
-/

namespace CanonicalAbi

/-! ## Compilation -/

def Code.program (code : Code Unit) (f : FunctionShape) (dir : Direction) (mode : Mode) : Program :=
  ⟨f, dir, mode, .mk (code.run 0).steps [], (code.run 0).next⟩

section Compile

variable (raw : RawRule) {g : Graph} (hg : g.Acyclic) {f : Function}
  (hf : validate g (some f) = [])

include hg hf

theorem compile_eq (dir : Direction) (mode : Mode) :
    (Program.compile dir mode raw (.ofGraph g (some f))).1
      = .ok ((Code.call raw { dir, mode } (g.shapes.function f)).program (g.shapes.function f) dir
        mode) := by
  obtain ⟨Γ, log, _, hnext, hchecked⟩ := recorded_call raw hg hf dir mode ""
  rw [Program.compile, hchecked, hnext]
  simp [Program.ofChecked, Program.ofRecording, Subject.ofGraph, Recording.extend, Recording.empty,
    Code.program]

theorem compilePostReturn_eq :
    (Program.compilePostReturn raw (.ofGraph g (some f))).1
      = .ok ((Code.postReturn (g.shapes.function f)).program (g.shapes.function f) .exported
        .liftArgs) := by
  obtain ⟨log, hchecked⟩ := recorded_postReturn raw hg hf ""
  rw [Program.compilePostReturn, hchecked]
  simp [Program.ofChecked, Program.ofRecording, Subject.ofGraph, Recording.extend, Recording.empty,
    Code.program]

end Compile

/-! ## The log -/

def LogEntry.isInterfaceCall : LogEntry → Bool
  | .callInterface _ _ => true
  | _ => false

variable {α : Type}

namespace World

/-- The log grew by entries of which `n` are calls of functions of the interface. -/
def Notes (w : World α) (n : Nat) (w' : World α) : Prop :=
  ∃ entries, w'.log = entries ++ w.log ∧ entries.countP (·.isInterfaceCall) = n

namespace Notes

variable {w w' w'' : World α} {n n' : Nat}

theorem of_eq (h : w'.log = w.log) : w.Notes 0 w' := ⟨[], h, rfl⟩

theorem of_entry {entry : LogEntry} (h : w'.log = entry :: w.log)
    (hn : [entry].countP (·.isInterfaceCall) = n) : w.Notes n w' :=
  ⟨[entry], h, hn⟩

theorem trans (h : w.Notes n w') (h' : w'.Notes n' w'') : w.Notes (n' + n) w'' := by
  obtain ⟨entries, grown, count⟩ := h
  obtain ⟨entries', grown', count'⟩ := h'
  refine ⟨entries' ++ entries, by rw [grown', grown, List.append_assoc], ?_⟩
  rw [List.countP_append, count, count']

end Notes

end World

/-! ## Cleaning up -/

/-- The end of a run frees what lasted for it, and nothing else. -/
structure Cleaned [Allocator α] (dir : Direction) (m : Machine α) (w w' : World α) : Prop where
  memory : w'.memory = w.memory
  crossing : w'.crossing = w.crossing
  table : m.lent = [] → w'.table = w.table
  notes : w.Notes 0 w'
  allocator : w'.allocator = w.allocator.map fun a =>
    AllocationList.free (if dir = .imported then m.scratch.reverse else [])
      (AllocationList.free m.borrowed.reverse a)

namespace Program

theorem runFrom_returnBorrow (h : Handle) (w : World α) :
    runFrom (returnBorrow h) w = match runFrom (Action.onTable (.endBorrow h)) w with
      | (.ok _, w') => (.ok (), w')
      | (.error f, w') => (.ok (), { w' with log := .borrowKept h f :: w'.log }) := by
  simp only [returnBorrow, runFrom, tryCatch, tryCatchThe, MonadExceptOf.tryCatch,
    ExceptT.tryCatch, ExceptT.mk, bind, StateT.bind]
  rcases Action.onTable (.endBorrow h) w with ⟨_ | _, _⟩ <;> rfl

theorem returnBorrow_ok (h : Handle) (w : World α) :
    ∃ w', runFrom (returnBorrow h) w = (.ok (), w') ∧ w'.memory = w.memory
      ∧ w'.crossing = w.crossing ∧ w'.allocator = w.allocator ∧ w.Notes 0 w' := by
  have same : ∃ t, (runFrom (Action.onTable (.endBorrow h)) w).2 = { w with table := t } := by
    simp only [Action.onTable, runFrom_bind, runFrom_get, continueWith_ok]
    rcases w.table with _ | t
    · exact ⟨_, rfl⟩
    · simp only [run_run_eq]
      rcases runFrom (TableOp.endBorrow h) t with ⟨_ | _, t'⟩ <;> exact ⟨_, rfl⟩
  rw [runFrom_returnBorrow]
  obtain ⟨t, same⟩ := same
  revert same
  rcases runFrom (Action.onTable (.endBorrow h)) w with ⟨f | _, w'⟩
  · rintro rfl
    exact ⟨_, rfl, rfl, rfl, rfl, .of_entry rfl rfl⟩
  · rintro rfl
    exact ⟨_, rfl, rfl, rfl, rfl, .of_eq rfl⟩

theorem returnBorrows_ok (hs : List Handle) (w : World α) :
    ∃ w', runFrom (hs.forM returnBorrow) w = (.ok (), w') ∧ w'.memory = w.memory
      ∧ w'.crossing = w.crossing ∧ w'.allocator = w.allocator ∧ w.Notes 0 w'
      ∧ (hs = [] → w'.table = w.table) := by
  induction hs generalizing w with
  | nil => exact ⟨w, rfl, rfl, rfl, rfl, .of_eq rfl, fun _ => rfl⟩
  | cons h hs ih =>
    obtain ⟨w1, first, memory, crossing, allocator, notes⟩ := returnBorrow_ok h w
    obtain ⟨w2, rest, memory', crossing', allocator', notes', _⟩ := ih w1
    refine ⟨w2, ?_, memory'.trans memory, crossing'.trans crossing, allocator'.trans allocator,
      notes.trans notes', nofun⟩
    have split : (h :: hs).forM returnBorrow
        = (do returnBorrow h; hs.forM returnBorrow : Action α PUnit) := rfl
    rw [split, runFrom_bind_ok first]
    exact rest

variable [Allocator α]

theorem cleanUp_ok (p : Program) (m : Machine α) (w : World α) :
    ∃ w', runFrom (p.cleanUp m) w = (.ok (), w') ∧ Cleaned p.dir m w w' := by
  obtain ⟨w1, returned, memory, crossing, allocator, notes, table⟩ :=
    returnBorrows_ok m.lent.reverse w
  have table' : m.lent = [] → w1.table = w.table := fun h => table (by rw [h]; rfl)
  rw [cleanUp, runFrom_bind_ok returned, Action.freeAll, runFrom_bind_ok (runFrom_modify _ _),
    runFrom_ite]
  by_cases imported : p.dir = .imported
  · rw [if_pos imported]
    refine ⟨_, rfl, memory, crossing, table', notes, ?_⟩
    rw [if_pos imported, ← allocator]
    exact Option.map_map ..
  · rw [if_neg imported]
    refine ⟨_, rfl, memory, crossing, table', notes, ?_⟩
    rw [if_neg imported, ← allocator]
    rfl

/-! ## Running -/

def startOn (p : Program) (args : Nat) (w : World α) : Machine α where
  world := { w with log := .run p.function.name p.dir p.mode args :: w.log }
  registers := Array.replicate p.registers .nothing

theorem runFrom_run (p : Program) (host : Host α) (args : List Value) (w : World α) :
    runFrom (p.run host args) w
      = match runFrom (Exec.block ⟨host, p.ownsLifted⟩ { args } p.body)
          (p.startOn args.length w) with
        | (.ok _, m) => runFrom (do p.cleanUp m; return m.results) m.world
        | (.error f, m) =>
          runFrom (do Action.note (.runFailed p.function.name f); p.cleanUp m; throw f)
            m.world := by
  rw [run, Action.note, runFrom_bind_ok (runFrom_modify _ _), runFrom_bind_ok (runFrom_get _)]
  simp only [run_run_eq]
  rw [startOn]
  rcases runFrom (Exec.block ⟨host, p.ownsLifted⟩ { args } p.body) _ with ⟨f | _, m⟩ <;> rfl

theorem run_does {E : Failure → Prop} {code : Code Unit} {f : FunctionShape} {dir : Direction}
    {mode : Mode} {host : Host α} {args : List Value} {w : World α} {Q : Machine α → Prop}
    (h : code.Runs E ⟨host, (code.program f dir mode).ownsLifted⟩ { args }
      ⟨0, (code.program f dir mode).startOn args.length w⟩ fun _ q => Q q.machine) :
    Does E ((code.program f dir mode).run host args) w fun results w' =>
      ∃ m, Q m ∧ results = m.results ∧ Cleaned dir m m.world w' := by
  have enough : (code.run 0).next ≤ (Array.replicate (code.run 0).next Value.nothing).size := by
    rw [Array.size_replicate]
  have body : Does E (Exec.block ⟨host, (code.program f dir mode).ownsLifted⟩ { args }
      (code.program f dir mode).body) ((code.program f dir mode).startOn args.length w)
      fun _ m => Q m :=
    (h enough).bind fun _ m hm => Does.of_ok (Exec.runFrom_getRegs [] m) hm.2
  rw [Does] at body ⊢
  rw [runFrom_run]
  revert body
  rcases runFrom (Exec.block _ _ (code.program f dir mode).body) _ with ⟨e | _, m⟩
  · intro he
    obtain ⟨w', cleaned, _⟩ := cleanUp_ok (code.program f dir mode) m
      { m.world with log := .runFailed f.name e :: m.world.log }
    have failed : runFrom (do
        Action.note (.runFailed f.name e)
        (code.program f dir mode).cleanUp m
        throw e : Action α (List Value)) m.world = (.error e, w') :=
      (runFrom_bind_ok (runFrom_modify _ _)).trans (runFrom_bind_ok cleaned)
    exact Does.of_error failed he
  · intro hq
    obtain ⟨w', cleaned, effect⟩ := cleanUp_ok (code.program f dir mode) m m.world
    exact Does.of_ok (runFrom_bind_ok cleaned) ⟨m, hq, rfl, effect⟩

end Program

/-! ## Memory -/

namespace Cleaned

variable [BumpLike α] {dir : Direction} {m : Machine α} {w w' : World α}

theorem calls (h : Cleaned dir m w w') (ready : w.Ready) :
    w.Calls (freeCalls (m.borrowed.reverse ++ if dir = .imported then m.scratch.reverse else []))
      w' := by
  obtain ⟨a, ha, _⟩ := ready
  have allocator := h.allocator
  rw [ha] at allocator
  refine ⟨a, _, ha, allocator, ?_⟩
  rw [freeCalls_append]
  exact (performs_free m.borrowed.reverse a).append (performs_free _ _)

theorem ready (h : Cleaned dir m w w') (ready : w.Ready) :
    w'.Ready ∧ w'.frontier = w.frontier := by
  obtain ⟨a, a', ha, ha', performs⟩ := h.calls ready
  obtain ⟨_, ha1, bounds⟩ := ready
  rw [ha] at ha1
  cases ha1
  obtain ⟨bounds', frontier⟩ := Performs.over_free performs bounds
  refine ⟨⟨a', ha', h.memory ▸ bounds'⟩, ?_⟩
  simp only [World.frontier, ha, ha', frontier]

theorem balances (h : Cleaned dir m w w') (ready : w.Ready) (live : List Allocation) :
    w.Balances (m.borrowed ++ ((if dir = .imported then m.scratch else []) ++ live)) w' live := by
  refine World.Balances.perm_left ⟨_, h.calls ready, .frees _ live⟩ (List.Perm.filter _ ?_)
  rw [List.append_assoc]
  refine (List.reverse_perm _).append (List.Perm.append_right live ?_)
  split
  · exact List.reverse_perm _
  · exact .nil

end Cleaned

end CanonicalAbi
