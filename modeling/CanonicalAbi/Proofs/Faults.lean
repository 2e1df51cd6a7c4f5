import CanonicalAbi.Proofs.Discipline

/-!
# Backends that answer wrongly

What a generator does on a function is a tree: the calls that it makes of its backend, which go on
as the answers say. So backends that give the same answers receive the same calls, as long as they
do.
-/

namespace CanonicalAbi

open List

variable {σ ω : Type}

/-! ## Plans -/

/-- The calls of a backend that are to be made, each depending on the answers to those before. -/
inductive Plan (ω : Type) where
  | done
  | emit (i : Instr) (args : List ω) (next : List ω → Plan ω)
  | openBlock (next : Plan ω)
  | closeBlock (results : List ω) (next : Plan ω)
  | returnPointer (size align : UInt32) (next : ω → Plan ω)

namespace Plan

def run (b : Backend σ ω) : Plan ω → Replay σ Unit
  | done => pure ()
  | emit i args next => do
    let results ← b.issue i args
    (next results).run b
  | openBlock next => do
    modify b.openBlock
    next.run b
  | closeBlock results next => do
    modify (b.closeBlock results)
    next.run b
  | returnPointer size align next => fun st =>
    (next (b.returnPointer size align st).1).run b (b.returnPointer size align st).2

mutual

/-- The calls of a step and those that come later, given all operands so far. -/
def ofStep (env : List ω) (later : List ω → Plan ω) : Step → Plan ω
  | .exec i args _ blocks => ofBlocks env (fun env =>
      .emit i (operandsOf env args) fun results => later (env ++ results)) blocks
  | .scratch size align _ => .returnPointer size align fun addr => later (env ++ [addr])

def ofSteps (env : List ω) (later : List ω → Plan ω) : List Step → Plan ω
  | [] => later env
  | s :: ss => ofStep env (fun env => ofSteps env later ss) s

def ofBlocks (env : List ω) (later : List ω → Plan ω) : List Block → Plan ω
  | [] => later env
  | .mk steps results :: blocks => .openBlock (ofSteps env (fun env =>
      .closeBlock (operandsOf env results) (ofBlocks env later blocks)) steps)

end

@[simp] theorem runFrom_done (b : Backend σ ω) (st : σ) :
    runFrom ((done : Plan ω).run b) st = (.ok (), st) := rfl

section Steps

variable (b : Backend σ ω)

mutual

theorem run_ofStep (env : List ω) (later : List ω → Plan ω) : ∀ s : Step,
    (ofStep env later s).run b = b.replayStep env s >>= fun env => (later env).run b
  | .exec i args _ blocks => by
    rw [ofStep, run_ofBlocks, Backend.replayStep]
    simp only [run, bind_assoc, pure_bind]
  | .scratch size align _ => by
    rfl

theorem run_ofSteps (env : List ω) (later : List ω → Plan ω) : ∀ ss : List Step,
    (ofSteps env later ss).run b = b.replay env ss >>= fun env => (later env).run b
  | [] => by
    rw [ofSteps, Backend.replay, pure_bind]
  | s :: ss => by
    rw [ofSteps, run_ofStep env _ s, Backend.replay, bind_assoc]
    exact congrArg _ (funext fun env => run_ofSteps env later ss)

theorem run_ofBlocks (env : List ω) (later : List ω → Plan ω) : ∀ bs : List Block,
    (ofBlocks env later bs).run b = b.replayBlocks env bs >>= fun env => (later env).run b
  | [] => by
    rw [ofBlocks, Backend.replayBlocks, pure_bind]
  | .mk steps results :: blocks => by
    rw [ofBlocks, run, run_ofSteps env _ steps, Backend.replayBlocks]
    simp only [run, bind_assoc]
    refine congrArg _ (funext fun _ => congrArg _ (funext fun env => ?_))
    refine congrArg _ (funext fun _ => ?_)
    exact run_ofBlocks env later blocks

end

end Steps

/-! ## Calls with their answers -/

/-- A plan makes these calls and, with these answers, goes on as another one says. -/
inductive Leads : Plan ω → List (Event ω) → Plan ω → Prop where
  | nil (plan : Plan ω) : Leads plan [] plan
  | emit {i : Instr} {args results : List ω} {next : List ω → Plan ω} {es : List (Event ω)}
      {plan : Plan ω} (hresults : results.length = i.results)
      (rest : Leads (next results) es plan) :
      Leads (.emit i args next) (.emit i args results :: es) plan
  | openBlock {next plan : Plan ω} {es : List (Event ω)} (rest : Leads next es plan) :
      Leads (.openBlock next) (.openBlock :: es) plan
  | closeBlock {results : List ω} {next plan : Plan ω} {es : List (Event ω)}
      (rest : Leads next es plan) :
      Leads (.closeBlock results next) (.closeBlock results :: es) plan
  | returnPointer {size align : UInt32} {addr : ω} {next : ω → Plan ω} {es : List (Event ω)}
      {plan : Plan ω} (rest : Leads (next addr) es plan) :
      Leads (.returnPointer size align next) (.returnPointer size align addr :: es) plan

variable {b : Backend σ ω} {plan plan' : Plan ω} {es : List (Event ω)} {st st' : σ}

theorem Leads.run_eq (h : Leads plan es plan') (trace : b.Trace st es st') :
    runFrom (plan.run b) st = runFrom (plan'.run b) st' := by
  induction h generalizing st with
  | nil plan =>
    cases trace
    rfl
  | @emit i args results next es plan hresults rest ih =>
    cases trace with
    | @emit _ _ _ _ st1 _ _ answer trace =>
      have issued : runFrom (b.issue i args) st = (.ok results, st1) := by
        simp [runFrom, Backend.issue, answer, hresults]
      rw [run, runFrom_bind_ok issued]
      exact ih trace
  | openBlock rest ih =>
    cases trace with
    | openBlock trace =>
      exact ih trace
  | closeBlock rest ih =>
    cases trace with
    | closeBlock trace =>
      exact ih trace
  | returnPointer rest ih =>
    cases trace with
    | returnPointer trace => exact ih trace

theorem Leads.right (h : Leads plan es plan') {i : Instr} {args results : List ω}
    (mem : .emit i args results ∈ es) : results.length = i.results := by
  induction h with
  | nil => cases mem
  | emit hresults rest ih =>
    rcases mem_cons.mp mem with eq | mem
    · cases eq
      exact hresults
    · exact ih mem
  | openBlock rest ih | closeBlock rest ih | returnPointer rest ih =>
    rcases mem_cons.mp mem with eq | mem
    · cases eq
    · exact ih mem

/-- Where a backend stops a plan: at its end, or at an instruction that it does not answer with as
many results as that has. -/
def StopsAt (b : Backend σ ω) (st : σ) : Plan ω → Prop
  | done => True
  | emit i args _ => ∀ results st', b.emit i args st = (.ok results, st') →
      results.length ≠ i.results
  | _ => False

theorem exists_stop (b : Backend σ ω) (plan : Plan ω) (st : σ) :
    ∃ es st' plan', Leads plan es plan' ∧ b.Trace st es st' ∧ StopsAt b st' plan' := by
  induction plan generalizing st with
  | done => exact ⟨[], st, _, .nil _, .nil st, trivial⟩
  | emit i args next ih =>
    by_cases right : ∃ results st', b.emit i args st = (.ok results, st')
        ∧ results.length = i.results
    · obtain ⟨results, st1, answer, length⟩ := right
      obtain ⟨es, st', plan', leads, trace, stops⟩ := ih results st1
      exact ⟨_, st', plan', .emit length leads, .emit answer trace, stops⟩
    · exact ⟨[], st, _, .nil _, .nil st, fun results st' answer length =>
        right ⟨results, st', answer, length⟩⟩
  | openBlock next ih =>
    obtain ⟨es, st', plan', leads, trace, stops⟩ := ih (b.openBlock st)
    exact ⟨_, st', plan', .openBlock leads, .openBlock trace, stops⟩
  | closeBlock results next ih =>
    obtain ⟨es, st', plan', leads, trace, stops⟩ := ih (b.closeBlock results st)
    exact ⟨_, st', plan', .closeBlock leads, .closeBlock trace, stops⟩
  | returnPointer size align next ih =>
    obtain ⟨es, st', plan', leads, trace, stops⟩ := ih _ (b.returnPointer size align st).2
    exact ⟨_, st', plan', .returnPointer leads, .returnPointer trace, stops⟩

section Emit

variable {i : Instr} {args : List ω} {next : List ω → Plan ω}

theorem runFrom_emit_error {abort : Abort} (answered : b.emit i args st = (.error abort, st')) :
    runFrom ((emit i args next).run b) st = (.error abort, st') := by
  have issued : runFrom (b.issue i args) st = (.error abort, st') := by
    simp [runFrom, Backend.issue, answered]
  rw [run, runFrom_bind_error issued]

theorem runFrom_emit_wrong {wrong : List ω} (answered : b.emit i args st = (.ok wrong, st'))
    (faulty : wrong.length ≠ i.results) :
    runFrom ((emit i args next).run b) st = (.error (.failure
      (.stackMismatch .generate (i.name ++ " results") i.results wrong.length)), st') := by
  have issued : runFrom (b.issue i args) st = (.error (.failure
      (.stackMismatch .generate (i.name ++ " results") i.results wrong.length)), st') := by
    simp [runFrom, Backend.issue, answered, faulty]
  rw [run, runFrom_bind_error issued]

/-- A backend that answers an instruction with a wrong number of results is not called again, and
what it was called with before is what the plan says. -/
theorem stopped {pre post : List (Event ω)} {wrong : List ω}
    (received : (runFrom (plan.run b.journaled) (st, [])).2.2.reverse
      = pre ++ .emit i args wrong :: post) (faulty : wrong.length ≠ i.results) :
    post = [] ∧ (∃ next, Leads plan pre (.emit i args next)) ∧
      (runFrom (plan.run b) st).1 = .error (.failure
        (.stackMismatch .generate (i.name ++ " results") i.results wrong.length)) := by
  obtain ⟨es, st1, plan1, leads, trace, stops⟩ := exists_stop b plan st
  rw [leads.run_eq (trace.journaled [])] at received
  rw [leads.run_eq trace]
  -- the answers on the way were all right, so that the wrong one is not among them
  have absent {as bs : List (Event ω)} (eq : es = as ++ .emit i args wrong :: bs) : False :=
    faulty (leads.right (eq ▸ mem_append_right as mem_cons_self))
  cases plan1 with
  | done => exact (absent (by simpa using received)).elim
  | openBlock | closeBlock | returnPointer => exact stops.elim
  | emit j xs next =>
    rcases answered : b.emit j xs st1 with ⟨abort | results, st2⟩
    · have told : b.journaled.emit j xs (st1, es.reverse ++ [])
          = (.error abort, (st2, es.reverse ++ [])) := by
        simp [Backend.journaled, answered]
      rw [runFrom_emit_error told] at received
      exact (absent (by simpa using received)).elim
    · have told : b.journaled.emit j xs (st1, es.reverse ++ [])
          = (.ok results, (st2, .emit j xs results :: (es.reverse ++ []))) := by
        simp [Backend.journaled, answered]
      have length := stops results st2 answered
      rw [runFrom_emit_wrong told length] at received
      rw [runFrom_emit_wrong answered length]
      rcases eq_nil_or_concat post with rfl | ⟨post, last, rfl⟩
      · have eq : es ++ [.emit j xs results] = pre ++ [.emit i args wrong] := by
          simpa using received
        obtain ⟨rfl, same⟩ := append_inj' eq rfl
        cases same
        exact ⟨rfl, ⟨next, leads⟩, rfl⟩
      · have eq : es ++ [.emit j xs results] = (pre ++ .emit i args wrong :: post) ++ [last] := by
          simpa using received
        exact (absent (append_inj' eq rfl).1).elim

end Emit

theorem exists_calls (ok : (runFrom (plan.run b) st).1 = .ok ()) :
    ∃ es st', Leads plan es .done ∧ b.Trace st es st' := by
  obtain ⟨es, st1, plan1, leads, trace, stops⟩ := exists_stop b plan st
  rw [leads.run_eq trace] at ok
  cases plan1 with
  | done => exact ⟨es, st1, leads, trace⟩
  | openBlock | closeBlock | returnPointer => exact stops.elim
  | emit i args next =>
    rcases answered : b.emit i args st1 with ⟨abort | results, st2⟩
    · rw [runFrom_emit_error answered] at ok
      cases ok
    · rw [runFrom_emit_wrong answered (stops results st2 answered)] at ok
      cases ok

/-- A backend that stops nothing and has answered as the plan needs it goes on with the same
instruction. -/
theorem Leads.calls {i : Instr} {args : List ω} {next : List ω → Plan ω}
    (leads : Leads plan es (.emit i args next)) (trace : b.Trace st es st')
    (ok : (runFrom (plan.run b) st).1 = .ok ()) :
    ∃ results rest, results.length = i.results ∧
      (runFrom (plan.run b.journaled) (st, [])).2.2.reverse
        = es ++ .emit i args results :: rest := by
  rw [leads.run_eq trace] at ok
  obtain ⟨later, st1, leads1, trace1⟩ := exists_calls ok
  rw [leads.run_eq (trace.journaled []), leads1.run_eq (trace1.journaled _)]
  cases leads1 with
  | @emit _ _ results _ later _ length => exact ⟨results, later, length, by simp⟩

end Plan

/-! ## Translations -/

/-- What a generator can be asked to do with a function: a half of a call in a direction, or the
function that frees its results. -/
inductive Translation where
  | half (dir : Direction) (mode : Mode) (realloc : String)
  | postReturn (realloc : String)

namespace Translation

def run (b : Backend σ ω) (s : Subject) (st : σ) : Translation → Checked σ
  | half dir mode realloc => Generator.checked { dir, mode, realloc } b s st
  | postReturn realloc => Generator.checkedPostReturn b realloc s st

/-- All calls of the backend, in order. -/
def calls (tr : Translation) (b : Backend σ ω) (s : Subject) (st : σ) : List (Event ω) :=
  (tr.run b.journaled s (st, [])).backend.2.reverse

def code (raw : RawRule) (f : FunctionShape) : Translation → Code Unit
  | half dir mode realloc => .call raw { dir, mode, realloc } f
  | postReturn _ => .postReturn f

def plan (tr : Translation) (raw : RawRule) (f : FunctionShape) : Plan ω :=
  .ofSteps [] (fun _ => .done) ((tr.code raw f).run 0).steps

theorem code_hasType (tr : Translation) (raw : RawRule) {f : FunctionShape}
    (hf : f.Passable) :
    ∃ c : Contract, Code.HasType c .nothing [] (tr.code raw f) Code.MakesNone := by
  cases tr with
  | half dir mode realloc => exact ⟨_, (Code.call_reads raw { dir, mode, realloc } hf).1⟩
  | postReturn realloc => exact ⟨_, Code.postReturn_hasType hf⟩

variable {g : Graph} {f : Function}

theorem plan_run_eq_ok (hg : g.Acyclic) (hf : validate g (some f) = []) (tr : Translation)
    {b : Backend σ ω} (hb : b.Answers) (st : σ) :
    (runFrom ((tr.plan b.movesRaw (g.shapes.function f)).run b) st).1 = .ok () := by
  obtain ⟨c, typed⟩ := tr.code_hasType b.movesRaw (passable_of_validate hg hf)
  obtain ⟨Γ, steps, _⟩ := typed
  obtain ⟨env, st', _, replayed, _⟩ := steps.replayed hb [] st rfl
  rw [length_nil] at replayed
  rw [plan, Plan.run_ofSteps, runFrom_bind_ok replayed]
  rfl

variable [Nonempty ω]

section

variable (hg : g.Acyclic) (hf : validate g (some f) = []) (tr : Translation) (b : Backend σ ω)
  (st : σ)
include hg hf tr b st

theorem replays : ∃ work : Except Abort Unit × Generation σ ω,
      tr.run b (.ofGraph g (some f)) st = .ofRun work ∧
      Gen.Completes work (runFrom
        (b.replay [] ((tr.code b.movesRaw (g.shapes.function f)).run 0).steps) st) := by
  have passable := passable_of_validate hg hf
  cases tr with
  | half dir mode realloc =>
    exact ⟨_, Generator.checked_eq hf dir mode realloc st, Gen.call_replays _ ‹_› passable st⟩
  | postReturn realloc =>
    exact ⟨_, Generator.checkedPostReturn_eq hf realloc st,
      Gen.postReturn_replays _ ‹_› rfl passable st⟩

theorem run_eq : let done := runFrom ((tr.plan b.movesRaw (g.shapes.function f)).run b) st
    (tr.run b (.ofGraph g (some f)) st).result = done.1.mapError Abort.toFailure ∧
      (tr.run b (.ofGraph g (some f)) st).backend = done.2 := by
  obtain ⟨work, eq, completes⟩ := replays hg hf tr b st
  rw [eq, plan, Plan.run_ofSteps]
  rcases replayed : runFrom (b.replay []
    ((tr.code b.movesRaw (g.shapes.function f)).run 0).steps) st with ⟨abort | env, st'⟩
  · rw [replayed] at completes
    obtain ⟨s, rfl, rfl⟩ := completes
    rw [runFrom_bind_error replayed]
    exact ⟨rfl, rfl⟩
  · rw [replayed] at completes
    obtain ⟨log, rfl⟩ := completes
    rw [runFrom_bind_ok replayed]
    exact ⟨rfl, rfl⟩

theorem calls_eq : tr.calls b (.ofGraph g (some f)) st = (runFrom ((tr.plan b.movesRaw
      (g.shapes.function f)).run b.journaled) (st, [])).2.2.reverse := by
  rw [calls, (run_eq hg hf tr b.journaled (st, [])).2]
  rfl

end

end Translation

/-- A backend that answers an instruction with a wrong number of results is stopped at once. The
translation of a valid function fails then, naming the instruction and both numbers. There is no
call after it, and all answers before it were right. Every backend that answers rightly, and has
given the same answers up to there, is given the same instruction next. -/
theorem translation_stops_at_wrong_answer [Nonempty ω] {g : Graph} (hg : g.Acyclic) {f : Function}
    (hf : validate g (some f) = []) (tr : Translation) (b : Backend σ ω) (st : σ)
    {pre post : List (Event ω)} {i : Instr} {args wrong : List ω}
    (received : tr.calls b (.ofGraph g (some f)) st = pre ++ .emit i args wrong :: post)
    (faulty : wrong.length ≠ i.results) :
    (tr.run b (.ofGraph g (some f)) st).result
        = .error (.stackMismatch .generate (i.name ++ " results") i.results wrong.length) ∧
    post = [] ∧
    (∀ j xs results, .emit j xs results ∈ pre → results.length = j.results) ∧
    ∀ (τ : Type) (c : Backend τ ω) (s s' : τ), c.Answers → c.movesRaw = b.movesRaw →
      c.Trace s pre s' → (tr.run c (.ofGraph g (some f)) s).result = .ok () ∧
        ∃ results rest, results.length = i.results ∧
          tr.calls c (.ofGraph g (some f)) s = pre ++ .emit i args results :: rest := by
  rw [Translation.calls_eq hg hf] at received
  obtain ⟨last, ⟨next, leads⟩, failed⟩ := Plan.stopped received faulty
  refine ⟨?_, last, fun j xs results mem => leads.right mem, ?_⟩
  · rw [(Translation.run_eq hg hf tr b st).1, failed]
    rfl
  · intro τ c s s' answers same trace
    have ok := Translation.plan_run_eq_ok hg hf tr answers s
    rw [(Translation.run_eq hg hf tr c s).1, Translation.calls_eq hg hf, ok]
    exact ⟨rfl, (same ▸ leads).calls trace ok⟩

/-! ## A miscounting backend -/

namespace Miscount

/-- Answers with nothing but as many results as there should be, except once. -/
def backend (fault : Option Nat) : Backend Nat Unit where
  emit i _ n := (.ok (replicate (i.results + if fault = some n then 1 else 0) ()), n + 1)
  openBlock := id
  closeBlock _ := id
  returnPointer _ _ n := ((), n)
  movesRaw := Program.isByte

theorem answers : (backend none).Answers :=
  fun i _ n _ => ⟨_, n + 1, rfl, by simp⟩

theorem trace (es : List (Event Unit)) (n : Nat)
    (right : ∀ i args results, .emit i args results ∈ es → results.length = i.results) :
    ∃ n', (backend none).Trace n es n' := by
  induction es generalizing n with
  | nil => exact ⟨n, .nil n⟩
  | cons e es ih =>
    have later (n : Nat) := ih n fun i args results mem => right i args results (.tail e mem)
    cases e with
    | emit i args results =>
      obtain ⟨n', trace⟩ := later (n + 1)
      obtain rfl : results = replicate i.results () := eq_replicate_iff.mpr
        ⟨right i args results mem_cons_self, fun _ _ => rfl⟩
      exact ⟨n', .emit (by simp [backend]) trace⟩
    | openBlock => exact (later n).imp fun _ trace => .openBlock trace
    | closeBlock results => exact (later n).imp fun _ trace => .closeBlock trace
    | returnPointer size align addr =>
      exact (later n).imp fun _ trace => .returnPointer (b := backend none) trace

end Miscount

/-- The sixth instruction of a postbox gets a result too many, and is the last one. -/
theorem translation_stops_at_wrong_answer_postbox :
    let tr : Translation := .half .exported .liftArgs ""
    let subject := Subject.ofGraph Postbox.graph (some Postbox.swap)
    ∃ pre i args wrong, tr.calls (Miscount.backend (some 5)) subject 0
        = pre ++ [.emit i args wrong] ∧
      (tr.run (Miscount.backend (some 5)) subject 0).result
        = .error (.stackMismatch .generate (i.name ++ " results") i.results wrong.length) ∧
      ∃ results rest, tr.calls (Miscount.backend none) subject 0
        = pre ++ .emit i args results :: rest := by
  intro tr subject
  have found : (tr.calls (Miscount.backend (some 5)) subject 0).any (fun
      | .emit i _ results => results.length != i.results
      | _ => false) = true := by
    decide +kernel
  obtain ⟨e, mem, wrong⟩ := List.any_eq_true.mp found
  obtain ⟨pre, post, received⟩ := List.append_of_mem mem
  cases e with
  | openBlock | closeBlock | returnPointer => cases wrong
  | emit i args results =>
    obtain ⟨failed, rfl, right, others⟩ := translation_stops_at_wrong_answer Postbox.acyclic
      Postbox.validate_swap tr (Miscount.backend (some 5)) 0 received (by simpa using wrong)
    obtain ⟨n, trace⟩ := Miscount.trace pre 0 right
    obtain ⟨_, answer, rest, _, calls⟩ :=
      others Nat (Miscount.backend none) 0 n Miscount.answers rfl trace
    exact ⟨pre, i, args, results, received, failed, answer, rest, calls⟩

end CanonicalAbi
