import CanonicalAbi.Proofs.Adapters

/-!
# The discipline of a generator

A backend that answers each instruction with as many results as it has never stops the generator on
a validated function. The calls that it receives are disciplined, and nothing is left over at the
end.
-/

namespace CanonicalAbi

variable {σ ω : Type}

variable {b : Backend σ ω} {c : Contract}

/-! ## Whole generations -/

/-- A generation on a journaled backend that comes to its end with nothing left over, by disciplined
calls. -/
def RunsClean (work : Gen (σ × List (Event ω)) ω Unit) (st : σ) : Prop :=
  ∃ s, work.run.run { backend := (st, []) } = (.ok (), s) ∧ s.stack = [] ∧ s.blocks = [] ∧
    s.finished = 0 ∧ Disciplined 0 s.backend.2.reverse

namespace Gen

variable {code : Code Unit} {run : Except Abort Unit × Generation σ ω}

section

variable {backend : σ} (hb : b.Answers) (hcode : Code.HasType c .nothing [] code Code.MakesNone)
  (h : Completes run (runFrom (b.replay [] (code.run 0).steps) backend))
include hb hcode h

theorem Completes.of_typed :
    ∃ st log es, run = (.ok (), { backend := st, log }) ∧ b.Trace backend es st ∧
      Disciplined 0 es := by
  obtain ⟨Γ', hsteps, _⟩ := hcode
  obtain ⟨env', st, es, hrun, _, htrace, hes⟩ := hsteps.replayed hb [] backend rfl
  rw [List.length_nil] at hrun
  rw [hrun] at h
  obtain ⟨log, rfl⟩ := h
  exact ⟨st, log, es, rfl, htrace, by simpa using hes [] .nil⟩

theorem Completes.result_eq_ok : run.1 = .ok () := by
  obtain ⟨st, log, es, rfl, _⟩ := h.of_typed hb hcode
  rfl

end

theorem Completes.runsClean (hb : b.Answers) {st : σ}
    {work : Gen (σ × List (Event ω)) ω Unit}
    (hcode : Code.HasType c .nothing [] code Code.MakesNone)
    (h : Completes (runFrom work { backend := (st, []) })
      (runFrom (b.journaled.replay [] (code.run 0).steps) (st, []))) : RunsClean work st := by
  obtain ⟨s, log, es, hrun, htrace, hes⟩ := h.of_typed hb.journaled hcode
  refine ⟨{ backend := s, log }, hrun, rfl, rfl, rfl, ?_⟩
  have hjournal := htrace.journal
  simpa [hjournal] using hes

end Gen

/-- Every validated function of an acyclic graph can be generated, in either direction and mode and
with its post-return function, on every backend that answers instructions as declared: nothing stops
the generator, its calls are disciplined, and no operand and no block is left over. -/
theorem generation_succeeds_of_validate {g : Graph} (hg : g.Acyclic) {f : Function}
    (hf : validate g (some f) = []) (hb : b.Answers) (dir : Direction) (mode : Mode)
    (realloc : String) (st : σ) :
    (Generator.checked { dir, mode, realloc } b (.ofGraph g (some f)) st).result = .ok () ∧
    (Generator.checkedPostReturn b realloc (.ofGraph g (some f)) st).result = .ok () ∧
    RunsClean (Gen.call b.journaled { dir, mode, realloc } (g.shapes.function f)) st ∧
    RunsClean (Gen.postReturn b.journaled { dir := .exported, mode := .liftArgs, realloc }
      (g.shapes.function f)) st := by
  have hpass := passable_of_validate hg hf
  have hcall := (Code.call_reads b.movesRaw { dir, mode, realloc } hpass).1
  have hpost := Code.postReturn_hasType hpass
  refine ⟨?_, ?_, ?_, ?_⟩
  · rw [Generator.checked_eq hf, Checked.ofRun,
      (Gen.call_completes _ hb hpass st).result_eq_ok hb hcall]
    rfl
  · rw [Generator.checkedPostReturn_eq hf, Checked.ofRun,
      (Gen.postReturn_completes _ hb rfl hpass st).result_eq_ok hb hpost]
    rfl
  · exact (Gen.call_completes _ hb.journaled hpass (st, [])).runsClean hb hcall
  · exact (Gen.postReturn_completes _ hb.journaled rfl hpass (st, [])).runsClean hb hpost

/-- Both functions of a postbox come to their end when they are recorded. -/
theorem generation_succeeds_postbox :
    Postbox.graph.Acyclic ∧ validate Postbox.graph (some Postbox.swap) = [] ∧
    (Recording.backend Program.isByte).Answers ∧
    (Generator.checked { dir := .exported, mode := .liftArgs } (Recording.backend Program.isByte)
      Postbox.subject .empty).result = .ok () ∧
    (Generator.checkedPostReturn (Recording.backend Program.isByte) ""
      Postbox.subject .empty).result = .ok () ∧
    RunsClean (Gen.call (Recording.backend Program.isByte).journaled
      { dir := .exported, mode := .liftArgs } (Postbox.graph.shapes.function Postbox.swap)) .empty ∧
    RunsClean (Gen.postReturn (Recording.backend Program.isByte).journaled
      { dir := .exported, mode := .liftArgs }
      (Postbox.graph.shapes.function Postbox.swap)) .empty :=
  ⟨Postbox.acyclic, Postbox.validate_swap, Recording.answers _,
    generation_succeeds_of_validate Postbox.acyclic Postbox.validate_swap (Recording.answers _)
      .exported .liftArgs "" .empty⟩

end CanonicalAbi
