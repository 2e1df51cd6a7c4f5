import CanonicalAbi.Proofs.Discipline

/-!
# Recorded streams respect types

The program that is recorded from a stream is its code, step for step, so the types of the code are
the types of the program. Main statement: the stream of every validated function is well typed.
-/

namespace CanonicalAbi

open Recording List

namespace Recording

/-- The recording with more steps in the innermost block, and more registers. -/
def extend (r : Recording) (steps : List Step) (registers : Nat) : Recording :=
  match r.opened with
  | [] => { r with body := steps.reverse ++ r.body, registers }
  | inner :: outer => { r with opened := (steps.reverse ++ inner) :: outer, registers }

theorem extend_nil (r : Recording) : r.extend [] r.registers = r := by
  rcases r with ⟨body, _ | _, finished, registers⟩ <;> rfl

theorem extend_extend (r : Recording) (ss ts : List Step) (m n : Nat) :
    (r.extend ss m).extend ts n = r.extend (ss ++ ts) n := by
  rcases r with ⟨body, _ | _, finished, registers⟩ <;> simp [extend]

theorem extend_anew (r : Recording) (ss : List Step) (m n : Nat) :
    { r with registers := m }.extend ss n = r.extend ss n := by
  rcases r with ⟨body, _ | _, finished, registers⟩ <;> rfl

@[simp] theorem extend_registers (r : Recording) (ss : List Step) (n : Nat) :
    (r.extend ss n).registers = n := by
  rcases r with ⟨body, _ | _, finished, registers⟩ <;> rfl

theorem emit_eq (r : Recording) (i : Instr) (args : List Reg) {blocks : List Block}
    {finished : List Block} (hfin : r.finished = blocks.reverse ++ finished)
    (hlen : blocks.length = i.blocks) :
    r.emit i args = (range' r.registers i.results,
      { r with finished }.extend
        [.exec i args (range' r.registers i.results) blocks] (r.registers + i.results)) := by
  obtain ⟨body, opened, fin, registers⟩ := r
  obtain rfl : fin = blocks.reverse ++ finished := hfin
  have htake : ((blocks.reverse ++ finished).take i.blocks).reverse = blocks := by
    rw [← hlen, ← length_reverse, take_left, reverse_reverse]
  have hdrop : (blocks.reverse ++ finished).drop i.blocks = finished := by
    rw [← hlen, ← length_reverse, drop_left]
  cases opened <;> simp [emit, addStep, extend, htake, hdrop]

theorem runFrom_issue (raw : RawRule) {r : Recording} {i : Instr} {args : List Reg}
    {blocks finished : List Block}
    (hfin : r.finished = blocks.reverse ++ finished) (hlen : blocks.length = i.blocks) :
    runFrom ((backend raw).issue i args) r = (.ok (range' r.registers i.results),
      { r with finished }.extend
        [.exec i args (range' r.registers i.results) blocks] (r.registers + i.results)) := by
  simp only [runFrom, Backend.issue, backend, emit_eq r i args hfin hlen, length_range',
    if_true]

end Recording

section Record

variable (raw : RawRule) {c : Contract}

mutual

theorem TypedSteps.recorded {item : Item} {Γ Γ' : RegTypes} {steps : List Step} :
    TypedSteps c item Γ steps Γ' → ∀ r : Recording, r.registers = Γ.length →
      runFrom ((backend raw).replay (range Γ.length) steps) r
        = (.ok (range Γ'.length), r.extend steps Γ'.length)
  | .nil _ _, r, hr => by
    rw [← hr, r.extend_nil]
    rfl
  | @TypedSteps.exec _ _ _ Γ1 Γ' i args blocks steps _ outs _ hblocks hi hargs hrest, r, hr => by
    have hissue := @Recording.runFrom_issue raw
      { r with finished := blocks.reverse ++ r.finished, registers := Γ1.length } i args _ _ rfl
      (hblocks.length_eq.trans hi.length_blocks)
    have hnext := hrest.recorded
      (r.extend [.exec i args (range' Γ1.length outs.length) blocks]
        (Γ1.length + outs.length)) (by simp)
    simp only [Backend.replay, Backend.replayStep, bind_assoc, pure_bind]
    rw [runFrom_bind_ok (hblocks.recorded r hr),
      (named_range hargs.lt_length).operandsOf_eq, runFrom_bind_ok hissue,
      ← hi.length_results, range_append_range']
    rw [extend_extend, length_append, length_map] at hnext
    exact extend_anew r _ Γ1.length _ ▸ hnext
  | .scratch size align hrest, r, hr => by
    have hnext := hrest.recorded (r.extend [.scratch size align Γ.length] (Γ.length + 1)) (by simp)
    have hpointer : r.returnPointer size align
        = (Γ.length, r.extend [.scratch size align Γ.length] (Γ.length + 1)) := by
      rw [← hr]
      rcases r with ⟨body, _ | _, finished, registers⟩ <;> rfl
    have hstep : runFrom ((backend raw).replayStep (range Γ.length)
        (.scratch size align Γ.length)) r = (.ok (range (Γ.length + 1)),
          r.extend [.scratch size align Γ.length] (Γ.length + 1)) := by
      simp only [runFrom, Backend.replayStep, backend, hpointer, range_succ]
    simp only [Backend.replay]
    rw [runFrom_bind_ok hstep]
    rw [extend_extend, length_append, length_singleton] at hnext
    exact hnext

theorem TypedBlocks.recorded {Γ Γ' : RegTypes} {blocks : List Block} {types : List BlockType} :
    TypedBlocks c Γ blocks types Γ' → ∀ r : Recording, r.registers = Γ.length →
      runFrom ((backend raw).replayBlocks (range Γ.length) blocks) r
        = (.ok (range Γ'.length),
            { r with finished := blocks.reverse ++ r.finished, registers := Γ'.length })
  | .nil _, r, hr => by
    rw [← hr]
    rfl
  | @TypedBlocks.cons _ Γ made Γ' steps results blocks _ _ hsteps hresults hrest, r, hr => by
    have hbody := hsteps.recorded r.openBlock hr
    have hnext := hrest.recorded
      { r with finished := .mk steps results :: r.finished, registers := (Γ ++ made).length }
      (by simp)
    have hclose : (r.openBlock.extend steps (Γ ++ made).length).closeBlock results
        = { r with finished := .mk steps results :: r.finished,
                   registers := (Γ ++ made).length } := by
      simp [openBlock, extend, closeBlock]
    simp only [Backend.replayBlocks]
    rw [runFrom_bind_ok (runFrom_modify _ _)]
    simp only [backend] at hbody hnext ⊢
    rw [runFrom_bind_ok hbody, (named_range hresults.lt_length).operandsOf_eq,
      runFrom_bind_ok (runFrom_modify _ _), hclose]
    simpa using hnext

end

end Record

/-! ## Recorded generations -/

namespace Gen

/-- Generation on a recording that takes operands of some types from the stack and leaves operands
of others there, by steps that respect types. -/
def Converts (work : Gen Recording Reg Unit) (ins outs : List OperandType) : Prop :=
  ∀ (c : Contract) (item : Item) (Γ : RegTypes) (s : Generation Recording Reg)
    (args stk : List Reg),
    s.stack = args.reverse ++ stk → Typed Γ args ins → s.backend.registers = Γ.length →
    s.finished = 0 → Above s stk.length →
    ∃ steps Γ' results log, TypedSteps c item Γ steps Γ' ∧ Typed Γ' results outs ∧
      work.run.run s = (.ok (), { s with
        stack := results.reverse ++ stk, backend := s.backend.extend steps Γ'.length, log })

theorem Writes.recorded {γ : Type} {raw : RawRule} {c : Contract} {item : Item}
    {Γ : RegTypes} {args stk : List Reg} {work : Gen Recording Reg Unit} {code : Code γ}
    {R : Left Reg γ Unit} (h : Writes (backend raw) c item (.ofTypes Γ) args work code R)
    {s : Generation Recording Reg} (hstack : s.stack = args.reverse ++ stk)
    (hregs : s.backend.registers = Γ.length) (hfin : s.finished = 0) (habove : Above s stk.length) :
    ∃ Γ' outs log, TypedSteps c item Γ (code.run Γ.length).steps Γ' ∧
      R.typed Γ' (code.run Γ.length).value ∧
      R.named (range Γ'.length) (code.run Γ.length).value () outs ∧
      work.run.run s = (.ok (), { s with
        stack := outs.reverse ++ stk,
        backend := s.backend.extend (code.run Γ.length).steps Γ'.length, log }) := by
  obtain ⟨⟨Γ', hsteps, _, typed⟩, follows⟩ := h ⟨0⟩
  have hw := follows s stk hstack hfin habove
  have hreplay : runFrom ((backend raw).replay (Scene.ofTypes Γ).env
      (code.run Γ.length).steps) s.backend = _ := hsteps.recorded raw s.backend hregs
  rw [Scene.length_ofTypes, hreplay] at hw
  obtain ⟨_, outs, log, ⟨_, _, named⟩, hrun⟩ := hw
  refine ⟨Γ', outs, log, hsteps, typed, named, ?_⟩
  rw [run_run_eq, hrun, ← hfin]
  rfl

theorem Converts.of_writes (raw : RawRule) {work : Gen Recording Reg Unit}
    (code : List Reg → Code (List Reg)) {ins outs : List OperandType}
    (h : ∀ {c item Γ regs}, Typed Γ regs ins →
      Writes (backend raw) c item (.ofTypes Γ) regs work (code regs) (.all outs)) :
    Converts work ins outs := by
  intro c item Γ s args stk hstack hargs hregs hfin habove
  obtain ⟨Γ', outs', log, hsteps, hresults, hleft, hrun⟩ :=
    (h hargs).recorded hstack hregs hfin habove
  have hself := named_range hresults.lt_length
  obtain rfl : outs' = _ := hleft.operandsOf_eq.symm.trans hself.operandsOf_eq
  exact ⟨_, Γ', _, log, hsteps, hresults, hrun⟩

variable (raw : RawRule)

theorem lower_converts (realloc : String) {s : Shape} (h : s.Passable) :
    Converts (lower (backend raw) realloc s) [.of (some s)] (s.slots.map .core) := by
  refine Converts.of_writes raw (fun regs => Code.lower raw realloc s (regs.headD 0))
    fun hregs => ?_
  obtain ⟨r, _, rfl, hr, hnil⟩ := hregs.of_cons
  obtain rfl := hnil.of_nil
  exact (lowerWrites realloc h).lower hr.has

theorem lift_converts {s : Shape} (h : s.Passable) :
    Converts (lift (backend raw) s) (s.slots.map .core) [.of (some s)] :=
  Converts.of_writes raw (fun regs => Code.lift raw s regs >>= fun r => pure [r]) fun hregs =>
    ((liftWrites h).lift hregs.hasAll).lastAll [] <| .one fun _ _ _ _ hv => .one hv

end Gen

section

variable {g : Graph} {f : Function} (raw : RawRule) (hg : g.Acyclic)
  (hf : validate g (some f) = [])
include raw hg hf

theorem recorded_call (dir : Direction) (mode : Mode) (realloc : String) :
    ∃ Γ log, TypedSteps ((g.shapes.function f).contract
          ((g.shapes.function f).coreSignature dir) mode) .nothing []
        ((Code.call raw { dir, mode, realloc } (g.shapes.function f)).run 0).steps Γ ∧
      Γ.length = ((Code.call raw { dir, mode, realloc } (g.shapes.function f)).run 0).next ∧
      Generator.checked { dir, mode, realloc } (backend raw) (.ofGraph g (some f)) .empty
        = ⟨.ok (), empty.extend
            ((Code.call raw { dir, mode, realloc } (g.shapes.function f)).run 0).steps Γ.length,
          log⟩ := by
  have hpass := passable_of_validate hg hf
  obtain ⟨⟨Γ, hsteps, hnext, _⟩, _⟩ := Code.call_reads raw { dir, mode, realloc } hpass
  have hcall := Gen.call_completes { dir, mode, realloc } (answers raw) hpass
    empty
  have hrun := hsteps.recorded raw empty rfl
  simp only [length_nil, range_zero] at hrun hsteps
  rw [show (backend raw).movesRaw = raw from rfl, hrun] at hcall
  obtain ⟨log, hcall⟩ := hcall
  refine ⟨Γ, log, hsteps, hnext, ?_⟩
  rw [Generator.checked_eq hf, hcall]
  rfl

theorem recorded_postReturn (realloc : String) :
    ∃ log, Generator.checkedPostReturn (backend raw) realloc (.ofGraph g (some f)) .empty
      = ⟨.ok (), empty.extend ((Code.postReturn (g.shapes.function f)).run 0).steps
          ((Code.postReturn (g.shapes.function f)).run 0).next, log⟩ := by
  have hpass := passable_of_validate hg hf
  obtain ⟨Γ, hsteps, hnext, _⟩ := Code.postReturn_hasType hpass
  have hpost := Gen.postReturn_completes { dir := .exported, mode := .liftArgs, realloc }
    (answers raw) rfl hpass empty
  have hrun := hsteps.recorded raw empty rfl
  simp only [length_nil, range_zero] at hrun hnext
  rw [hrun, hnext] at hpost
  obtain ⟨log, hpost⟩ := hpost
  refine ⟨log, ?_⟩
  rw [Generator.checkedPostReturn_eq hf, hpost]
  rfl

end

/-- The stream of every validated function of an acyclic graph is well typed. Lowering a value takes
one operand of its type and leaves operands of the core types that the type flattens to, and lifting
does the converse. The recorded adapter respects the types of its contract, as `TypedSteps` says for
its casts, blocks, calls and results, and it reads each argument once: in the callee's half the core
parameters, in the caller's half those of the interface. -/
theorem stream_typed_of_validate {g : Graph} (hg : g.Acyclic) {f : Function}
    (hf : validate g (some f) = []) (dir : Direction) (mode : Mode) (realloc : String)
    (raw : RawRule) :
    (g.shapes.function f).Passable ∧
    (∀ s : Shape, s.Passable → ∃ flat, s.flat = .ok flat ∧
      Gen.Converts (Gen.lower (Recording.backend raw) realloc s) [.of (some s)]
        (flat.map .core) ∧
      Gen.Converts (Gen.lift (Recording.backend raw) s) (flat.map .core) [.of (some s)]) ∧
    ∃ signature r log Γ, (g.shapes.function f).signature dir = .ok signature ∧
      Generator.checked { dir, mode, realloc } (Recording.backend raw) (.ofGraph g (some f)) .empty
        = ⟨.ok (), r, log⟩ ∧
      r.opened = [] ∧ r.finished = [] ∧
      TypedSteps ((g.shapes.function f).contract signature mode) .nothing [] r.body.reverse Γ ∧
      argReads r.body.reverse
        = List.range ((g.shapes.function f).contract signature mode).args.length := by
  have hpass := passable_of_validate hg hf
  refine ⟨hpass, fun s hs => ⟨s.slots, s.flat_eq hs, Gen.lower_converts raw realloc hs,
    Gen.lift_converts raw hs⟩, ?_⟩
  obtain ⟨Γ, log, hsteps, _, hcall⟩ := recorded_call raw hg hf dir mode realloc
  refine ⟨_, _, log, Γ, FunctionShape.signature_eq dir hpass.params hpass.results, hcall, rfl, rfl,
    ?_, ?_⟩
  · simpa [Recording.extend, Recording.empty] using hsteps
  · simpa [Recording.extend, Recording.empty] using
      (Code.call_reads raw { dir, mode, realloc } hpass).2

theorem stream_typed_postbox :
    Postbox.graph.Acyclic ∧ validate Postbox.graph (some Postbox.swap) = [] ∧
    ∃ signature r log Γ,
      (Postbox.graph.shapes.function Postbox.swap).signature .imported = .ok signature ∧
      Generator.checked { dir := .imported, mode := .liftArgs } (Recording.backend Program.isByte)
        Postbox.subject .empty = ⟨.ok (), r, log⟩ ∧
      r.opened = [] ∧ r.finished = [] ∧
      TypedSteps ((Postbox.graph.shapes.function Postbox.swap).contract signature .liftArgs)
        .nothing [] r.body.reverse Γ ∧
      argReads r.body.reverse = List.range
        ((Postbox.graph.shapes.function Postbox.swap).contract signature .liftArgs).args.length :=
  ⟨Postbox.acyclic, Postbox.validate_swap,
    (stream_typed_of_validate Postbox.acyclic Postbox.validate_swap .imported .liftArgs ""
      Program.isByte).2.2⟩

end CanonicalAbi
