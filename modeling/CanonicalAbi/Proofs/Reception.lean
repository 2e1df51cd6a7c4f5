import CanonicalAbi.Proofs.Constituents
import CanonicalAbi.Proofs.Programs

/-!
# What a callee receives

The callee's half of a call lifts core values that may be anything: case numbers, pointers and
lengths are the caller's choice, and so is the memory.
-/

namespace CanonicalAbi

open List Exec

/-! ## Runs with checks -/

variable {α : Type} [Allocator α]

variable {raw : RawRule}

theorem TypedSteps.keeps_loose {c : Contract} {item : Item} {Γ Γ' : RegTypes} {steps : List Step}
    (h : TypedSteps c item Γ steps Γ') :
    StepsOnly (Instr.Keeps raw .loose) steps :=
  h.callee.mono fun i _ _ => by cases i <;> simp [Instr.Keeps, Assurance.loose]

namespace Program

/-- All look-ups of a run find something: with checks in front of them it ends in the same way,
whatever is outside and however a check fails. -/
def LookupsFind (p : Program) (args : List Value) (w : World α) : Prop :=
  ∀ fault host, runFrom (Guarded.block (fun _ _ => true) fault ⟨host, p.ownsLifted⟩ {}
    { args } p.body)
      (p.startOn args.length w)
      = runFrom (block ⟨host, p.ownsLifted⟩ { args } p.body) (p.startOn args.length w)

theorem lookupsFind_of_typed {c : Contract} {code : Code Unit} {Γ : RegTypes}
    (hsteps : TypedSteps c .nothing [] (code.run 0).steps Γ)
    (hnext : Γ.length = (code.run 0).next) {args : List Value}
    (hargs : ArgsMean raw .loose c.args { args }) (f : FunctionShape) (dir : Direction)
    (mode : Mode) (w : World α) : (code.program f dir mode).LookupsFind args w := by
  intro fault host
  have sound : Scope.Sound raw .loose c .nothing {} { args } := ⟨hargs, trivial, trivial⟩
  have enough : Γ.length ≤ ((code.program f dir mode).startOn args.length w).registers.size := by
    rw [hnext]
    exact Nat.le_of_eq (Array.size_replicate ..).symm
  obtain ⟨same, _⟩ := hsteps.guards ⟨host, _⟩ fault hsteps.keeps_loose hsteps.callee.passes
    sound .nil enough
  change runFrom (Guarded.steps _ _ _ _ _ _ >>= fun _ => Guarded.getRegs _ []) _
    = runFrom (steps _ _ _ >>= fun _ => getRegs []) _
  rw [runFrom_bind, runFrom_bind, same]
  rfl

/-! ## The end of a run -/

def ending (p : Program) : Except Failure Unit × Machine α → Except Failure (List Value) × World α
  | (.ok _, m) => runFrom (do p.cleanUp m; return m.results) m.world
  | (.error f, m) =>
    runFrom (do Action.note (.runFailed p.function.name f); p.cleanUp m; throw f) m.world

theorem ending_error (p : Program) (f : Failure) (m : Machine α) :
    ∃ w', p.ending (.error f, m) = (.error f, w') := by
  obtain ⟨w', cleaned, _⟩ := p.cleanUp_ok m
    { m.world with log := .runFailed p.function.name f :: m.world.log }
  exact ⟨w', (runFrom_bind_ok (runFrom_modify _ _)).trans (runFrom_bind_ok cleaned)⟩

theorem runFrom_run_steps (p : Program) (host : Host α) (args : List Value) (w : World α) :
    runFrom (p.run host args) w
      = p.ending (runFrom (Exec.steps ⟨host, p.ownsLifted⟩ { args } p.body.steps)
          (p.startOn args.length w)) := by
  obtain ⟨f, dir, mode, ⟨steps, results⟩, registers⟩ := p
  have body : ∀ (c : Setting α) (m : Machine α),
      runFrom (Exec.block c { args } (.mk steps results)) m
        = continueWith (fun _ m' => (.ok (results.map m'.reg), m'))
            (runFrom (Exec.steps c { args } steps) m) := fun c m => by
    rw [Exec.block, runFrom_bind]
    rfl
  rw [runFrom_run, body, Block.steps]
  rcases runFrom (Exec.steps _ _ steps) _ with ⟨e | _, m⟩ <;> rfl

theorem runFrom_run_around (p : Program) {before after : List Step} {s : Step}
    (split : p.body.steps = before ++ s :: after)
    (quiet : StepsOnly (fun i => i.callee? = none) before)
    (quietAfter : StepsOnly (fun i => i.callee? = none) after) (args : List Value) (w : World α)
    (host : Host α) :
    runFrom (p.run host args) w
      = p.ending (continueWith (fun _ => continueWith (fun _ => runFrom
            (steps ⟨{}, p.ownsLifted⟩ { args } after))
          ∘ runFrom (step ⟨host, p.ownsLifted⟩ { args } s))
        (runFrom (steps ⟨{}, p.ownsLifted⟩ { args } before) (p.startOn args.length w))) := by
  rw [runFrom_run_steps, split, steps_append, runFrom_bind, steps_host host {} quiet]
  congr 2
  funext _ m
  rw [steps, runFrom_bind, steps_host host {} quietAfter]
  rfl

end Program

/-! ## The call -/

def Machine.atCall (m : Machine α) (f : FunctionShape) (values : List Value) : World α :=
  { m.world with
    log := .callInterface f.name values.length :: m.world.log
    crossing := { m.world.crossing with seen := some values } }

/-- How the step that makes a call ends, given how what it calls does. -/
def Machine.afterCall {β : Type} (m : Machine α) (name : String) (count : Nat) (outs : List Reg)
    (values : List β → List Value) (r : Except Failure (List β) × World α) :
    Except Failure Unit × Machine α :=
  continueWith (fun results => runFrom (setRegs outs (values results)))
    (ended name count r.1, { m with world := r.2 })

omit [Allocator α] in
theorem Exec.runFrom_crossInterface (impl : FunctionShape → List Value → Action α (List Value))
    (f : FunctionShape) (values : List Value) (m : Machine α) :
    runFrom (crossInterface impl f values) m.world
      = runFrom (impl f values) (m.atCall f values) := by
  rfl

theorem Exec.runFrom_call {host : Host α}
    {impl : FunctionShape → List Value → Action α (List Value)} (h : host.interface = some impl)
    (owned : Bool) (scope : Scope) (f : FunctionShape) (args outs : List Reg) (m : Machine α) :
    runFrom (step ⟨host, owned⟩ scope (.exec (.callInterface f) args outs [])) m
      = m.afterCall f.name f.results.length outs id
        (runFrom (impl f (args.map m.reg)) (m.atCall f (args.map m.reg))) := by
  rw [step, runFrom_bind_ok (runFrom_getRegs args m)]
  simp only [instr, callInterface, h]
  rw [runFrom_bind, runFrom_outcome, runFrom_crossInterface]
  rfl

theorem Exec.runFrom_call_none {host : Host α} (h : host.interface = none) (owned : Bool)
    (scope : Scope) (f : FunctionShape) (args outs : List Reg) (m : Machine α) :
    runFrom (step ⟨host, owned⟩ scope (.exec (.callInterface f) args outs [])) m
      = (.error (.notFound .eval "interface function" f.name), m) := by
  rw [step, runFrom_bind_ok (runFrom_getRegs args m)]
  simp only [instr, callInterface, h]
  rfl

/-! ## Receiving arguments -/

namespace Program

/-- The program fails with `e`, whatever is outside. -/
def Refuses (p : Program) (args : List Value) (w : World α) (e : Failure) : Prop :=
  ∃ w', ∀ host, runFrom (p.run host args) w = (.error e, w')

/-- The program calls function `f` of the interface with `values`: how it ends depends on how that
call ends and on nothing else outside, and if the call fails, then so does the program because of
it. It fails if there is no such function. -/
structure CallsWith (p : Program) (args : List Value) (w : World α) (f : FunctionShape)
    (values : List Value) : Prop where
  call : ∃ (world : World α)
      (finish : Except Failure (List Value) × World α → Except Failure (List Value) × World α),
    world.crossing.seen = some values
    ∧ (∀ e w', ∃ e' w'', finish (.error e, w') = (.error e', w'') ∧ e'.cause? = some e)
    ∧ ∀ host impl, host.interface = some impl →
      runFrom (p.run host args) w = finish (runFrom (impl f values) world)
  absent : ∀ host, host.interface = none →
    ∃ e w', e.report?.isSome ∧ runFrom (p.run host args) w = (.error e, w')

end Program

theorem argsMean_ofCore {a : Assurance} (h : ¬ a.ranged)
    (types : List CoreType) (flat : List UInt64) :
    ArgsMean raw a (types.map .core) { args := Value.ofCore flat } := by
  intro index t v ht hv
  rw [getElem?_map] at ht
  obtain ⟨core, _, rfl⟩ := Option.map_eq_some_iff.mp ht
  rw [Value.ofCore, getElem?_map] at hv
  obtain ⟨n, _, rfl⟩ := Option.map_eq_some_iff.mp hv
  exact ⟨n, rfl, fun ranged => absurd ranged h⟩

/-- What is known while arguments are lifted: core values may be out of range, but values of the
interface are ones of their types, and failures are reports. -/
def Assurance.lifting : Assurance := ⟨True, False, True⟩

namespace Code

/-- The code of the callee's half, taken apart at its call. Neither part calls anything, and the
part after the call uses nothing that was made before it. -/
structure CalleeParts (raw : RawRule) (dir : Direction) (f : FunctionShape) where
  before : List Step
  regs : List Reg
  after : List Step
  types : RegTypes
  allTypes : RegTypes
  args : List OperandType
  split : ((call raw { dir, mode := .liftArgs } f).run 0).steps = before ++ .exec (.callInterface f)
    regs (range' types.length (f.results.map OperandType.of).length) [] :: after
  typed : TypedSteps (f.contract (f.coreSignature dir) .liftArgs) .nothing [] before types
  passed : Typed types regs (f.params.map .of)
  typedAfter : TypedSteps { f.contract (f.coreSignature dir) .liftArgs with args } .nothing
    (replicate types.length none ++ (f.results.map OperandType.of).map some) after allTypes
  next : allTypes.length = ((call raw { dir, mode := .liftArgs } f).run 0).next
  reads : args = [] ∨ args = (f.coreSignature dir).params.map .core ∧ Gen.pointerReads f dir ≠ []
  lifts : StepsOnly (Instr.Lifts raw) before
  lowers : ∃ values k, after = ((lowerResults raw { dir, mode := .liftArgs } f values).run k).steps
  quiet : StepsOnly (fun i => i.callee? = none) before
  quietAfter : StepsOnly (fun i => i.callee? = none) after

theorem exists_parts (raw : RawRule) (dir : Direction) {f : FunctionShape}
    (hf : f.Passable) : Nonempty (CalleeParts raw dir f) := by
  let g : Generator := { dir, mode := .liftArgs }
  let c := f.contract (f.coreSignature dir) .liftArgs
  let made := f.results.map OperandType.of
  have hbefore : ∀ function, HasType { c with function } .nothing [] (liftArgs raw g f)
      (Makes (f.params.map .of)) := fun function =>
    (Gen.liftArgs_scans (b := Recording.backend raw) g rfl hf.params).1.hasType
  obtain ⟨Γ, hsteps, hnext, hregs⟩ := hbefore f
  have hvalues : Typed (replicate Γ.length none ++ made.map some)
      (range' Γ.length made.length) made := by
    have h := Named.range' (replicate Γ.length none) (made.map some)
    rwa [length_map, length_replicate] at h
  obtain ⟨args, hargs, hpointer⟩ : ∃ args,
      (args = [] ∨ args = c.args ∧ Gen.pointerReads f dir ≠ [])
        ∧ (Gen.pointerReads f dir ≠ [] → args = c.args) := by
    by_cases h : Gen.pointerReads f dir = []
    · exact ⟨[], .inl rfl, fun h' => absurd h h'⟩
    · exact ⟨c.args, .inr ⟨rfl, h⟩, fun _ => rfl⟩
  have hafter : ∀ function, HasType { c with args, function } .nothing
      (replicate Γ.length none ++ made.map some)
      (lowerResults raw g f (range' Γ.length made.length)) MakesNone := fun function =>
    (Gen.lowerResults_scans (b := Recording.backend raw) (c := { c with args, function }) g hpointer
      rfl hf.results hvalues.hasAll).1.hasType
  obtain ⟨Γ', hsteps', hnext', _⟩ := hafter f
  have size : made.length = f.results.length := length_map _
  have start : (replicate Γ.length none ++ made.map some).length
      = ((liftArgs raw g f).run 0).next + f.results.length := by
    rw [length_append, length_replicate, length_map, size, hnext]
    rfl
  refine ⟨⟨_, _, _, Γ, Γ', args, ?_, hsteps, hregs, hsteps', ?_, hargs,
    (liftArgs_lifts g hf.params 0), ⟨_, _, rfl⟩, HasType.calls_none hbefore,
    HasType.calls_none (c := { c with args }) hafter⟩⟩
  · rw [start, size, hnext]
    rfl
  · rw [hnext', start, size, hnext]
    rfl

end Code

/-- The callee's half refuses core arguments, or calls the function of the interface with values of
the types of its parameters. -/
theorem Code.call_receives (raw : RawRule) (dir : Direction) {f : FunctionShape}
    (hf : f.Passable) (flat : List UInt64) (w : World α) :
    let p := (call raw { dir, mode := .liftArgs } f).program f dir .liftArgs
    (∃ e, e.report?.isSome ∧ p.Refuses (Value.ofCore flat) w e)
    ∨ ∃ values, FieldsAre raw f.params values ∧ p.CallsWith (Value.ofCore flat) w f values := by
  intro p
  obtain ⟨before, regs, after, Γ, Γ', _, hsplit, hsteps, hregs, hsteps', hnext, _, lifts, _, quiet,
    quiet'⟩ := exists_parts raw dir hf
  generalize range' Γ.length (f.results.map OperandType.of).length = outs at hsplit
  -- the part before the call, on a machine with nothing outside
  have sound : Scope.Sound raw .lifting (f.contract (f.coreSignature dir) .liftArgs)
      .nothing {} { args := Value.ofCore flat } :=
    ⟨argsMean_ofCore id _ flat, trivial, trivial⟩
  have enough : Γ.length ≤ (p.startOn (Value.ofCore flat).length w).registers.size := by
    have size : (p.startOn (Value.ofCore flat).length w).registers.size = Γ'.length :=
      (Array.size_replicate ..).trans hnext.symm
    have grown := hsteps'.extends.length_le
    rw [length_append, length_replicate] at grown
    omega
  have lifted := (hsteps.guards (α := α) ⟨{}, p.ownsLifted⟩ (.plain "")
    (lifts.mono fun _ _ h => h.keeps) lifts.passes sound .nil enough).2
  have run_eq := p.runFrom_run_around hsplit quiet quiet' (Value.ofCore flat) w
  rw [Does] at lifted
  revert lifted run_eq
  rcases runFrom (steps ⟨{}, p.ownsLifted⟩ { args := Value.ofCore flat } before) _ with
    ⟨e | _, m⟩
  · intro report run_eq
    obtain ⟨w', ended⟩ := p.ending_error e m
    exact .inl ⟨e, report trivial, w', fun host => (run_eq host).trans ended⟩
  · rintro ⟨_, holds⟩ run_eq
    refine .inr ⟨regs.map m.reg, (holds.read hregs).of_parts trivial, ?_, ?_⟩
    · refine ⟨m.atCall f (regs.map m.reg), fun r => p.ending (continueWith (fun _ => runFrom
          (steps ⟨{}, p.ownsLifted⟩ { args := Value.ofCore flat } after))
        (m.afterCall f.name f.results.length outs id r)), rfl,
          fun e w' => ?_, fun host impl himpl => ?_⟩
      · obtain ⟨w'', ended⟩ := p.ending_error
          (.wrap .eval .invalidData (some e) ("call " ++ f.name)) { m with world := w' }
        exact ⟨_, w'', ended, rfl⟩
      · rw [run_eq host, continueWith_ok, Function.comp_apply, runFrom_call himpl]
    · intro host absent
      obtain ⟨w', ended⟩ := p.ending_error (.notFound .eval "interface function" f.name) m
      refine ⟨.notFound .eval "interface function" f.name, w', rfl, ?_⟩
      rw [run_eq host, continueWith_ok, Function.comp_apply, runFrom_call_none absent]
      exact ended

/-- Lifting never makes an ill-typed value. The callee's half of every validated function of an
acyclic graph compiles. Run on any core arguments, in any memory and with any handle table, it looks
up nothing that is not there, and it either fails with a report before it has called anything, or
calls the function of the interface with values of the types of its parameters: characters are
scalar values, texts well formed, case numbers in range, each with a payload of its case, and sets
of flags have one truth value for each flag, at any depth. -/
theorem received_args_typed {g : Graph} (hg : g.Acyclic) {f : Function}
    (hf : validate g (some f) = []) (dir : Direction) :
    ∃ p, (Program.compile dir .liftArgs Program.isByte (.ofGraph g (some f))).1 = .ok p
      ∧ ∀ {α : Type} [Allocator α] (flat : List UInt64) (w : World α),
        p.LookupsFind (Value.ofCore flat) w
        ∧ ((∃ e, e.report?.isSome ∧ p.Refuses (Value.ofCore flat) w e)
          ∨ ∃ values, FieldsAre Program.isByte (g.shapes.function f).params values
            ∧ p.CallsWith (Value.ofCore flat) w (g.shapes.function f) values) := by
  refine ⟨_, compile_eq Program.isByte hg hf dir .liftArgs, fun flat w => ⟨?_, ?_⟩⟩
  · obtain ⟨Γ, _, hsteps, hnext, _⟩ := recorded_call Program.isByte hg hf dir .liftArgs ""
    have hargs : ArgsMean Program.isByte .loose ((g.shapes.function f).contract
        ((g.shapes.function f).coreSignature dir) .liftArgs).args
        { args := Value.ofCore flat } := argsMean_ofCore id _ flat
    exact Program.lookupsFind_of_typed hsteps hnext hargs _ dir .liftArgs w
  · exact Code.call_receives Program.isByte dir (passable_of_validate hg hf) flat w

/-- A postbox receives letters, or refuses what it is given. -/
theorem received_args_typed_postbox :
    Postbox.graph.Acyclic ∧ validate Postbox.graph (some Postbox.swap) = []
    ∧ ∃ p, (Program.compile .exported .liftArgs Program.isByte Postbox.subject).1 = .ok p
      ∧ ∀ {α : Type} [Allocator α] (flat : List UInt64) (w : World α),
        p.LookupsFind (Value.ofCore flat) w
        ∧ ((∃ e, e.report?.isSome ∧ p.Refuses (Value.ofCore flat) w e)
          ∨ ∃ values,
            FieldsAre Program.isByte (Postbox.graph.shapes.function Postbox.swap).params values
            ∧ p.CallsWith (Value.ofCore flat) w (Postbox.graph.shapes.function Postbox.swap)
              values) :=
  ⟨Postbox.acyclic, Postbox.validate_swap,
    received_args_typed Postbox.acyclic Postbox.validate_swap .exported⟩

end CanonicalAbi
