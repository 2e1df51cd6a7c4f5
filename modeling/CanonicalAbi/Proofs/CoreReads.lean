import CanonicalAbi.Proofs.ArgumentBlocks

/-!
# Core values in range

A machine that reads an operand as a core value takes zero if it is none. With checks it fails
instead, and it looks at every core value on its way out to a core function.
-/

namespace CanonicalAbi

open List

variable {Γ Γ' : RegTypes} {item : Item} {scope : Scope}

instance (t : CoreType) (x : UInt64) : Decidable (t.Holds x) := by
  cases t <;> unfold CoreType.Holds <;> infer_instance

/-! ## Reading core values -/

namespace Instr

/-- The number of operands that an instruction reads as core values, the first ones, if it does not
pass them on. -/
def coreReads : Instr → Nat
  | bitcasts casts => casts.length
  | load _ _ | liftScalar _ | liftHandle _ _ _ | liftSum _ _ _ | liftEnum _ _ | free _ _
  | freeSum _ _ => 1
  | store _ _ | liftString | liftBytes _ _ | liftList _ _ | freeString | freeList _ _ => 2
  | liftFlags _ count => (FlagsStorage.ofCount count).lanes
  | _ => 0

/-- Whether values begin with core values, in range where there is a type. -/
def areCores : List (Option CoreType) → List Value → Bool
  | [], _ => true
  | t? :: ts, .u64 x :: vs => t?.all (fun t => decide (t.Holds x)) && areCores ts vs
  | _, _ => false

/-- Whether an instruction finds core values where it reads some. A core function has to be passed
as many as the signature has, in range. -/
def accepts (signature : CoreSignature) (i : Instr) (values : List Value) : Bool :=
  match i with
  | callCore _ _ => values.length = signature.params.length
      && areCores (signature.params.map some) values
  | i => areCores (replicate i.coreReads none) values

def CallsCore (i : Instr) : Prop := ∃ name signature, i = callCore name signature

variable {raw : RawRule} {a : Assurance} {vs : List Value}

theorem areCores_of_mean {types : List CoreType} {range : CoreType → Option CoreType}
    (h : Mean raw a (types.map .core) vs)
    (hrange : ∀ t, range t = none ∨ a.ranged ∧ range t = some t) :
    areCores (types.map range) vs = true := by
  induction types generalizing vs with
  | nil => simp [areCores]
  | cons t types ih =>
    obtain ⟨_, vs, ⟨x, rfl, hx⟩, hrest, rfl⟩ := forall₂_cons_left_iff.mp h
    rcases hrange t with none | ⟨ranged, some⟩
    · simpa [areCores, none] using ih hrest
    · simpa [areCores, some, hx ranged] using ih hrest

/-- Operands of its types are accepted by an instruction, by a call of a core function if they are
known to be in range. -/
theorem HasType.accepts {c : Contract} {i : Instr} {ins outs : List OperandType}
    {types : List BlockType} (h : i.HasType c item ins types outs) (hv : Mean raw a ins vs)
    (hcall : i.CallsCore → a.ranged) : i.accepts c.signature vs = true := by
  have cores : ∀ types : List CoreType, Mean raw a (types.map .core) vs →
      areCores (replicate types.length none) vs = true := fun types h => by
    rw [← map_const']
    exact areCores_of_mean h fun _ => .inl rfl
  cases h with
  | @bitcasts casts own _ h =>
    have h' := cores own hv
    rwa [h.length_eq.1] at h'
  | load | liftHandle | liftSum | liftEnum | free | freeSum => exact cores [.i32] hv
  | liftScalar s => exact cores [s.coreType] hv
  | store op => exact cores [op.coreType, .i32] hv
  | liftString | liftBytes | liftList | freeString | freeList => exact cores [.i32, .i32] hv
  | liftFlags l count =>
    have h := cores (replicate (FlagsStorage.ofCount count).lanes .i32) (by simpa using hv)
    rwa [length_replicate] at h
  | callCore =>
    have ranged : areCores (c.signature.params.map some) vs = true :=
      areCores_of_mean hv fun _ => .inr ⟨hcall ⟨_, _, rfl⟩, rfl⟩
    simp [Instr.accepts, ranged, hv.length_eq]
  | _ => rfl

end Instr

theorem Mean.exists_cores {raw : RawRule} {a : Assurance} {types : List CoreType}
    {vs : List Value} (h : Mean raw a (types.map .core) vs) :
    ∃ flat, vs = Value.ofCore flat ∧ (a.ranged → Forall₂ CoreType.Holds types flat) := by
  induction types generalizing vs with
  | nil =>
    obtain rfl := forall₂_nil_left_iff.mp h
    exact ⟨[], rfl, fun _ => .nil⟩
  | cons t types ih =>
    obtain ⟨_, vs, ⟨x, rfl, hx⟩, hrest, rfl⟩ := forall₂_cons_left_iff.mp h
    obtain ⟨flat, rfl, holds⟩ := ih hrest
    exact ⟨x :: flat, rfl, fun ranged => .cons (hx ranged) (holds ranged)⟩

/-! ## Steps -/

variable {α : Type} [Allocator α]

section Steps

variable {raw : RawRule} {a : Assurance} {c : Contract} (s : Setting α) (fault : Failure)
  {m : Machine α}

theorem TypedSteps.of_append {ss ts : List Step} (h : TypedSteps c item Γ (ss ++ ts) Γ') :
    ∃ Γ1, TypedSteps c item Γ ss Γ1 ∧ TypedSteps c item Γ1 ts Γ' := by
  induction ss generalizing Γ with
  | nil => exact ⟨Γ, .nil _ _, h⟩
  | cons s ss ih =>
    cases h with
    | exec hblocks hi hargs hrest =>
      obtain ⟨Γ1, first, second⟩ := ih hrest
      exact ⟨Γ1, .exec hblocks hi hargs first, second⟩
    | scratch size align hrest =>
      obtain ⟨Γ1, first, second⟩ := ih hrest
      exact ⟨Γ1, .scratch size align first, second⟩

theorem OperandType.Means.loosen {t : OperandType} {v : Value} (h : t.Means raw a v) :
    t.Means raw .loose v := by
  cases t with
  | source part => exact False.elim
  | core t =>
    obtain ⟨x, hx, _⟩ := h
    exact ⟨x, hx, False.elim⟩

omit [Allocator α] in
theorem RegsMean.loosen (h : RegsMean raw a Γ m) :
    RegsMean raw .loose Γ m := fun r t hr => (h r t hr).loosen

theorem Guarded.steps_append (vet : Instr → List Value → Bool) (frames : Frames) (scope : Scope)
    (ss ts : List Step) : steps vet fault s frames scope (ss ++ ts)
      = steps vet fault s frames scope ss >>= fun _ => steps vet fault s frames scope ts := by
  induction ss with
  | nil => simp [steps]
  | cons first ss ih => simp [steps, ih]

variable (raw) in
/-- Core values that were lowered are in range when they are handed to a core function, whatever it
returns. -/
theorem TypedSteps.guards_call {before after : List Step} {name : String}
    {signature : CoreSignature} {regs outs : List Reg}
    (h : TypedSteps c .nothing []
      (before ++ .exec (.callCore name signature) regs outs [] :: after) Γ)
    (quiet : StepsOnly (fun i => i.callee? = none) before)
    (quietAfter : StepsOnly (fun i => i.callee? = none) after) {args : List Value}
    (hargs : ∀ t ∈ c.args, ∀ v, t.Means raw ⟨False, True, False⟩ v)
    (hsize : Γ.length ≤ m.registers.size) :
    runFrom (Guarded.steps (Instr.accepts c.signature) fault s {} { args }
        (before ++ .exec (.callCore name signature) regs outs [] :: after)) m
      = runFrom (Exec.steps s { args }
        (before ++ .exec (.callCore name signature) regs outs [] :: after)) m := by
  have uncalled : ∀ {i : Instr}, i.callee? = none → ¬ i.CallsCore := by
    rintro _ none ⟨name, signature, rfl⟩
    cases none
  have mean : ∀ a, (∀ t ∈ c.args, ∀ v, t.Means raw a v) →
      Scope.Sound raw a c .nothing {} { args } := fun a h =>
    ⟨fun index t v ht _ => h t (mem_of_getElem? ht) v, trivial, trivial⟩
  obtain ⟨Γ1, typed, rest⟩ := h.of_append
  have keeps : StepsOnly (Instr.Keeps raw ⟨False, True, False⟩) before :=
    quiet.mono fun i _ none => by
    cases i with
    | callCore => cases none
    | _ => simp [Instr.Keeps]
  have first := typed.guards s fault keeps
    (quiet.mono fun i _ none _ _ _ _ _ hi hv => hi.accepts hv (absurd · (uncalled none)))
    (mean _ hargs) (m := m) .nil (Nat.le_trans rest.extends.length_le hsize)
  have loose := mean .loose fun t ht v => (hargs t ht v).loosen
  rw [Guarded.steps_append, Exec.steps_append, Guarded.steps, Exec.steps]
  refine (first.bind (R := fun _ _ => True) ?_).1
  rintro _ m1 ⟨kept, ranged⟩
  cases rest with
  | exec hblocks hi hregs hrest =>
    cases hblocks
    have call : TypedSteps c .nothing Γ1 [_] _ := .exec (.nil _) hi hregs (.nil _ _)
    refine (step_guards (.nil _) hi hregs call.keeps_loose.1.1 loose ranged.loosen
      (kept.size ▸ Nat.le_trans hrest.extends.length_le hsize)
      (hi.accepts (ranged.read hregs) fun _ => trivial)
        fun n type htype => (by cases htype)).bind ?_
    rintro _ m2 ⟨kept', hregs'⟩
    refine (hrest.guards s fault hrest.keeps_loose (quietAfter.mono fun i _ none _ _ _ _ _ hi hv =>
      hi.accepts hv (absurd · (uncalled none))) loose hregs' ?_).imp fun _ _ _ => trivial
    rw [kept'.size, kept.size]
    exact hsize

theorem TypedSteps.returns {init : List Step} {count : Nat} {regs outs : List Reg}
    (h : TypedSteps c .nothing Γ (init ++ [.exec (.ret count) regs outs []]) Γ')
    (hk : StepsOnly (Instr.Keeps raw a) init)
    (hscope : scope.Sound raw a c .nothing {}) (hregs : RegsMean raw a Γ m)
    (hsize : Γ'.length ≤ m.registers.size) :
    Does a.Allows (Exec.steps s scope (init ++ [.exec (.ret count) regs outs []])) m fun _ m' =>
      Mean raw a c.returns m'.results := by
  obtain ⟨Γ1, typed, rest⟩ := h.of_append
  have first := (typed.guards s (.plain "") hk hk.passes hscope hregs
    (Nat.le_trans rest.extends.length_le hsize)).2
  rw [Exec.steps_append]
  refine first.bind fun _ m1 ⟨_, made⟩ => ?_
  cases rest with
  | exec hblocks hi hargs _ =>
    cases hblocks
    cases hi
    have returned : runFrom (Exec.steps s scope [.exec (.ret count) regs [] []]) m1
        = (.ok (), { m1 with results := regs.map m1.reg }) := rfl
    exact Does.of_ok returned (made.read hargs)

end Steps

/-! ## Programs -/

namespace Program

/-- Steps of a run find core values in the registers wherever they read some, and hand core values
in range to core functions, as many as the signature has: with checks the run is the same, however a
check fails. -/
def ReadsCores (p : Program) (signature : CoreSignature) (host : Host α) (args : List Value)
    (w : World α) : Prop :=
  ∀ fault, runFrom (Guarded.steps (Instr.accepts signature) fault ⟨host, p.ownsLifted⟩ {} { args }
      p.body.steps) (p.startOn args.length w)
    = runFrom (Exec.steps ⟨host, p.ownsLifted⟩ { args } p.body.steps) (p.startOn args.length w)

/-- The results of a run are core values of some types, in range and as many as there are types. -/
def ReturnsCores (p : Program) (host : Host α) (args : List Value) (w : World α)
    (types : List CoreType) : Prop :=
  ∀ results w', runFrom (p.run host args) w = (.ok results, w') →
    ∃ flat, results = Value.ofCore flat ∧ Forall₂ CoreType.Holds types flat

end Program

namespace Code

variable (raw : RawRule) (dir : Direction) {f : FunctionShape} (hf : f.Passable)
  (host : Host α) (w : World α)

def Returns {β : Type} (code : Code β) : Prop := ∀ k, ∃ init count regs outs,
  (code.run k).steps = init ++ [.exec (.ret count) regs outs []]

theorem Returns.bind {β γ : Type} {x : Code γ} {code : γ → Code β} (h : ∀ v, (code v).Returns) :
    (x >>= code).Returns := by
  intro k
  obtain ⟨init, count, regs, outs, last⟩ := h (x.run k).value (x.run k).next
  exact ⟨(x.run k).steps ++ init, count, regs, outs, by
    rw [bind_steps, last, append_assoc]⟩

theorem lowerResults_returns (g : Generator) (f : FunctionShape) (values : List Reg) :
    (lowerResults raw g f values).Returns := by
  have last : ∀ count regs, (emitNone (.ret count) regs).Returns := fun count regs k =>
    ⟨[], count, regs, _, rfl⟩
  rw [lowerResults]
  split
  · split
    · exact .bind fun _ => .bind fun _ => last _ _
    · exact .bind fun _ => .bind fun _ => last _ _
  · exact .bind fun _ => last _ _

include hf

theorem lowering_readsCores (args : List Value) :
    ((call raw { dir, mode := .lowerArgs } f).program f dir .lowerArgs).ReadsCores
      (f.coreSignature dir) host args w := by
  intro fault
  obtain ⟨Γ, typed, next, _⟩ := (call_reads raw { dir, mode := .lowerArgs } hf).1
  obtain ⟨regs, outs, after, split, _, quiet, quietAfter⟩ := exists_parts_around_core raw dir hf
  rw [length_nil, split] at typed
  change runFrom (Guarded.steps _ fault _ _ _ ((call raw _ f).run 0).steps) _
    = runFrom (Exec.steps _ _ ((call raw _ f).run 0).steps) _
  rw [split]
  refine typed.guards_call raw _ fault quiet quietAfter ?_ ?_
  · intro t ht v
    obtain ⟨part, _, rfl⟩ := mem_map.mp ht
    exact False.elim
  · rw [next]
    exact Nat.le_of_eq (Array.size_replicate ..).symm

theorem lifting_readsCores (flat : List UInt64) :
    ((call raw { dir, mode := .liftArgs } f).program f dir .liftArgs).ReadsCores
      (f.coreSignature dir) host (Value.ofCore flat) w := by
  intro fault
  obtain ⟨Γ, typed, next, _⟩ := (call_reads raw { dir, mode := .liftArgs } hf).1
  obtain ⟨parts⟩ := exists_parts raw dir hf
  have quiet : StepsOnly (fun i => ¬ i.CallsCore)
      ((call raw { dir, mode := .liftArgs } f).run 0).steps := by
    have uncalled : ∀ (i : Instr) (_ : List Block), i.callee? = none → ¬ i.CallsCore := by
      rintro _ _ none ⟨name, signature, rfl⟩
      cases none
    rw [parts.split]
    exact stepsAll_append.mpr ⟨parts.quiet.mono uncalled, ⟨nofun, trivial⟩,
      parts.quietAfter.mono uncalled⟩
  have sound : Scope.Sound raw .loose (f.contract (f.coreSignature dir) .liftArgs) .nothing {}
      { args := Value.ofCore flat } := ⟨argsMean_ofCore id _ flat, trivial, trivial⟩
  refine (typed.guards _ fault typed.keeps_loose
    (quiet.mono fun i _ none _ _ _ _ _ hi hv => hi.accepts hv (absurd · none)) sound .nil ?_).1
  rw [next]
  exact Nat.le_of_eq (Array.size_replicate ..).symm

theorem lifting_returnsCores (flat : List UInt64) :
    ((call raw { dir, mode := .liftArgs } f).program f dir .liftArgs).ReturnsCores host
      (Value.ofCore flat) w (f.coreSignature dir).results := by
  intro results w' ran
  set p := (call raw { dir, mode := .liftArgs } f).program f dir .liftArgs with hp
  obtain ⟨parts⟩ := exists_parts raw dir hf
  obtain ⟨values, k, lowers⟩ := parts.lowers
  obtain ⟨init, count, regs, outs, last⟩ := lowerResults_returns raw _ f values k
  have typedAfter := parts.typedAfter
  -- nothing is known of core arguments, but without them core values are in range
  let a : Assurance := ⟨False, parts.args = [], False⟩
  have hargs : ArgsMean raw a parts.args { args := Value.ofCore flat } := by
    by_cases none : parts.args = []
    · rw [none]
      intro index t v ht
      cases ht
    · rcases parts.reads with absent | ⟨params, _⟩
      · exact absurd absent none
      · rw [params]
        exact argsMean_ofCore none _ flat
  have keeps : StepsOnly (Instr.Keeps raw a) parts.after := parts.quietAfter.mono fun i _ none => by
    cases i with
    | callCore => cases none
    | _ => simp [Instr.Keeps, a]
  have source : ∀ m : Machine α, RegsMean raw a (replicate parts.types.length none
      ++ (f.results.map OperandType.of).map some) m := by
    intro m r t hr
    rcases mem_append.mp (mem_of_getElem? hr) with absent | made
    · cases eq_of_mem_replicate absent
    · obtain ⟨_, ht, same⟩ := mem_map.mp made
      obtain ⟨part, _, rfl⟩ := mem_map.mp ht
      cases same
      exact False.elim
  have received := TypedSteps.append parts.typed (.exec (.nil _) .callInterface parts.passed
    (.nil _ _))
  have size : (p.startOn (Value.ofCore flat).length w).registers.size = parts.allTypes.length :=
    (Array.size_replicate ..).trans parts.next.symm
  have grown := typedAfter.extends.length_le
  rw [lowers, last] at typedAfter keeps
  have does : Does a.Allows (Exec.steps ⟨host, p.ownsLifted⟩ { args := Value.ofCore flat }
      p.body.steps) (p.startOn (Value.ofCore flat).length w) fun _ m =>
        Mean raw a ((f.coreSignature dir).results.map .core) m.results := by
    have code : p.body.steps
        = (parts.before ++ [_]) ++ (init ++ [.exec (.ret count) regs outs []]) :=
      parts.split.trans (by rw [lowers, last, append_assoc]; rfl)
    rw [code, Exec.steps_append]
    have sound : Scope.Sound raw .loose (f.contract (f.coreSignature dir) .liftArgs) .nothing {}
        { args := Value.ofCore flat } := ⟨argsMean_ofCore id _ flat, trivial, trivial⟩
    refine Does.bind (received.guards _ (.plain "") received.keeps_loose
      received.callee.passes sound .nil ?_).2 ?_
    · rw [size]
      simpa [FunctionShape.contract] using grown
    · rintro _ m ⟨kept, _⟩
      refine typedAfter.returns _ (stepsAll_append.mp keeps).1 ⟨hargs, trivial, trivial⟩
        (source m) ?_
      rw [kept.size, size]
  rw [Program.runFrom_run_steps] at ran
  rw [Does] at does
  revert does ran
  rcases runFrom (Exec.steps _ _ p.body.steps) _ with ⟨e | _, m⟩
  · intro ran _
    obtain ⟨w2, ended⟩ := p.ending_error e m
    rw [ended] at ran
    cases ran
  · intro ran mean
    obtain ⟨w2, cleaned, _⟩ := p.cleanUp_ok m m.world
    rw [Program.ending, runFrom_bind_ok cleaned] at ran
    cases ran
    obtain ⟨out, same, holds⟩ := mean.exists_cores
    refine ⟨out, same, ?_⟩
    rcases parts.reads with none | ⟨_, pointer⟩
    · exact holds none
    · have none : (f.coreSignature dir).results = [] := by
        rw [f.coreSignature_results]
        by_contra some
        exact pointer (by simp_all [Gen.pointerReads])
      rw [none, map_nil] at mean
      rw [none, map_eq_nil_iff.mp (same.symm.trans (forall₂_nil_left_iff.mp mean))]
      exact .nil

end Code

/-- Core values are in range and never read by mistake. Every half of a call of a validated function
of an acyclic graph compiles. Run on any values of the interface or, if it lifts its arguments, on
any core values, whatever is outside, its steps find core values in the registers wherever they read
some, and pass to the core function as many core values as the signature has, each in the range of
its type. So are the results of a program that lowers them: as many as the signature has, and in
range. -/
theorem core_values_in_range {g : Graph} (hg : g.Acyclic) {f : Function}
    (hf : validate g (some f) = []) (raw : RawRule) (dir : Direction) (mode : Mode) :
    ∃ p, (Program.compile dir mode raw (.ofGraph g (some f))).1 = .ok p
      ∧ ∀ {α : Type} [Allocator α] (host : Host α) (args : List Value) (w : World α),
        (mode = .liftArgs → ∃ flat, args = Value.ofCore flat) →
        p.ReadsCores ((g.shapes.function f).coreSignature dir) host args w
        ∧ (mode = .liftArgs →
          p.ReturnsCores host args w ((g.shapes.function f).coreSignature dir).results) := by
  have passable := passable_of_validate hg hf
  refine ⟨_, compile_eq raw hg hf dir mode, fun host args w hargs => ?_⟩
  cases mode with
  | lowerArgs => exact ⟨Code.lowering_readsCores raw dir passable host w args, nofun⟩
  | liftArgs =>
    obtain ⟨flat, rfl⟩ := hargs rfl
    exact ⟨Code.lifting_readsCores raw dir passable host w flat, fun _ =>
      Code.lifting_returnsCores raw dir passable host w flat⟩
  | neither => exact ⟨fun _ => rfl, nofun⟩

/-- A postbox reads core values only, given a box and a key with something above their numbers. -/
theorem core_values_in_range_postbox :
    Postbox.graph.Acyclic ∧ validate Postbox.graph (some Postbox.swap) = []
    ∧ ∃ p, (Program.compile .exported .liftArgs Program.isByte Postbox.subject).1 = .ok p
      ∧ ∀ {α : Type} [Allocator α] (host : Host α) (w : World α),
        p.ReadsCores ((Postbox.graph.shapes.function Postbox.swap).coreSignature .exported) host
            (Value.ofCore [0x100000007, 2, 0x10000000000, 0, 0, 0, 0]) w
        ∧ p.ReturnsCores host (Value.ofCore [0x100000007, 2, 0x10000000000, 0, 0, 0, 0]) w
          [.i32] := by
  obtain ⟨p, compiled, runs⟩ := core_values_in_range Postbox.acyclic Postbox.validate_swap
    Program.isByte .exported .liftArgs
  refine ⟨Postbox.acyclic, Postbox.validate_swap, p, compiled, fun host w => ?_⟩
  obtain ⟨reads, returns⟩ := runs host _ w fun _ =>
    ⟨[0x100000007, 2, 0x10000000000, 0, 0, 0, 0], rfl⟩
  exact ⟨reads, returns rfl⟩

end CanonicalAbi
