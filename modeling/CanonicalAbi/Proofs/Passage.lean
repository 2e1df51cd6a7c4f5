import CanonicalAbi.Proofs.Programs
import CanonicalAbi.Proofs.Results

/-!
# Two ways for a value

A value can be passed in core values, by lowering and lifting it, or in memory, by storing and
reading it. Whichever way it takes, both sides do the same to the handles and the receiver gets the
same value, or on both ways the value is refused. There is one exception.
-/

namespace CanonicalAbi

open Recording Program

/-! ## Generating both ways -/

namespace Gen

variable {σ ω : Type} (b : Backend σ ω) (realloc : String) (s : Shape)

/-- Passes an argument in core values and returns what arrives. -/
def passFlat : Gen σ ω Unit := do
  emit b (.getArg 0)
  lower b realloc s
  lift b s
  emit b (.ret 1)

/-- Passes an argument in memory of its size and returns what arrives. -/
def passStored : Gen σ ω Unit := do
  let layout ← ofExcept s.layout
  let addr ← returnPointer b layout.size layout.align
  emit b (.getArg 0)
  write b realloc s addr 0
  read b s addr 0
  emit b (.ret 1)

end Gen

def Program.record (f : FunctionShape) (dir : Direction) (mode : Mode)
    (work : Gen Recording Reg Unit) : Except Failure Program :=
  let made := Generator.run work empty
  match made.result with
  | .error abort => .error abort.toFailure
  | .ok _ => ofRecording f dir mode made.backend

/-- The program that is recorded of some work for a function. -/
def Program.ofWork (f : FunctionShape) (dir : Direction) (mode : Mode)
    (work : Gen Recording Reg Unit) : Except Failure Program :=
  record f dir mode (do work; Gen.finish f)

namespace Code

variable (raw : RawRule) (realloc : String) (s : Shape)

def passFlat : Code Unit := do
  let arg ← emitOne (.getArg 0) []
  let flat ← lower raw realloc s arg
  let value ← lift raw s flat
  emitNone (.ret 1) [value]

def passStored : Code Unit := do
  let addr ← scratch s.place.size s.place.align
  let arg ← emitOne (.getArg 0) []
  write raw realloc s arg addr 0
  let value ← read raw s addr 0
  emitNone (.ret 1) [value]

end Code

section Record

variable {raw : RawRule} {realloc : String} {f : FunctionShape} {s : Shape}

theorem Program.ofWork_eq (raw : RawRule) (c : Contract) {work : Gen Recording Reg Unit}
    {code : Code Unit}
    (writes : Gen.Writes (backend raw) c .nothing (.ofTypes []) [] work code .nothing)
    (dir : Direction) (mode : Mode) :
    ofWork f dir mode work = .ok (code.program f dir mode) := by
  obtain ⟨⟨Γ, steps, next, _⟩, follows⟩ := writes ⟨0⟩
  have recorded := steps.recorded raw empty rfl
  have completes := follows.completes f empty
  simp only [Scene.ofTypes, List.length_nil, List.range_zero] at recorded next steps
  rw [recorded] at completes
  obtain ⟨log, completes⟩ := completes
  rw [ofWork, record, Generator.run, run_run_eq, completes]
  simp [ofRecording, extend, empty, Code.program, next]

open Gen in
theorem passFlat_record (hp : s.Passable) (dir : Direction) (mode : Mode) :
    ofWork f dir mode (Gen.passFlat (backend raw) realloc s)
      = .ok ((Code.passFlat raw realloc s).program f dir mode) := by
  refine ofWork_eq raw ⟨[.of (some s)], [.of (some s)], f, f.coreSignature dir⟩ ?_ dir mode
  refine (Writes.emitPush (.getArg rfl) .nil).bind [] <| .one fun q1 _ _ _ harg => ?_
  refine ((lowerWrites realloc hp).lower harg).bind [] <| .all fun q2 _ _ _ hflat => ?_
  refine ((liftWrites hp).lift hflat).bind [] <| .one fun q3 _ _ _ hvalue => ?_
  exact ret_writes rfl rfl (.one hvalue)

open Gen in
theorem passStored_record (hp : s.Passable) (dir : Direction) (mode : Mode) :
    ofWork f dir mode (Gen.passStored (backend raw) realloc s)
      = .ok ((Code.passStored raw realloc s).program f dir mode) := by
  refine ofWork_eq raw ⟨[.of (some s)], [.of (some s)], f, f.coreSignature dir⟩ ?_ dir mode
  refine .silent (Silent.ofExcept [] (Shape.layout_eq hp)) ?_
  refine (Writes.returnPointer _ _).bind [] <| .taken fun q1 _ _ _ haddr => ?_
  refine (Writes.emitPush (.getArg rfl) .nil).bind [] <| .one fun q2 _ _ h2 harg => ?_
  have haddr2 := haddr.mono h2
  refine ((lowerWrites realloc hp).write 0 harg haddr2).bind [] <| .nothing fun q3 h3 => ?_
  refine ((liftWrites hp).read 0 (haddr2.mono h3)).bind [] <| .one fun q4 _ _ _ hv => ?_
  exact ret_writes rfl rfl (.one hv)

end Record

/-! ## Running both ways -/

section Run

variable {α : Type} [BumpLike α] {raw : RawRule} {realloc : String} {c : Setting α}
  {scope : Scope} {p : Point α} {s : Shape} {v : Value}

section

variable (hp : s.Passable) (hfit : s.Fits) (sized : s.Sized v) (harg : scope.args[0]? = some v)
  (ready : p.Ready)
include hp hfit sized harg ready

theorem passFlat_mirrors :
    (Code.passFlat raw realloc s).Mirrors c scope p (s.send raw false v >>= Parcel.receive)
      fun w _ q => q.machine.results = [w] := by
  refine .after (getArg_runs harg) ?_
  rintro arg q1 _ ⟨holds, alike⟩
  have ready1 : q1.Ready := alike.ready ready
  refine ⟨alike.custody, .bind ((sendMirrors s hp hfit).1 sized holds ready1) ?_⟩
  rintro parcel flat q2 _ ⟨xs, blocks, hflat, carries⟩
  refine .before ((receiveMirrors s hp).1 carries.secures.here hflat carries.lowered.ready) ?_
  rintro w r q3 _ ⟨hr, _⟩
  refine (ret_runs (.cons hr .nil)).imp ?_
  exact fun _ q4 _ alike => ⟨alike.custody, alike.results⟩

theorem passStored_mirrors :
    (Code.passStored raw realloc s).Mirrors c scope p (s.send raw true v >>= Parcel.receive)
      fun w _ q => q.machine.results = [w] := by
  have exact := s.place_exact hfit
  refine .after (scratch_runs ready exact.isAlignment) ?_
  rintro addr q1 _ ⟨ptr, haddr, took, _⟩
  obtain ⟨allocator, world⟩ := took.world
  have custody : q1.machine.custody = p.machine.custody := by
    rw [Machine.custody, world, took.lent, Machine.custody]
  refine ⟨custody, .after (getArg_runs harg) ?_⟩
  rintro arg q2 h2 ⟨holds, alike⟩
  have ready2 : q2.Ready := alike.ready took.ready
  have inside : (ptr + 0).toNat + s.place.size.toNat ≤ q2.machine.world.frontier := by
    rw [UInt32.add_zero, alike.world]
    exact Nat.le_of_eq took.stop
  have haddr2 := haddr.extend h2
  refine ⟨alike.custody, .bind ((sendMirrors s hp hfit).2 sized holds haddr2 ready2 inside) ?_⟩
  rintro parcel _ q3 h3 ⟨blocks, carries⟩
  refine .before ((receiveMirrors s hp).2 carries.secures.here (haddr2.extend h3)
    carries.lowered.ready) ?_
  rintro w r q4 _ ⟨hr, _⟩
  refine (ret_runs (.cons hr .nil)).imp ?_
  exact fun _ q5 _ alike => ⟨alike.custody, alike.results⟩

end

/-- What a run that mirrors work on handles ends with: the result of the work, if memory does not
run out. -/
theorem Code.Mirrors.outcome (code : Code Unit) (f : FunctionShape) (dir : Direction) (mode : Mode)
    (host : Host α) (args : List Value) (w : World α) {x : Passing Value}
    (h : code.Mirrors ⟨host, (code.program f dir mode).ownsLifted⟩ { args }
      ⟨0, (code.program f dir mode).startOn args.length w⟩ x fun v _ q => q.machine.results = [v]) :
    (∃ e, (runFrom ((code.program f dir mode).run host args) w).1 = .error e ∧ e.IsRefusal)
      ∨ ((runFrom ((code.program f dir mode).run host args) w).1.isOk = false
        ∧ x.run ⟨w.table, []⟩ = none)
      ∨ ∃ v c, (runFrom ((code.program f dir mode).run host args) w).1 = .ok [v]
        ∧ x.run ⟨w.table, []⟩ = some (v, c) := by
  have does := run_does (Q := fun m => ∃ v, x.run ⟨w.table, []⟩ = some (v, m.custody)
    ∧ m.results = [v]) h
  rw [Does] at does
  revert does
  rcases runFrom ((code.program f dir mode).run host args) w with ⟨e | results, w'⟩
  · rintro (refusal | failed)
    · exact .inl ⟨e, rfl, refusal⟩
    · exact .inr (.inl ⟨rfl, failed⟩)
  · rintro ⟨m, ⟨v, hx, hv⟩, hresults, _⟩
    exact .inr (.inr ⟨v, m.custody, by rw [hresults, hv], hx⟩)

end Run

/-! ## Both ways agree -/

/-- Both fail, or both give the same values. -/
def SameOutcome (r r' : Except Failure (List Value)) : Prop :=
  (r.isOk = false ∧ r'.isOk = false) ∨ ∃ vs, r = .ok vs ∧ r' = .ok vs

/-- Passing a value of a parameter's type in core values and in memory. If memory does not run out
on either way, both ways have the same outcome, whether or not the value is well formed, as long as
no number that has no case is cut down to one that has. In that case the value is refused if it is
passed in core values. -/
theorem passages_agree (raw : RawRule) (realloc : String) {g : Graph}
    (acyclic : g.Acyclic) {f : Function} (valid : validate g (some f) = []) {s : Shape}
    (param : some s ∈ (g.shapes.function f).params) (fits : s.Fits) {v : Value} (sized : s.Sized v)
    (dir : Direction) (mode : Mode) {w : World Bump} {b : Bump} (allocator : w.allocator = some b)
    (bounds : b.Over w.memory.size) (host : Host Bump) :
    ∃ flat stored,
      Program.ofWork (g.shapes.function f) dir mode
        (Gen.passFlat (Recording.backend raw) realloc s) = .ok flat
      ∧ Program.ofWork (g.shapes.function f) dir mode
        (Gen.passStored (Recording.backend raw) realloc s) = .ok stored
      ∧ ((∃ e, ((runFrom (flat.run host [v]) w).1 = .error e
            ∨ (runFrom (stored.run host [v]) w).1 = .error e) ∧ e.IsRefusal)
        ∨ (s.EnumsKept v →
            SameOutcome (runFrom (flat.run host [v]) w).1 (runFrom (stored.run host [v]) w).1)
          ∧ (¬ s.EnumsKept v → (runFrom (flat.run host [v]) w).1.isOk = false)) := by
  have hp : s.Passable :=
    fieldsPassable_iff.mp (passable_of_validate acyclic valid).params (some s) param
  refine ⟨_, _, passFlat_record hp dir mode, passStored_record hp dir mode, ?_⟩
  have flat := Code.Mirrors.outcome (Code.passFlat raw realloc s) (g.shapes.function f)
    dir mode host
    [v] w (passFlat_mirrors hp fits sized rfl ⟨b, allocator, bounds⟩)
  have stored := Code.Mirrors.outcome (Code.passStored raw realloc s) (g.shapes.function f)
    dir mode host [v] w (passStored_mirrors hp fits sized rfl ⟨b, allocator, bounds⟩)
  rcases flat with ⟨e, failed, refusal⟩ | flat
  · exact .inl ⟨e, .inl failed, refusal⟩
  rcases stored with ⟨e, failed, refusal⟩ | stored
  · exact .inl ⟨e, .inr failed, refusal⟩
  refine .inr ⟨fun kept => ?_, fun cut => ?_⟩
  · rw [s.send_stored fits kept] at stored
    rcases flat with ⟨failed, none⟩ | ⟨u, c, ran, some⟩
    · rcases stored with ⟨failed', _⟩ | ⟨u, c, _, some⟩
      · exact .inl ⟨failed, failed'⟩
      · rw [none] at some
        cases some
    · rcases stored with ⟨_, none⟩ | ⟨u', c', ran', some'⟩
      · rw [none] at some
        cases some
      · rw [some] at some'
        cases some'
        exact .inr ⟨[u], ran, ran'⟩
  · rcases flat with ⟨failed, _⟩ | ⟨u, c, _, some⟩
    · exact failed
    · obtain ⟨parcel, c1, sent, received⟩ := Passing.run_bind_eq_some.mp some
      rw [s.send_refused fits cut sent c1] at received
      cases received

namespace Paintbox

def graph : Graph where
  defs := #[
    { name := "color", kind := some (.enum ["red", "green", "blue"]) },
    { name := "tint", kind := some (.record [⟨"name", some .string⟩, ⟨"color", some (.defn 0)⟩]) }]

def mix : Function where
  name := "mix"
  params := [⟨"tint", some (.defn 1)⟩]
  results := []

def tint : Shape :=
  .product (graph.label 1) .record [some .string, some (.enum (graph.label 0) 3)]

def tinted (color : UInt32) : Value := .list [.string [65, 100, 97], .u32 color]

theorem acyclic : graph.Acyclic := Graph.Descending.acyclic (by decide)

theorem fits_tint : tint.Fits := by
  simp [tint, Shape.Fits, FieldsFit, Fits?]
  decide

theorem sized_tinted (color : UInt32) : tint.Sized (tinted color) := by
  intro vs hvs
  cases hvs
  refine ⟨fun data hdata => ?_, trivial, trivial⟩
  cases hdata
  decide

def world : World Bump := { memory := .zeros 64, allocator := some (.ofRange 8 64), table := none }

theorem over_world : (Bump.ofRange 8 64).Over world.memory.size := by
  constructor <;> decide

def flat : Gen Recording Reg Unit :=
  Gen.passFlat (backend isByte) "" tint

def stored : Gen Recording Reg Unit :=
  Gen.passStored (backend isByte) "" tint

def arrives (work : Gen Recording Reg Unit) (color : UInt32) : Except Failure (List Value) := do
  let p ← ofWork (graph.shapes.function mix) .imported .lowerArgs work
  (runFrom (p.run {} [tinted color]) world).1

def color? : Except Failure (List Value) → Option UInt32
  | .ok [.list [_, .u32 color]] => some color
  | _ => none

end Paintbox

open Paintbox in
/-- A tint with a color arrives on both ways. With a number that is cut down to a color it is
refused in core values, and in memory it arrives with this color. -/
theorem passages_agree_tint :
    SameOutcome (arrives flat 2) (arrives stored 2) ∧ (arrives flat 2).isOk = true
      ∧ (arrives flat 257).isOk = false ∧ color? (arrives stored 257) = some 1 := by
  have ran : (arrives flat 2).isOk = true ∧ (arrives stored 2).isOk = true
      ∧ (arrives stored 257).isOk = true := by
    decide +kernel
  have cut : ¬ tint.EnumsKept (tinted 257) := fun kept =>
    absurd ((kept _ rfl).2.1 257 rfl (by decide)) (by decide)
  have kept : tint.EnumsKept (tinted 2) := by
    intro vs hvs
    cases hvs
    refine ⟨trivial, fun n hn _ => ?_, trivial⟩
    cases hn
    decide
  have agree (color : UInt32) :
      (∃ e, (arrives flat color = .error e ∨ arrives stored color = .error e) ∧ e.IsRefusal)
      ∨ (tint.EnumsKept (tinted color) → SameOutcome (arrives flat color) (arrives stored color))
        ∧ (¬ tint.EnumsKept (tinted color) → (arrives flat color).isOk = false) := by
    obtain ⟨p, q, hp, hq, agree⟩ := passages_agree Program.isByte "" acyclic (f := mix) (by decide)
      (s := tint) (List.mem_singleton_self _) fits_tint (sized_tinted color) .imported .lowerArgs
      (w := world) rfl over_world {}
    have inCore : arrives flat color = (runFrom (p.run {} [tinted color]) world).1 := by
      rw [arrives, flat, hp]
      rfl
    have inMemory : arrives stored color = (runFrom (q.run {} [tinted color]) world).1 := by
      rw [arrives, stored, hq]
      rfl
    rw [inCore, inMemory]
    exact agree
  refine ⟨?_, ran.1, ?_, by decide +kernel⟩
  · rcases agree 2 with ⟨e, failed | failed, _⟩ | ⟨same, _⟩
    · rw [failed] at ran
      cases ran.1
    · rw [failed] at ran
      cases ran.2.1
    · exact same kept
  · rcases agree 257 with ⟨e, failed | failed, _⟩ | ⟨_, refused⟩
    · rw [failed]
      rfl
    · rw [failed] at ran
      cases ran.2.2
    · exact refused cut

end CanonicalAbi
