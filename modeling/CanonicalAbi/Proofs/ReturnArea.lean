import CanonicalAbi.Proofs.ArgumentBlocks

/-!
# Results in the return area

The callee's half of an import lifts its arguments, calls the function of the interface and stores
the results where its last argument points to. That pointer may be anything.
-/

namespace CanonicalAbi

open Exec Value

variable {α β γ : Type} [Firm α]

/-! ## Lifting writes nothing -/

/-- Nothing was written to the memory of a world. Registers stay registers. -/
def Unwritten (w : World α) (count : Nat) (m : Machine α) : Prop :=
  (∃ calls, w.Changes (fun _ => False) calls m.world) ∧ m.registers.size = count

section Lifting

variable {w : World α} {count : Nat}

/-- A computation that writes nothing to memory, also when it fails. -/
abbrev Writeless (w : World α) (count : Nat) (x : Exec α β) : Prop :=
  Related (Related.Always (Unwritten w count)) (Related.Always (Unwritten w count))
    (Related.Always (Unwritten w count)) x x

theorem Writeless.of_changes {x : Exec α β} (h : ∀ m : Machine α, m.world.Ready →
    (∃ calls, m.world.Changes (fun _ => False) calls (runFrom x m).2.world)
      ∧ (runFrom x m).2.registers.size = m.registers.size) : Writeless w count x := by
  refine .always fun m hm => ?_
  obtain ⟨⟨calls, before⟩, size⟩ := hm
  obtain ⟨⟨calls', after⟩, size'⟩ := h m before.ready
  exact ⟨⟨_, before.trans after fun _ => False.elim⟩, size'.trans size⟩

theorem Writeless.act {a : Action α β}
    (h : ∀ w, (runFrom a w).2.memory = w.memory ∧ (runFrom a w).2.allocator = w.allocator) :
    Writeless w count (act a) :=
  of_changes fun m ready => by
    rw [runFrom_act]
    exact ⟨⟨[], .of_eq ready (h m.world).1 (h m.world).2⟩, rfl⟩

theorem Writeless.onTable (op : TableOp β) : Writeless w count (Exec.act (.onTable op)) :=
  act (Action.onTable_keeps op)

theorem Writeless.requireTable : Writeless w count (requireTable : Exec α Unit) :=
  of_changes fun m ready => by
    cases ht : m.world.table with
    | none =>
      obtain ⟨e, refused⟩ := runFrom_requireTable_none ht
      rw [refused]
      exact ⟨⟨[], .refl ready⟩, rfl⟩
    | some t =>
      rw [runFrom_requireTable_some ht]
      exact ⟨⟨[], .refl ready⟩, rfl⟩

theorem Writeless.free (ptr size align : UInt32) :
    Writeless w count (Exec.free ptr size align : Exec α Unit) := by
  rw [Exec.free]
  split
  · exact .pure ()
  · next solid =>
    have one : AllocationList.free [⟨ptr, size, align⟩]
        = fun a : α => Allocator.free a ptr size align := funext fun a => if_neg solid
    refine of_changes fun m ready => ?_
    exact ⟨⟨freeCalls [⟨ptr, size, align⟩], .of_free ready rfl (by rw [one]; rfl)⟩, rfl⟩

variable {raw : RawRule} (c : Setting α)

theorem Instr.Lifts.steady {i : Instr} (h : i.Lifts raw) : Exec.Steady
    (Related.Always (Unwritten w count)) (Related.Always (Unwritten w count)) c c i where
  fails _ _ h := h
  owned := rfl
  reads read := Writeless.act fun w => by
    rw [runFrom_bind_ok (runFrom_get w)]
    cases read w.memory <;> exact ⟨rfl, rfl⟩
  writes hi := by cases i <;> first | exact hi.elim | exact h.elim
  free := Writeless.free
  requires := Writeless.requireTable
  owns resource rep := Writeless.onTable _
  takes handle resource := Writeless.onTable _
  looks handle resource := Writeless.onTable _
  returns results := .always fun _ hm => hm
  lowers realloc hr := by cases i <;> cases hr <;> exact h.elim
  obtains _ _ _ hi := by
    cases hi
    exact h.elim
  lends _ _ hi := by
    cases hi
    exact h.elim
  callsCore _ _ hi := by
    cases hi
    exact h.elim
  callsInterface _ hi := by
    cases hi
    exact h.elim

theorem getRegs_writeless (regs : List Reg) :
    Writeless w count (getRegs regs : Exec α (List Value)) := .always fun _ hm => hm

theorem setRegs_writeless (regs : List Reg) (values : List Value) :
    Writeless w count (setRegs regs values : Exec α Unit) :=
  .always fun _ hm => ⟨hm.1,
    List.foldlRecOn (motive := (Array.size · = count)) _ _ hm.2 fun _ size _ _ =>
      (Array.size_setIfInBounds ..).trans size⟩

mutual

theorem steps_writeless : {ss : List Step} → StepsOnly (Instr.Lifts raw) ss → ∀ scope,
    Writeless w count (steps c scope ss)
  | [], _, _ => .pure ()
  | _ :: _, h, scope => (step_writeless h.1 scope).bind fun _ => steps_writeless h.2 scope

theorem step_writeless : {s : Step} → s.Only (Instr.Lifts raw) → ∀ scope,
    Writeless w count (step c scope s)
  | .exec i args outs blocks, h, scope => by
    refine (getRegs_writeless args).bind fun values => Related.bind ?_ (setRegs_writeless outs)
    exact instr_related (h.1.steady c) scope blocks.length (nth_writeless h.2) values
  | .scratch _ _ _, h, _ => h.elim

theorem nth_writeless : {blocks : List Block} → BlocksOnly (Instr.Lifts raw) blocks →
    ∀ n scope, Writeless w count (nth c scope n blocks)
  | [], _, n, _ => by
    cases n <;> exact .pure []
  | .mk ss results :: _, h, 0, scope =>
    (steps_writeless h.1 scope).bind fun _ => getRegs_writeless results
  | .mk _ _ :: _, h, n + 1, scope => nth_writeless h.2 n scope

end

end Lifting

/-! ## The call -/

/-- The function of the interface leaves memory and allocator alone, and the texts and lists that it
returns take less than 2^32 bytes each. What it returns may be anything else. -/
def Host.Spares (host : Host α) (f : FunctionShape) : Prop :=
  ∀ impl, host.interface = some impl → ∀ args w,
    (runFrom (impl f args) w).2.memory = w.memory
    ∧ (runFrom (impl f args) w).2.allocator = w.allocator
    ∧ ∀ results, (runFrom (impl f args) w).1 = .ok results → FieldsSized f.results results

section Results

variable {area : Nat → Prop} {raw : RawRule} {scope : Scope} {p : Point α}
  {f : FunctionShape}

theorem callInterface_confined {host : Host α} (h : host.Spares f) (owned : Bool) (args : List Reg)
    (ready : p.Ready) :
    (Code.emit (.callInterface f) args).Confined area ⟨host, owned⟩ scope p fun rs q =>
      ∃ results, q.HoldsAll rs results ∧ FieldsSized f.results results := by
  refine .emit ?_
  simp only [instr, callInterface]
  generalize args.map p.machine.reg = values
  rcases found : host.interface with _ | impl
  · exact .throw ready _
  · obtain ⟨memory, allocator, sized⟩ := h impl found values (p.machine.atCall f values)
    have ended := runFrom_outcome f.name f.results.length (crossInterface impl f values)
      p.machine
    rw [runFrom_crossInterface] at ended
    rcases answer : Exec.ended f.name f.results.length _ with e | results <;> rw [answer] at ended
    · exact .of_error ended (.of_eq ready memory allocator)
    · obtain ⟨returned, count⟩ := ended_eq_ok.mp answer
      refine .of_ok ended (.of_eq ready memory allocator) ⟨rfl, ?_⟩
      exact fun rs q _ _ _ holds => ⟨results, holds count, sized results returned⟩

theorem lowerResults_confined {c : Setting α} {g : Generator} (hdir : g.dir = .imported)
    (hret : f.returnsArea = true) (hp : FieldsPassable f.results) (hfit : f.Fits)
    {values : List Reg} {results : List Value} (holds : p.HoldsAll values results)
    (sized : FieldsSized f.results results) (ready : p.Ready)
    (harea : ∀ v, scope.args[(f.coreSignature .imported).params.length - 1]? = some v →
      ∀ i, Around v.core.toUInt32 (Extent.product (fieldExtents f.results)).size i → area i) :
    (Code.lowerResults raw g f values).Confined area c scope p fun _ _ => True := by
  have exact := (Layout.product_exact (fieldPlaces_exact hfit.results) hfit.resultArea).1
  rw [Code.lowerResults, FunctionShape.coreSignature_returnPointer, if_pos hret, hdir]
  refine .bind (getArg_confined ready) ?_
  rintro addr q1 h1 ready1 ⟨v, found, haddr⟩
  have there : q1.Addresses addr v.core.toUInt32 := ⟨v, haddr, rfl⟩
  refine .bind (writeFields_confined (fun s _ => sendConfined s) hp hfit.results sized
    (Point.HoldsAll.extend holds h1) there ready1
    (placedOffsets_between hfit.results hfit.resultArea) fun i hi => harea v found i ?_) ?_
  · rwa [UInt32.add_zero, exact.size] at hi
  · intro _ q2 _ ready2 _
    exact .emitNone (.of_ok rfl (.of_eq ready2 rfl rfl) rfl)

end Results

/-! ## Whole runs -/

/-- The bytes of the results, from where the last core argument points to, modulo 2^32. -/
def FunctionShape.ReturnBytes (f : FunctionShape) (flat : List UInt64) (i : Nat) : Prop :=
  ∃ x, flat[(f.coreSignature .imported).params.length - 1]? = some x
    ∧ Around x.toUInt32 (Extent.product (fieldExtents f.results)).size i

/-- However the callee's half of an import ends, it changes only blocks of its own and the bytes of
the results. -/
theorem Code.call_changes_results (raw : RawRule) {f : FunctionShape} (hf : f.Passable)
    (hfit : f.Fits) (hret : f.returnsArea = true) {host : Host α} (spares : host.Spares f)
    (flat : List UInt64) {w : World α} (ready : w.Ready) :
    let p := (call raw { dir := .imported, mode := .liftArgs } f).program f .imported .liftArgs
    ∃ calls,
      w.Changes (f.ReturnBytes flat) calls (runFrom (p.run host (ofCore flat)) w).2 := by
  intro p
  let g : Generator := { dir := .imported, mode := .liftArgs }
  have started : w.Changes (f.ReturnBytes flat) [] (p.startOn (ofCore flat).length w).world :=
    .of_eq ready rfl rfl
  have pointed : ∀ v, (ofCore flat)[(f.coreSignature .imported).params.length - 1]? = some v →
      ∀ i, Around v.core.toUInt32 (Extent.product (fieldExtents f.results)).size i →
        f.ReturnBytes flat i := by
    intro v hv i hi
    rw [ofCore, List.getElem?_map, Option.map_eq_some_iff] at hv
    obtain ⟨x, hx, rfl⟩ := hv
    exact ⟨x, hx, hi⟩
  have lifted : CanonicalAbi.Confined (f.ReturnBytes flat) (steps ⟨host, p.ownsLifted⟩
      { args := ofCore flat } ((liftArgs raw g f).run 0).steps)
      (p.startOn (ofCore flat).length w) fun _ m =>
        m.registers.size = (p.startOn (ofCore flat).length w).registers.size := by
    obtain ⟨⟨calls, changes⟩, size⟩ := (steps_writeless ⟨host, p.ownsLifted⟩
      (liftArgs_lifts g hf.params 0) { args := ofCore flat }).invariant _
      ⟨⟨[], .refl started.ready⟩, rfl⟩
    refine ⟨⟨calls, changes.widen fun _ => False.elim⟩, fun _ m' ran => ?_⟩
    rw [ran] at size
    exact size
  have whole : CanonicalAbi.Confined (f.ReturnBytes flat) (steps ⟨host, p.ownsLifted⟩
      { args := ofCore flat } ((call raw g f).run 0).steps)
      (p.startOn (ofCore flat).length w) fun _ _ => True := by
    rw [call, steps_bind]
    refine lifted.bind fun _ m ready1 size => ?_
    have rest : (emit (.callInterface f) ((liftArgs raw g f).run 0).value
        >>= lowerResults raw g f).Confined (f.ReturnBytes flat) ⟨host, p.ownsLifted⟩
        { args := ofCore flat } ⟨((liftArgs raw g f).run 0).next, m⟩ fun _ _ => True := by
      refine .bind (callInterface_confined spares _ _ ready1) ?_
      rintro rs q _ ready2 ⟨results, holds, sized⟩
      exact lowerResults_confined rfl hret hf.results hfit holds sized ready2 pointed
    refine (rest ?_).imp fun _ _ _ => trivial
    rw [size]
    exact Nat.le_of_eq (Array.size_replicate ..).symm
  obtain ⟨⟨calls, changes⟩, _⟩ := whole
  rw [Program.runFrom_run_steps]
  exact p.ending_changes (started.trans changes fun _ => .inl) _

/-! ## Accesses -/

section Accesses

/-- `width` bytes at an address and offset, which are added up in 32 bits, reach past the end of the
memory. -/
def PastEnd (m : Machine α) (base offset width : UInt32) : Prop :=
  m.world.memory.size < (base.toNat + offset.toNat) % 2 ^ 32 + width.toNat

variable (c : Setting α) (scope : Scope) (count : Nat) (run : Nat → Scope → Exec α (List Value))
  {m : Machine α} {args : List Value} {offset : UInt32}

theorem store_past_end {op : StoreOp}
    (h : PastEnd m (args.getD 1 .nothing).core.toUInt32 offset op.width.size) :
    runFrom (instr c scope count run (.store op offset) args) m
      = (.error (.outOfBounds .eval [] ((args.getD 1 .nothing).core.toUInt32 + offset)
          op.width.size), m) := by
  have past : m.world.memory.size < ((args.getD 1 .nothing).core.toUInt32 + offset).toNat
      + (Memory.toBytes op.width.size.toNat (args.headD .nothing).core).length := by
    rw [Memory.length_toBytes, UInt32.toNat_add]
    exact h
  have refused := runFrom_write_refused past
  rw [Memory.length_toBytes, UInt32.ofNat_toNat, ← store_eq_write] at refused
  exact runFrom_bind_error refused

theorem load_past_end {op : LoadOp}
    (h : PastEnd m (args.headD .nothing).core.toUInt32 offset op.width.size) :
    runFrom (instr c scope count run (.load op offset) args) m
      = (.error (.outOfBounds .eval [] ((args.headD .nothing).core.toUInt32 + offset)
          op.width.size), m) := by
  have past : m.world.memory.size
      < ((args.headD .nothing).core.toUInt32 + offset).toNat + op.width.size.toNat := h
  have refused : runFrom (load op ((args.headD .nothing).core.toUInt32 + offset)) m
      = (.error (.outOfBounds .eval [] ((args.headD .nothing).core.toUInt32 + offset)
          op.width.size), m) := by
    rw [load_eq_map, ← bind_pure_comp]
    exact runFrom_bind_error (runFrom_load_refused past)
  exact runFrom_bind_error refused

end Accesses

/-! ## Lowered results -/

/-- Lowered results stay in the return area, modulo 2^32. For every validated function of an acyclic
graph whose types fit and whose results are returned behind a pointer, the callee's half of one that
is imported compiles. Run on any core arguments and whatever the function of the interface returns,
it changes, however it ends, only blocks that it obtains and the bytes of the results from the
pointer on, modulo 2^32. If these do not go on at the beginning of all addresses, they are those
from the pointer up to the end of the results. A load or store that reaches past the end of the
memory, where address and offset are added up modulo 2^32 as well, fails and changes nothing. -/
theorem lowered_results_confined {g : Graph} (hg : g.Acyclic) {f : Function}
    (hf : validate g (some f) = []) (hfit : (g.shapes.function f).Fits)
    (hret : ((g.shapes.function f).coreSignature .imported).returnPointer.isSome = true)
    (raw : RawRule) :
    ∃ p, (Program.compile .imported .liftArgs raw (.ofGraph g (some f))).1 = .ok p
      ∧ ∀ {α : Type} [Firm α],
        (∀ (host : Host α) (flat : List UInt64) (w : World α), w.Ready →
          host.Spares (g.shapes.function f) →
          ∃ calls, w.Changes ((g.shapes.function f).ReturnBytes flat) calls
              (runFrom (p.run host (Value.ofCore flat)) w).2
            ∧ ∀ x : UInt64,
              flat[((g.shapes.function f).coreSignature .imported).params.length - 1]? = some x →
              x.toUInt32.toNat + (Extent.product (fieldExtents (g.shapes.function f).results)).size
                ≤ 2 ^ 32 →
              Memory.AgreeOn (fun i => ¬ Region x.toUInt32
                  (Extent.product (fieldExtents (g.shapes.function f).results)).size i
                  ∧ ¬ Granted calls i) w.memory
                (runFrom (p.run host (Value.ofCore flat)) w).2.memory)
        ∧ ∀ (c : Setting α) (scope : Scope) (count : Nat) (run : Nat → Scope → Exec α (List Value))
          (m : Machine α) (args : List Value) (offset : UInt32),
          (∀ op : StoreOp, PastEnd m (args.getD 1 .nothing).core.toUInt32 offset op.width.size →
            runFrom (Exec.instr c scope count run (.store op offset) args) m
              = (.error (.outOfBounds .eval [] ((args.getD 1 .nothing).core.toUInt32 + offset)
                  op.width.size), m))
          ∧ ∀ op : LoadOp, PastEnd m (args.headD .nothing).core.toUInt32 offset op.width.size →
            runFrom (Exec.instr c scope count run (.load op offset) args) m
              = (.error (.outOfBounds .eval [] ((args.headD .nothing).core.toUInt32 + offset)
                  op.width.size), m) := by
  rw [FunctionShape.coreSignature_returnPointer] at hret
  refine ⟨_, compile_eq raw hg hf .imported .liftArgs, fun {α} _ => ⟨?_, ?_⟩⟩
  · intro host flat w ready spares
    obtain ⟨calls, changes⟩ := Code.call_changes_results raw (passable_of_validate hg hf) hfit hret
      spares flat ready
    refine ⟨calls, changes, fun x hx fits => changes.memory.mono fun i hi => ⟨?_, hi.2⟩⟩
    rintro ⟨x', hx', around⟩
    rw [hx] at hx'
    cases hx'
    exact hi.1 (around.region fits)
  · intro c scope count run m args offset
    exact ⟨fun op => store_past_end c scope count run, fun op => load_past_end c scope count run⟩

namespace Greeting

def graph : Graph where
  defs := #[]

def greet : Function where
  name := "greet"
  params := []
  results := [⟨"", some .string⟩]

theorem acyclic : graph.Acyclic := Graph.Descending.acyclic (by decide)

theorem validate_greet : validate graph (some greet) = [] := by decide

theorem fits_greet : (graph.shapes.function greet).Fits :=
  ⟨trivial, by decide, ⟨trivial, trivial⟩, by decide⟩

def callee : Program :=
  (Code.call Program.isByte { dir := .imported, mode := .liftArgs }
    (graph.shapes.function greet)).program (graph.shapes.function greet) .imported .liftArgs

def world : World Bump where
  memory := .zeros 64
  allocator := some (.ofRange 8 64)
  table := none

def host : Host Bump where
  interface := some fun _ _ => return [.string [65, 100, 97]]

theorem ready : world.Ready := by
  refine ⟨_, rfl, ?_⟩
  constructor <;> decide

theorem spares : host.Spares (graph.shapes.function greet) := by
  rintro impl ⟨⟩ args w
  refine ⟨rfl, rfl, ?_⟩
  rintro results ⟨⟩
  refine ⟨?_, trivial⟩
  rintro data ⟨⟩
  decide

end Greeting

open Greeting in
/-- Four bytes before the end of all addresses the length of a text goes to the beginning of the
memory, before its pointer is refused. Sixteen bytes behind the beginning, both are stored there. -/
theorem lowered_results_confined_greeting :
    (∃ calls, world.Changes ((graph.shapes.function greet).ReturnBytes [4294967292]) calls
      (runFrom (callee.run host (Value.ofCore [4294967292])) world).2)
    ∧ (runFrom (callee.run host (Value.ofCore [4294967292])) world).1.isOk = false
    ∧ (runFrom (callee.run host (Value.ofCore [4294967292])) world).2.memory.bytes[0]? = some 3
    ∧ (runFrom (callee.run host (Value.ofCore [16])) world).1.isOk = true
    ∧ ∃ calls, Memory.AgreeOn (fun i => ¬ Region 16 8 i ∧ ¬ Granted calls i) world.memory
      (runFrom (callee.run host (Value.ofCore [16])) world).2.memory := by
  obtain ⟨p, compiled, confined⟩ := lowered_results_confined acyclic validate_greet fits_greet rfl
    Program.isByte
  obtain rfl : callee = p := by
    rw [compile_eq Program.isByte acyclic validate_greet] at compiled
    exact Except.ok.inj compiled
  obtain ⟨runs, _⟩ := confined (α := Bump)
  -- Bump allocators are named as such, and not as firm ones.
  change ∀ (host : Host Bump) (flat : List UInt64) (w : World Bump), _ → _ → ∃ calls,
    w.Changes _ calls (runFrom (callee.run host (Value.ofCore flat)) w).2 ∧ ∀ x : UInt64, _ → _ →
      Memory.AgreeOn _ _ (runFrom (callee.run host (Value.ofCore flat)) w).2.memory at runs
  obtain ⟨calls, changes, _⟩ := runs host [4294967292] world ready spares
  obtain ⟨calls', _, agree⟩ := runs host [16] world ready spares
  refine ⟨⟨calls, changes⟩, ?_, ?_, ?_, calls', agree 16 rfl (by decide)⟩
  · decide +kernel
  · decide +kernel
  · decide +kernel

end CanonicalAbi
