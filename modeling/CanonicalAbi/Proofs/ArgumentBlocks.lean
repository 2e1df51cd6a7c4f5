import CanonicalAbi.Proofs.Confinement
import CanonicalAbi.Proofs.Halves
import CanonicalAbi.Proofs.Reception
import CanonicalAbi.Proofs.Relating

/-!
# Arguments in blocks of their own

The caller's half of a call lowers arguments that may be anything. Until it calls the core function,
or fails before that, it changes no memory but the blocks that it obtained itself.
-/

namespace CanonicalAbi

open Code

variable {α : Type} [Firm α] {fields : Parts} {index start stop : Nat}
  {offsets : List UInt32}

/-! ## Areas that are obtained -/

section Areas

variable {β : Type} {area : Nat → Prop} {c : Setting α} {scope : Scope} {p : Point α}
  {size align : UInt32}

/-- Code that takes a block, of which it leaves the address in a register. -/
def TakesBlock (area : Nat → Prop) (c : Setting α) (scope : Scope) (p : Point α)
    (size align : UInt32) (code : Code Reg) : Prop :=
  code.Confined area c scope p fun r q => ∃ ptr, q.Holds r (.ofU32 ptr)
    ∧ Took ⟨ptr, size, align⟩ p.machine q.machine

theorem scratch_takes (ready : p.Ready) (ha : IsAlignment align) :
    TakesBlock area c scope p size align (scratch size align) := by
  have confined : (scratch size align).Confined area c scope p fun _ _ => True := by
    intro hsize
    have single : Confined area (Exec.step c scope (.scratch size align p.next)) p.machine
        fun _ m => Kept p.next p.machine m ∧ True := by
      refine .alloc ready size ha fun ptr a ready' _ _ => ?_
      refine .of_ok rfl (.of_eq ready' rfl rfl) ⟨?_, trivial⟩
      exact Exec.kept_of_setRange _ [.ofU32 ptr] rfl
    exact .congr (Exec.steps_singleton _ _) single
  have runs : (scratch size align).Runs (·.IsRefusal) c scope p _ := scratch_runs ready ha
  refine (confined.and_runs runs).imp ?_
  rintro r q _ ⟨_, ptr, holds, took, _⟩
  exact ⟨ptr, holds, took⟩

theorem allocate_takes (realloc : String) (ready : p.Ready) (ha : IsAlignment align) :
    TakesBlock area c scope p size align (emitOne (.allocate realloc size align) []) := by
  have confined : (emitOne (.allocate realloc size align) []).Confined area c scope p
      fun _ _ => True := by
    refine .emitOne ?_
    exact .alloc ready size ha fun ptr a ready' _ _ => .pure ready' rfl
  have runs : (emitOne (.allocate realloc size align) []).Runs (·.IsRefusal) c scope p _ :=
    allocate_runs realloc ready ha
  refine (confined.and_runs runs).imp ?_
  rintro r q _ ⟨_, ptr, holds, took, _⟩
  exact ⟨ptr, holds, took⟩

theorem TakesBlock.bind {code : Code Reg} {f : Reg → Code β} {R : β → Point α → Prop}
    (h : TakesBlock area c scope p size align code)
    (hf : ∀ r q ptr, p.Extends q → q.Ready → q.Holds r (.ofU32 ptr) →
      ptr.toNat + size.toNat ≤ 2 ^ 32 →
      (f r).Confined (fun i => area i ∨ Region ptr size.toNat i) c scope q R) :
    (code >>= f).Confined area c scope p R := by
  intro hsize
  obtain ⟨⟨calls, changes⟩, taken⟩ := h (Nat.le_trans ((f _).grows _) hsize)
  rw [steps_bind]
  refine .bind_granted (fun _ m ran => ?_) fun e m ran => ⟨calls, by rwa [ran] at changes⟩
  obtain ⟨kept, ptr, holds, took⟩ := taken () m ran
  obtain ⟨allocator, world⟩ := took.world
  have obtained : p.machine.world.Changes area [.alloc ⟨ptr, size, align⟩] m.world := by
    refine ⟨took.ready, ?_, took.calls, fun b hb => ?_, ?_⟩
    · exact Nat.le_trans took.start (Nat.le_trans (Nat.le_add_right _ _) (Nat.le_of_eq took.stop))
    · obtain rfl := AllocatorCall.alloc.inj (List.mem_singleton.mp hb)
      exact took.start
    · have same : m.world.memory = p.machine.world.memory := (congrArg World.memory world :)
      exact same ▸ .refl _ _
  have later : p.Extends ⟨(code.run p.next).next, m⟩ := ⟨code.grows _, kept⟩
  have inside : ptr.toNat + size.toNat ≤ 2 ^ 32 := by
    have ready : m.world.Ready := took.ready
    have stop : ptr.toNat + size.toNat = m.world.frontier := took.stop
    have := ready.frontier_le
    have := ready.size_le
    omega
  have second := hf _ ⟨_, m⟩ ptr later took.ready holds inside (kept.size ▸ hsize)
  refine ⟨_, obtained, (second.widen fun i => Or.imp_right fun inside => ?_).imp ?_⟩
  · exact ⟨_, List.mem_singleton_self _, inside⟩
  · exact fun _ m' ⟨kept', hr⟩ => ⟨kept.trans kept' (code.grows _), hr⟩

end Areas

/-! ## Parameters -/

section Params

variable {area : Nat → Prop} {raw : RawRule} {c : Setting α} {scope : Scope}
  {p : Point α} {g : Generator} {f : FunctionShape}

theorem getArg_confined (ready : p.Ready) :
    (emitOne (.getArg index) []).Confined area c scope p fun r q =>
      ∃ v, scope.args[index]? = some v ∧ q.Holds r v := by
  rcases found : scope.args[index]? with _ | v
  · refine .bind (Q := fun _ _ => False) (.emit ?_) fun _ _ _ _ => False.elim
    simp only [Exec.instr, found]
    exact .throw ready _
  · refine .of_runs ready ((getArg_runs found).imp ?_)
    rintro r q _ ⟨holds, alike⟩
    exact ⟨alike, v, rfl, holds⟩

theorem FieldsSized.drop {part : Option Shape} {vs : List Value}
    (h : FieldsSized (part :: fields) (vs.drop index)) :
    (∀ v, vs[index]? = some v → Sized? part v) ∧ FieldsSized fields (vs.drop (index + 1)) := by
  have first : vs[index]? = (vs.drop index)[0]? := by rw [List.getElem?_drop, Nat.add_zero]
  rw [first, ← List.tail_drop]
  generalize vs.drop index = rest at h ⊢
  cases rest with
  | nil => exact ⟨fun _ hv => absurd hv (by simp), by cases fields <;> trivial⟩
  | cons => exact ⟨fun _ hv => Option.some.inj hv ▸ h.1, h.2⟩

theorem lowerParams_confined (hp : FieldsPassable fields) (hfit : FieldsFit fields)
    (sized : FieldsSized fields (scope.args.drop index)) (ready : p.Ready) :
    (lowerParams raw g index fields).Confined area c scope p fun _ _ => True := by
  induction fields generalizing p index with
  | nil => exact .pure ready trivial
  | cons part fields ih =>
    refine .bind (getArg_confined ready) ?_
    rintro r q1 _ ready1 ⟨v, found, holds⟩
    refine .bind (lower?_confined (fun s _ => sendConfined s) hp.1 hfit.1
      (sized.drop.1 v found) holds ready1) ?_
    intro _ q2 _ ready2 _
    refine .bind (ih hp.2 hfit.2 sized.drop.2 ready2) ?_
    exact fun _ _ _ ready3 _ => .pure ready3 trivial

/-- Brings the arguments from an index on into registers, one for each parameter. -/
def getArgs (index : Nat) (params : Parts) : List (Code Reg) :=
  (List.range' index params.length).map fun i => emitOne (.getArg i) []

theorem writeParams_eq_turns {ra : Reg} (base : UInt32) (index : Nat) (offsets : List UInt32) :
    writeParams raw g ra index fields offsets = (fieldTurns raw g.loweringAllocator ra 0 base
      (getArgs index fields) fields offsets).forM Prod.fst := by
  induction fields generalizing index offsets with
  | nil => rfl
  | cons part fields ih =>
    cases offsets <;> simp_all [writeParams, fieldTurns, getArgs, List.range'_succ]

theorem Point.Fetches.of_args (sized : FieldsSized fields (scope.args.drop index)) :
    p.Fetches c scope (getArgs index fields) fields := by
  induction fields generalizing index with
  | nil => exact fun _ hx => absurd hx List.not_mem_nil
  | cons part fields ih =>
    intro x hx q area hq ready
    rw [getArgs, List.length_cons, List.range'_succ] at hx
    rcases List.mem_cons.mp hx with rfl | hx
    · refine (getArg_confined ready).imp ?_
      rintro r q' _ ⟨v, found, hr⟩
      exact ⟨v, hr, sized.drop.1 v found⟩
    · exact ih sized.drop.2 x hx q area hq ready

section

variable (hp : FieldsPassable f.params) (hfit : f.Fits) (sized : FieldsSized f.params scope.args)
  (ready : p.Ready)
include hp hfit sized ready

theorem lowerArgValues_confined :
    (lowerArgValues raw g f).Confined area c scope p fun _ _ => True := by
  have exact := Layout.product_exact (fieldPlaces_exact hfit.params) hfit.paramArea
  have aligned : IsAlignment f.paramArea.align := exact.1.isAlignment
  rw [lowerArgValues]
  split
  · have takes : TakesBlock area c scope p f.paramArea.size f.paramArea.align
        (paramPointer g f) := by
      rw [paramPointer]
      cases g.dir with
      | imported => exact scratch_takes ready aligned
      | exported => exact allocate_takes _ ready aligned
    refine takes.bind ?_
    intro addr q ptr _ ready1 haddr inside
    rw [writeParams_eq_turns (ptr + 0)]
    refine .bind (fieldTurns_confined (fun s _ => sendConfined s) hp hfit.params (.of_holds haddr)
      (.of_args (List.drop_zero ▸ sized)) ready1
      (placedOffsets_between hfit.params hfit.paramArea) ?_) ?_
    · rw [UInt32.add_zero]
      exact fun i hi => .inr (hi.region inside)
    · exact fun _ _ _ ready2 _ => .pure ready2 trivial
  · exact lowerParams_confined hp hfit.params (List.drop_zero ▸ sized) ready

theorem lowerArgs_confined : (lowerArgs raw g f).Confined area c scope p fun _ _ => True := by
  have exact := Layout.product_exact (fieldPlaces_exact hfit.results) hfit.resultArea
  have aligned : IsAlignment f.resultArea.align := exact.1.isAlignment
  refine .bind (lowerArgValues_confined hp hfit sized ready) ?_
  intro flat q _ ready1 _
  split
  · refine .bind (scratch_takes ready1 aligned) ?_
    exact fun _ _ _ ready2 _ => .pure ready2 trivial
  · exact .pure ready1 trivial

end

end Params

/-! ## The end of a run -/

namespace Program

theorem ending_changes (p : Program) {area : Nat → Prop} {w : World α} {m : Machine α}
    {calls : List AllocatorCall} (h : w.Changes area calls m.world) (r : Except Failure Unit) :
    ∃ calls', w.Changes area calls' (p.ending (r, m)).2 := by
  have cleaned : ∀ {w1 w2 : World α}, Cleaned p.dir m w1 w2 → w1.memory = m.world.memory →
      w1.allocator = m.world.allocator → ∃ calls', w.Changes area calls' w2 := by
    intro w1 w2 done memory allocator
    let freed : World α :=
      { w1 with allocator := w1.allocator.map (AllocationList.free m.borrowed.reverse) }
    have noted : m.world.Changes area [] w1 := .of_eq h.ready memory allocator
    have first : w1.Changes area (freeCalls m.borrowed.reverse) freed :=
      .of_free noted.ready rfl rfl
    have second : freed.Changes area (freeCalls (if p.dir = .imported then m.scratch.reverse
        else [])) w2 := by
      refine .of_free first.ready done.memory ?_
      rw [done.allocator, Option.map_map]
      rfl
    exact ⟨_, ((h.trans noted fun _ => .inl).trans first fun _ => .inl).trans second fun _ => .inl⟩
  cases r with
  | ok _ =>
    obtain ⟨w2, ran, done⟩ := p.cleanUp_ok m m.world
    rw [ending, runFrom_bind_ok ran]
    exact cleaned done rfl rfl
  | error e =>
    obtain ⟨w2, ran, done⟩ := p.cleanUp_ok m
      { m.world with log := .runFailed p.function.name e :: m.world.log }
    rw [ending, Action.note, runFrom_bind_ok (runFrom_modify _ _), runFrom_bind_ok ran]
    exact cleaned done rfl rfl

end Program

/-! ## The call -/

def Machine.atCoreCall (m : Machine α) (name : String) (params : List UInt64) : World α :=
  { m.world with
    log := .callCore name params :: m.world.log
    crossing := { m.world.crossing with called := some (name, params) } }

theorem Exec.runFrom_coreCall {host : Host α} {core : String → List UInt64 → Action α (List UInt64)}
    (h : host.core = some core) (owned : Bool) (scope : Scope) (name : String)
    (signature : CoreSignature) (args outs : List Reg) (m : Machine α) :
    runFrom (step ⟨host, owned⟩ scope (.exec (.callCore name signature) args outs [])) m
      = m.afterCall name signature.results.length outs Value.ofCore
        (runFrom (core name ((args.map m.reg).map Value.core))
          (m.atCoreCall name ((args.map m.reg).map Value.core))) := by
  have crossed : runFrom (crossCore core name ((args.map m.reg).map Value.core)) m.world
      = runFrom (core name ((args.map m.reg).map Value.core))
        (m.atCoreCall name ((args.map m.reg).map Value.core)) := by
    rfl
  rw [step, runFrom_bind_ok (runFrom_getRegs args m)]
  simp only [instr, callCore, h]
  rw [runFrom_bind, runFrom_bind, runFrom_outcome, crossed, Machine.afterCall]
  rcases ended name signature.results.length _ with e | results <;> rfl

theorem Exec.runFrom_coreCall_none {host : Host α} (h : host.core = none) (owned : Bool)
    (scope : Scope) (name : String) (signature : CoreSignature) (args outs : List Reg)
    (m : Machine α) :
    runFrom (step ⟨host, owned⟩ scope (.exec (.callCore name signature) args outs [])) m
      = (.error (.notFound .eval "wasm function" name), m) := by
  rw [step, runFrom_bind_ok (runFrom_getRegs args m)]
  simp only [instr, callCore, h]
  rfl

theorem Code.exists_parts_around_core (raw : RawRule) (dir : Direction)
    {f : FunctionShape} (hf : f.Passable) : ∃ regs outs after,
      ((call raw { dir, mode := .lowerArgs } f).run 0).steps
        = ((lowerArgs raw { dir, mode := .lowerArgs } f).run 0).steps
          ++ .exec (.callCore f.name (f.coreSignature dir)) regs outs [] :: after
      ∧ ((lowerArgs raw { dir, mode := .lowerArgs } f).run 0).next
        ≤ ((call raw { dir, mode := .lowerArgs } f).run 0).next
      ∧ StepsOnly (fun i => i.callee? = none)
        ((lowerArgs raw { dir, mode := .lowerArgs } f).run 0).steps
      ∧ StepsOnly (fun i => i.callee? = none) after := by
  let g : Generator := { dir, mode := .lowerArgs }
  let c := f.contract (f.coreSignature dir) .lowerArgs
  have hbefore : ∀ function, HasType { c with function } .nothing [] (lowerArgs raw g f)
      (Gen.Left.args (ω := Reg) f dir).typed := fun function =>
    (Gen.lowerArgs_scans (b := Recording.backend raw) g rfl hf.params hf.results).1.hasType
  obtain ⟨Γ, hsteps, hnext, hflat, hprovided, hsome⟩ := hbefore f
  obtain ⟨Γ', hpre, hnext', hreturned⟩ : HasType c .nothing Γ
    (emit (.callCore f.name (f.coreSignature dir)) _)
    (Makes ((f.coreSignature dir).results.map .core)) := HasType.emit .callCore hflat
  have harea : ∀ {Γ'}, Γ <+: Γ' → Option.Rel ((Scene.ofTypes Γ').Has · · (.core .i32))
      ((lowerArgs raw g f).run 0).value.2 ((lowerArgs raw g f).run 0).value.2 := by
    intro Γ' hpre
    cases hp : ((lowerArgs raw g f).run 0).value.2 with
    | none => exact .none
    | some r => exact .some ((hprovided r hp).mono hpre).has
  have hafter : ∀ function, HasType { c with function } .nothing Γ'
      (liftResults raw g f _ _) MakesNone := fun function =>
    (Gen.liftResults_writes (b := Recording.backend raw) g rfl hf.results hreturned.hasAll
      (harea hpre.extends) hsome).hasType
  have quiet := HasType.calls_none hafter
  rw [hnext', hnext] at quiet
  refine ⟨_, _, _, rfl, ?_, HasType.calls_none hbefore, quiet⟩
  exact Nat.le_trans (grows _ _) (grows _ _)

/-! ## Up to the call -/

/-- On the way from one world to another the memory changed only in blocks that were handed out on
the way. -/
def World.ChangesOwn (w w' : World α) : Prop := ∃ calls, w.Changes (fun _ => False) calls w'

/-- The program calls the core function with a name, in a world of which `R` holds: how it ends
depends on how that call ends and on nothing else outside, and if the call fails, then so does the
program because of it. If there is no such function, it fails in a world of which `R` holds. -/
structure Program.CallsCore (p : Program) (args : List Value) (w : World α) (name : String)
    (R : World α → Prop) : Prop where
  call : ∃ (params : List UInt64) (world : World α)
      (finish : Except Failure (List UInt64) × World α → Except Failure (List Value) × World α),
    R world ∧ world.crossing.called = some (name, params)
    ∧ (∀ e w', ∃ e' w'', finish (.error e, w') = (.error e', w'') ∧ e'.cause? = some e)
    ∧ ∀ host core, host.core = some core →
      runFrom (p.run host args) w = finish (runFrom (core name params) world)
  absent : ∀ host, host.core = none →
    ∃ e w', R w' ∧ runFrom (p.run host args) w = (.error e, w')

/-- The caller's half fails, or comes to its call. Until then it changes only blocks of its own. -/
theorem Code.call_changes_own (raw : RawRule) (dir : Direction) {f : FunctionShape}
    (hf : f.Passable) (hfit : f.Fits) {args : List Value} (sized : FieldsSized f.params args)
    {w : World α} (ready : w.Ready) :
    let p := (call raw { dir, mode := .lowerArgs } f).program f dir .lowerArgs
    (∃ e w', w.ChangesOwn w' ∧ ∀ host, runFrom (p.run host args) w = (.error e, w'))
    ∨ p.CallsCore args w f.name w.ChangesOwn := by
  intro p
  obtain ⟨regs, outs, after, hsplit, hnext, quiet, quiet'⟩ := exists_parts_around_core raw dir hf
  -- the part before the call, on a machine with nothing outside
  have started : w.Changes (fun _ => False) [] (p.startOn args.length w).world :=
    .of_eq ready rfl rfl
  have lowered : (lowerArgs raw { dir, mode := .lowerArgs } f).Confined (fun _ => False)
      ⟨{}, p.ownsLifted⟩ { args } ⟨0, p.startOn args.length w⟩ fun _ _ => True :=
    lowerArgs_confined hf.params hfit sized started.ready
  have enough : ((lowerArgs raw { dir, mode := .lowerArgs } f).run 0).next
      ≤ (p.startOn args.length w).registers.size :=
    Nat.le_trans hnext (Nat.le_of_eq (Array.size_replicate ..).symm)
  have run_eq := p.runFrom_run_around hsplit quiet quiet' args w
  obtain ⟨⟨calls, changes⟩, _⟩ := lowered enough
  revert changes run_eq
  rcases runFrom (Exec.steps ⟨{}, p.ownsLifted⟩ { args } _) _ with ⟨e | _, m⟩
  · intro run_eq changes
    obtain ⟨w', ended⟩ := p.ending_error e m
    obtain ⟨calls', whole⟩ := p.ending_changes (started.trans changes fun _ => .inl) (.error e)
    rw [ended] at whole
    exact .inl ⟨e, w', ⟨_, whole⟩, fun host => (run_eq host).trans ended⟩
  · intro run_eq changes
    have whole : w.Changes (fun _ => False) ([] ++ calls) m.world :=
      started.trans changes fun _ => .inl
    refine .inr ⟨?_, ?_⟩
    · refine ⟨(regs.map m.reg).map Value.core,
        m.atCoreCall f.name ((regs.map m.reg).map Value.core),
        fun r => p.ending (continueWith (fun _ => runFrom
            (Exec.steps ⟨{}, p.ownsLifted⟩ { args } after))
          (m.afterCall f.name (f.coreSignature dir).results.length outs Value.ofCore r)), ?_, rfl,
        fun e w' => ?_, fun host core hcore => ?_⟩
      · exact ⟨_, whole.trans (.of_eq whole.ready rfl rfl) fun _ => .inl⟩
      · obtain ⟨w'', ended⟩ := p.ending_error
          (.wrap .eval .invalidData (some e) ("call " ++ f.name)) { m with world := w' }
        exact ⟨_, w'', ended, rfl⟩
      · rw [run_eq host, continueWith_ok, Function.comp_apply, Exec.runFrom_coreCall hcore]
    · intro host absent
      have failed : runFrom (p.run host args) w
          = p.ending (.error (.notFound .eval "wasm function" f.name), m) := by
        rw [run_eq host, continueWith_ok, Function.comp_apply, Exec.runFrom_coreCall_none absent]
        rfl
      obtain ⟨w', ended⟩ := p.ending_error (.notFound .eval "wasm function" f.name) m
      obtain ⟨calls', whole'⟩ :=
        p.ending_changes whole (.error (.notFound .eval "wasm function" f.name))
      rw [ended] at whole' failed
      exact ⟨_, w', ⟨_, whole'⟩, failed⟩

/-! ## Stores apart from each other -/

/-- A loop does one turn after the other from a point on. They store apart from each other, if there
are enough registers. -/
structure Code.LoopsApart (loop : Code Unit) (c : Setting α) (scope : Scope) (p : Point α)
    (turns : List (Turn (Code Unit))) : Prop where
  each : loop = turns.forM Prod.fst
  apart : (loop.run p.next).next ≤ p.machine.registers.size → StoresApart p.machine
    (fun turns => Exec.steps c scope ((turns.forM Prod.fst).run p.next).steps) turns

/-- A record is opened, and its fields are stored apart: from any point on that is ready, whatever
values are in their registers and whatever address in that of the record. -/
structure FieldsApart (α : Type) [Firm α] (raw : RawRule) (realloc : String) (l : Label)
    (form : ProductForm) (fields : Parts) : Prop where
  code : ∀ r ra offset, write raw realloc (.product l form fields) r ra offset = do
    let values ← emit (.lowerProduct form l fields.length) [r]
    writeFields raw realloc fields values (placedOffsets fields) ra offset
  loop : ∀ (c : Setting α) (scope : Scope) (p : Point α) (rs : List Reg) (vs : List Value)
    (ra : Reg) (offset : UInt32), p.Ready → p.HoldsAll rs vs → FieldsSized fields vs → ra < p.next →
    (writeFields raw realloc fields rs (placedOffsets fields) ra offset).LoopsApart c scope p
      (fieldTurns raw realloc ra offset ((p.machine.reg ra).core.toUInt32 + offset) (rs.map pure)
        fields (placedOffsets fields))

/-- Parameters that do not fit into core values are stored apart, in an area that is obtained. -/
structure ParamsApart (α : Type) [Firm α] (raw : RawRule) (g : Generator) (f : FunctionShape) :
    Prop where
  code : (f.coreSignature g.dir).indirectParams = true → lowerArgValues raw g f = do
    let addr ← paramPointer g f
    writeParams raw g addr 0 f.params (placedOffsets f.params)
    return [addr]
  loop : ∀ (c : Setting α) (scope : Scope) (p : Point α) (ra : Reg), p.Ready →
    FieldsSized f.params scope.args → ra < p.next →
    (writeParams raw g ra 0 f.params (placedOffsets f.params)).LoopsApart c scope p
      (fieldTurns raw g.loweringAllocator ra 0 ((p.machine.reg ra).core.toUInt32 + 0)
        (getArgs 0 f.params) f.params (placedOffsets f.params))

/-- A list that is not moved as bytes gets a block, in which its elements are stored apart. -/
structure ElemsApart (α : Type) [Firm α] (raw : RawRule) (realloc : String) (l : Label)
    (elem : Option Shape) : Prop where
  code : raw elem = false → ∀ r, lower raw realloc (.list l elem) r = do
    let body ← blocks [writeElem raw realloc elem]
    own (.lowerList l elem realloc) [r] body
  instr : ∀ (c : Setting α) (scope : Scope) (n : Nat) (run : Nat → Scope → Exec α (List Value))
    (vs : List Value), Exec.instr c scope n run (.lowerList l elem realloc) [.list vs] = do
      let length := UInt32.ofNat vs.length
      let ptr ← Exec.allocFor realloc ((place? elem).size * length) (place? elem).align
      Exec.lowerElems (run 0) (place? elem).size ptr vs
      return [.ofU32 ptr, .ofU32 length]
  loop : ∀ (c : Setting α) (m m' : Machine α) (k : Reg) (vs : List Value) (ptr : UInt32),
    m.world.Ready → (Shape.list l elem).Sized (.list vs) →
    ((blocks [writeElem raw realloc elem]).run k).next ≤ m.registers.size →
    runFrom (Exec.allocFor realloc ((place? elem).size * .ofNat vs.length) (place? elem).align) m
      = (.ok ptr, m') →
    let body := fun s => Exec.nth c s 0 ((blocks [writeElem raw realloc elem]).run k).value
    let turns := elemTurns elem body ptr vs.zipIdx
    Exec.lowerElems body (place? elem).size ptr vs = turns.forM Prod.fst
      ∧ StoresApart m' (fun turns => turns.forM Prod.fst) turns

section

variable {raw : RawRule} {realloc : String} {c : Setting α} {scope : Scope} {p : Point α} {ra : Reg}
  {offset : UInt32} {gets : List (Code Reg)}

theorem fieldTurns_loopsApart (hp : FieldsPassable fields) (hfit : FieldsFit fields)
    (hsize : (Extent.product (fieldExtents fields)).size < 2 ^ 32) (ready : p.Ready)
    (fetches : p.Fetches c scope gets fields) (hra : ra < p.next) :
    let turns := fieldTurns raw realloc ra offset ((p.machine.reg ra).core.toUInt32 + offset) gets
      fields (placedOffsets fields)
    Code.LoopsApart (turns.forM Prod.fst) c scope p turns := by
  have ha : p.Addresses ra _ := ⟨_, ⟨hra, rfl⟩, rfl⟩
  refine ⟨rfl, .of_code (fieldTurns_apart (placedOffsets_between hfit hsize) hfit).2 ?_ ready⟩
  exact fun turn hturn q hq ready' =>
    fieldTurn_confined (fun s _ => sendConfined s) hp hfit ha fetches hturn hq ready'

theorem elems_apart (raw : RawRule) (realloc : String) (l : Label) {elem : Option Shape}
    (hp : Passable? elem) (hfit : Fits? elem) : ElemsApart α raw realloc l elem where
  code hraw r := by
    rw [lower, lowerList, hraw]
    rfl
  instr c scope n run vs := Exec.instr_lowerList hp vs n run
  loop := by
    intro c m m' k vs ptr ready sized enough obtained body turns
    obtain ⟨bounded, parts⟩ := sized.2 vs rfl
    obtain ⟨regs, _, _, _, lowered, _, stop⟩ :=
      (Exec.allocFor_does ready realloc _ (place?_exact hfit).isAlignment).elim_ok obtained
    refine ⟨lowerElems_eq_turns hfit, .of_forM (I := Kept k m') (elemTurns_apart bounded).2 ?_
      lowered.ready (.of_eq rfl)⟩
    intro turn hturn m1 ready1 kept
    have own := elemTurn_confined (fun s _ => sendConfined s) hp hfit parts hturn
      (kept.size ▸ regs ▸ enough) ready1
    exact own.imp fun _ _ kept' => kept.trans kept' (Nat.le_refl _)

end

/-! ## Lowered arguments -/

/-- Lowered arguments stay inside their own blocks. The caller's half of every validated function of
an acyclic graph whose types fit compiles to its code. Run on any arguments whose texts and lists
take less than 2^32 bytes each, be they of the types of the parameters or not, it fails before it
calls the core function or calls it, and up to that point the memory changed only in blocks that
were handed out on the way. The parameters in memory, the fields of a record and the elements of a
list are stored one after the other by loops, of which no turn changes memory in use but the place
of its own field or element. -/
theorem lowered_args_confined {g : Graph} (hg : g.Acyclic) {f : Function}
    (hf : validate g (some f) = []) (hfit : (g.shapes.function f).Fits) (dir : Direction)
    (raw : RawRule) :
    ∃ p, (Program.compile dir .lowerArgs raw (.ofGraph g (some f))).1 = .ok p
      ∧ p.body.steps
        = ((Code.call raw { dir, mode := .lowerArgs } (g.shapes.function f)).run 0).steps
      ∧ ∀ {α : Type} [Firm α],
        (∀ (w : World α) (args : List Value), w.Ready →
          FieldsSized (g.shapes.function f).params args →
          (∃ e w', w.ChangesOwn w' ∧ ∀ host, runFrom (p.run host args) w = (.error e, w'))
          ∨ p.CallsCore args w f.name w.ChangesOwn)
        ∧ ParamsApart α raw { dir, mode := .lowerArgs } (g.shapes.function f)
        ∧ (∀ realloc l form fields, (Shape.product l form fields).Passable →
          (Shape.product l form fields).Fits → FieldsApart α raw realloc l form fields)
        ∧ ∀ realloc l elem, (Shape.list l elem).Passable → (Shape.list l elem).Fits →
          ElemsApart α raw realloc l elem := by
  have passable := passable_of_validate hg hf
  refine ⟨_, compile_eq raw hg hf dir .lowerArgs, rfl, fun {α} _ => ⟨?_, ⟨?_, ?_⟩, ?_, ?_⟩⟩
  · intro w args ready sized
    exact Code.call_changes_own raw dir passable hfit sized ready
  · intro indirect
    rw [lowerArgValues, if_pos indirect]
    rfl
  · intro c scope p ra ready sized hra
    rw [writeParams_eq_turns]
    exact fieldTurns_loopsApart passable.params hfit.params hfit.paramArea ready
      (.of_args (List.drop_zero ▸ sized)) hra
  · refine fun realloc l form fields hp hfits => ⟨fun r ra offset => by rw [write], ?_⟩
    intro c scope p rs vs ra offset ready hrs sized hra
    rw [writeFields_eq_turns]
    exact fieldTurns_loopsApart hp hfits.1 hfits.2 ready (.of_holds hrs sized) hra
  · exact fun realloc l elem hp hfits => elems_apart raw realloc l hp hfits

namespace Postbox

def forgery : Value := .case 1 (.list [.string [65, 100, 97], .bytes [1, 2], .bool true])

def world : World Bump :=
  { memory := .zeros 256, allocator := some (.ofRange 0 256), table := some .empty }

theorem sized_forgery : FieldsSized (graph.shapes.function swap).params [.own 7, forgery] := by
  rw [shapes_swap]
  simp [FieldsSized, Sized?, Shape.Sized, find, forgery, CaseSized]

end Postbox

/-- Whatever becomes of a forged letter, nothing changes outside the blocks that are obtained for
it. The text, the page and the weight of a letter are stored apart, and so are numbers of two
bytes. -/
theorem lowered_args_confined_postbox :
    ∃ p, (Program.compile .imported .lowerArgs Program.isByte Postbox.subject).1 = .ok p
      ∧ ((∃ e w', Postbox.world.ChangesOwn w'
          ∧ ∀ host, runFrom (p.run host [.own 7, Postbox.forgery]) Postbox.world = (.error e, w'))
        ∨ p.CallsCore [.own 7, Postbox.forgery] Postbox.world "swap" Postbox.world.ChangesOwn)
      ∧ FieldsApart Bump Program.isByte "" (Postbox.graph.label 1) .record
        [some .string, some (.list (Postbox.graph.label 0) (some (.scalar .u8))),
          some (.scalar .f32)]
      ∧ ElemsApart Bump Program.isByte "" (Postbox.graph.label 0) (some (.scalar .u16)) := by
  obtain ⟨p, compiled, _, confined⟩ := lowered_args_confined Postbox.acyclic Postbox.validate_swap
    Postbox.fits_swap .imported Program.isByte
  obtain ⟨runs, _, fields, elems⟩ := confined (α := Bump)
  refine ⟨p, compiled, ?_, ?_, ?_⟩
  · exact runs Postbox.world _ ⟨_, rfl, Postbox.over_start⟩ Postbox.sized_forgery
  · exact fields _ _ _ _ (by simp [FieldsPassable, Passable?, Shape.Passable])
      ⟨by simp [FieldsFit, Fits?, Shape.Fits], by decide⟩
  · exact elems _ _ _ trivial trivial

end CanonicalAbi
