import CanonicalAbi.Proofs.Books

/-!
# Programs that hold their blocks

The caller's half of an import frees all blocks that it obtains.
-/

namespace CanonicalAbi

open List

variable {σ ω β γ : Type} {I : σ → Prop}

/-! ## What work keeps -/

namespace Gen

/-- Work after which a property of the backend still holds, however the work ends. -/
def Keeps (I : σ → Prop) (work : Gen σ ω β) : Prop :=
  ∀ s : Generation σ ω, I s.backend → I (runFrom work s).2.backend

namespace Keeps

theorem pure (v : β) : Keeps I (Pure.pure v : Gen σ ω β) := fun _ hs => hs

theorem fail (f : Failure) : Keeps I (fail f : Gen σ ω β) := fun _ hs => hs

theorem bind {x : Gen σ ω γ} {f : γ → Gen σ ω β} (hx : Keeps I x) (hf : ∀ v, Keeps I (f v)) :
    Keeps I (x >>= f) := by
  intro s hs
  have kept := hx s hs
  rw [runFrom_bind]
  revert kept
  rcases runFrom x s with ⟨abort | v, s'⟩
  · exact id
  · exact hf v s'

theorem ite {p : Prop} [Decidable p] {x y : Gen σ ω β} (hx : p → Keeps I x)
    (hy : ¬ p → Keeps I y) : Keeps I (if p then x else y) := by
  by_cases hp : p
  · rw [if_pos hp]
    exact hx hp
  · rw [if_neg hp]
    exact hy hp

theorem ofExcept (x : Except Failure β) : Keeps I (ofExcept x : Gen σ ω β) := by
  cases x with
  | error f => exact .fail f
  | ok v => exact .pure v

theorem note (entry : LogEntry) : Keeps I (note entry : Gen σ ω Unit) := fun _ hs => hs

theorem push (a : ω) : Keeps I (push a : Gen σ ω Unit) := fun _ hs => hs

theorem pushAll (as : List ω) : Keeps I (pushAll as : Gen σ ω Unit) := fun _ hs => hs

theorem popN (n : Nat) : Keeps I (popN n : Gen σ ω (List ω)) := by
  intro s hs
  rw [Gen.popN, runFrom_bind_ok (runFrom_get s), runFrom_ite]
  split
  · exact hs
  · split <;> exact hs

theorem pop : Keeps I (pop : Gen σ ω ω) := by
  refine (popN 1).bind fun as => ?_
  split
  · exact .pure _
  · exact .fail _

end Keeps

end Gen

/-- A backend keeps a property whenever it is given an instruction whose blocks are freed. -/
structure Backend.Holds (b : Backend σ ω) (I : σ → Prop) : Prop where
  emit : ∀ i, i.Held → ∀ args st, I st → I (b.emit i args st).2
  openBlock : ∀ st, I st → I (b.openBlock st)
  closeBlock : ∀ results st, I st → I (b.closeBlock results st)
  returnPointer : ∀ size align st, I st → I (b.returnPointer size align st).2

/-- Backends that keep a property. -/
abbrev Holder (σ ω : Type) (I : σ → Prop) := {b : Backend σ ω // b.Holds I}

namespace Gen

variable (b : Holder σ ω I)

theorem emit_keeps {i : Instr} (hi : i.Held) : Keeps I (emit b.1 i) := by
  intro s hs
  have kept := b.2.emit i hi (s.stack.take i.operands).reverse s.backend hs
  rw [emit, runFrom_bind_ok (runFrom_get s), runFrom_ite]
  split
  · exact hs
  · rw [runFrom_ite]
    split
    · exact hs
    · revert kept
      rcases b.1.emit i _ s.backend with ⟨abort | results, backend⟩ <;> intro kept
      · exact kept
      · rw [runFrom_bind_ok (runFrom_set _ _), runFrom_ite]
        split <;> exact kept

theorem emitOne_keeps {i : Instr} (hi : i.Held) : Keeps I (emitOne b.1 i) :=
  (emit_keeps b hi).bind fun _ => .pop

theorem closeBlock_keeps (n : Nat) : Keeps I (closeBlock b.1 n) := by
  intro s hs
  rw [closeBlock, runFrom_bind_ok (runFrom_get s)]
  split
  · exact hs
  · next block outer _ =>
    rw [runFrom_ite]
    split
    · exact hs
    · split
      · exact hs
      · refine (Keeps.popN n).bind (fun operands => (Keeps.note _).bind fun _ => ?_)
          { s with blocks := outer } hs
        exact fun s' hs' => b.2.closeBlock operands s'.backend hs'

theorem block_keeps (n : Nat) {body : Gen σ ω Unit} (hbody : Keeps I body) :
    Keeps I (block b.1 n body) := by
  have opened : Keeps I (openBlock b.1) := fun s hs => b.2.openBlock s.backend hs
  exact opened.bind fun _ => hbody.bind fun _ => closeBlock_keeps b n

theorem returnPointer_keeps (size align : UInt32) : Keeps I (returnPointer b.1 size align) :=
  fun s hs => b.2.returnPointer size align s.backend hs

theorem store_keeps (op : StoreOp) (addr : ω) (offset : UInt32) :
    Keeps I (store b.1 op addr offset) :=
  (Keeps.push addr).bind fun _ => emit_keeps b trivial

theorem load_keeps (op : LoadOp) (addr : ω) (offset : UInt32) : Keeps I (load b.1 op addr offset) :=
  (Keeps.push addr).bind fun _ => emit_keeps b trivial

theorem castSlots_keeps (source target : List CoreType) : Keeps I (castSlots b.1 source target) :=
  (Keeps.ofExcept _).bind fun _ => .ite (fun _ => emit_keeps b trivial) fun _ => .pure _

theorem storePair_keeps (addr : ω) (offset : UInt32) : Keeps I (storePair b.1 addr offset) :=
  (store_keeps b _ _ _).bind fun _ => store_keeps b _ _ _

theorem loadPair_keeps (addr : ω) (offset : UInt32) : Keeps I (loadPair b.1 addr offset) :=
  (load_keeps b _ _ _).bind fun _ => load_keeps b _ _ _

/-! ## Lowering -/

theorem padZeros_keeps (types : List CoreType) : Keeps I (padZeros b.1 types) :=
  .ite (fun _ => .pure _) fun _ => emit_keeps b trivial

theorem storeLanes_keeps (addr : ω) (offset : UInt32) (lanes : List ω) :
    Keeps I (storeLanes b.1 addr offset lanes) := by
  induction lanes generalizing offset with
  | nil => exact .pure _
  | cons lane lanes ih =>
    exact (Keeps.push lane).bind fun _ => (store_keeps b _ _ _).bind fun _ => ih _

theorem storeFlags_keeps (count : Nat) (addr : ω) (offset : UInt32) :
    Keeps I (storeFlags b.1 count addr offset) :=
  .ite (fun _ => (Keeps.popN _).bind fun _ => storeLanes_keeps b _ _ _)
    fun _ => store_keeps b _ _ _

section Lower

variable (realloc : {name : String // name.isEmpty = true})

theorem lowerList_keeps (l : Label) (elem : Option Shape) {write : ω → Gen σ ω Unit}
    (hwrite : ∀ addr, Keeps I (write addr)) : Keeps I (lowerList b.1 realloc.1 l elem write) := by
  refine .ite (fun _ => emit_keeps b realloc.2) fun _ => ?_
  have body : Keeps I (do
      emit b.1 (.iterElem elem)
      let addr ← emitOne b.1 .iterBase
      write addr) :=
    .bind (emit_keeps b trivial) fun _ => .bind (emitOne_keeps b trivial) hwrite
  exact (block_keeps b 0 body).bind fun _ => emit_keeps b realloc.2

mutual

theorem lower_keeps : ∀ s : Shape, Keeps I (lower b.1 realloc.1 s)
  | .scalar _ | .enum _ _ | .flags _ _ | .handle _ _ _ => emit_keeps b trivial
  | .string => emit_keeps b realloc.2
  | .product l form fields =>
    .bind (emit_keeps b trivial) fun _ => (Keeps.popN _).bind fun _ => lowerFields_keeps fields _
  | .sum l form payloads =>
    (Keeps.ofExcept _).bind fun _ => (lowerCases_keeps _ 0 payloads).bind fun _ =>
      emit_keeps b trivial
  | .list l elem => lowerList_keeps b realloc l elem fun addr => write?_keeps elem addr 0
  | .synonym _ target => lower?_keeps target
  | .channel _ _ | .resource _ | .unfinished _ => by
    exact .fail _

theorem lower?_keeps : ∀ s : Option Shape, Keeps I (lower? b.1 realloc.1 s)
  | none => .fail _
  | some s => lower_keeps s

theorem lowerFields_keeps : ∀ (shapes : Parts) (values : List ω),
    Keeps I (lowerFields b.1 realloc.1 shapes values)
  | s :: shapes, v :: values =>
    (Keeps.push v).bind fun _ => (lower?_keeps s).bind fun _ => lowerFields_keeps shapes values
  | [], _ => .pure _
  | _ :: _, [] => .pure _

theorem lowerCases_keeps : ∀ (slots : List CoreType) (index : Nat) (payloads : Parts),
    Keeps I (lowerCases b.1 realloc.1 slots index payloads)
  | slots, index, [] => .pure _
  | slots, index, none :: payloads => by
    refine (block_keeps b _ ?_).bind fun _ => lowerCases_keeps slots (index + 1) payloads
    exact .bind (emitOne_keeps b trivial) fun _ => .bind (emit_keeps b trivial) fun _ =>
      padZeros_keeps b slots
  | slots, index, some p :: payloads => by
    refine (block_keeps b _ ?_).bind fun _ => lowerCases_keeps slots (index + 1) payloads
    refine .bind (emitOne_keeps b trivial) fun value => .bind (emit_keeps b trivial) fun _ => ?_
    refine (Keeps.push value).bind fun _ => (lower_keeps p).bind fun _ => ?_
    exact (Keeps.ofExcept _).bind fun _ => (castSlots_keeps b _ _).bind fun _ =>
      padZeros_keeps b _

theorem write_keeps : ∀ (s : Shape) (addr : ω) (offset : UInt32),
    Keeps I (write b.1 realloc.1 s addr offset)
  | .scalar _, addr, offset | .enum _ _, addr, offset | .handle _ _ _, addr, offset =>
    .bind (emit_keeps b trivial) fun _ => store_keeps b _ addr offset
  | .string, addr, offset => .bind (emit_keeps b realloc.2) fun _ => storePair_keeps b addr offset
  | .product l form fields, addr, offset =>
    .bind (emit_keeps b trivial) fun _ => (Keeps.ofExcept _).bind fun _ =>
      (Keeps.popN _).bind fun _ => writeFields_keeps fields _ _ addr offset
  | .sum l form payloads, addr, offset =>
    (Keeps.ofExcept _).bind fun _ => (writeCases_keeps _ addr offset _ 0 payloads).bind fun _ =>
      emit_keeps b trivial
  | .flags l count, addr, offset =>
    .bind (emit_keeps b trivial) fun _ => storeFlags_keeps b count addr offset
  | .list l elem, addr, offset =>
    (lowerList_keeps b realloc l elem fun addr => write?_keeps elem addr 0).bind fun _ =>
      storePair_keeps b addr offset
  | .synonym _ target, addr, offset => write?_keeps target addr offset
  | .channel _ _, _, _ | .resource _, _, _ | .unfinished _, _, _ => by
    exact .fail _

theorem write?_keeps : ∀ (s : Option Shape) (addr : ω) (offset : UInt32),
    Keeps I (write? b.1 realloc.1 s addr offset)
  | none, _, _ => .fail _
  | some s, addr, offset => write_keeps s addr offset

theorem writeFields_keeps : ∀ (shapes : Parts) (values : List ω)
    (offsets : List UInt32) (addr : ω) (offset : UInt32),
    Keeps I (writeFields b.1 realloc.1 shapes values offsets addr offset)
  | s :: shapes, v :: values, _ :: offsets, addr, offset =>
    (Keeps.push v).bind fun _ => (write?_keeps s addr _).bind fun _ =>
      writeFields_keeps shapes values offsets addr offset
  | [], _, _, _, _ => .pure _
  | _ :: _, [], _, _, _ => .pure _
  | _ :: _, _ :: _, [], _, _ => .pure _

theorem writeCases_keeps : ∀ (tag : IntWidth) (addr : ω) (offset start : UInt32) (index : Nat)
    (payloads : Parts),
    Keeps I (writeCases b.1 realloc.1 tag addr offset start index payloads)
  | tag, addr, offset, start, index, [] => .pure _
  | tag, addr, offset, start, index, none :: payloads => by
    refine (block_keeps b _ ?_).bind fun _ =>
      writeCases_keeps tag addr offset start (index + 1) payloads
    exact .bind (emitOne_keeps b trivial) fun _ => .bind (emit_keeps b trivial) fun _ =>
      store_keeps b _ addr offset
  | tag, addr, offset, start, index, some p :: payloads => by
    refine (block_keeps b _ ?_).bind fun _ =>
      writeCases_keeps tag addr offset start (index + 1) payloads
    refine .bind (emitOne_keeps b trivial) fun value => .bind (emit_keeps b trivial) fun _ => ?_
    exact (store_keeps b _ addr offset).bind fun _ => (Keeps.push value).bind fun _ =>
      write_keeps p addr start

end

end Lower

/-! ## Lifting -/

theorem liftList_keeps (l : Label) (elem : Option Shape) {read : ω → Gen σ ω Unit}
    (hread : ∀ addr, Keeps I (read addr)) : Keeps I (liftList b.1 l elem read) := by
  refine .ite (fun _ => emit_keeps b trivial) fun _ => ?_
  have body : Keeps I (do let addr ← emitOne b.1 .iterBase; read addr) :=
    .bind (emitOne_keeps b trivial) hread
  exact (block_keeps b 1 body).bind fun _ => emit_keeps b trivial

theorem loadLanes_keeps (addr : ω) (offset : UInt32) (lanes : Nat) :
    Keeps I (loadLanes b.1 addr offset lanes) := by
  induction lanes generalizing offset with
  | zero => exact .pure _
  | succ lanes ih => exact (load_keeps b _ _ _).bind fun _ => ih _

theorem loadFlags_keeps (count : Nat) (addr : ω) (offset : UInt32) :
    Keeps I (loadFlags b.1 count addr offset) :=
  .ite (fun _ => loadLanes_keeps b _ _ _) fun _ => load_keeps b _ _ _

mutual

theorem lift_keeps : ∀ s : Shape, Keeps I (lift b.1 s)
  | .scalar _ | .string | .enum _ _ | .flags _ _ | .handle _ _ _ => emit_keeps b trivial
  | .product l form fields =>
    (Keeps.ofExcept _).bind fun _ => (Keeps.popN _).bind fun _ =>
      (liftFields_keeps fields _).bind fun _ => emit_keeps b trivial
  | .sum l form payloads => by
    refine (Keeps.ofExcept _).bind fun _ => (Keeps.popN _).bind fun values => ?_
    cases values with
    | nil => exact .pure _
    | cons tag values =>
      exact (liftCases_keeps _ values payloads).bind fun _ => (Keeps.push tag).bind fun _ =>
        emit_keeps b trivial
  | .list l elem => liftList_keeps b l elem fun addr => read?_keeps elem addr 0
  | .synonym _ target => lift?_keeps target
  | .channel _ _ | .resource _ | .unfinished _ => .fail _

theorem lift?_keeps : ∀ s : Option Shape, Keeps I (lift? b.1 s)
  | none => .fail _
  | some s => lift_keeps s

theorem liftFields_keeps : ∀ (shapes : Parts) (values : List ω),
    Keeps I (liftFields b.1 shapes values)
  | [], _ => .pure _
  | s :: shapes, values => by
    exact (Keeps.ofExcept _).bind fun _ => (Keeps.pushAll _).bind fun _ =>
      (lift?_keeps s).bind fun _ => liftFields_keeps shapes _

theorem liftCases_keeps : ∀ (slots : List CoreType) (values : List ω)
    (payloads : Parts), Keeps I (liftCases b.1 slots values payloads)
  | slots, values, [] => .pure _
  | slots, values, none :: payloads =>
    (block_keeps b 0 (.pure _)).bind fun _ => liftCases_keeps slots values payloads
  | slots, values, some p :: payloads => by
    refine (block_keeps b 1 ?_).bind fun _ => liftCases_keeps slots values payloads
    exact (Keeps.ofExcept _).bind fun _ => (Keeps.pushAll _).bind fun _ =>
      (castSlots_keeps b _ _).bind fun _ => lift_keeps p

theorem read_keeps : ∀ (s : Shape) (addr : ω) (offset : UInt32), Keeps I (read b.1 s addr offset)
  | .scalar _, addr, offset | .enum _ _, addr, offset | .handle _ _ _, addr, offset =>
    (load_keeps b _ addr offset).bind fun _ => emit_keeps b trivial
  | .string, addr, offset => (loadPair_keeps b addr offset).bind fun _ => emit_keeps b trivial
  | .product l form fields, addr, offset =>
    (Keeps.ofExcept _).bind fun _ => (readFields_keeps fields _ addr offset).bind fun _ =>
      emit_keeps b trivial
  | .sum l form payloads, addr, offset =>
    (Keeps.ofExcept _).bind fun _ => (load_keeps b _ addr offset).bind fun _ =>
      (readCases_keeps addr _ payloads).bind fun _ => emit_keeps b trivial
  | .flags l count, addr, offset =>
    (loadFlags_keeps b count addr offset).bind fun _ => emit_keeps b trivial
  | .list l elem, addr, offset =>
    (loadPair_keeps b addr offset).bind fun _ =>
      liftList_keeps b l elem fun addr => read?_keeps elem addr 0
  | .synonym _ target, addr, offset => read?_keeps target addr offset
  | .channel _ _, _, _ | .resource _, _, _ | .unfinished _, _, _ => by
    exact .fail _

theorem read?_keeps : ∀ (s : Option Shape) (addr : ω) (offset : UInt32),
    Keeps I (read? b.1 s addr offset)
  | none, _, _ => .fail _
  | some s, addr, offset => read_keeps s addr offset

theorem readFields_keeps : ∀ (shapes : Parts) (offsets : List UInt32) (addr : ω)
    (offset : UInt32), Keeps I (readFields b.1 shapes offsets addr offset)
  | s :: shapes, _ :: offsets, addr, offset =>
    (read?_keeps s addr _).bind fun _ => readFields_keeps shapes offsets addr offset
  | [], _, _, _ => .pure _
  | _ :: _, [], _, _ => .pure _

theorem readCases_keeps : ∀ (addr : ω) (start : UInt32) (payloads : Parts),
    Keeps I (readCases b.1 addr start payloads)
  | addr, start, [] => .pure _
  | addr, start, none :: payloads =>
    (block_keeps b 0 (.pure _)).bind fun _ => readCases_keeps addr start payloads
  | addr, start, some p :: payloads => by
    exact (block_keeps b 1 (read_keeps p addr start)).bind fun _ =>
      readCases_keeps addr start payloads

end

/-! ## The caller's half of an import -/

variable {g : Generator} (temporary : g.loweringAllocator.isEmpty = true)

include temporary

theorem lowerParams_keeps (index : Nat) (params : Parts) :
    Keeps I (lowerParams b.1 g index params) := by
  induction params generalizing index with
  | nil => exact .pure _
  | cons s shapes ih =>
    exact .bind (emit_keeps b trivial) fun _ => (lower?_keeps b ⟨_, temporary⟩ s).bind fun _ => ih _

theorem writeParams_keeps (addr : ω) (index : Nat) (params : Parts)
    (offsets : List UInt32) : Keeps I (writeParams b.1 g addr index params offsets) := by
  induction params generalizing index offsets with
  | nil => exact .pure _
  | cons s shapes ih =>
    cases offsets with
    | nil => exact .pure _
    | cons o offsets =>
      exact .bind (emit_keeps b trivial) fun _ =>
        (write?_keeps b ⟨_, temporary⟩ s addr o).bind fun _ =>
        ih _ _

theorem lowerArgs_keeps (imported : g.dir = .imported) (f : FunctionShape)
    (signature : CoreSignature) : Keeps I (lowerArgs b.1 g f signature) := by
  have provided : Keeps I (resultPointer b.1 g f signature) :=
    .ite (fun _ => (Keeps.ofExcept _).bind fun _ => (returnPointer_keeps b _ _).bind fun _ =>
      (Keeps.push _).bind fun _ => .pure _) fun _ => .pure _
  refine Keeps.bind (.ite (fun _ => ?_) fun _ => ?_) fun _ => provided
  · simp only [paramPointer, imported]
    exact (Keeps.ofExcept _).bind fun _ => (returnPointer_keeps b _ _).bind fun addr =>
      (writeParams_keeps b temporary addr 0 f.params _).bind fun _ => .push addr
  · exact lowerParams_keeps b temporary 0 f.params

omit temporary in
theorem liftResults_keeps (f : FunctionShape) (signature : CoreSignature) (provided : Option ω) :
    Keeps I (liftResults b.1 f signature provided) := by
  refine .ite (fun _ => ?_) fun _ => ?_
  · cases provided with
    | none =>
      exact Keeps.pop.bind fun addr => (Keeps.ofExcept _).bind fun _ =>
        (readFields_keeps b f.results _ addr 0).bind fun _ => emit_keeps b trivial
    | some addr =>
      exact (Keeps.ofExcept _).bind fun _ =>
        (readFields_keeps b f.results _ addr 0).bind fun _ => emit_keeps b trivial
  · exact (Keeps.popN _).bind fun _ => (liftFields_keeps b f.results _).bind fun _ =>
      emit_keeps b trivial

omit b temporary in
theorem finish_keeps (f : FunctionShape) : Keeps I (finish f : Gen σ ω Unit) := by
  intro s hs
  rw [finish, runFrom_bind_ok (runFrom_get s), runFrom_ite]
  split
  · exact hs
  · rw [runFrom_ite]
    split
    · exact hs
    · split <;> exact hs

theorem call_keeps (imported : g.dir = .imported) (lowers : g.mode = .lowerArgs)
    (f : FunctionShape) : Keeps I (call b.1 g f) := by
  rw [call, half, lowers]
  refine Keeps.bind ((Keeps.note _).bind fun _ => (Keeps.ofExcept _).bind fun signature => ?_)
    fun _ => finish_keeps f
  refine (lowerArgs_keeps b temporary imported f signature).bind fun provided => ?_
  exact .bind (emit_keeps b trivial) fun _ => liftResults_keeps b f signature provided

end Gen

/-! ## Recordings -/

theorem stepsHeld_iff {ss : List Step} : StepsHeld ss ↔ ∀ s ∈ ss, s.Held := by
  induction ss with
  | nil => simp [StepsHeld]
  | cons s ss ih => simp [StepsHeld, ih]

theorem blocksHeld_iff {bs : List Block} : BlocksHeld bs ↔ ∀ b ∈ bs, StepsHeld b.steps := by
  induction bs with
  | nil => simp [BlocksHeld]
  | cons b bs ih =>
    cases b
    simp [BlocksHeld, ih, Block.steps]

namespace Recording

/-- Every recorded step is held. -/
structure Held (r : Recording) : Prop where
  body : ∀ s ∈ r.body, s.Held
  opened : ∀ ss ∈ r.opened, ∀ s ∈ ss, s.Held
  finished : ∀ b ∈ r.finished, StepsHeld b.steps

theorem Held.addStep {r : Recording} (h : r.Held) {s : Step} (hs : s.Held) :
    (r.addStep s).Held := by
  rw [Recording.addStep]
  split
  · refine ⟨fun s' hs' => ?_, h.opened, h.finished⟩
    rcases mem_cons.mp hs' with rfl | hs'
    · exact hs
    · exact h.body s' hs'
  · next steps outer heq =>
    have opened := h.opened
    rw [heq] at opened
    refine ⟨h.body, fun ss hss s' hs' => ?_, h.finished⟩
    rcases mem_cons.mp hss with rfl | hss
    · rcases mem_cons.mp hs' with rfl | hs'
      · exact hs
      · exact opened steps mem_cons_self s' hs'
    · exact opened ss (mem_cons_of_mem _ hss) s' hs'

theorem backend_holds (raw : RawRule) : (backend raw).Holds Held where
  emit i hi args r h := by
    have owned : BlocksHeld (r.finished.take i.blocks).reverse :=
      blocksHeld_iff.mpr fun b hb =>
        h.finished b (mem_of_mem_take (mem_reverse.mp hb))
    have added := h.addStep (s := .exec i args (range' r.registers i.results) _) ⟨hi, owned⟩
    exact ⟨added.body, added.opened, fun b hb => h.finished b (mem_of_mem_drop hb)⟩
  openBlock r h := by
    refine ⟨h.body, fun ss hss => ?_, h.finished⟩
    rcases mem_cons.mp hss with rfl | hss
    · exact fun s hs => absurd hs not_mem_nil
    · exact h.opened ss hss
  closeBlock results r h := by
    change (r.closeBlock results).Held
    rw [closeBlock]
    split
    · exact h
    · next steps outer heq =>
      have opened := h.opened
      rw [heq] at opened
      refine ⟨h.body, fun ss hss => opened ss (mem_cons_of_mem _ hss), fun b hb => ?_⟩
      rcases mem_cons.mp hb with rfl | hb
      · exact stepsHeld_iff.mpr fun s hs =>
          opened steps mem_cons_self s (mem_reverse.mp hs)
      · exact h.finished b hb
  returnPointer size align r h := by
    have added := h.addStep (s := .scratch size align r.registers) trivial
    exact ⟨added.body, added.opened, added.finished⟩

end Recording

/-! ## Compiled programs -/

theorem Program.compile_held {raw : RawRule} {s : Subject} {p : Program}
    (compiled : (compile .imported .lowerArgs raw s).1 = .ok p) :
    p.dir = .imported ∧ StepsHeld p.body.steps := by
  have start : Recording.empty.Held := ⟨fun _ h => absurd h not_mem_nil,
    fun _ h => absurd h not_mem_nil, fun _ h => absurd h not_mem_nil⟩
  have recorded : (Generator.checked { dir := .imported, mode := .lowerArgs }
      (Recording.backend raw) s Recording.empty).backend.Held := by
    rw [Generator.checked, Checked.ofWork]
    split
    · exact start
    · exact start
    · exact Gen.call_keeps ⟨_, Recording.backend_holds raw⟩ rfl rfl rfl _
        { backend := .empty } start
  rw [compile, ofChecked] at compiled
  split at compiled
  · cases compiled
  · cases compiled
  · rw [ofRecording] at compiled
    split at compiled
    · cases compiled
    · next p' made =>
      cases compiled
      split at made
      · cases made
        exact ⟨rfl, stepsHeld_iff.mpr fun s hs => recorded.body s (mem_reverse.mp hs)⟩
      · cases made

end CanonicalAbi
