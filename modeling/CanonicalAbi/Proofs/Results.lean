import CanonicalAbi.Proofs.Arguments
import CanonicalAbi.Proofs.Freeing

/-!
# Results of a call

The callee's half of a function lowers the results and the caller's half lifts them.
-/

namespace CanonicalAbi

open FunctionShape

variable {α : Type} [BumpLike α] {rs vs : List Value} {returned : List UInt64} {o : Assets}

/-- Results as they are passed: in core values, or in an area of memory, whose pointer an export
returns. -/
def ResultsAt (raw : RawRule) (mem : Memory) (dir : Direction) (f : FunctionShape)
    (area : Option UInt32) (returned : List UInt64) (rs : List Value) (o : Assets) : Prop :=
  ∃ ps, PartsMean ps rs o.uses ∧
    if f.returnsArea then ∃ ptr : UInt32,
      (match dir with
        | .imported => area = some ptr ∧ returned = []
        | .exported => returned = [ptr.toUInt64])
      ∧ FieldsLaid raw mem f.results (placedOffsets f.results) ps ptr o.blocks
    else FieldsSpread raw mem f.results ps returned o.blocks

def FunctionShape.returnBlocks (f : FunctionShape) (dir : Direction) (returned : List UInt64) :
    List Allocation :=
  if f.returnsArea && dir = .exported then
    [⟨(returned.headD 0).toUInt32, f.resultArea.size, f.resultArea.align⟩]
  else []

@[simp] theorem FunctionShape.returnBlocks_imported (f : FunctionShape) (returned : List UInt64) :
    f.returnBlocks .imported returned = [] := by
  simp [returnBlocks]

theorem ResultsAt.length_eq {raw : RawRule} {mem : Memory} {dir : Direction}
    {f : FunctionShape} {area : Option UInt32} (h : ResultsAt raw mem dir f area returned rs o) :
    returned.length = (f.coreSignature dir).results.length := by
  rw [coreSignature_results, coreSignature_returnPointer]
  obtain ⟨ps, _, h⟩ := h
  split_ifs at h ⊢ with hreturns hdir
  · subst hdir
    obtain ⟨ptr, ⟨_, rfl⟩, _⟩ := h
    rfl
  · obtain ⟨ptr, returned_eq, _⟩ := h
    cases dir with
    | imported => exact absurd rfl hdir
    | exported =>
      obtain rfl := returned_eq
      rfl
  · exact h.holds.length_eq.symm

/-- A world in which a function has returned: the results are passed, with their handles. -/
structure Answered (raw : RawRule) (owners : Option HandleTable) (dir : Direction)
    (f : FunctionShape) (area : Option UInt32) (returned : List UInt64) (rs : List Value)
    (o : Assets) (w : World α) : Prop where
  ready : w.Ready
  passes : w.Passes owners o.uses 0
  results : ResultsAt raw w.memory dir f area returned rs o

theorem Answered.of_eq {raw : RawRule} {owners : Option HandleTable} {dir : Direction}
    {f : FunctionShape} {area : Option UInt32} {w w' : World α}
    (h : Answered raw owners dir f area returned rs o w) (memory : w'.memory = w.memory)
    (ready : w'.Ready) (table : owners.isSome → w'.table = w.table) :
    Answered raw owners dir f area returned rs o w' where
  ready := ready
  passes origin horigin := by
    rw [table (Option.isSome_of_mem horigin)]
    exact h.passes origin horigin
  results := memory ▸ h.results

section Halves

variable {raw : RawRule} {owners : Option HandleTable} {c : Setting α} {scope : Scope}
  {p : Point α} {g : Generator} {f : FunctionShape} {area : Option UInt32}

omit [BumpLike α] in
theorem ret_runs [Allocator α] {E : Failure → Prop} {count : Nat} {rs : List Reg}
    (hrs : p.HoldsAll rs vs) :
    (Code.emitNone (.ret count) rs).Runs E c scope p fun _ q =>
      q.machine.Alike { p.machine with results := vs } :=
  Code.Runs.emitNone rfl hrs (Does.of_ok rfl ⟨rfl, rfl, fun _ _ alike => alike⟩)

theorem Outlay.ret {realloc : String} {blocks areas noted : List Allocation} {m m' m'' : Machine α}
    (h : Outlay realloc blocks areas noted m m') (hm : m''.Alike { m' with results := vs }) :
    Outlay realloc blocks areas noted m m'' := by
  rw [hm.eq]
  exact { h with }

theorem Lifted.ret {owned : Bool} {blocks : List Allocation} {m m' m'' : Machine α}
    (h : Lifted owned blocks m m') (hm : m''.Alike { m' with results := vs }) :
    Lifted owned blocks m m'' := by
  rw [hm.eq]
  exact { h with }

section

variable {values : List Reg} (hraw : ∀ e, raw e = true → Program.isByte e = true)
  (hp : FieldsPassable f.results) (hfit : f.Fits) (hrs : FieldsAdmit raw owners f.results rs)
  (hvalues : p.HoldsAll values rs)
include hraw hp hfit hrs hvalues

theorem writeResults_runs {addr : Reg} {ptr : UInt32} (haddr : p.Holds addr (.ofU32 ptr))
    (ready : p.Ready)
    (passes : p.machine.world.Passes owners [] (Value.handlesAll rs))
    (inside : ptr.toNat + f.resultArea.size.toNat ≤ p.machine.world.frontier) :
    (Code.writeFields raw g.loweringAllocator f.results values f.resultArea.offsets addr 0).Runs
      (Excused owners) c scope p fun _ q => ∃ (ps : List Parcel) (o : Assets),
        PartsMean ps (Value.receivedAll owners rs) o.uses
        ∧ Outlay g.loweringAllocator o.blocks [] [] p.machine q.machine
        ∧ q.machine.world.Passes owners o.uses 0
        ∧ (AllBorrowless f.results → q.machine.lent = p.machine.lent)
        ∧ FieldsLaid raw q.machine.world.memory f.results (placedOffsets f.results) ps ptr
          o.blocks := by
  have inside : (ptr + 0).toNat + (Layout.product (fieldPlaces f.results)).size.toNat
      ≤ p.machine.world.frontier := by
    rw [UInt32.add_zero]
    exact inside
  rw [← Nat.add_zero (Value.handlesAll rs)] at passes
  refine ((writeFields_mirrors (fun s _ => sendMirrors s) hp hfit.results hrs.length_eq hrs.sized
    hvalues haddr ready (placedOffsets_between hfit.results hfit.resultArea) inside).delivers
      (sendFields_yields (fun s _ => s.dispatches hraw) hfit.results hrs passes)).imp ?_
  rw [UInt32.add_zero]
  rintro _ q _ ⟨ps, ⟨blocks, carries⟩, uses, means, passes', lent⟩
  rw [List.append_nil] at passes'
  exact ⟨ps, ⟨blocks, uses⟩, means, .of_lowered carries.lowered, passes', lent,
    carries.secures.here⟩

theorem lowerResults_runs (ready : p.Ready)
    (passes : p.machine.world.Passes owners [] (Value.handlesAll rs))
    (provides : area.isSome = (f.returnsArea && g.dir = .imported))
    (hlast : ∀ ptr ∈ area, scope.args[(f.coreSignature g.dir).params.length - 1]? = some
    (.ofU32 ptr) ∧ ptr.toNat + f.resultArea.size.toNat ≤ p.machine.world.frontier) :
    (Code.lowerResults raw g f values).Runs (Excused owners) c scope p fun _ q => ∃ returned o,
      q.machine.results = returned.map .u64
        ∧ Outlay g.loweringAllocator o.blocks (f.returnBlocks g.dir returned)
          (f.returnBlocks g.dir returned) p.machine q.machine
        ∧ (AllBorrowless f.results → q.machine.lent = p.machine.lent)
        ∧ Answered raw owners g.dir f area returned (Value.receivedAll owners rs) o
          q.machine.world := by
  rw [Code.lowerResults, coreSignature_returnPointer]
  simp only [returnBlocks]
  by_cases hreturns : f.returnsArea = true
  · rw [if_pos hreturns]
    cases hdir : g.dir with
    | imported =>
      -- The caller provided the area.
      rw [hreturns, hdir] at provides
      obtain ⟨ptr, rfl⟩ := Option.isSome_iff_exists.mp provides
      obtain ⟨hptr, inside⟩ := hlast ptr rfl
      rw [hdir] at hptr
      refine (getArg_runs hptr).bind ?_
      rintro addr q1 h1 ⟨haddr, alike⟩
      refine Code.Runs.bind (writeResults_runs hraw hp hfit hrs (Point.HoldsAll.extend hvalues h1)
        haddr (alike.ready ready) (alike.world ▸ passes) (alike.world ▸ inside)) ?_
      rintro _ q2 _ ⟨ps, o, means, outlay, passes', lent, laid⟩
      refine (ret_runs .nil).imp ?_
      intro _ q3 _ alike3
      refine ⟨[], o, alike3.results, ?_, ?_, ?_⟩
      · simpa using (outlay.since alike).ret alike3
      · exact fun h => alike3.lent.trans ((lent h).trans alike.lent)
      · rw [alike3.world]
        refine ⟨outlay.ready, passes', ps, means, ?_⟩
        rw [if_pos hreturns]
        exact ⟨ptr, ⟨rfl, rfl⟩, laid⟩
    | exported =>
      -- The export has an area of its own, which is left to its caller.
      have exact := Layout.product_exact (fieldPlaces_exact hfit.results) hfit.resultArea
      have aligned : IsAlignment f.resultArea.align := exact.1.isAlignment
      refine ((scratch_runs ready aligned).weaken fun e refusal _ => refusal).bind ?_
      rintro addr q1 h1 ⟨ptr, haddr, took, hscratch⟩
      obtain ⟨allocator, world⟩ := took.world
      have noted : q1.machine.scratch
          = [⟨ptr, f.resultArea.size, f.resultArea.align⟩] ++ p.machine.scratch := hscratch
      refine Code.Runs.bind (writeResults_runs hraw hp hfit hrs (Point.HoldsAll.extend hvalues h1)
        haddr took.ready (by rw [world]; exact passes) (Nat.le_of_eq took.stop)) ?_
      rintro _ q2 h2 ⟨ps, o, means, outlay, passes', lent, laid⟩
      refine (ret_runs (.cons (haddr.extend h2) .nil)).imp ?_
      intro _ q3 _ alike3
      refine ⟨[ptr.toUInt64], o, alike3.results, ?_, ?_, ?_⟩
      · have both := ((Outlay.of_took took noted).trans outlay).ret alike3
        simpa [hreturns] using both
      · exact fun h => alike3.lent.trans ((lent h).trans took.lent)
      · rw [alike3.world]
        refine ⟨outlay.ready, passes', ps, means, ?_⟩
        rw [if_pos hreturns]
        exact ⟨ptr, rfl, laid⟩
  · rw [if_neg hreturns]
    rw [← Nat.add_zero (Value.handlesAll rs)] at passes
    refine ((lowerFields_mirrors (fun s _ => sendMirrors s) hp hfit.results hrs.length_eq hrs.sized
      hvalues ready).delivers
        (sendFields_yields (fun s _ => s.dispatches hraw) hfit.results hrs passes)).bind ?_
    rintro flat q1 _ ⟨ps, ⟨xs, blocks, holds, carries⟩, uses, means, passes', lent⟩
    rw [List.append_nil] at passes'
    refine (ret_runs holds).imp ?_
    intro _ q2 _ alike
    refine ⟨xs, ⟨blocks, uses⟩, alike.results, ?_, fun h => alike.lent.trans (lent h), ?_⟩
    · simpa [hreturns] using (Outlay.of_lowered carries.lowered).ret alike
    · rw [alike.world]
      refine ⟨carries.lowered.ready, passes', ps, means, ?_⟩
      rw [if_neg hreturns]
      exact carries.secures.here

end

theorem liftResults_runs (hp : FieldsPassable f.results)
    (answer : Answered raw owners g.dir f area returned rs o p.machine.world)
    {provided : Option Reg} {regs : List Reg} (hregs : p.HoldsAll regs (returned.map .u64))
    (hprovided : Option.Rel (fun r ptr => p.Holds r (.ofU32 ptr)) provided area)
    (provides : area.isSome = (f.returnsArea && g.dir = .imported)) :
    (Code.liftResults raw g f provided regs).Runs (Excused owners) c scope p fun _ q =>
      (owners.isSome → q.machine.results = rs)
        ∧ Lifted c.owned o.blocks p.machine q.machine := by
  have passes := answer.passes
  rw [← List.append_nil o.uses] at passes
  obtain ⟨ps, means, results⟩ := answer.results
  have lifted : ((if (f.coreSignature g.dir).returnPointer.isSome then
        Code.readFields raw f.results (placedOffsets f.results)
          (provided.getD (regs.headD 0)) 0
      else Code.liftFields raw f.results regs) : Code (List Reg)).Mirrors c scope p
      (Parcel.receiveAll ps) (ObtainsAll c.owned o.blocks p) := by
    rw [coreSignature_returnPointer]
    split_ifs at results ⊢ with hreturns
    · obtain ⟨ptr, hptr, laid⟩ := results
      have haddr : p.Holds (provided.getD (regs.headD 0)) (.ofU32 ptr) := by
        rw [hreturns] at provides
        cases hdir : g.dir with
        | imported =>
          rw [hdir] at hptr
          obtain ⟨rfl, _⟩ := hptr
          cases hprovided with
          | some holds => exact holds
        | exported =>
          rw [hdir] at hptr provides
          obtain rfl := hptr
          cases hprovided with
          | some => exact absurd provides nofun
          | none =>
            cases hregs with
            | cons holds _ => exact holds
      rw [← UInt32.add_zero ptr] at laid
      exact readFields_mirrors (fun s _ => receiveMirrors s) hp laid haddr answer.ready
    · exact liftFields_mirrors (fun s _ => receiveMirrors s) hp results hregs answer.ready
  have code : Code.liftResults raw g f provided regs
      = (if (f.coreSignature g.dir).returnPointer.isSome then
          Code.readFields raw f.results (placedOffsets f.results) (provided.getD (regs.headD 0)) 0
        else Code.liftFields raw f.results regs) >>= fun values =>
        Code.emitNone (.ret f.results.length) values := by
    rw [Code.liftResults]
    split <;> rfl
  rw [code]
  refine (lifted.delivers (PartsMean.receiveAll_yields ps means passes)).bind ?_
  rintro values q1 _ ⟨ws, ⟨holds, taken⟩, hws, _⟩
  refine (ret_runs holds).imp ?_
  intro _ q2 _ alike
  exact ⟨fun strict => alike.results.trans (hws strict), taken.ret alike⟩

/-! ## Results of an export -/

theorem postReturn_runs {E : Failure → Prop} (hp : FieldsPassable f.results)
    (ready : p.Ready)
    (results : ResultsAt raw p.machine.world.memory .exported f area returned rs o)
    (hargs : scope.args = returned.map .u64) :
    (Code.postReturn f).Runs E c scope p fun _ q => Lifted true o.blocks p.machine q.machine := by
  have freed : ((if (f.coreSignature .exported).returnPointer.isSome then do
        let addr ← Code.emitOne (.getArg 0) []
        Code.freeFields f.results (placedOffsets f.results) addr 0
      else pure ()) : Code Unit).Runs E c scope p
      fun _ q => Lifted true o.blocks p.machine q.machine := by
    obtain ⟨ps, _, results⟩ := results
    rw [coreSignature_returnPointer]
    split_ifs at results ⊢ with hreturns
    · obtain ⟨ptr, rfl, laid⟩ := results
      have hptr : scope.args[0]? = some (.ofU32 ptr) := by
        rw [hargs]
        rfl
      refine (getArg_runs hptr).bind ?_
      rintro addr q1 _ ⟨haddr, alike⟩
      have laid' : FieldsLaid raw q1.machine.world.memory f.results (placedOffsets f.results) ps
          (ptr + 0) o.blocks := by
        rw [UInt32.add_zero, alike.world]
        exact laid
      refine (freeFields_runs (fun s _ => freeRuns s) hp laid' haddr
        (alike.ready ready)).imp ?_
      exact fun _ q2 _ lifted => lifted.since alike
    · -- One core value is too few for a text or a list.
      have few : (fieldSlots f.results).length ≤ 1 := by
        rw [returnsArea, decide_eq_true_iff] at hreturns
        exact Nat.le_of_not_lt hreturns
      rw [results.blocks_eq_nil (anyOwnsMemory_eq_false few)]
      exact Code.Runs.pure (.refl ready)
  have code : Code.postReturn f = (if (f.coreSignature .exported).returnPointer.isSome then do
        let addr ← Code.emitOne (.getArg 0) []
        Code.freeFields f.results (placedOffsets f.results) addr 0
      else pure ()) >>= fun _ => Code.emitNone (.ret 0) [] := by
    rw [Code.postReturn]
    split
    · rw [bind_assoc]
    · rfl
  rw [code]
  refine freed.bind ?_
  intro _ q1 _ lifted
  refine (ret_runs .nil).imp ?_
  exact fun _ q2 _ alike => lifted.ret alike

end Halves

end CanonicalAbi
