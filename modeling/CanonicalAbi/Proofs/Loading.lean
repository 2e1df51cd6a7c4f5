import CanonicalAbi.Proofs.Parcels
import CanonicalAbi.Proofs.Storing

/-!
# Loading

The parts of the code that lifts values: the code that loads core values, and the bodies of elements
and cases.
-/

namespace CanonicalAbi

variable {α : Type} [Allocator α] {E : Failure → Prop} {c : Setting α} {scope : Scope} {p : Point α}

/-! ## Loads -/

section Loads

variable {ra : Reg} {a offset : UInt32}

@[simp] theorem toUInt32_core_ofU32 (n : UInt32) : (Value.ofU32 n).core.toUInt32 = n :=
  UInt32.toUInt32_toUInt64 n

theorem instr_load {run : Nat → Scope → Exec α (List Value)} (op : LoadOp) (a offset : UInt32) :
    Exec.instr c scope 0 run (.load op offset) [.ofU32 a]
      = (do return [← Exec.load op (a + offset)]) := by
  simp only [Exec.instr, List.headD_cons, toUInt32_core_ofU32]

section

variable {op : LoadOp} {x : UInt64} (ha : p.Holds ra (.ofU32 a))
  (h : p.machine.world.memory.At (a + offset).toNat (Memory.toBytes op.width.size.toNat x))
include ha h

theorem reload_runs : (Code.load op ra offset).Runs E c scope p fun r q =>
      q.Holds r (.u64 (op.reload x)) ∧ q.machine.Alike p.machine := by
  refine emitOne_runs rfl (.cons ha .nil) ?_
  rw [instr_load, runFrom_bind_ok (Exec.runFrom_reload h)]
  rfl

theorem load_runs (hx : op.Recovers x) : (Code.load op ra offset).Runs E c scope p fun r q =>
      q.Holds r (.u64 x) ∧ q.machine.Alike p.machine := by
  have loaded : (Code.load op ra offset).Runs E c scope p fun r q =>
      q.Holds r (.u64 (op.reload x)) ∧ q.machine.Alike p.machine := reload_runs ha h
  rwa [show op.reload x = x from hx] at loaded

end

theorem loadPair_runs {ptr count : UInt32} (ha : p.Holds ra (.ofU32 a))
    (h : PairLies p.machine.world.memory (a + offset) ptr count) :
    (Code.loadPair ra offset).Runs E c scope p fun rs q =>
      q.HoldsAll rs [.ofU32 ptr, .ofU32 count] ∧ q.machine.Alike p.machine := by
  refine (load_runs ha h.1 (recovers_i32 ptr)).bind ?_
  rintro r1 q1 h1 ⟨hr1, alike1⟩
  refine (load_runs (ha.extend h1) ?_ (recovers_i32 count)).bind ?_
  · rw [alike1.world, ← UInt32.add_assoc]
    exact h.2
  · rintro r2 q2 h2 ⟨hr2, alike2⟩
    exact Code.Runs.pure ⟨.cons (hr1.extend h2) (.cons hr2 .nil), alike2.trans alike1⟩

theorem loadLanes_runs {lanes : List UInt32} (ha : p.Holds ra (.ofU32 a))
    (h : LanesLie p.machine.world.memory (a + offset) lanes) :
    (Code.loadLanes ra offset lanes.length).Runs E c scope p fun rs q =>
      q.HoldsAll rs (lanes.map .ofU32) ∧ q.machine.Alike p.machine := by
  induction lanes generalizing p offset with
  | nil => exact Code.Runs.pure ⟨.nil, .refl _⟩
  | cons lane lanes ih =>
    refine (load_runs ha h.1 (recovers_i32 lane)).bind ?_
    rintro r q1 h1 ⟨hr, alike1⟩
    refine (ih (ha.extend h1) ?_).bind ?_
    · rw [alike1.world, ← UInt32.add_assoc]
      exact h.2
    · rintro rs q2 h2 ⟨hrs, alike2⟩
      exact Code.Runs.pure ⟨.cons (hr.extend h2) hrs, alike2.trans alike1⟩

theorem loadFlags_runs {count : Nat} {lanes : List UInt32}
    (length : lanes.length = (FlagsStorage.ofCount count).lanes)
    (ha : p.Holds ra (.ofU32 a))
    (h : FlagsLie p.machine.world.memory count (a + offset) lanes) :
    (Code.loadFlags count ra offset).Runs E c scope p fun rs q =>
      q.HoldsAll rs ((reloadLanes count lanes).map .ofU32) ∧ q.machine.Alike p.machine := by
  rw [FlagsLie] at h
  rw [Code.loadFlags, reloadLanes]
  split_ifs at h ⊢ with hunit
  · rw [← length]
    exact loadLanes_runs ha h
  · -- Few flags are in one small integer.
    rw [lanes_eq_one hunit] at length
    obtain ⟨lane, rfl⟩ := List.length_eq_one_iff.mp length
    have narrow := unit_ne count
    rw [← IntWidth.width_loadOp _ narrow] at h
    refine (reload_runs ha h).bind ?_
    rintro r q _ ⟨hr, alike⟩
    have bounded : ((FlagsStorage.ofCount count).unit.loadOp.reload lane.toUInt64).toNat
        < 2 ^ 32 := by
      rw [IntWidth.toNat_reload narrow, UInt32.toNat_toUInt64]
      exact Nat.lt_of_le_of_lt (Nat.mod_le _ _) lane.toNat_lt
    have same : ((FlagsStorage.ofCount count).unit.loadOp.reload lane.toUInt64).toUInt32.toUInt64
        = (FlagsStorage.ofCount count).unit.loadOp.reload lane.toUInt64 := by
      rw [← UInt64.toNat_inj, UInt32.toNat_toUInt64, UInt64.toNat_toUInt32,
        Nat.mod_eq_of_lt bounded]
    refine Code.Runs.pure ⟨.cons ?_ .nil, alike⟩
    rw [Value.ofU32, same]
    exact hr

end Loads

/-! ## Single core values -/

/-- The instruction that lifts a value from one core value, for the shapes that have one. -/
def Shape.liftInstr : Shape → Option Instr
  | .scalar s => some (.liftScalar s)
  | .enum l cases => some (.liftEnum l cases)
  | .handle l form type => some (.liftHandle form l type)
  | _ => none

theorem results_liftInstr {s : Shape} {i : Instr} (hi : s.liftInstr = some i) : i.results = 1 := by
  cases s <;> simp [Shape.liftInstr] at hi <;> subst hi <;> rfl

/-! ## Lists and products -/

def Code.readElem (raw : RawRule) (elem : Option Shape) : Code (List Reg) := do
  let addr ← emitOne .iterBase []
  let value ← read? raw elem addr 0
  return [value]

theorem Exec.instr_liftList {l : Label} {elem : Option Shape} (hp : Passable? elem)
    (ptr count : UInt32) (n : Nat) (run : Nat → Scope → Exec α (List Value)) :
    Exec.instr c scope n run (.liftList l elem) [.ofU32 ptr, .ofU32 count] = (do
      let out ← Exec.liftElems (run 0) (place? elem).size [] ptr count.toNat
      Exec.freeOwned c ptr ((place? elem).size * count) (place? elem).align
      return [.list out]) := by
  simp only [Exec.instr, List.headD_cons, List.getD_cons_succ, List.getD_cons_zero,
    toUInt32_core_ofU32, optLayout_eq hp]
  rfl

theorem liftProduct_runs {l : Label} {form : ProductForm} {fields : Nat} {rs : List Reg}
    {ws : List Value} (hrs : p.HoldsAll rs ws) :
    (Code.emitOne (.liftProduct form l fields) rs).Runs E c scope p fun r q =>
      q.Holds r (.list ws) ∧ q.machine.Alike p.machine :=
  emitOne_runs rfl hrs rfl

/-! ## Sums -/

theorem liftCases_eq {raw : RawRule} (slots : List CoreType) (rs : List Reg)
    (payloads : Parts) :
    Code.liftCases raw slots rs payloads
      = Code.blocks (payloads.map (Code.liftCase raw slots rs)) := by
  induction payloads with
  | nil => rfl
  | cons p payloads ih => rw [Code.liftCases, ih]; rfl

theorem readCases_eq {raw : RawRule} (addr : Reg) (start : UInt32)
    (payloads : Parts) :
    Code.readCases raw addr start payloads
      = Code.blocks (payloads.map (Code.readCase raw addr start)) := by
  induction payloads with
  | nil => rfl
  | cons p payloads ih => rw [Code.readCases, ih]; rfl

end CanonicalAbi
