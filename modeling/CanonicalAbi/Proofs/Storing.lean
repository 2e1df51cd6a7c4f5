import CanonicalAbi.Proofs.Transfers

/-!
# Storing

What lowering leaves in memory, and the parts of the code that lowers values: simple instructions,
the code that stores core values, and the bodies of elements and cases.
-/

namespace CanonicalAbi

open Code

variable {rs : List Reg} {E : Failure → Prop} {count : Nat} {l : Label}

/-! ## Simple instructions -/

section Simple

variable {α : Type} [Allocator α] {E : Failure → Prop} {c : Setting α} {scope : Scope} {p : Point α}

theorem emitOne_runs {i : Instr} {args : List Reg} {vals : List Value} {v : Value}
    (hi : i.results = 1) (hargs : p.HoldsAll args vals)
    (h : runFrom (Exec.instr c scope 0 (fun n s => Exec.nth c s n []) i vals) p.machine
      = (.ok [v], p.machine)) :
    (emitOne i args).Runs E c scope p fun r q => q.Holds r v ∧ q.machine.Alike p.machine :=
  Code.Runs.emitOne hi hargs
    (Does.of_ok h ⟨rfl, v, rfl, fun _ _ _ alike holds => ⟨holds, alike⟩⟩)

theorem emit_runs {i : Instr} {args : List Reg} {vals results : List Value}
    (hi : results.length = i.results) (hargs : p.HoldsAll args vals)
    (h : runFrom (Exec.instr c scope 0 (fun n s => Exec.nth c s n []) i vals) p.machine
      = (.ok results, p.machine)) :
    (emit i args).Runs E c scope p fun rs q =>
      q.HoldsAll rs results ∧ q.machine.Alike p.machine :=
  Code.Runs.emit hargs (Does.of_ok h ⟨rfl, hi, fun _ _ _ alike holds => ⟨holds, alike⟩⟩)

theorem castSlots_runs {source target : List CoreType} {xs : List UInt64}
    (hrs : p.HoldsAll rs (xs.map .u64)) (hl : (castsBetween source target).length = xs.length) :
    (castSlots source target rs).Runs E c scope p fun rs' q =>
      q.HoldsAll rs' ((applyCasts source target xs).map .u64) ∧ q.machine.Alike p.machine := by
  rw [castSlots]
  split
  · refine emit_runs ?_ hrs ?_
    · rw [List.length_map, applyCasts, List.length_zipWith, ← hl, Nat.min_self]
      rfl
    · simp only [Exec.instr, applyCasts, List.zipWith_map_right, List.map_zipWith]
      rfl
  · next hcasts =>
    rw [applyCasts_eq_self (by simpa using hcasts) hl]
    exact Code.Runs.pure ⟨hrs, .refl _⟩

theorem padZeros_runs (types : List CoreType) :
    (padZeros types).Runs E c scope p fun rs q =>
      q.HoldsAll rs ((types.map fun _ => 0).map .u64) ∧ q.machine.Alike p.machine := by
  rw [padZeros]
  split
  · next empty =>
    obtain rfl : types = [] := by simpa using empty
    exact Code.Runs.pure ⟨.nil, .refl _⟩
  · refine emit_runs (by simp [Instr.results]) .nil ?_
    simp only [Exec.instr, List.map_map]
    rfl

end Simple

variable {α : Type} [BumpLike α]

/-! ## What is left behind -/

theorem Fresh.mono {m m' m'' : Machine α} {i : Nat} (h : Fresh m m' i)
    (hf : m'.world.frontier ≤ m''.world.frontier) : Fresh m m'' i :=
  ⟨h.1, Nat.lt_of_lt_of_le h.2 hf⟩

theorem Fresh.alike {m m' m'' : Machine α} (h : m''.Alike m') : Fresh m m'' = Fresh m m' := by
  funext i
  rw [Fresh, h.world, Fresh]

theorem Fresh.since {m m' m'' : Machine α} (h : m'.Alike m) : Fresh m' m'' = Fresh m m'' := by
  funext i
  rw [Fresh, h.world, Fresh]

/-- On the way from one machine to another something was laid down, in an area and in memory that
was taken for it. -/
structure Carries (realloc : String) (area : Nat → Prop) (blocks : List Allocation)
    (m m' : Machine α) (laid : Memory → Prop) : Prop where
  lowered : Lowered realloc area blocks m m'
  secures : m'.world.memory.Secures (fun i => area i ∨ Fresh m m' i) laid

namespace Carries

variable {realloc : String} {area area' outer : Nat → Prop} {blocks blocks' : List Allocation}
  {m m' m'' : Machine α} {laid laid' : Memory → Prop}

theorem alike (h : Carries realloc area blocks m m' laid) (hm : m''.Alike m') :
    Carries realloc area blocks m m'' laid := by
  refine ⟨h.lowered.alike hm, ?_⟩
  rw [Fresh.alike hm, hm.world]
  exact h.secures

theorem since (h : Carries realloc area blocks m' m'' laid) (hm : m'.Alike m) :
    Carries realloc area blocks m m'' laid := by
  refine ⟨h.lowered.since hm, ?_⟩
  rw [← Fresh.since hm]
  exact h.secures

theorem imp (h : Carries realloc area blocks m m' laid) (hl : ∀ mem, laid mem → laid' mem) :
    Carries realloc area blocks m m' laid' :=
  ⟨h.lowered, h.secures.imp hl⟩

theorem of_forall (h : Lowered realloc area blocks m m') (hl : ∀ mem, laid mem) :
    Carries realloc area blocks m m' laid :=
  ⟨h, .of_forall hl⟩

theorem of_alike (ready : m.world.Ready) (hm : m'.Alike m) (hl : ∀ mem, laid mem) :
    Carries realloc area [] m m' laid :=
  .of_forall ((Lowered.refl ready).alike hm) hl

theorem widen (h : Carries realloc area blocks m m' laid) (ha : ∀ i, area i → outer i) :
    Carries realloc outer blocks m m' laid :=
  ⟨h.lowered.widen fun i hi _ => ha i hi, h.secures.widen fun i => Or.imp_left (ha i)⟩

theorem behind (h : Lowered realloc area blocks m m')
    (h' : Carries realloc area' blocks' m' m'' laid)
    (ha : ∀ i, area i → outer i) (ha' : ∀ i, area' i → outer i ∨ Fresh m m' i) :
    Carries realloc outer (blocks ++ blocks') m m'' laid := by
  refine ⟨(h.widen fun i hi _ => ha i hi).trans h'.lowered fun i hi old => ?_,
    h'.secures.widen fun i hi => ?_⟩
  · exact (ha' i hi).elim id fun fresh => absurd old (Nat.not_lt.mpr fresh.1)
  · rcases hi with hi | ⟨start, stop⟩
    · exact (ha' i hi).imp id fun fresh => fresh.mono h'.lowered.frontier
    · exact .inr ⟨Nat.le_trans h.frontier start, stop⟩

theorem and (h : Carries realloc area blocks m m' laid)
    (h' : Carries realloc area' blocks' m' m'' laid')
    (ha : ∀ i, area i → outer i ∧ i < m'.world.frontier) (ha' : ∀ i, area' i → outer i)
    (apart : ∀ i, area i ∨ Fresh m m' i → ¬ area' i) :
    Carries realloc outer (blocks ++ blocks') m m'' fun mem => laid mem ∧ laid' mem := by
  have both := behind h.lowered h' (fun i hi => (ha i hi).1) fun i hi => .inl (ha' i hi)
  refine ⟨both.lowered, .and (h.secures.transport (fun i hi => ?_)
    (h'.lowered.agree fun i hi => ?_))
    both.secures⟩
  · exact hi.imp (fun hi => (ha i hi).1) fun fresh => fresh.mono h'.lowered.frontier
  · exact ⟨hi.elim (fun hi => (ha i hi).2) fun fresh => fresh.2, apart i hi⟩

end Carries

/-- What storing does: something is laid down in an area, and nothing else happens. -/
structure Stores (area : Nat → Prop) (m m' : Machine α) (laid : Memory → Prop) : Prop where
  carries : ∀ realloc, Carries realloc area [] m m' laid
  frontier : m'.world.frontier = m.world.frontier
  table : m'.world.table = m.world.table
  lent : m'.lent = m.lent

namespace Stores

variable {area area' outer : Nat → Prop} {m m' m'' : Machine α} {laid laid' : Memory → Prop}

theorem ready (h : Stores area m m' laid) : m'.world.Ready := (h.carries "").lowered.ready

theorem alike (h : Stores area m m' laid) (hm : m''.Alike m') : Stores area m m'' laid :=
  ⟨fun realloc => (h.carries realloc).alike hm, hm.world ▸ h.frontier, hm.world ▸ h.table,
    hm.lent ▸ h.lent⟩

theorem imp (h : Stores area m m' laid) (hl : ∀ mem, laid mem → laid' mem) :
    Stores area m m' laid' :=
  ⟨fun realloc => (h.carries realloc).imp hl, h.frontier, h.table, h.lent⟩

theorem and (h : Stores area m m' laid) (h' : Stores area' m' m'' laid')
    (ha : ∀ i, area i → outer i ∧ i < m.world.frontier) (ha' : ∀ i, area' i → outer i)
    (apart : ∀ i, area i → ¬ area' i) : Stores outer m m'' fun mem => laid mem ∧ laid' mem := by
  refine ⟨fun realloc => (h.carries realloc).and (h'.carries realloc) (fun i hi => ?_) ha'
    fun i hi => ?_, h'.frontier.trans h.frontier, h'.table.trans h.table, h'.lent.trans h.lent⟩
  · rw [h.frontier]
    exact ha i hi
  · refine hi.elim (apart i) fun fresh => absurd fresh.2 (Nat.not_lt.mpr ?_)
    rw [h.frontier]
    exact fresh.1

end Stores

/-! ## Addresses -/

theorem toNat_add_of_le {addr offset : UInt32} {w : World α} (ready : w.Ready)
    (h : addr.toNat + offset.toNat ≤ w.frontier) :
    (addr + offset).toNat = addr.toNat + offset.toNat := by
  have := ready.frontier_le
  have := ready.size_le
  rw [UInt32.toNat_add, Nat.mod_eq_of_lt (by omega)]

/-! ## Storing core values -/

section Store

variable {E : Failure → Prop} {c : Setting α} {scope : Scope} {p : Point α} {a offset : UInt32}
  {ra : Reg}

omit [BumpLike α] in
theorem instr_store [Allocator α] {c : Setting α} {run : Nat → Scope → Exec α (List Value)}
    (op : StoreOp) (x : UInt64) (a offset : UInt32) :
    Exec.instr c scope 0 run (.store op offset) [.u64 x, .ofU32 a]
      = (do Exec.store op (a + offset) x; return []) := by
  simp [Exec.instr, Value.ofU32, Value.core]

theorem store_runs (op : StoreOp) {rv : Reg} {x : UInt64} (ready : p.Ready)
    (hv : p.Holds rv (.u64 x)) (ha : p.Holds ra (.ofU32 a))
    (inside : (a + offset).toNat + op.width.size.toNat ≤ p.machine.world.frontier) :
    (store op rv ra offset).Runs E c scope p fun _ q =>
      Stores (Region (a + offset) op.width.size.toNat) p.machine q.machine fun mem =>
        mem.At (a + offset).toNat (Memory.toBytes op.width.size.toNat x) := by
  refine Code.Runs.emitNone rfl (.cons hv (.cons ha .nil)) ?_
  rw [instr_store]
  refine (Exec.store_does ready x inside).bind ?_
  rintro _ m' ⟨hregs, htable, hlent, hfrontier, lowered, secures⟩
  exact Does.pure ⟨hregs, rfl, fun q _ alike => Stores.alike
    ⟨fun realloc => ⟨lowered realloc, secures.widen fun _ => .inl⟩, hfrontier, htable, hlent⟩ alike⟩

theorem storePair_runs {ptr count : UInt32} (ready : p.Ready)
    (hrs : p.HoldsAll rs [.ofU32 ptr, .ofU32 count]) (ha : p.Holds ra (.ofU32 a))
    (inside : (a + offset).toNat + 8 ≤ p.machine.world.frontier) :
    (storePair rs ra offset).Runs E c scope p fun _ q =>
      Stores (Region (a + offset) 8) p.machine q.machine fun mem =>
        PairLies mem (a + offset) ptr count := by
  have behind : a + (offset + 4) = a + offset + 4 := (UInt32.add_assoc a offset 4).symm
  have four : (a + offset + 4).toNat = (a + offset).toNat + 4 :=
    toNat_add_of_le ready (show (a + offset).toNat + 4 ≤ _ by omega)
  have width : StoreOp.i32.width.size.toNat = 4 := rfl
  cases hrs with
  | cons hptr hrs =>
    cases hrs with
    | cons hcount hrs =>
      cases hrs
      refine (store_runs .i32 ready hcount ha (by rw [behind, four, width]; exact inside)).bind ?_
      rw [behind, width]
      intro _ q hpq stores
      refine (store_runs .i32 stores.ready (hptr.extend hpq) (ha.extend hpq)
        (by rw [stores.frontier, width]; omega)).imp ?_
      intro _ q' _ stores'
      refine (stores.and stores' ?_ ?_ ?_).imp fun _ both => both.symm
      all_goals
        intro i hi
        simp only [Region, four, width] at hi ⊢
        omega

theorem storeLanes_runs {lanes : List UInt32} (ready : p.Ready)
    (hrs : p.HoldsAll rs (lanes.map .ofU32)) (ha : p.Holds ra (.ofU32 a))
    (inside : (a + offset).toNat + 4 * lanes.length ≤ p.machine.world.frontier) :
    (storeLanes ra offset rs).Runs E c scope p fun _ q =>
      Stores (Region (a + offset) (4 * lanes.length)) p.machine q.machine fun mem =>
        LanesLie mem (a + offset) lanes := by
  induction lanes generalizing p rs offset with
  | nil =>
    cases hrs
    exact Code.Runs.pure ⟨fun _ => .of_alike ready (.refl _) fun _ => trivial, rfl, rfl, rfl⟩
  | cons lane lanes ih =>
    cases hrs with
    | cons hlane hrs =>
      simp only [List.length_cons] at inside ⊢
      have behind : a + (offset + 4) = a + offset + 4 := (UInt32.add_assoc a offset 4).symm
      have four : (a + offset + 4).toNat = (a + offset).toNat + 4 :=
        toNat_add_of_le ready (show (a + offset).toNat + 4 ≤ _ by omega)
      have width : StoreOp.i32.width.size.toNat = 4 := rfl
      refine (store_runs .i32 ready hlane ha (by rw [width]; omega)).bind ?_
      intro _ q hpq stores
      have inside' : (a + (offset + 4)).toNat + 4 * lanes.length ≤ q.machine.world.frontier := by
        rw [behind, four, stores.frontier]
        omega
      refine (ih stores.ready (Point.HoldsAll.extend hrs hpq) (ha.extend hpq) inside').imp ?_
      rw [behind]
      intro _ q' _ stores'
      refine stores.and stores' ?_ ?_ ?_
      all_goals
        intro i hi
        simp only [Region, four] at hi ⊢
        omega

theorem storeFlags_runs {lanes : List UInt32} (hfit : (Extent.flags count).size < 2 ^ 32)
    (hlanes : lanes.length = (FlagsStorage.ofCount count).lanes) (ready : p.Ready)
    (hrs : p.HoldsAll rs (lanes.map .ofU32)) (ha : p.Holds ra (.ofU32 a))
    (inside : (a + offset).toNat + (Layout.flags count).size.toNat ≤ p.machine.world.frontier) :
    (storeFlags count rs ra offset).Runs E c scope p fun _ q =>
      Stores (Region (a + offset) (Layout.flags count).size.toNat) p.machine q.machine fun mem =>
        FlagsLie mem count (a + offset) lanes := by
  have size := (Layout.flags_exact hfit).size
  rw [storeFlags]
  simp only [Extent.flags_eq, FlagsLie] at size ⊢
  split_ifs with hunit
  · have size' : (Layout.flags count).size.toNat = 4 * lanes.length := by
      rw [size, hunit, hlanes]
      rfl
    rw [size'] at inside ⊢
    exact storeLanes_runs ready hrs ha inside
  · have one := lanes_eq_one hunit
    have width := IntWidth.width_storeOp _ (unit_ne count)
    rw [one, Nat.mul_one] at size
    rw [one] at hlanes
    obtain ⟨lane, rfl⟩ := List.length_eq_one_iff.mp hlanes
    cases hrs with
    | cons hlane hrs =>
      cases hrs
      refine (store_runs _ ready hlane ha (by rw [width, ← size]; exact inside)).imp ?_
      intro _ q _ stores
      rw [width] at stores
      rw [size]
      exact stores

end Store

/-! ## Single core values -/

/-- The instruction that lowers a value to one core value, for the shapes that have one. -/
def Shape.lowerInstr : Shape → Option Instr
  | .scalar s => some (.lowerScalar s)
  | .enum l cases => some (.lowerEnum l cases)
  | .handle l form type => some (.lowerHandle form l type)
  | _ => none

section Single

variable {s : Shape} {i : Instr}

theorem Shape.results_lowerInstr (hi : s.lowerInstr = some i) : i.results = 1 := by
  cases s <;> simp [lowerInstr] at hi <;> subst hi <;> rfl

theorem Shape.size_single (hi : s.lowerInstr = some i) : s.place.size = s.loadOp.width.size := by
  cases s with
  | scalar s => exact s.size_eq
  | enum l cases =>
    rw [Shape.place, enum_size, Shape.loadOp, IntWidth.width_loadOp _ (tagWidth_ne cases)]
  | handle => rfl
  | _ => simp [lowerInstr] at hi

end Single

section Parts

variable {raw : RawRule} {realloc : String} {c : Setting α} {scope : Scope} {p : Point α}

/-! ## Lists and products -/

def Code.writeElem (raw : RawRule) (realloc : String) (elem : Option Shape) :
    Code (List Reg) := do
  let value ← emitOne (.iterElem elem) []
  let addr ← emitOne .iterBase []
  write? raw realloc elem value addr 0
  return []

omit [BumpLike α] in
theorem Exec.instr_lowerList [Allocator α] {elem : Option Shape} (hp : Passable? elem)
    (vs : List Value) (n : Nat) (run : Nat → Scope → Exec α (List Value)) :
    Exec.instr c scope n run (.lowerList l elem realloc) [.list vs] = (do
      let ptr ← Exec.allocFor realloc ((place? elem).size * UInt32.ofNat vs.length)
        (place? elem).align
      Exec.lowerElems (run 0) (place? elem).size ptr vs
      return [.ofU32 ptr, .ofU32 (UInt32.ofNat vs.length)]) := by
  simp only [Exec.instr, List.headD_cons, optLayout_eq hp]
  rfl

omit [BumpLike α] in
theorem toNat_size_mul {elem : Option Shape} (hfit : Fits? elem)
    (bounded : (extent? elem).size * count < 2 ^ 32) :
    ((place? elem).size * UInt32.ofNat count).toNat = (place? elem).size.toNat * count := by
  rw [← (place?_exact hfit).size] at bounded
  rw [UInt32.toNat_mul, UInt32.toNat_ofNat', Nat.mul_mod_mod, Nat.mod_eq_of_lt bounded]

def Span (base start stop : Nat) (i : Nat) : Prop := base + start ≤ i ∧ i < base + stop

omit [BumpLike α] in
theorem lowerProduct_runs [Allocator α] {form : ProductForm} {fields : Nat} {r : Reg}
    {vs : List Value} (length : vs.length = fields) (hr : p.Holds r (.list vs)) :
    (emit (.lowerProduct form l fields) [r]).Runs E c scope p fun rs q =>
      q.HoldsAll rs vs ∧ q.machine.Alike p.machine := by
  refine emit_runs length (.cons hr .nil) ?_
  simp only [Exec.instr, List.headD_cons, length]
  rfl

/-! ## Sums -/

theorem lowerCases_eq (slots : List CoreType) (index : Nat) (payloads : Parts) :
    lowerCases raw realloc slots index payloads
      = blocks (payloads.mapIdx fun n => lowerCase raw realloc slots (index + n)) := by
  induction payloads generalizing index with
  | nil => rfl
  | cons p payloads ih =>
    have shift : (fun n => lowerCase raw realloc slots (index + (n + 1)))
        = fun n => lowerCase raw realloc slots (index + 1 + n) := by
      funext n
      rw [Nat.add_assoc, Nat.add_comm 1 n]
    rw [List.mapIdx_cons, shift]
    rw [lowerCases, ih]
    rfl

theorem writeCases_eq (tag : IntWidth) (addr : Reg) (offset start : UInt32) (index : Nat)
    (payloads : Parts) :
    writeCases raw realloc tag addr offset start index payloads
      = blocks (payloads.mapIdx fun n =>
        writeCase raw realloc tag addr offset start (index + n)) := by
  induction payloads generalizing index with
  | nil => rfl
  | cons p payloads ih =>
    have shift : (fun n => writeCase raw realloc tag addr offset start (index + (n + 1)))
        = fun n => writeCase raw realloc tag addr offset start (index + 1 + n) := by
      funext n
      rw [Nat.add_assoc, Nat.add_comm 1 n]
    rw [List.mapIdx_cons, shift]
    rw [writeCases, ih]
    rfl

theorem caseNumber_runs (index : UInt32) :
    (emitOne (.i32Const (.ofNat index.toNat)) []).Runs E c scope p fun r q =>
      q.Holds r (.ofU32 index) ∧ q.machine.Alike p.machine := by
  have number : Value.ofI32 (.ofNat index.toNat) = .ofU32 index := by
    rw [Value.ofI32, Value.ofU32, Int32.toUInt32_ofNat', UInt32.ofNat_toNat]
  refine emitOne_runs rfl .nil ?_
  rw [← number]
  rfl

theorem storeTag_runs {cases : Nat} {index a offset : UInt32} {rv ra : Reg}
    (ready : p.Ready) (hv : p.Holds rv (.ofU32 index)) (ha : p.Holds ra (.ofU32 a))
    (inside : (a + offset).toNat + (tagWidth cases).size.toNat ≤ p.machine.world.frontier) :
    (store (tagWidth cases).storeOp rv ra offset).Runs E c scope p fun _ q =>
      Stores (Region (a + offset) (tagWidth cases).size.toNat) p.machine q.machine fun mem =>
        mem.At (a + offset).toNat
          (Memory.toBytes (tagWidth cases).size.toNat index.toUInt64) := by
  have width := (tagWidth cases).width_storeOp (tagWidth_ne cases)
  refine (store_runs (tagWidth cases).storeOp ready hv ha (by rwa [width])).imp ?_
  intro _ q _ stores
  rwa [width] at stores

/-! ## Flags -/

theorem lowerFlags_runs {r : Reg} {fs : List Bool} (hr : p.Holds r (.flags fs)) :
    (emit (.lowerFlags l count) [r]).Runs E c scope p fun rs q =>
      q.HoldsAll rs ((flagLanes fs (FlagsStorage.ofCount count).lanes).map .ofU32)
        ∧ q.machine.Alike p.machine := by
  refine emit_runs ?_ (.cons hr .nil) rfl
  rw [List.length_map, length_flagLanes]
  rfl

end Parts

end CanonicalAbi
