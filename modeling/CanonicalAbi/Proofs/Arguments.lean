import CanonicalAbi.Proofs.Accounts
import CanonicalAbi.Proofs.Delivery
import CanonicalAbi.Proofs.Receiving
import CanonicalAbi.Proofs.Sending

/-!
# Arguments of a call

The caller's half of a function lowers the arguments and the callee's half lifts them. In between
they are core values, or fields in an area of memory if there are too many of them.
-/

namespace CanonicalAbi

open List FunctionShape

variable {α : Type} [BumpLike α] {vs : List Value} {index : Nat} {E : Failure → Prop}
  {fields : Parts} {xs : List UInt64}

/-! ## Areas of memory -/

/-- From `m` to `m'` one block was allocated, and nothing else happened. -/
structure Took (b : Allocation) (m m' : Machine α) : Prop where
  world : ∃ allocator, m'.world = { m.world with allocator }
  ready : m'.world.Ready
  calls : m.world.Calls [.alloc b] m'.world
  start : m.world.frontier ≤ b.ptr.toNat
  stop : b.ptr.toNat + b.size.toNat = m'.world.frontier
  borrowed : m'.borrowed = m.borrowed
  lent : m'.lent = m.lent

theorem Took.alike {b : Allocation} {m m' m'' : Machine α} (h : Took b m m') (hm : m''.Alike m') :
    Took b m m'' := by
  rw [hm.eq]
  exact { h with }

section Areas

variable {c : Setting α} {scope : Scope} {p : Point α} {size align : UInt32}

theorem scratch_runs (ready : p.Ready) (ha : IsAlignment align) :
    (Code.scratch size align).Runs (·.IsRefusal) c scope p fun r q => ∃ ptr,
      q.Holds r (.ofU32 ptr) ∧ Took ⟨ptr, size, align⟩ p.machine q.machine
        ∧ q.machine.scratch = ⟨ptr, size, align⟩ :: p.machine.scratch := by
  intro hsize
  change Does _ (Exec.steps c scope [.scratch size align p.next]) _ _
  have hsize : p.next + 1 ≤ p.machine.registers.size := hsize
  have single : Does (·.IsRefusal) (Exec.step c scope (.scratch size align p.next)) p.machine
      fun _ m => Kept p.next p.machine m ∧ ∃ ptr,
        Point.Holds ⟨p.next + 1, m⟩ p.next (.ofU32 ptr) ∧ Took ⟨ptr, size, align⟩ p.machine m
          ∧ m.scratch = ⟨ptr, size, align⟩ :: p.machine.scratch := by
    refine (Exec.alloc_does ready size ha).bind ?_
    rintro ptr _ ⟨a, a', hw, halloc, rfl, ready', start, stop⟩
    have hsize : p.next + [Value.ofU32 ptr].length ≤ p.machine.registers.size := hsize
    cases Exec.holdsAll_setRange p.machine hsize with
    | cons holds _ =>
      exact ⟨Exec.kept_of_setRange _ [.ofU32 ptr] rfl, ptr, holds,
        ⟨⟨some a', rfl⟩, ready', ⟨a, a', hw, rfl, .alloc halloc (.nil a')⟩, start, stop, rfl, rfl⟩,
        rfl⟩
  rw [Does, Exec.steps_singleton]
  exact single

theorem allocate_runs (realloc : String) (ready : p.Ready) (ha : IsAlignment align) :
    (Code.emitOne (.allocate realloc size align) []).Runs (·.IsRefusal) c scope p fun r q =>
      ∃ ptr, q.Holds r (.ofU32 ptr) ∧ Took ⟨ptr, size, align⟩ p.machine q.machine
        ∧ q.machine.scratch = p.machine.scratch := by
  refine Code.Runs.emitOne rfl .nil ?_
  refine (Exec.alloc_does ready size ha).bind ?_
  rintro ptr _ ⟨a, a', hw, halloc, rfl, ready', start, stop⟩
  refine Does.pure ⟨rfl, _, rfl, fun r q _ alike holds => ⟨ptr, holds, Took.alike
    ⟨⟨some a', rfl⟩, ready', ⟨a, a', hw, rfl, .alloc halloc (.nil a')⟩, start, stop, rfl, rfl⟩
    alike, alike.scratch⟩⟩

end Areas

/-! ## Outlays -/

/-- What a half of a call takes for what it sends: the blocks of the values, which last for the call
if no allocator of the guest is named, and areas, of which some last until the run ends. -/
structure Outlay (realloc : String) (blocks areas noted : List Allocation) (m m' : Machine α) :
    Prop where
  ready : m'.world.Ready
  frontier : m.world.frontier ≤ m'.world.frontier
  balances : ∀ live, m.world.Balances live m'.world (blocks ++ (areas ++ live))
  borrowed : m'.borrowed.Perm ((if realloc.isEmpty then blocks else []) ++ m.borrowed)
  scratch : m'.scratch = noted ++ m.scratch
  log : m'.world.log = m.world.log
  crossing : m'.world.crossing = m.world.crossing

namespace Outlay

variable {realloc : String} {blocks blocks' areas areas' noted noted' : List Allocation}
  {m m' m'' : Machine α}

theorem of_lowered {area : Nat → Prop} (h : Lowered realloc area blocks m m') :
    Outlay realloc blocks [] [] m m' where
  ready := h.ready
  frontier := h.frontier
  balances := .lowered h
  borrowed := h.borrowed
  scratch := h.scratch
  log := h.log
  crossing := h.crossing

theorem of_took {b : Allocation} (h : Took b m m') (scratch : m'.scratch = noted ++ m.scratch) :
    Outlay realloc [] [b] noted m m' := by
  obtain ⟨allocator, world⟩ := h.world
  have start := h.start
  have stop := h.stop
  refine ⟨h.ready, by omega, fun live => ⟨_, h.calls, .allocs [b] live⟩, ?_, scratch,
    by rw [world], by rw [world]⟩
  rw [h.borrowed]
  simp

theorem since (h : Outlay realloc blocks areas noted m' m'') (hm : m'.Alike m) :
    Outlay realloc blocks areas noted m m'' := by
  rw [hm.eq] at h
  exact { h with }

theorem trans (h : Outlay realloc blocks areas noted m m')
    (h' : Outlay realloc blocks' areas' noted' m' m'') :
    Outlay realloc (blocks ++ blocks') (areas ++ areas') (noted' ++ noted) m m'' where
  ready := h'.ready
  frontier := Nat.le_trans h.frontier h'.frontier
  balances live := by
    refine ((h.balances live).trans (h'.balances _)).perm_right ?_
    simp only [solid_append]
    exact perm_iff_count.mpr fun b => by simp only [count_append]; omega
  borrowed := by
    have first := h.borrowed
    have second := h'.borrowed
    split_ifs at first second ⊢
    · rw [append_assoc]
      exact second.trans ((first.append_left _).trans (perm_append_comm_assoc _ _ _))
    · exact second.trans first
  scratch := by rw [h'.scratch, h.scratch, append_assoc]
  log := h'.log.trans h.log
  crossing := h'.crossing.trans h.crossing

end Outlay

/-! ## Passed arguments -/

def FunctionShape.indirect (f : FunctionShape) : Bool :=
  decide (maxFlatParams < (fieldSlots f.params).length)

def FunctionShape.returnsArea (f : FunctionShape) : Bool :=
  decide (maxFlatResults < (fieldSlots f.results).length)

@[simp] theorem FunctionShape.coreSignature_indirect (f : FunctionShape) (dir : Direction) :
    (f.coreSignature dir).indirectParams = f.indirect := by
  simp only [coreSignature, CoreSignature.ofFlat]
  split
  · rfl
  · cases dir <;> rfl

@[simp] theorem FunctionShape.coreSignature_returnPointer (f : FunctionShape) (dir : Direction) :
    (f.coreSignature dir).returnPointer.isSome = f.returnsArea := by
  simp only [coreSignature, CoreSignature.ofFlat, returnsArea]
  split
  · next h => simpa using h
  · next h => cases dir <;> simpa using h

/-- The blocks and the handles that pass with arguments. -/
structure Assets where
  blocks : List Allocation
  uses : List HandleUse

/-- Arguments as they are passed: in core values, or in an area of memory behind a pointer. -/
def ArgsAt (raw : RawRule) (mem : Memory) (f : FunctionShape) (vs : List Value)
    (xs : List UInt64) (o : Assets) : Prop :=
  ∃ ps, PartsMean ps vs o.uses ∧
    if f.indirect then ∃ ptr : UInt32, xs = [ptr.toUInt64]
      ∧ FieldsLaid raw mem f.params (placedOffsets f.params) ps ptr o.blocks
    else FieldsSpread raw mem f.params ps xs o.blocks

def FunctionShape.paramBlocks (f : FunctionShape) (xs : List UInt64) : List Allocation :=
  if f.indirect then [⟨(xs.headD 0).toUInt32, f.paramArea.size, f.paramArea.align⟩] else []

section Lowering

variable {raw : RawRule} {owners : Option HandleTable} {c : Setting α} {scope : Scope}
  {p : Point α} {room : Nat} {g : Generator} {f : FunctionShape}

omit [BumpLike α] in
theorem args_cons {args : List Value} {v : Value} (h : args.drop index = v :: vs) :
    args[index]? = some v ∧ args.drop (index + 1) = vs := by
  rw [← head?_drop, ← tail_drop, h]
  exact ⟨rfl, rfl⟩

omit [BumpLike α] in
theorem getArg_runs [Allocator α] {v : Value} (h : scope.args[index]? = some v) :
    (Code.emitOne (.getArg index) []).Runs E c scope p fun r q =>
      q.Holds r v ∧ q.machine.Alike p.machine := by
  refine emitOne_runs rfl .nil ?_
  simp only [Exec.instr, h]
  rfl

section

variable (hp : FieldsPassable fields) (hfit : FieldsFit fields) (hargs : scope.args.drop index = vs)
  (length : vs.length = fields.length) (sized : FieldsSized fields vs)
include hp hfit hargs length sized

theorem lowerParams_mirrors (ready : p.Ready) :
    (Code.lowerParams raw g index fields).Mirrors c scope p (sendFields raw false fields vs)
      fun ps rs q => Spreads g.loweringAllocator
        (fun mem xs blocks => FieldsSpread raw mem fields ps xs blocks) p rs q := by
  induction fields generalizing p index vs with
  | nil =>
    obtain rfl : vs = [] := length_eq_zero_iff.mp length
    exact .pure ⟨[], [], .nil, .of_alike ready (.refl _) fun _ => ⟨rfl, rfl⟩⟩
  | cons part fields ih =>
    cases vs with
    | nil => simp at length
    | cons v vs =>
      obtain ⟨hfirst, hrest⟩ := args_cons hargs
      refine .after (getArg_runs hfirst) ?_
      rintro r q0 _ ⟨hr, alike⟩
      refine ⟨alike.custody, .bind (lower?_mirrors (fun s _ => sendMirrors s) hp.1 hfit.1 sized.1 hr
        (alike.ready ready)) ?_⟩
      intro parcel first q1 _ head
      have head := head.since alike
      refine .bind (ih hp.2 hfit.2 hrest (by simpa using length) sized.2 head.ready) ?_
      exact fun ps rest q2 h2 tail => .pure (head.cons h2 tail)

theorem writeParams_mirrors {offsets : List UInt32} {start stop : Nat} {ra : Reg} {a : UInt32}
    (ha : p.Holds ra (.ofU32 a)) (ready : p.Ready)
    (between : Layout.Between start stop offsets (fieldPlaces fields))
    (inside : a.toNat + stop ≤ p.machine.world.frontier) :
    (Code.writeParams raw g ra index fields offsets).Mirrors c scope p
      (sendFields raw true fields vs) fun ps _ q =>
        Deposits g.loweringAllocator (Span a.toNat start stop)
          (fun mem blocks => FieldsLaid raw mem fields offsets ps a blocks) p.machine
            q.machine := by
  induction fields generalizing p index vs offsets start with
  | nil =>
    obtain rfl : vs = [] := length_eq_zero_iff.mp length
    exact .pure ⟨[], .of_alike ready (.refl _) fun _ => by cases offsets <;> rfl⟩
  | cons part fields ih =>
    cases vs with
    | nil => simp at length
    | cons v vs =>
      cases offsets with
      | nil => exact between.elim
      | cons o offsets =>
        obtain ⟨hfirst, hrest⟩ := args_cons hargs
        have rest_le := between.2.start_le
        have addr_toNat : (a + o).toNat = a.toNat + o.toNat := toNat_add_of_le ready (by omega)
        refine .after (getArg_runs hfirst) ?_
        rintro r q0 h0 ⟨hr, alike⟩
        refine ⟨alike.custody, .bind (write?_mirrors (fun s _ => sendMirrors s) hp.1 hfit.1 a o
          sized.1 hr (ha.extend h0) (alike.ready ready)
            (by rw [alike.world, addr_toNat]; omega)) ?_⟩
        intro parcel _ q1 h1 head
        have head := head.since alike
        have lowered := head.choose_spec.lowered
        refine .map _ ((ih hp.2 hfit.2 hrest (by simpa using length) sized.2
          (ha.extend (h0.trans h1)) lowered.ready between.2
          (Nat.le_trans inside lowered.frontier)).imp ?_)
        exact fun ps _ q2 _ tail => head.cons ready between inside tail

end

theorem lowerArgValues_runs (hraw : ∀ e, raw e = true → Program.isByte e = true)
    (hp : FieldsPassable f.params) (hfit : f.Fits)
    (hargs : FieldsAdmit raw owners f.params scope.args) (ready : p.Ready)
    (passes : p.machine.world.Passes owners [] (Value.handlesAll scope.args + room)) :
    (Code.lowerArgValues raw g f).Runs (Excused owners) c scope p fun rs q => ∃ xs o,
      q.HoldsAll rs (xs.map .u64)
        ∧ Outlay g.loweringAllocator o.blocks (f.paramBlocks xs)
          (if g.dir = .imported then f.paramBlocks xs else []) p.machine q.machine
        ∧ q.machine.world.Passes owners o.uses room
        ∧ ArgsAt raw q.machine.world.memory f (Value.receivedAll owners scope.args) xs o := by
  have area := Layout.product_exact (fieldPlaces_exact hfit.params) hfit.paramArea
  have length := hargs.length_eq
  rw [Code.lowerArgValues, coreSignature_indirect]
  simp only [paramBlocks, ArgsAt]
  split
  · -- The area is taken, and the arguments are stored there.
    have pointer : (Code.paramPointer g f).Runs (·.IsRefusal) c scope p fun r q => ∃ ptr,
        q.Holds r (.ofU32 ptr)
          ∧ Took ⟨ptr, f.paramArea.size, f.paramArea.align⟩ p.machine q.machine
          ∧ q.machine.scratch = (if g.dir = .imported then
              [⟨ptr, f.paramArea.size, f.paramArea.align⟩] else []) ++ p.machine.scratch := by
      rw [Code.paramPointer]
      cases g.dir with
      | imported => exact scratch_runs ready area.1.isAlignment
      | exported => exact allocate_runs _ ready area.1.isAlignment
    refine (pointer.weaken fun e refusal _ => refusal).bind ?_
    rintro addr q1 h1 ⟨ptr, haddr, took, hscratch⟩
    have stop : ptr.toNat + f.paramArea.size.toNat = q1.machine.world.frontier := took.stop
    obtain ⟨allocator, world⟩ := took.world
    have passes1 : q1.machine.custody.Passes owners [] (Value.handlesAll scope.args + room) := by
      rw [Machine.custody, world]
      exact passes
    refine Code.Runs.bind ((writeParams_mirrors hp hfit.params drop_zero length hargs.sized
      haddr took.ready (placedOffsets_between hfit.params hfit.paramArea)
      (Nat.le_of_eq stop)).delivers
        (sendFields_yields (fun s _ => s.dispatches hraw) hfit.params hargs passes1)) ?_
    rintro _ q2 h2 ⟨ps, ⟨blocks, carries⟩, uses, means, passes2, _⟩
    rw [append_nil] at passes2
    refine Code.Runs.pure ⟨[ptr.toUInt64], ⟨blocks, uses⟩, .cons (haddr.extend h2) .nil, ?_,
      passes2,
      ps, means, ptr, rfl, carries.secures.here⟩
    rw [headD_cons, UInt32.toUInt32_toUInt64]
    exact (Outlay.of_took took hscratch).trans (.of_lowered carries.lowered)
  · refine ((lowerParams_mirrors hp hfit.params drop_zero length hargs.sized ready).delivers
      (sendFields_yields (fun s _ => s.dispatches hraw) hfit.params hargs passes)).imp ?_
    rintro rs q _ ⟨ps, ⟨xs, blocks, holds, carries⟩, uses, means, passes1, _⟩
    rw [append_nil] at passes1
    refine ⟨xs, ⟨blocks, uses⟩, holds, ?_, passes1, ps, means, carries.secures.here⟩
    rw [ite_self]
    exact .of_lowered carries.lowered

end Lowering

/-! ## Offers -/

/-- The core values of a call: those of the arguments, and the pointer to the area for the results
if the caller provides it. -/
def offered (xs : List UInt64) (area : Option UInt32) : List UInt64 :=
  xs ++ area.toList.map (·.toUInt64)

/-- A world in which a function is called: the arguments are passed, with their handles, and there
is an area for the results if the caller provides it. -/
structure Offered (raw : RawRule) (owners : Option HandleTable) (room : Nat)
    (dir : Direction) (f : FunctionShape) (vs : List Value) (xs : List UInt64)
    (area : Option UInt32) (o : Assets) (w : World α) : Prop where
  ready : w.Ready
  passes : w.Passes owners o.uses room
  args : ArgsAt raw w.memory f vs xs o
  provides : area.isSome = (f.returnsArea && dir = .imported)
  inside : ∀ ptr ∈ area, ptr.toNat + f.resultArea.size.toNat ≤ w.frontier

theorem Offered.of_eq {raw : RawRule} {owners : Option HandleTable} {room : Nat}
    {dir : Direction} {f : FunctionShape} {area : Option UInt32} {o : Assets} {w w' : World α}
    (h : Offered raw owners room dir f vs xs area o w) (memory : w'.memory = w.memory)
    (allocator : w'.allocator = w.allocator) (table : w'.table = w.table) :
    Offered raw owners room dir f vs xs area o w' where
  ready := by
    obtain ⟨a, ha, bounds⟩ := h.ready
    exact ⟨a, allocator.trans ha, memory ▸ bounds⟩
  passes origin horigin := by
    rw [table]
    exact h.passes origin horigin
  args := memory ▸ h.args
  provides := h.provides
  inside ptr hptr := by
    have := h.inside ptr hptr
    simpa only [World.frontier, allocator] using this

section Halves

variable {raw : RawRule} {owners : Option HandleTable} {c : Setting α} {scope : Scope}
  {p : Point α} {room : Nat} {g : Generator} {f : FunctionShape}

def FunctionShape.resultBlocks (f : FunctionShape) (area : Option UInt32) : List Allocation :=
  area.toList.map fun ptr => ⟨ptr, f.resultArea.size, f.resultArea.align⟩

theorem lowerArgs_runs (hraw : ∀ e, raw e = true → Program.isByte e = true)
    (hp : FieldsPassable f.params) (hfit : f.Fits)
    (hargs : FieldsAdmit raw owners f.params scope.args) (ready : p.Ready)
    (passes : p.machine.world.Passes owners [] (Value.handlesAll scope.args + room)) :
    (Code.lowerArgs raw g f).Runs (Excused owners) c scope p fun sent q => ∃ xs area o,
      q.HoldsAll sent.1 ((offered xs area).map .u64)
        ∧ Option.Rel (fun r ptr => q.Holds r (.ofU32 ptr)) sent.2 area
        ∧ Outlay g.loweringAllocator o.blocks (f.paramBlocks xs ++ f.resultBlocks area)
          (if g.dir = .imported then f.resultBlocks area ++ f.paramBlocks xs else [])
          p.machine q.machine
        ∧ Offered raw owners room g.dir f (Value.receivedAll owners scope.args) xs area o
          q.machine.world := by
  rw [Code.lowerArgs, coreSignature_returnPointer]
  refine (lowerArgValues_runs hraw hp hfit hargs ready passes).bind ?_
  rintro rs q1 h1 ⟨xs, o, holds, outlay, passes', args⟩
  split
  · next provides =>
    have imported : g.dir = .imported := by
      rw [Bool.and_eq_true] at provides
      exact of_decide_eq_true provides.2
    have exact := Layout.product_exact (fieldPlaces_exact hfit.results) hfit.resultArea
    have aligned : IsAlignment f.resultArea.align := exact.1.isAlignment
    refine ((scratch_runs outlay.ready aligned).weaken fun e refusal _ => refusal).bind ?_
    rintro addr q2 h2 ⟨ptr, haddr, took, hscratch⟩
    have noted : q2.machine.scratch = f.resultBlocks (some ptr) ++ q1.machine.scratch := hscratch
    obtain ⟨allocator, world⟩ := took.world
    refine Code.Runs.pure ⟨xs, some ptr, o, ?_, .some haddr, ?_, took.ready, ?_, ?_, ?_, ?_⟩
    · rw [offered, map_append]
      exact (Point.HoldsAll.extend holds h2).append (.cons haddr .nil)
    · have both := outlay.trans (Outlay.of_took took noted)
      rw [append_nil] at both
      rw [if_pos imported] at both ⊢
      exact both
    · rw [world]
      exact passes'
    · rw [world]
      exact args
    · rw [provides]
      rfl
    · rintro _ ⟨⟩
      exact Nat.le_of_eq took.stop
  · next provides =>
    refine Code.Runs.pure ⟨xs, none, o, ?_, .none, ?_, outlay.ready, passes', args, ?_, nofun⟩
    · rw [offered, Option.toList_none, map_nil, append_nil]
      exact holds
    · simpa only [resultBlocks, Option.toList_none, map_nil, append_nil,
        nil_append] using outlay
    · rw [Bool.eq_false_of_not_eq_true provides]
      rfl

/-! ## Taken arguments -/

theorem getArgs_runs {rest : List Value} (hargs : scope.args.drop index = vs ++ rest) :
    (Code.getArgs index vs.length).Runs E c scope p fun rs q =>
      q.HoldsAll rs vs ∧ q.machine.Alike p.machine := by
  induction vs generalizing p index with
  | nil => exact Code.Runs.pure ⟨.nil, .refl _⟩
  | cons v vs ih =>
    obtain ⟨hfirst, hrest⟩ := args_cons hargs
    refine (getArg_runs hfirst).bind ?_
    rintro r q1 _ ⟨hr, alike1⟩
    refine (ih hrest).bind ?_
    rintro rs q2 h2 ⟨hrs, alike2⟩
    exact Code.Runs.pure ⟨.cons (hr.extend h2) hrs, alike2.trans alike1⟩

theorem liftParams_mirrors (hp : FieldsPassable fields) {rest : List Value} {ps : List Parcel}
    {blocks : List Allocation} (h : FieldsSpread raw p.machine.world.memory fields ps xs blocks)
    (hargs : scope.args.drop index = xs.map .u64 ++ rest) (ready : p.Ready) :
    (Code.liftParams raw index fields).Mirrors c scope p (Parcel.receiveAll ps)
      (ObtainsAll c.owned blocks p) := by
  induction fields generalizing p index ps xs blocks with
  | nil =>
    cases ps with
    | cons => exact h.elim
    | nil =>
      obtain ⟨_, rfl⟩ := h
      exact .pure ⟨.nil, .refl ready⟩
  | cons part fields ih =>
    cases ps with
    | nil => exact h.elim
    | cons parcel ps =>
      obtain ⟨ys, zs, first, others, head, tail, rfl, rfl⟩ := h
      have count : (slots? part).length = (ys.map Value.u64).length := by
        rw [length_map]
        cases part with
        | none => exact head.elim
        | some s => exact head.holds.length_eq
      rw [map_append, append_assoc] at hargs
      have hrest : scope.args.drop (index + (slots? part).length) = zs.map .u64 ++ rest := by
        rw [← drop_drop, hargs, count, drop_left]
      rw [Code.liftParams, Parcel.receiveAll, count]
      refine .after (getArgs_runs hargs) ?_
      rintro flat q0 _ ⟨hflat, alike⟩
      refine ⟨alike.custody, .bind (lift?_mirrors (fun s _ => receiveMirrors s) hp.1
        (alike.world ▸ head) hflat (alike.ready ready)) ?_⟩
      intro v r q1 _ obtains
      have obtains := obtains.since alike
      rw [← count]
      refine .bind (ih hp.2 (obtains.2.memory ▸ tail) hrest (obtains.2.ready ready).1) ?_
      exact fun vs rs q2 h2 others => .pure (obtains.cons h2 others)

theorem freeArea_runs {size align ptr : UInt32} {ra : Reg} (ha : p.Holds ra (.ofU32 ptr))
    (ready : p.Ready) :
    (Code.emitNone (.free size align) [ra]).Runs E c scope p fun _ q =>
      Lifted true [⟨ptr, size, align⟩] p.machine q.machine
        ∧ q.machine.world.table = p.machine.world.table := by
  obtain ⟨m', ran, hregs, htable, lifted⟩ := Exec.runFrom_free ready ptr size align
  have whole : runFrom (Exec.instr c scope 0 (fun n s => Exec.nth c s n []) (.free size align)
      [.ofU32 ptr]) p.machine = (.ok [], m') := by
    simp only [Exec.instr, headD_cons, toUInt32_core_ofU32]
    rw [runFrom_bind_ok ran]
    rfl
  exact Code.Runs.emitNone rfl (.cons ha .nil) (Does.of_ok whole ⟨hregs, rfl, fun q _ alike =>
    ⟨lifted.alike alike, by rw [alike.world, htable]⟩⟩)

theorem liftArgs_runs (hp : FieldsPassable f.params) (howned : c.owned = decide (g.dir = .exported))
    {area : Option UInt32} {o : Assets}
    (offer : Offered raw owners room g.dir f vs xs area o p.machine.world)
    (hargs : scope.args = (offered xs area).map .u64) :
    (Code.liftArgs raw g f).Runs (Excused owners) c scope p fun rs q => ∃ ws,
      q.HoldsAll rs ws ∧ (owners.isSome → ws = vs)
        ∧ Lifted c.owned (o.blocks ++ f.paramBlocks xs) p.machine q.machine
        ∧ q.machine.world.Passes owners [] room := by
  have passes := offer.passes
  rw [← append_nil o.uses] at passes
  rw [offered, map_append] at hargs
  obtain ⟨ps, means, args⟩ := offer.args
  have received := PartsMean.receiveAll_yields (c := p.machine.custody) ps means passes
  rw [Code.liftArgs, coreSignature_indirect, paramBlocks]
  by_cases hindirect : f.indirect = true
  · rw [if_pos hindirect] at args ⊢
    obtain ⟨ptr, rfl, laid⟩ := args
    have hptr : scope.args[0]? = some (.ofU32 ptr) := by
      rw [hargs]
      rfl
    simp only [if_pos hindirect, headD_cons, UInt32.toUInt32_toUInt64]
    refine (getArg_runs hptr).bind ?_
    rintro addr q0 h0 ⟨haddr, alike⟩
    have laid' : FieldsLaid raw q0.machine.world.memory f.params (placedOffsets f.params) ps
        (ptr + 0) o.blocks := by
      rw [UInt32.add_zero, alike.world]
      exact laid
    refine ((readFields_mirrors (fun s _ => receiveMirrors s) hp laid' haddr
      (alike.ready offer.ready)).delivers (alike.custody ▸ received)).bind ?_
    rintro rs q1 h1 ⟨ws, ⟨holds, lifted⟩, hws, passes1⟩
    have lifted := lifted.since alike
    by_cases hdir : g.dir = .exported
    · have owned : c.owned = true := by rw [howned, hdir]; rfl
      rw [if_pos hdir]
      refine (freeArea_runs (haddr.extend h1) (lifted.ready offer.ready).1).bind ?_
      rintro _ q2 h2 ⟨freed, htable⟩
      refine Code.Runs.pure ⟨ws, Point.HoldsAll.extend holds h2, hws, ?_, fun origin horigin => ?_⟩
      · rw [← owned] at freed
        exact lifted.trans freed
      · rw [htable]
        exact passes1 origin horigin
    · have lent : c.owned = false := by rw [howned, decide_eq_false hdir]
      rw [if_neg hdir]
      rw [lent] at lifted ⊢
      exact Code.Runs.pure ⟨ws, holds, hws, lifted.unowned _, passes1⟩
  · rw [if_neg hindirect] at args ⊢
    rw [if_neg hindirect, append_nil]
    have hargs : scope.args.drop 0 = xs.map .u64 ++ _ := hargs
    refine ((liftParams_mirrors hp args hargs offer.ready).delivers received).imp ?_
    rintro rs q _ ⟨ws, ⟨holds, lifted⟩, hws, passes1⟩
    exact ⟨ws, holds, hws, lifted, passes1⟩

end Halves

end CanonicalAbi
