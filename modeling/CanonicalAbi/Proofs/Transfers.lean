import CanonicalAbi.Proofs.Blocks
import CanonicalAbi.Proofs.Execution
import CanonicalAbi.Proofs.Representation

/-!
# Steps that pass values

What lowering may do to a machine, and what lifting and freeing may do.
-/

namespace CanonicalAbi

variable {α : Type} [BumpLike α] {w : World α} {addr : UInt32} {data : List UInt8}

/-! ## The state of the world -/

namespace World

def frontier (w : World α) : Nat :=
  match w.allocator with
  | some a => (BumpLike.bump a).frontier
  | none => 0

def Ready (w : World α) : Prop :=
  ∃ a, w.allocator = some a ∧ (BumpLike.bump a).Over w.memory.size

/-- The allocator was called so on the way from one world to another. -/
def Calls (w : World α) (calls : List AllocatorCall) (w' : World α) : Prop :=
  ∃ a a', w.allocator = some a ∧ w'.allocator = some a' ∧ Performs a calls a'

theorem Calls.trans {w' w'' : World α} {calls calls' : List AllocatorCall} (h : w.Calls calls w')
    (h' : w'.Calls calls' w'') : w.Calls (calls ++ calls') w'' := by
  obtain ⟨a, a1, ha, ha1, first⟩ := h
  obtain ⟨a1', a2, ha1', ha2, second⟩ := h'
  rw [ha1] at ha1'
  cases ha1'
  exact ⟨a, a2, ha, ha2, first.append second⟩

theorem Ready.calls_nil {w' : World α} (h : w.Ready) (hw : w'.allocator = w.allocator) :
    w.Calls [] w' := by
  obtain ⟨a, ha, _⟩ := h
  exact ⟨a, a, ha, hw.trans ha, .nil a⟩

theorem Ready.frontier_le (h : w.Ready) : w.frontier ≤ w.memory.size := by
  obtain ⟨a, ha, bounds⟩ := h
  have := bounds.limit_le
  simp only [frontier, ha, Bump.frontier]
  omega

theorem Ready.size_le (h : w.Ready) : w.memory.size ≤ 2 ^ 32 - 8 := by
  obtain ⟨a, ha, bounds⟩ := h
  exact bounds.size_le

end World

/-- There is a bump allocator over the memory. -/
abbrev Point.Ready (p : Point α) : Prop := p.machine.world.Ready

theorem Machine.Alike.ready {m m' : Machine α} (h : m'.Alike m) (ready : m.world.Ready) :
    m'.world.Ready := h.world ▸ ready

/-- The addresses of `size` bytes. -/
def Region (addr : UInt32) (size : Nat) (i : Nat) : Prop :=
  addr.toNat ≤ i ∧ i < addr.toNat + size

/-- The addresses that were taken on the way from one machine to another. -/
def Fresh (m m' : Machine α) (i : Nat) : Prop := m.world.frontier ≤ i ∧ i < m'.world.frontier

/-! ## Lowering -/

/-- What lowering does: it takes `blocks`, writes into them and into `area`, and lets them last for
the call if no allocator of the guest is named. -/
structure Lowered (realloc : String) (area : Nat → Prop) (blocks : List Allocation)
    (m m' : Machine α) : Prop where
  ready : m'.world.Ready
  frontier : m.world.frontier ≤ m'.world.frontier
  memory : Memory.AgreeOn (fun i => i < m.world.frontier ∧ ¬ area i) m.world.memory m'.world.memory
  calls : ∃ bs : List Allocation, bs.Perm blocks ∧ m.world.Calls (bs.map .alloc) m'.world
  borrowed : m'.borrowed.Perm ((if realloc.isEmpty then blocks else []) ++ m.borrowed)
  scratch : m'.scratch = m.scratch
  log : m'.world.log = m.world.log
  crossing : m'.world.crossing = m.world.crossing

namespace Lowered

variable {realloc : String} {area area' : Nat → Prop} {blocks blocks' : List Allocation}
  {m m' m'' : Machine α}

theorem of_memory (ready : m.world.Ready) {mem : Memory}
    (hm : Memory.AgreeOn (fun i => i < m.world.frontier ∧ ¬ area i) m.world.memory mem) :
    Lowered realloc area [] m { m with world := { m.world with memory := mem } } where
  ready := by
    obtain ⟨a, ha, bounds⟩ := ready
    exact ⟨a, ha, hm.size ▸ bounds⟩
  frontier := Nat.le_refl _
  memory := hm
  calls := ⟨[], .nil, ready.calls_nil rfl⟩
  borrowed := by simp
  scratch := rfl
  log := rfl
  crossing := rfl

theorem refl (ready : m.world.Ready) : Lowered realloc area [] m m :=
  of_memory ready (.refl _ _)

theorem of_table (ready : m.world.Ready) (table : Option HandleTable) :
    Lowered realloc area [] m { m with world := { m.world with table } } :=
  ⟨ready, Nat.le_refl _, .refl _ _, ⟨[], .nil, ready.calls_nil rfl⟩, by simp, rfl, rfl, rfl⟩

theorem of_lent (h : Lowered realloc area blocks m m') (lent : List Handle) :
    Lowered realloc area blocks m { m' with lent } :=
  ⟨h.ready, h.frontier, h.memory, h.calls, h.borrowed, h.scratch, h.log, h.crossing⟩

theorem alike (h : Lowered realloc area blocks m m') (hm : m''.Alike m') :
    Lowered realloc area blocks m m'' := by
  rw [hm.eq]
  exact { h with }

theorem since (h : Lowered realloc area blocks m' m'') (hm : m'.Alike m) :
    Lowered realloc area blocks m m'' := by
  rw [hm.eq] at h
  exact { h with }

section

variable (h : Lowered realloc area blocks m m')
include h

theorem perm (hp : blocks.Perm blocks') : Lowered realloc area blocks' m m' :=
  { h with
    calls := by
      obtain ⟨bs, hbs, calls⟩ := h.calls
      exact ⟨bs, hbs.trans hp, calls⟩
    borrowed := h.borrowed.trans (by
      split
      · exact hp.append_right _
      · exact .refl _) }

theorem agree {S : Nat → Prop} (hS : ∀ i, S i → i < m.world.frontier ∧ ¬ area i) :
    Memory.AgreeOn S m.world.memory m'.world.memory :=
  h.memory.mono hS

theorem widen (ha : ∀ i, area i → i < m.world.frontier → area' i) :
    Lowered realloc area' blocks m m' :=
  { h with memory := h.memory.mono fun i hi => ⟨hi.1, fun hai => hi.2 (ha i hai hi.1)⟩ }

theorem trans (h' : Lowered realloc area' blocks' m' m'')
    (ha : ∀ i, area' i → i < m.world.frontier → area i) :
    Lowered realloc area (blocks ++ blocks') m m'' where
  ready := h'.ready
  frontier := Nat.le_trans h.frontier h'.frontier
  memory := (h.memory.trans h'.memory).mono fun i hi =>
    ⟨hi, Nat.lt_of_lt_of_le hi.1 h.frontier, fun hai => hi.2 (ha i hai hi.1)⟩
  calls := by
    obtain ⟨bs, hbs, calls⟩ := h.calls
    obtain ⟨bs', hbs', calls'⟩ := h'.calls
    refine ⟨bs ++ bs', hbs.append hbs', ?_⟩
    rw [List.map_append]
    exact calls.trans calls'
  borrowed := by
    have first := h.borrowed
    have second := h'.borrowed
    split_ifs at first second ⊢
    · rw [List.append_assoc]
      exact second.trans ((first.append_left _).trans (List.perm_append_comm_assoc _ _ _))
    · exact second.trans first
  scratch := h'.scratch.trans h.scratch
  log := h'.log.trans h.log
  crossing := h'.crossing.trans h.crossing

end

end Lowered

/-! ## Lifting -/

/-- What lifting and freeing do: they give back `blocks`, if these were handed over. -/
structure Lifted (owned : Bool) (blocks : List Allocation) (m m' : Machine α) : Prop where
  memory : m'.world.memory = m.world.memory
  calls : m.world.Calls (if owned then freeCalls blocks else []) m'.world
  borrowed : m'.borrowed = m.borrowed
  scratch : m'.scratch = m.scratch
  lent : m'.lent = m.lent
  log : m'.world.log = m.world.log
  crossing : m'.world.crossing = m.world.crossing

namespace Lifted

variable {owned : Bool} {blocks blocks' : List Allocation} {m m' m'' : Machine α}

theorem of_table (ready : m.world.Ready) (table : Option HandleTable) :
    Lifted owned [] m { m with world := { m.world with table } } where
  memory := rfl
  calls := by
    have : (if owned then freeCalls [] else []) = ([] : List AllocatorCall) := by
      cases owned <;> rfl
    rw [this]
    exact ready.calls_nil rfl
  borrowed := rfl
  scratch := rfl
  lent := rfl
  log := rfl
  crossing := rfl

theorem refl (ready : m.world.Ready) : Lifted owned [] m m := of_table ready m.world.table

theorem unowned (h : Lifted false blocks m m') (blocks' : List Allocation) :
    Lifted false blocks' m m' := { h with }

theorem alike (h : Lifted owned blocks m m') (hm : m''.Alike m') : Lifted owned blocks m m'' := by
  rw [hm.eq]
  exact { h with }

theorem since (h : Lifted owned blocks m' m'') (hm : m'.Alike m) : Lifted owned blocks m m'' := by
  rw [hm.eq] at h
  exact { h with }

theorem trans (h : Lifted owned blocks m m') (h' : Lifted owned blocks' m' m'') :
    Lifted owned (blocks ++ blocks') m m'' where
  memory := h'.memory.trans h.memory
  calls := by
    have := h.calls.trans h'.calls
    cases owned
    · exact this
    · simp only [if_true, freeCalls_append] at this ⊢
      exact this
  borrowed := h'.borrowed.trans h.borrowed
  scratch := h'.scratch.trans h.scratch
  lent := h'.lent.trans h.lent
  log := h'.log.trans h.log
  crossing := h'.crossing.trans h.crossing

theorem ready (h : Lifted owned blocks m m') (hm : m.world.Ready) :
    m'.world.Ready ∧ m'.world.frontier = m.world.frontier := by
  obtain ⟨a, ha, bounds⟩ := hm
  obtain ⟨a1, a', ha1, ha', performs⟩ := h.calls
  rw [ha] at ha1
  cases ha1
  have frees : ∃ bs : List Allocation,
      (if owned then freeCalls blocks else []) = bs.map .free := by
    cases owned
    · exact ⟨[], rfl⟩
    · exact ⟨_, rfl⟩
  obtain ⟨bs, hbs⟩ := frees
  rw [hbs] at performs
  obtain ⟨bounds', frontier⟩ := performs.over_free bounds
  refine ⟨⟨a', ha', h.memory ▸ bounds'⟩, ?_⟩
  simp only [World.frontier, ha, ha', frontier]

end Lifted

/-! ## Actions -/

namespace Exec

variable {m : Machine α}

theorem alloc_does (ready : m.world.Ready) (size : UInt32) {align : UInt32}
    (ha : IsAlignment align) :
    Does (·.IsRefusal) (act (.alloc size align)) m fun ptr m' =>
      ∃ a a', m.world.allocator = some a ∧ Allocator.alloc a size align = (.ok ptr, a')
        ∧ m' = { m with world := { m.world with allocator := some a' } } ∧ m'.world.Ready
        ∧ m.world.frontier ≤ ptr.toNat ∧ ptr.toNat + size.toNat = m'.world.frontier := by
  obtain ⟨a, hw, bounds⟩ := ready
  have unfolded : runFrom (act (.alloc size align)) m
      = ((Allocator.alloc a size align).1,
        { m with
          world := { m.world with allocator := some (Allocator.alloc a size align).2 } }) := by
    rw [runFrom_act]
    simp only [Action.alloc, runFrom_bind, runFrom_get, continueWith_ok, hw]
    cases (Allocator.alloc a size align).1 <;> rfl
  have law := BumpLike.alloc_bump a size align
  rcases bounds.alloc_cases size ha with ⟨ptr, b', hb, bounds', start, stop⟩ | ⟨e, hb, refusal⟩
  · rw [hb] at law
    obtain ⟨hptr, hb'⟩ := Prod.mk.inj law
    have halloc : Allocator.alloc a size align = (.ok ptr, (Allocator.alloc a size align).2) :=
      Prod.ext hptr.symm rfl
    rw [← hptr] at unfolded
    refine Does.of_ok unfolded ⟨a, _, hw, halloc, rfl, ⟨_, rfl, hb' ▸ bounds'⟩, ?_, ?_⟩
    · simpa only [World.frontier, hw] using start
    · simpa only [World.frontier, ← hb'] using stop
  · rw [hb] at law
    rw [← (Prod.mk.inj law).1] at unfolded
    exact Does.of_error unfolded refusal

theorem allocFor_does (ready : m.world.Ready) (realloc : String) (size : UInt32) {align : UInt32}
    (ha : IsAlignment align) :
    Does (·.IsRefusal) (allocFor realloc size align) m fun ptr m' =>
      m'.registers = m.registers ∧ m'.world.table = m.world.table ∧ m'.lent = m.lent
        ∧ m'.world.memory = m.world.memory
        ∧ Lowered realloc (fun _ => False) [⟨ptr, size, align⟩] m m'
        ∧ m.world.frontier ≤ ptr.toNat ∧ ptr.toNat + size.toNat = m'.world.frontier := by
  refine (alloc_does ready size ha).bind ?_
  rintro ptr m' ⟨a, a', hw, halloc, rfl, ready', start, stop⟩
  have calls : m.world.Calls [.alloc ⟨ptr, size, align⟩]
      { m.world with allocator := some a' } := ⟨a, a', hw, rfl, .alloc halloc (.nil a')⟩
  by_cases hr : realloc.isEmpty = true
  · simp only [hr, if_true]
    refine Does.of_ok rfl ⟨rfl, rfl, rfl, rfl, ⟨ready', ?_, .refl _ _, ⟨_, .refl _, calls⟩, ?_, rfl,
      rfl, rfl⟩, start, stop⟩
    · exact Nat.le_trans start (by rw [← stop]; exact Nat.le_add_right _ _)
    · rw [if_pos hr]
      exact .refl _
  · simp only [hr]
    refine Does.of_ok rfl ⟨rfl, rfl, rfl, rfl, ⟨ready', ?_, .refl _ _, ⟨_, .refl _, calls⟩, ?_, rfl,
      rfl, rfl⟩, start, stop⟩
    · exact Nat.le_trans start (by rw [← stop]; exact Nat.le_add_right _ _)
    · rw [if_neg hr]
      exact .refl _

omit [BumpLike α] in
theorem runFrom_write {mem : Memory} (h : m.world.memory.write addr data = .ok mem) :
    runFrom (act (.write addr data)) m
      = (.ok (), { m with world := { m.world with memory := mem } }) := by
  rw [runFrom_act]
  simp only [Action.write, runFrom_bind, runFrom_get, continueWith_ok, h]
  rfl

theorem putBytes_does (ready : m.world.Ready) (realloc : String) (short : data.length < 2 ^ 32) :
    Does (·.IsRefusal) (putBytes realloc data) m fun vals m' =>
      m'.registers = m.registers ∧ m'.world.table = m.world.table ∧ m'.lent = m.lent
        ∧ ∃ ptr count, vals = [.ofU32 ptr, .ofU32 count]
          ∧ Lowered realloc (fun _ => False) [⟨ptr, count, 1⟩] m m'
          ∧ m'.world.memory.Secures (Fresh m m') fun mem => BytesLie mem data ptr count := by
  have length : (UInt32.ofNat data.length).toNat = data.length :=
    UInt32.toNat_ofNat_of_lt' short
  have one : IsAlignment 1 := ⟨0, by omega, rfl⟩
  refine (allocFor_does ready realloc _ one).bind ?_
  rintro ptr m' ⟨hregs, htable, hlent, hmem, lowered, start, stop⟩
  rw [length] at stop
  by_cases empty : data.isEmpty = true
  · obtain rfl : data = [] := by simpa using empty
    have empty : m'.world.memory.At ptr.toNat [] := by
      have := lowered.ready.frontier_le
      exact ⟨by simpa using (by omega : ptr.toNat ≤ m'.world.memory.size), by simp⟩
    refine Does.of_ok rfl ⟨hregs, htable, hlent, ptr, _, rfl, lowered,
      (Memory.Secures.of_at empty fun i hi hi' => ?_).imp fun _ here => ⟨short, rfl, here⟩⟩
    simp only [List.length_nil] at hi'
    omega
  · simp only [empty]
    have inside : ptr.toNat + data.length ≤ m'.world.memory.size := by
      rw [stop]
      exact lowered.ready.frontier_le
    obtain ⟨mem, hwrite, here, agree⟩ := Memory.exists_write inside
    have second : Lowered realloc (Region ptr data.length) [] m'
        { m' with world := { m'.world with memory := mem } } :=
      .of_memory lowered.ready (agree.mono fun i hi => by
        have := hi.2
        simp only [Region, not_and, not_lt] at this
        omega)
    have both := lowered.trans second fun i hi hlt => by
      simp only [Region] at hi
      omega
    refine Does.bind (Q := fun _ n => n = { m' with world := { m'.world with memory := mem } })
      (Does.of_ok (runFrom_write hwrite) rfl) ?_
    rintro _ n rfl
    refine Does.of_ok rfl ⟨hregs, htable, hlent, ptr, _, rfl, both,
      (Memory.Secures.of_at here fun i hi hi' => ?_).imp fun _ here => ⟨short, rfl, here⟩⟩
    exact ⟨by omega, by simp only [World.frontier] at stop ⊢; omega⟩

theorem store_does {E : Failure → Prop} (ready : m.world.Ready) {op : StoreOp} (x : UInt64)
    (inside : addr.toNat + op.width.size.toNat ≤ m.world.frontier) :
    Does E (store op addr x) m fun _ m' =>
      m'.registers = m.registers ∧ m'.world.table = m.world.table ∧ m'.lent = m.lent
        ∧ m'.world.frontier = m.world.frontier
        ∧ (∀ realloc, Lowered realloc (Region addr op.width.size.toNat) [] m m')
        ∧ m'.world.memory.Secures (Region addr op.width.size.toNat) fun mem =>
          mem.At addr.toNat (Memory.toBytes op.width.size.toNat x) := by
  have frontier_le := ready.frontier_le
  have inside' : addr.toNat + (Memory.toBytes op.width.size.toNat x).length
      ≤ m.world.memory.size := by
    rw [Memory.length_toBytes]
    omega
  obtain ⟨mem, hwrite, here, agree⟩ := Memory.exists_write inside'
  have unfolded : runFrom (store op addr x) m
      = (.ok (), { m with world := { m.world with memory := mem } }) := by
    have stored : runFrom (act (.store op.width addr x)) m
        = (.ok (), { m with world := { m.world with memory := mem } }) := by
      rw [runFrom_act]
      simp only [Action.store, runFrom_bind, runFrom_get, continueWith_ok, Memory.store, hwrite]
      rfl
    cases op <;> exact stored
  refine Does.of_ok unfolded ⟨rfl, rfl, rfl, rfl,
    fun _ => .of_memory ready (agree.mono fun i hi => ?_), .of_at here ?_⟩
  · have := hi.2
    simp only [Region, not_and, not_lt] at this
    rw [Memory.length_toBytes]
    omega
  · intro i hi hi'
    rw [Memory.length_toBytes] at hi'
    exact ⟨hi, hi'⟩

omit [BumpLike α] in
theorem runFrom_reload {op : LoadOp} {x : UInt64}
    (h : m.world.memory.At addr.toNat (Memory.toBytes op.width.size.toNat x)) :
    runFrom (load op addr) m = (.ok (.u64 (op.reload x)), m) := by
  have loaded : runFrom (act (.load op.width addr)) m
      = (.ok (Memory.toNumber (Memory.toBytes op.width.size.toNat x)), m) := by
    rw [runFrom_act]
    simp only [Action.load, runFrom_bind, runFrom_get, continueWith_ok, h.load_eq]
    rfl
  rw [load_eq_map, runFrom_map, loaded, continueWith_ok]
  rfl

omit [BumpLike α] in
theorem runFrom_bytesAt {ptr count : UInt32} (h : BytesLie m.world.memory data ptr count) :
    runFrom (bytesAt ptr count) m = (.ok data, m) := by
  obtain ⟨short, rfl, here⟩ := h
  have length : (UInt32.ofNat data.length).toNat = data.length :=
    UInt32.toNat_ofNat_of_lt' short
  rw [bytesAt]
  split
  · next hz =>
    have : data.length = 0 := by rw [← length, hz]; rfl
    rw [List.length_eq_zero_iff.mp this]
    rfl
  · rw [runFrom_act]
    simp only [Action.read, runFrom_bind, runFrom_get, continueWith_ok, here.read_eq length]
    rfl

theorem runFrom_free (ready : m.world.Ready) (ptr size align : UInt32) :
    ∃ m', runFrom (free ptr size align) m = (.ok (), m') ∧ m'.registers = m.registers
      ∧ m'.world.table = m.world.table ∧ Lifted true [⟨ptr, size, align⟩] m m' := by
  obtain ⟨a, ha, bounds⟩ := ready
  rw [free]
  by_cases hz : size = 0
  · rw [if_pos hz]
    refine ⟨m, rfl, rfl, rfl, ⟨rfl, ⟨a, a, ha, ha, ?_⟩, rfl, rfl, rfl, rfl, rfl⟩⟩
    simp only [freeCalls, if_true, hz]
    exact .nil a
  · rw [if_neg hz, runFrom_act]
    refine ⟨_, rfl, rfl, rfl, ⟨rfl, ⟨a, Allocator.free a ptr size align, ha, ?_, ?_⟩, rfl, rfl, rfl,
      rfl, rfl⟩⟩
    · change m.world.allocator.map _ = _
      rw [ha]
      rfl
    · have calls : freeCalls [⟨ptr, size, align⟩] = [.free ⟨ptr, size, align⟩] := by
        simp [freeCalls, hz]
      rw [if_pos rfl, calls]
      exact .free (.nil _)

theorem runFrom_freeOwned (ready : m.world.Ready) (c : Setting α) (ptr size align : UInt32) :
    ∃ m', runFrom (freeOwned c ptr size align) m = (.ok (), m') ∧ m'.registers = m.registers
      ∧ m'.world.table = m.world.table ∧ Lifted c.owned [⟨ptr, size, align⟩] m m' := by
  rw [freeOwned]
  cases c.owned
  · exact ⟨m, rfl, rfl, rfl, rfl, ready.calls_nil rfl, rfl, rfl, rfl, rfl, rfl⟩
  · exact runFrom_free ready ptr size align

/-! ## Changes of the handle table -/

omit [BumpLike α] in
theorem runFrom_onTable {β : Type} (op : TableOp β) {t : HandleTable}
    (ht : m.world.table = some t) :
    runFrom (act (.onTable op)) m
      = ((runFrom op t).1,
        { m with world := { m.world with table := some (runFrom op t).2 } }) := by
  rw [runFrom_act]
  simp only [Action.onTable, runFrom_bind, runFrom_get, continueWith_ok, ht, run_run_eq]
  rcases runFrom op t with ⟨e | b, t'⟩ <;> rfl

omit [BumpLike α] in
theorem runFrom_requireTable_some {t : HandleTable} (ht : m.world.table = some t) :
    runFrom (requireTable : Exec α Unit) m = (.ok (), m) := by
  simp only [requireTable, runFrom_bind, runFrom_get, continueWith_ok, ht]
  rfl

omit [BumpLike α] in
theorem runFrom_requireTable_none (ht : m.world.table = none) :
    ∃ e, runFrom (requireTable : Exec α Unit) m = (.error e, m) := by
  refine ⟨.invalidInput .eval "no handle table", ?_⟩
  simp only [requireTable, runFrom_bind, runFrom_get, continueWith_ok, ht]
  rfl

end Exec

end CanonicalAbi
