import CanonicalAbi.Proofs.Transfers

/-!
# What may change

Which bytes of the memory a computation may change, however it ends: those of an area that it was
given, and those of blocks that it obtains itself.
-/

namespace CanonicalAbi

open List Exec

variable {i : Instr} {args : List Reg} {addr : UInt32} {data : List UInt8}

/-- An allocator that answers as a bump allocator does, and that a refusal leaves as it was. -/
class Firm (α : Type) extends BumpLike α where
  alloc_refused : ∀ {a a' : α} {size align : UInt32} {e : Failure},
    alloc a size align = (.error e, a') → a' = a

instance : Firm Bump where
  alloc_refused {b b' size align e} h := by
    have h : b.alloc size align = (.error e, b') := h
    simp only [Bump.alloc] at h
    generalize (if align = 0 then 1 else align) = align' at h
    split_ifs at h
    · exact (Prod.mk.inj h).2.symm
    · cases (Prod.mk.inj h).1
    · cases (Prod.mk.inj h).1

variable {α β γ : Type} [Firm α]

/-! ## Areas -/

/-- The addresses of `size` bytes from an address on, modulo 2^32. -/
def Around (addr : UInt32) (size : Nat) (i : Nat) : Prop :=
  ∃ k < size, i = (addr.toNat + k) % 2 ^ 32

namespace Around

variable {addr offset : UInt32} {size whole i : Nat}

theorem of_region (h : Region addr size i) (hi : i < 2 ^ 32) : Around addr size i := by
  simp only [Region] at h
  refine ⟨i - addr.toNat, by omega, ?_⟩
  rw [Nat.add_sub_cancel' h.1, Nat.mod_eq_of_lt hi]

theorem region (h : Around addr size i) (fits : addr.toNat + size ≤ 2 ^ 32) :
    Region addr size i := by
  obtain ⟨k, hk, rfl⟩ := h
  exact ⟨by omega, by omega⟩

theorem part (h : Around (addr + offset) size i) (inside : offset.toNat + size ≤ whole) :
    Around addr whole i := by
  obtain ⟨k, hk, rfl⟩ := h
  refine ⟨offset.toNat + k, by omega, ?_⟩
  rw [UInt32.toNat_add, Nat.mod_add_mod, Nat.add_assoc]

theorem not_of_le {offset' : UInt32} {size' : Nat} (h : Around (addr + offset) size i)
    (order : offset.toNat + size ≤ offset'.toNat) (inside : offset'.toNat + size' ≤ 2 ^ 32) :
    ¬ Around (addr + offset') size' i := by
  obtain ⟨k, hk, rfl⟩ := h
  rintro ⟨k', hk', same⟩
  rw [UInt32.toNat_add, UInt32.toNat_add] at same
  omega

theorem mono (h : Around addr size i) (le : size ≤ whole) : Around addr whole i := by
  obtain ⟨k, hk, rfl⟩ := h
  exact ⟨k, by omega, rfl⟩

end Around

/-- The address lies in a block that was handed out. -/
def Granted (calls : List AllocatorCall) (i : Nat) : Prop :=
  ∃ b, .alloc b ∈ calls ∧ Region b.ptr b.size.toNat i

/-! ## Changes of the world -/

namespace World

/-- On the way from one world to another the allocator was called so, and the memory changed only in
`area` and in blocks that were handed out. -/
structure Changes (area : Nat → Prop) (calls : List AllocatorCall) (w w' : World α) : Prop where
  ready : w'.Ready
  frontier : w.frontier ≤ w'.frontier
  called : w.Calls calls w'
  fresh : ∀ b, AllocatorCall.alloc b ∈ calls → w.frontier ≤ b.ptr.toNat
  memory : Memory.AgreeOn (fun i => ¬ area i ∧ ¬ Granted calls i) w.memory w'.memory

namespace Changes

variable {area area' : Nat → Prop} {calls calls' : List AllocatorCall} {w w' w'' : World α}

theorem of_memory (ready : w.Ready) {memory : Memory}
    (agree : Memory.AgreeOn (fun i => ¬ area i) w.memory memory) :
    w.Changes area [] { w with memory } where
  ready := by
    obtain ⟨a, ha, bounds⟩ := ready
    exact ⟨a, ha, agree.size ▸ bounds⟩
  frontier := Nat.le_refl _
  called := ready.calls_nil rfl
  fresh _ hb := absurd hb not_mem_nil
  memory := agree.mono fun _ hi => hi.1

theorem of_eq (ready : w.Ready) (memory : w'.memory = w.memory)
    (allocator : w'.allocator = w.allocator) : w.Changes area [] w' where
  ready := by
    obtain ⟨a, ha, bounds⟩ := ready
    exact ⟨a, allocator.trans ha, memory ▸ bounds⟩
  frontier := by
    rw [World.frontier, World.frontier, allocator]
  called := ready.calls_nil allocator
  fresh _ hb := absurd hb not_mem_nil
  memory := memory ▸ .refl _ _

theorem refl (ready : w.Ready) : w.Changes area [] w := of_eq ready rfl rfl

theorem of_free (ready : w.Ready) {blocks : AllocationList} (memory : w'.memory = w.memory)
    (allocator : w'.allocator = w.allocator.map blocks.free) :
    w.Changes area (freeCalls blocks) w' := by
  obtain ⟨a, ha, bounds⟩ := ready
  have freed := performs_free blocks a
  obtain ⟨bounds', frontier⟩ := freed.over_free bounds
  rw [ha] at allocator
  refine ⟨⟨_, allocator, memory ▸ bounds'⟩, ?_, ⟨a, _, ha, allocator, freed⟩, fun b hb => ?_,
    memory ▸ .refl _ _⟩
  · rw [World.frontier, World.frontier, ha, allocator]
    exact Nat.le_of_eq frontier.symm
  · obtain ⟨_, _, other⟩ := mem_map.mp hb
    cases other

theorem widen (h : w.Changes area calls w') (ha : ∀ i, area i → area' i ∨ Granted calls i) :
    w.Changes area' calls w' :=
  { h with memory := h.memory.mono fun i hi => ⟨fun hai => (ha i hai).elim hi.1 hi.2, hi.2⟩ }

theorem trans (h : w.Changes area calls w') (h' : w'.Changes area' calls' w'')
    (ha : ∀ i, area' i → area i ∨ Granted calls i) : w.Changes area (calls ++ calls') w'' where
  ready := h'.ready
  frontier := Nat.le_trans h.frontier h'.frontier
  called := h.called.trans h'.called
  fresh b hb := by
    rcases mem_append.mp hb with hb | hb
    · exact h.fresh b hb
    · exact Nat.le_trans h.frontier (h'.fresh b hb)
  memory := by
    have first : ∀ i, ¬ Granted (calls ++ calls') i → ¬ Granted calls i := by
      rintro i hi ⟨b, hb, inside⟩
      exact hi ⟨b, mem_append_left _ hb, inside⟩
    have second : ∀ i, ¬ Granted (calls ++ calls') i → ¬ Granted calls' i := by
      rintro i hi ⟨b, hb, inside⟩
      exact hi ⟨b, mem_append_right _ hb, inside⟩
    refine (h.memory.trans h'.memory).mono fun i hi => ⟨⟨hi.1, first i hi.2⟩, ?_, second i hi.2⟩
    exact fun hai => (ha i hai).elim hi.1 (first i hi.2)

theorem agree (h : w.Changes area calls w') {S : Nat → Prop}
    (hS : ∀ i, S i → i < w.frontier ∧ ¬ area i) : Memory.AgreeOn S w.memory w'.memory := by
  refine h.memory.mono fun i hi => ⟨(hS i hi).2, ?_⟩
  rintro ⟨b, hb, inside⟩
  have := h.fresh b hb
  have := (hS i hi).1
  simp only [Region] at inside
  omega

end Changes

end World

/-! ## Accesses -/

namespace Exec

omit [Firm α]

theorem store_eq_write (op : StoreOp) (addr : UInt32) (x : UInt64) :
    (store op addr x : Exec α Unit)
      = act (.write addr (Memory.toBytes op.width.size.toNat x)) := by
  cases op <;> rfl

theorem runFrom_write_refused {m : Machine α} (h : m.world.memory.size < addr.toNat + data.length) :
    runFrom (act (.write addr data)) m
      = (.error (.outOfBounds .eval [] addr (.ofNat data.length)), m) := by
  have refused : m.world.memory.write addr data
      = .error (.outOfBounds .eval [] addr (.ofNat data.length)) := by
    rw [Memory.write, if_neg]
    simpa [Memory.covers] using h
  rw [runFrom_act]
  simp only [Action.write, runFrom_bind, runFrom_get, continueWith_ok, refused]
  rfl

theorem runFrom_load_refused {width : IntWidth} {m : Machine α}
    (h : m.world.memory.size < addr.toNat + width.size.toNat) :
    runFrom (act (.load width addr)) m
      = (.error (.outOfBounds .eval [] addr width.size), m) := by
  have refused : m.world.memory.load width addr
      = .error (.outOfBounds .eval [] addr width.size) := by
    rw [Memory.load, Memory.read, if_neg]
    · rfl
    · simpa [Memory.covers] using h
  rw [runFrom_act]
  simp only [Action.load, runFrom_bind, runFrom_get, continueWith_ok, refused]
  rfl

end Exec

/-! ## Computations -/

/-- However a computation ends, it changes the memory only in `area` and in blocks that it obtains;
and if it succeeds, it ends as `Q` says. -/
def Confined (area : Nat → Prop) (x : Exec α β) (m : Machine α) (Q : β → Machine α → Prop) : Prop :=
  (∃ calls, m.world.Changes area calls (runFrom x m).2.world)
    ∧ ∀ b m', runFrom x m = (.ok b, m') → Q b m'

omit [Firm α] in
theorem Action.onTable_keeps (op : TableOp β) (w : World α) :
    (runFrom (onTable op) w).2.memory = w.memory
      ∧ (runFrom (onTable op) w).2.allocator = w.allocator := by
  rw [onTable, runFrom_bind_ok (runFrom_get w)]
  cases w.table with
  | none => exact ⟨rfl, rfl⟩
  | some t =>
    simp only [run_run_eq]
    rcases runFrom op t with ⟨e | b, t'⟩ <;> exact ⟨rfl, rfl⟩

namespace Confined

variable {area area' : Nat → Prop} {x : Exec α β} {m m' : Machine α} {Q Q' : β → Machine α → Prop}

theorem of_ok {b : β} {calls : List AllocatorCall} (h : runFrom x m = (.ok b, m'))
    (changes : m.world.Changes area calls m'.world) (hQ : Q b m') : Confined area x m Q := by
  rw [Confined, h]
  refine ⟨⟨calls, changes⟩, fun b' m'' same => ?_⟩
  cases same
  exact hQ

theorem of_error {e : Failure} {calls : List AllocatorCall} (h : runFrom x m = (.error e, m'))
    (changes : m.world.Changes area calls m'.world) : Confined area x m Q := by
  rw [Confined, h]
  exact ⟨⟨calls, changes⟩, fun b' m'' same => by cases same⟩

theorem pure {b : β} (ready : m.world.Ready) (hQ : Q b m) : Confined area (Pure.pure b) m Q :=
  of_ok rfl (.refl ready) hQ

theorem throw (ready : m.world.Ready) (e : Failure) : Confined area (throw e) m Q :=
  of_error rfl (.refl ready)

theorem ofExcept (ready : m.world.Ready) {r : Except Failure β} (h : ∀ b, r = .ok b → Q b m) :
    Confined area (Exec.ofExcept r) m Q := by
  cases r with
  | error e => exact .throw ready e
  | ok b => exact .pure ready (h b rfl)

theorem congr {y : Exec α β} (same : runFrom x m = runFrom y m) (h : Confined area y m Q) :
    Confined area x m Q := by
  rw [Confined, same]
  exact h

theorem imp (h : Confined area x m Q) (hQ : ∀ b m', Q b m' → Q' b m') : Confined area x m Q' :=
  ⟨h.1, fun b m' ran => hQ b m' (h.2 b m' ran)⟩

theorem widen (h : Confined area x m Q) (ha : ∀ i, area i → area' i) : Confined area' x m Q := by
  obtain ⟨⟨calls, changes⟩, hQ⟩ := h
  exact ⟨⟨calls, changes.widen fun i hi => .inl (ha i hi)⟩, hQ⟩

theorem bind_granted {f : β → Exec α γ} {R : γ → Machine α → Prop}
    (hok : ∀ b m', runFrom x m = (.ok b, m') → ∃ calls, m.world.Changes area calls m'.world
      ∧ Confined (fun i => area i ∨ Granted calls i) (f b) m' R)
    (herror : ∀ e m', runFrom x m = (.error e, m') →
      ∃ calls, m.world.Changes area calls m'.world) : Confined area (x >>= f) m R := by
  rcases ran : runFrom x m with ⟨e | b, m1⟩
  · obtain ⟨calls, changes⟩ := herror e m1 ran
    exact .of_error (runFrom_bind_error ran) changes
  · obtain ⟨calls, changes, ⟨calls', changes'⟩, hR⟩ := hok b m1 ran
    rw [Confined, runFrom_bind_ok ran]
    exact ⟨⟨_, changes.trans changes' fun _ hi => hi⟩, hR⟩

theorem bind {f : β → Exec α γ} {R : γ → Machine α → Prop} (h : Confined area x m Q)
    (hf : ∀ b m', m'.world.Ready → Q b m' → Confined area (f b) m' R) :
    Confined area (x >>= f) m R := by
  obtain ⟨⟨calls, changes⟩, hQ⟩ := h
  refine .bind_granted (fun b m' ran => ⟨calls, ?_, ?_⟩) fun e m' ran => ⟨calls, ?_⟩
  · rwa [ran] at changes
  · rw [ran] at changes
    exact (hf b m' changes.ready (hQ b m' ran)).widen fun _ => .inl
  · rwa [ran] at changes

/-- What every item of a loop keeps holds in its end. -/
theorem forM {items : List γ} {f : γ → Exec α Unit} {I : Machine α → Prop}
    (h : ∀ x ∈ items, ∀ m', m'.world.Ready → I m' → Confined area (f x) m' fun _ => I)
    (ready : m.world.Ready) (start : I m) :
    Confined area (items.forM f) m fun (_ : PUnit) => I := by
  induction items generalizing m with
  | nil => exact .pure ready start
  | cons x items ih =>
    refine (h x mem_cons_self m ready start).bind fun _ m1 ready1 here => ?_
    exact ih (tail_parts h) ready1 here

section

variable (ready : m.world.Ready)
include ready

theorem of_does {x : Exec α β}
    (h : Does (fun _ => False) x m fun b m' => m'.world = m.world ∧ Q b m') :
    Confined area x m Q := by
  rw [Does] at h
  rcases ran : runFrom x m with ⟨e | b, m1⟩
  · rw [ran] at h
    exact h.elim
  · rw [ran] at h
    exact .of_ok ran (.of_eq ready (by rw [h.1]) (by rw [h.1])) h.2

theorem act {a : Action α β}
    (h : ∀ w, (runFrom a w).2.memory = w.memory ∧ (runFrom a w).2.allocator = w.allocator) :
    Confined area (act a) m fun _ m' => m'.registers = m.registers := by
  have ran := runFrom_act a m
  refine ⟨⟨[], ?_⟩, fun b m' ok => ?_⟩
  · rw [ran]
    exact .of_eq ready (h m.world).1 (h m.world).2
  · rw [ran] at ok
    obtain rfl := (Prod.mk.inj ok).2
    rfl

theorem alloc {f : UInt32 → Exec α β} (size : UInt32) {align : UInt32} (ha : IsAlignment align)
    (hf : ∀ ptr a, ({ m.world with allocator := some a } : World α).Ready →
      m.world.frontier ≤ ptr.toNat →
      ptr.toNat + size.toNat = ({ m.world with allocator := some a } : World α).frontier →
      Confined (fun i => area i ∨ Region ptr size.toNat i) (f ptr)
        { m with world := { m.world with allocator := some a } } Q) :
    Confined area (do let ptr ← Exec.act (.alloc size align); f ptr) m Q := by
  obtain ⟨a, hw, bounds⟩ := ready
  have unmoved : m.world.frontier = (BumpLike.bump a).frontier := by
    rw [World.frontier, hw]
  have asked : runFrom (Exec.act (.alloc size align)) m = ((Allocator.alloc a size align).1,
      { m with world := { m.world with allocator := some (Allocator.alloc a size align).2 } }) := by
    rw [Exec.runFrom_act]
    simp only [Action.alloc, runFrom_bind, runFrom_get, continueWith_ok, hw]
    cases (Allocator.alloc a size align).1 <;> rfl
  have follows := BumpLike.alloc_bump a size align
  refine .bind_granted ?_ ?_
  · intro ptr m' ran
    rw [asked] at ran
    obtain ⟨answer, rfl⟩ := Prod.mk.inj ran
    rw [answer] at follows
    rcases bounds.alloc_cases size ha with ⟨ptr', b', granted, bounds', start, stop⟩ |
      ⟨_, refused, _⟩
    · rw [granted] at follows
      obtain ⟨same, rfl⟩ := Prod.mk.inj follows
      cases same
      have ready' : ({ m.world with allocator := some (Allocator.alloc a size align).2 } :
        World α).Ready := ⟨_, rfl, bounds'⟩
      refine ⟨[.alloc ⟨ptr, size, align⟩], ⟨ready', ?_, ?_, fun b hb => ?_, .refl _ _⟩, ?_⟩
      · rw [unmoved]
        exact Nat.le_trans start (Nat.le_trans (Nat.le_add_right _ _) (Nat.le_of_eq stop))
      · exact ⟨a, _, hw, rfl, .alloc (Prod.ext answer rfl) (.nil _)⟩
      · obtain rfl := AllocatorCall.alloc.inj (mem_singleton.mp hb)
        exact unmoved ▸ start
      · refine (hf ptr _ ready' (unmoved ▸ start) stop).widen fun i => Or.imp_right fun inside => ?_
        exact ⟨_, mem_singleton_self _, inside⟩
    · rw [refused] at follows
      cases (Prod.mk.inj follows).1
  · intro e m' ran
    rw [asked] at ran
    obtain ⟨answer, rfl⟩ := Prod.mk.inj ran
    have kept : (Allocator.alloc a size align).2 = a := Firm.alloc_refused (Prod.ext answer rfl)
    exact ⟨[], .of_eq ⟨a, hw, bounds⟩ rfl ((congrArg some kept).trans hw.symm)⟩

theorem write (ha : ∀ i, Region addr data.length i → i < m.world.memory.size → area i) :
    Confined area (Exec.act (.write addr data)) m fun _ m' => m'.registers = m.registers := by
  by_cases covered : addr.toNat + data.length ≤ m.world.memory.size
  · obtain ⟨mem, written, _, agree⟩ := Memory.exists_write covered
    refine .of_ok (Exec.runFrom_write written) (.of_memory ready (agree.mono fun i hi => ?_)) rfl
    by_contra inside
    simp only [Region] at ha
    exact hi (ha i (by omega) (by omega))
  · exact .of_error (Exec.runFrom_write_refused (Nat.not_le.mp covered)) (.refl ready)

theorem store (op : StoreOp) (addr : UInt32) (x : UInt64) :
    Confined (Around addr op.width.size.toNat) (Exec.store op addr x) m
      fun _ m' => m'.registers = m.registers := by
  rw [Exec.store_eq_write]
  refine .write ready fun i hi inside => ?_
  rw [Memory.length_toBytes] at hi
  have := ready.size_le
  exact .of_region hi (by omega)

theorem allocFor {f : UInt32 → Exec α β} (realloc : String) (size : UInt32) {align : UInt32}
    (ha : IsAlignment align)
    (hf : ∀ ptr m', m'.registers = m.registers → m'.world.memory = m.world.memory →
      m'.world.Ready → m.world.frontier ≤ ptr.toNat →
      ptr.toNat + size.toNat = m'.world.frontier →
      Confined (fun i => area i ∨ Region ptr size.toNat i) (f ptr) m' Q) :
    Confined area (do let ptr ← Exec.allocFor realloc size align; f ptr) m Q := by
  simp only [Exec.allocFor, bind_assoc]
  refine .alloc ready size ha fun ptr a ready' start stop => ?_
  by_cases temporary : realloc.isEmpty = true
  · simp only [if_pos temporary]
    exact hf ptr { m with
      world := { m.world with allocator := some a }
      borrowed := ⟨ptr, size, align⟩ :: m.borrowed } rfl rfl ready' start stop
  · simp only [if_neg temporary, pure_bind]
    exact hf ptr _ rfl rfl ready' start stop

theorem putBytes (realloc : String) (short : data.length < 2 ^ 32) :
    Confined area (Exec.putBytes realloc data) m fun _ m' => m'.registers = m.registers := by
  have length : (UInt32.ofNat data.length).toNat = data.length :=
    UInt32.toNat_ofNat_of_lt' short
  refine .allocFor ready realloc _ ⟨0, by omega, rfl⟩ fun ptr m' hregs _ ready' _ _ => ?_
  by_cases empty : data.isEmpty = true
  · simp only [if_pos empty]
    exact .pure ready' hregs
  · simp only [if_neg empty]
    rw [length]
    refine (Confined.write ready' fun i hi _ => .inr hi).bind fun _ m'' ready'' hregs' => ?_
    exact .pure ready'' (hregs'.trans hregs)

theorem requireTable : Confined area requireTable m fun _ m' => m' = m := by
  cases ht : m.world.table with
  | none =>
    obtain ⟨e, refused⟩ := runFrom_requireTable_none ht
    exact .of_error refused (.refl ready)
  | some t => exact .of_ok (runFrom_requireTable_some ht) (.refl ready) rfl

theorem onTable (op : TableOp β) :
    Confined area (Exec.act (.onTable op)) m fun _ m' => m'.registers = m.registers :=
  .act ready (Action.onTable_keeps op)

theorem lowerHandle (form : HandleForm) (l : Label) (type : Option Label) (v : Value) :
    Confined area (Exec.lowerHandle form l type v) m fun _ m' => m'.registers = m.registers := by
  refine (Confined.requireTable ready).bind fun _ m' ready' same => ?_
  subst same
  split
  · exact (Confined.onTable ready' _).bind fun _ m'' ready'' hregs => .pure ready'' hregs
  · exact (Confined.onTable ready' _).bind fun h m'' ready'' hregs =>
      .of_ok rfl (.of_eq ready'' rfl rfl) hregs
  · exact .throw ready' _

end

end Confined

/-! ## Code -/

namespace Code

omit [Firm α] in
theorem steps_bind [Allocator α] (c : Setting α) (scope : Scope) (code : Code β) (f : β → Code γ)
    (k : Reg) : steps c scope ((code >>= f).run k).steps = (do
      steps c scope (code.run k).steps
      steps c scope ((f (code.run k).value).run (code.run k).next).steps) :=
  steps_append _ _

/-- However code that runs from a point ends, it changes the memory only in `area` and in blocks
that it obtains. If it succeeds, the registers that were in use were left alone and it ends as `Q`
says. There have to be enough registers. -/
def Confined (area : Nat → Prop) (c : Setting α) (scope : Scope) (code : Code β) (p : Point α)
    (Q : β → Point α → Prop) : Prop :=
  (code.run p.next).next ≤ p.machine.registers.size →
    CanonicalAbi.Confined area (steps c scope (code.run p.next).steps) p.machine fun _ m =>
      Kept p.next p.machine m ∧ Q (code.run p.next).value ⟨(code.run p.next).next, m⟩

namespace Confined

variable {area area' : Nat → Prop} {c : Setting α} {scope : Scope} {p : Point α}
  {code : Code β} {Q Q' : β → Point α → Prop}

theorem pure {b : β} (ready : p.Ready) (h : Q b p) :
    (pure b : Code β).Confined area c scope p Q :=
  fun _ => .of_ok (steps_nil _) (.refl ready) ⟨.of_eq rfl, h⟩

theorem imp (h : code.Confined area c scope p Q) (hQ : ∀ b q, p.Extends q → Q b q → Q' b q) :
    code.Confined area c scope p Q' := fun hsize =>
  (h hsize).imp fun _ _ ⟨kept, hq⟩ => ⟨kept, hQ _ _ ⟨code.grows _, kept⟩ hq⟩

theorem bind {f : β → Code γ} {R : γ → Point α → Prop} (h : code.Confined area c scope p Q)
    (hf : ∀ b q, p.Extends q → q.Ready → Q b q → (f b).Confined area c scope q R) :
    (code >>= f).Confined area c scope p R := by
  intro hsize
  have first := h (Nat.le_trans ((f _).grows _) hsize)
  rw [steps_bind]
  refine first.bind ?_
  rintro _ m ready ⟨kept, hq⟩
  have second := hf _ ⟨_, m⟩ ⟨code.grows _, kept⟩ ready hq (kept.size ▸ hsize)
  exact second.imp fun _ m' ⟨kept', hr⟩ => ⟨kept.trans kept' (code.grows _), hr⟩

theorem forM {items : List γ} {f : γ → Code Unit} (ready : p.Ready)
    (h : ∀ x ∈ items, ∀ q, p.Extends q → q.Ready → (f x).Confined area c scope q fun _ _ => True) :
    (items.forM f).Confined area c scope p fun (_ : PUnit) _ => True := by
  induction items generalizing p with
  | nil => exact .pure ready trivial
  | cons x items ih =>
    refine .bind (h x mem_cons_self p (.ahead (Nat.le_refl _)) ready) fun _ q later ready' _ => ?_
    exact ih ready' fun y hy q' hq' => h y (mem_cons_of_mem _ hy) q' (later.trans hq')

theorem of_runs (ready : p.Ready)
    (h : code.Runs (fun _ => False) c scope p fun b q => q.machine.Alike p.machine ∧ Q b q) :
    code.Confined area c scope p Q := fun hsize =>
  .of_does ready ((h hsize).imp fun _ _ ⟨kept, alike, hq⟩ => ⟨alike.world, kept, hq⟩)

theorem and_runs {E : Failure → Prop} (h : code.Confined area c scope p Q)
    (h' : code.Runs E c scope p Q') :
    code.Confined area c scope p fun b q => Q b q ∧ Q' b q := by
  intro hsize
  obtain ⟨changes, hQ⟩ := h hsize
  refine ⟨changes, fun b m ran => ?_⟩
  obtain ⟨kept, hq⟩ := hQ b m ran
  exact ⟨kept, hq, ((h' hsize).elim_ok ran).2⟩

theorem ownBlocks {blocks : Code (List Block)} {Q : List Reg → Point α → Prop}
    (silent : ∀ k, (blocks.run k).steps = [])
    (h : (blocks.run p.next).next ≤ p.machine.registers.size →
      CanonicalAbi.Confined area (instr c scope (blocks.run p.next).value.length
        (fun n s => nth c s n (blocks.run p.next).value) i (args.map p.machine.reg)) p.machine
        fun results m => Kept p.next p.machine m ∧ ∀ rs q, rs.length = i.results → p.Extends q →
          q.machine.Alike m → (results.length = i.results → q.HoldsAll rs results) → Q rs q) :
    (blocks >>= own i args).Confined area c scope p Q := by
  intro hsize
  have hsize' : (blocks.run p.next).next + i.results ≤ p.machine.registers.size := hsize
  have grows := blocks.grows p.next
  rw [Runs.steps_ownBlocks silent]
  refine .congr (steps_singleton _ _) ?_
  rw [step]
  refine .congr (runFrom_bind_ok (runFrom_getRegs args p.machine)) ?_
  refine (h (Nat.le_trans (Nat.le_add_right _ _) hsize')).bind ?_
  rintro results m ready ⟨kept, hq⟩
  let registers := setRange m.registers (blocks.run p.next).next (results.take i.results)
  have kept' : Kept p.next p.machine { m with registers } :=
    kept.trans (kept_of_setRange _ _ rfl) grows
  refine .of_ok (runFrom_setRegs_take _ _ results m) (.of_eq ready rfl rfl) ⟨kept', ?_⟩
  refine hq _ ⟨_, _⟩ length_range' ⟨Nat.le_trans grows (Nat.le_add_right _ _), kept'⟩
    ⟨rfl, rfl, rfl, rfl, rfl⟩ fun hlen => ?_
  change Point.HoldsAll ⟨_ + i.results, { m with registers }⟩ (range' _ i.results) results
  simp only [registers, ← hlen, take_length]
  exact holdsAll_setRange m (by rw [kept.size, hlen]; exact hsize')

theorem emit {Q : List Reg → Point α → Prop}
    (h : CanonicalAbi.Confined area (instr c scope 0 (fun n s => nth c s n []) i
        (args.map p.machine.reg)) p.machine
      fun results m => m.registers = p.machine.registers ∧ ∀ rs q, rs.length = i.results →
        p.Extends q → q.machine.Alike m → (results.length = i.results → q.HoldsAll rs results) →
          Q rs q) :
    (emit i args).Confined area c scope p Q := by
  have silent : ∀ k, ((Pure.pure [] : Code (List Block)).run k).steps = [] := fun _ => rfl
  have owned := ownBlocks (i := i) (Q := Q) silent fun _ =>
    h.imp fun _ _ ⟨kept, rest⟩ => ⟨.of_eq kept, rest⟩
  rwa [pure_bind] at owned

section

variable
  (h : CanonicalAbi.Confined area (instr c scope 0 (fun n s => nth c s n []) i
    (args.map p.machine.reg)) p.machine fun _ m => m.registers = p.machine.registers)
include h

theorem emit_any : (Code.emit i args).Confined area c scope p fun rs _ => rs.length = i.results :=
  .emit (h.imp fun _ _ hregs => ⟨hregs, fun _ _ length _ _ _ => length⟩)

theorem emitOne : (emitOne i args).Confined area c scope p fun _ _ => True :=
  .bind (.emit_any h) fun _ _ _ ready _ => .pure ready trivial

theorem emitNone : (emitNone i args).Confined area c scope p fun _ _ => True :=
  .bind (.emit_any h) fun _ _ _ ready _ => .pure ready trivial

end

/-- Runs one of several blocks, on a machine that keeps the registers below `k`. -/
theorem nth {bodies : List (Code (List Reg))} {n : Nat} {body : Code (List Reg)}
    (hbody : bodies[n]? = some body) {k : Reg} {m : Machine α}
    (h : ∀ k', k ≤ k' → body.Confined area c scope ⟨k', m⟩ fun _ _ => True)
    (hsize : ((Code.blocks bodies).run k).next ≤ m.registers.size) :
    CanonicalAbi.Confined area (Exec.nth c scope n ((Code.blocks bodies).run k).value) m
      fun _ m' => Kept k m m' := by
  obtain ⟨k', hk, hnext, hget⟩ := getElem?_blocks hbody k
  rw [Exec.nth_eq hget, Exec.block]
  refine ((h k' hk) (Nat.le_trans hnext hsize)).bind ?_
  rintro _ m' ready ⟨kept, _⟩
  exact .of_ok (Exec.runFrom_getRegs _ _) (.refl ready) (kept.mono hk)

theorem runCase {bodies : List (Code (List Reg))} {index : UInt32} {k : Reg} {m : Machine α}
    (ready : m.world.Ready)
    (h : ∀ body, bodies[index.toNat]? = some body → ∀ k', k ≤ k' →
      body.Confined area c scope ⟨k', m⟩ fun _ _ => True)
    (hsize : ((Code.blocks bodies).run k).next ≤ m.registers.size) :
    CanonicalAbi.Confined area (Exec.runCase ((Code.blocks bodies).run k).value.length
        (fun n s => Exec.nth c s n ((Code.blocks bodies).run k).value) index scope) m
      fun _ m' => Kept k m m' := by
  rw [Exec.runCase, length_blocks]
  split
  · next inside =>
    have hbody := getElem?_eq_getElem (toNat_lt_of_lt_ofNat inside)
    exact nth hbody (h _ hbody) hsize
  · exact .throw ready _

end Confined

end Code

/-! ## Loops -/

/-- A turn of a loop, with the place of what it stores: some bytes from an address on. -/
abbrev Turn (β : Type) := β × UInt32 × Nat

/-- No two of the places share a byte. -/
def Turn.Apart (turns : List (Turn β)) : Prop :=
  turns.Pairwise fun x y => ∀ i, Around x.2.1 x.2.2 i → ¬ Around y.2.1 y.2.2 i

/-- The turns of a loop have places apart. Once the turns before it are `done`, a turn changes no
memory in use but its own place, however it ends. -/
structure StoresApart (m : Machine α) (done : List (Turn β) → Exec α Unit)
    (turns : List (Turn β)) : Prop where
  apart : Turn.Apart turns
  own : ∀ before turn after m', turns = before ++ turn :: after →
    runFrom (done before) m = (.ok (), m') →
    Memory.AgreeOn (fun i => i < m'.world.frontier ∧ ¬ Around turn.2.1 turn.2.2 i) m'.world.memory
      (runFrom (done (before ++ [turn])) m).2.world.memory

namespace StoresApart

variable {m : Machine α}

theorem of_confined {done : List (Turn β) → Exec α Unit} {turns : List (Turn β)}
    (apart : Turn.Apart turns)
    (h : ∀ before turn after, turns = before ++ turn :: after →
      ∃ next : Exec α Unit, done (before ++ [turn]) = (do done before; next)
        ∧ Confined (fun _ => True) (done before) m fun _ m' => m'.world.Ready →
          Confined (Around turn.2.1 turn.2.2) next m' fun _ _ => True) :
    StoresApart m done turns := by
  refine ⟨apart, fun before turn after m' split ran => ?_⟩
  obtain ⟨next, same, ⟨_, changes⟩, ended⟩ := h before turn after split
  rw [ran] at changes
  obtain ⟨⟨_, changes'⟩, _⟩ := ended () m' ran changes.ready
  rw [same, runFrom_bind_ok ran]
  exact changes'.agree fun i hi => hi

theorem of_forM {turns : List (Turn (Exec α Unit))} {I : Machine α → Prop}
    (apart : Turn.Apart turns)
    (own : ∀ turn ∈ turns, ∀ m', m'.world.Ready → I m' →
      Confined (Around turn.2.1 turn.2.2) turn.1 m' fun _ => I)
    (ready : m.world.Ready) (start : I m) :
    StoresApart m (fun turns => turns.forM Prod.fst) turns := by
  refine .of_confined apart fun before turn after split => ⟨turn.1, by simp, ?_⟩
  subst split
  refine (Confined.forM (fun t ht m' ready' here => ?_) ready start).imp fun _ m' here ready' => ?_
  · exact (own t (by simp [ht]) m' ready' here).widen fun _ _ => trivial
  · exact (own turn (by simp) m' ready' here).imp fun _ _ _ => trivial

theorem of_code {turns : List (Turn (Code Unit))} {c : Setting α} {scope : Scope} {p : Point α}
    (apart : Turn.Apart turns)
    (own : ∀ turn ∈ turns, ∀ q, p.Extends q → q.Ready →
      turn.1.Confined (Around turn.2.1 turn.2.2) c scope q fun _ _ => True)
    (ready : p.Ready)
    (enough : ((turns.forM Prod.fst).run p.next).next ≤ p.machine.registers.size) :
    StoresApart p.machine
      (fun turns => steps c scope ((turns.forM Prod.fst).run p.next).steps) turns := by
  refine .of_confined apart fun before turn after split =>
    ⟨steps c scope (turn.1.run ((before.forM Prod.fst).run p.next).next).steps, ?_, ?_⟩
  · simp [steps_append]
  · subst split
    rw [List.forM_eq_forM, List.forM_append, List.forM_cons] at enough
    have first : (before.forM Prod.fst).Confined (fun _ => True) c scope p
        fun (_ : PUnit) _ => True :=
      .forM ready fun t ht q hq ready' size =>
        (own t (by simp [ht]) q hq ready' size).widen fun _ _ => trivial
    have grown := Code.grows (turn.1 >>= fun _ => after.forM Prod.fst)
      ((before.forM Prod.fst).run p.next).next
    refine (first (Nat.le_trans grown enough)).imp fun _ m' ⟨kept, _⟩ ready' => ?_
    refine (own turn (by simp) ⟨_, m'⟩ ⟨Code.grows _ _, kept⟩ ready' ?_).imp fun _ _ _ => trivial
    exact Nat.le_trans (Code.grows _ _) (kept.size ▸ enough)

end StoresApart

end CanonicalAbi
