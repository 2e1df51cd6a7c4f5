import CanonicalAbi.Proofs.Carriage
import CanonicalAbi.Proofs.Loading

/-!
# Freeing

Freeing a value that lies in memory gives back its blocks, each once. Parts that own nothing are
passed over.
-/

namespace CanonicalAbi

open Code

variable {α : Type} [BumpLike α] {ra : Reg} {elem : Option Shape}

section Parts

variable {raw : RawRule} {E : Failure → Prop} {c : Setting α} {scope : Scope}
  {p : Point α} {m : Machine α} {s : Shape} {parcel : Parcel} {blocks : List Allocation}

def FreeRuns (raw : RawRule) (E : Failure → Prop) (c : Setting α) (s : Shape) : Prop :=
  s.Passable → ∀ ⦃scope : Scope⦄ ⦃p : Point α⦄ ⦃ra : Reg⦄ ⦃parcel : Parcel⦄
    ⦃a offset : UInt32⦄ ⦃blocks : List Allocation⦄,
    s.Laid raw p.machine.world.memory parcel (a + offset) blocks → p.Holds ra (.ofU32 a) →
    p.Ready →
    (free s ra offset).Runs E c scope p fun _ q => Lifted true blocks p.machine q.machine

theorem freePart_runs {part : Option Shape} (hs : ∀ s, part = some s → FreeRuns raw E c s)
    (hp : ∀ s, part = some s → s.Passable) (a offset : UInt32)
    (h : Laid? raw p.machine.world.memory part parcel (a + offset) blocks)
    (ha : p.Holds ra (.ofU32 a)) (ready : p.Ready) :
    (if ownsMemory? part then free? part ra offset else pure ()).Runs E c scope p
      fun _ q => Lifted true blocks p.machine q.machine := by
  split
  · cases part with
    | none => exact h.elim
    | some s => exact hs s rfl (hp s rfl) h ha ready
  · next owns =>
    rw [Laid?.blocks_eq_nil (by simpa using owns) h]
    exact Runs.pure (.refl ready)

theorem freeFields_runs {fields : Parts}
    (hs : ∀ s, some s ∈ fields → FreeRuns raw E c s) (hp : FieldsPassable fields) {ps : List Parcel}
    {offsets : List UInt32} {a offset : UInt32}
    (h : FieldsLaid raw p.machine.world.memory fields offsets ps (a + offset) blocks)
    (ha : p.Holds ra (.ofU32 a)) (ready : p.Ready) :
    (freeFields fields offsets ra offset).Runs E c scope p fun _ q =>
      Lifted true blocks p.machine q.machine := by
  induction fields generalizing p ps blocks offsets with
  | nil =>
    cases ps with
    | cons => cases offsets <;> exact h.elim
    | nil =>
      obtain rfl : blocks = [] := by cases offsets <;> exact h
      have code : freeFields [] offsets ra offset = return := by cases offsets <;> rfl
      exact Runs.pure (.refl ready)
  | cons s shapes ih =>
    cases offsets with
    | nil => cases ps <;> exact h.elim
    | cons start offsets =>
      cases ps with
      | nil => exact h.elim
      | cons parcel ps =>
        obtain ⟨first, rest, head, tail, rfl⟩ := h
        have code : freeFields (s :: shapes) (start :: offsets) ra offset
            = (if ownsMemory? s then free? s ra (offset + start) else pure ()) >>= fun _ =>
              freeFields shapes offsets ra offset := by
          rw [freeFields]
          split <;> rfl
        rw [code]
        refine Runs.bind (freePart_runs (head_part hs)
          (fun s e => by subst e; exact hp.1) a (offset + start)
          (by rw [← UInt32.add_assoc]; exact head) ha ready) ?_
        intro _ q1 h1 lifted
        refine (ih (tail_parts hs) hp.2
          (lifted.memory ▸ tail) (ha.extend h1) (lifted.ready ready).1).imp ?_
        exact fun _ q2 _ lifted' => lifted.trans lifted'

def Code.freeElem (elem : Option Shape) : Code (List Reg) := do
  if ownsMemory? elem then
    let base ← emitOne .iterBase []
    free? elem base 0
  return []

theorem freeElems_does (hs : ∀ s, elem = some s → FreeRuns raw E c s) (hp : Passable? elem)
    {ps : List Parcel} {k : Nat} {base : UInt32} (ready : m.world.Ready)
    (row : RowLies (Laid? raw m.world.memory elem) (place? elem).size base ps blocks)
    (hsize : ((Code.blocks [Code.freeElem elem]).run k).next ≤ m.registers.size) :
    Does E (Exec.freeElems
      (fun s => Exec.nth c s 0 ((Code.blocks [Code.freeElem elem]).run k).value)
      (place? elem).size base ps.length) m fun _ m' =>
        Kept k m m' ∧ Lifted true blocks m m' := by
  induction ps generalizing m base blocks with
  | nil =>
    cases row
    exact Does.of_ok rfl ⟨.of_eq rfl, .refl ready⟩
  | cons parcel ps ih =>
    obtain ⟨first, rest, laid, others, rfl⟩ := row
    rw [List.length_cons, Exec.freeElems]
    -- The body frees the first element.
    have head : Does E (Exec.nth c { base } 0 ((blocks [freeElem elem]).run k).value) m
        fun _ m' => Kept k m m' ∧ Lifted true first m m' := by
      refine (Runs.nth (n := 0) rfl (Q := fun _ q => Lifted true first m q.machine)
        (fun k' _ => ?_) hsize).imp fun _ m' ⟨kept, rs, n, lifted, _⟩ => ⟨kept, lifted⟩
      rw [freeElem]
      split
      · refine (emitOne_runs rfl .nil rfl).bind ?_
        rintro ra q1 _ ⟨hra, alike⟩
        have laid' : Laid? raw q1.machine.world.memory elem parcel (base + 0) first := by
          rw [UInt32.add_zero, alike.world]
          exact laid
        cases elem with
        | none => exact hp.elim
        | some s =>
          refine (hs s rfl hp laid' hra (alike.ready ready)).bind ?_
          exact fun _ q2 _ lifted => Runs.pure (lifted.since alike)
      · next owns =>
        rw [Laid?.blocks_eq_nil (by simpa using owns) laid]
        exact Runs.pure (.refl ready)
    refine head.bind ?_
    rintro _ m1 ⟨kept, lifted⟩
    refine (ih (lifted.ready ready).1 (lifted.memory ▸ others)
      (by rw [kept.size]; exact hsize)).imp ?_
    rintro _ m2 ⟨kept', lifted'⟩
    exact ⟨kept.trans kept' (Nat.le_refl _), lifted.trans lifted'⟩

omit [BumpLike α] in
theorem freeNothing_does [Allocator α] (h : ownsMemory? elem = false) {size base : UInt32}
    {count k : Nat} (hsize : ((Code.blocks [Code.freeElem elem]).run k).next ≤ m.registers.size) :
    Does E (Exec.freeElems
      (fun s => Exec.nth c s 0 ((Code.blocks [Code.freeElem elem]).run k).value)
      size base count) m fun _ m' => m' = m := by
  induction count generalizing base with
  | zero => exact Does.of_ok rfl rfl
  | succ count ih =>
    have head : Does E (Exec.nth c { base } 0 ((blocks [freeElem elem]).run k).value) m
        fun _ m' => m' = m := by
      refine (Runs.nth (n := 0) rfl (Q := fun _ q => q.machine = m) (fun k' _ => ?_)
        hsize).imp fun _ m' ⟨_, rs, n, same, _⟩ => same
      rw [freeElem, if_neg (by rw [h]; exact nofun)]
      exact Runs.pure rfl
    refine head.bind ?_
    rintro _ _ rfl
    exact ih

omit [BumpLike α] in
theorem Exec.instr_freeList [Allocator α] {l : Label} (hp : Passable? elem) (ptr count : UInt32)
    (n : Nat) (run : Nat → Scope → Exec α (List Value)) :
    Exec.instr c scope n run (.freeList l elem) [.ofU32 ptr, .ofU32 count] = (do
      Exec.freeElems (run 0) (place? elem).size ptr count.toNat
      Exec.free ptr ((place? elem).size * count) (place? elem).align
      return []) := by
  simp only [Exec.instr, List.headD_cons, List.getD_cons_succ, List.getD_cons_zero,
    toUInt32_core_ofU32, optLayout_eq hp]
  rfl

theorem freeList_runs {l : Label} (hs : ∀ s, elem = some s → FreeRuns raw E c s)
    (hp : Passable? elem) {rs : List Reg} {ptr count : UInt32}
    (h : ListLies raw p.machine.world.memory elem (Laid? raw p.machine.world.memory elem) ptr count
      parcel blocks)
    (hrs : p.HoldsAll rs [.ofU32 ptr, .ofU32 count]) (ready : p.Ready) :
    (Code.blocks [Code.freeElem elem] >>= fun blocks =>
      own (.freeList l elem) rs blocks >>= fun _ => pure ()).Runs E c scope p fun _ q =>
      Lifted true blocks p.machine q.machine := by
  -- First come the elements, then the block they lie in.
  have freed : ∃ elems : List Allocation, blocks = elems
        ++ [⟨ptr, (place? elem).size * count, (place? elem).align⟩]
      ∧ (((Code.blocks [Code.freeElem elem]).run p.next).next ≤ p.machine.registers.size →
        Does E (Exec.freeElems
          (fun s => Exec.nth c s 0 ((Code.blocks [Code.freeElem elem]).run p.next).value)
          (place? elem).size ptr count.toNat) p.machine fun _ m' =>
            Kept p.next p.machine m' ∧ Lifted true elems p.machine m') := by
    rw [ListLies] at h
    split_ifs at h
    · obtain ⟨byte, data, rfl, _, rfl⟩ := h
      obtain rfl : elem = some (.scalar .u8) := by
        unfold Program.isByte at byte
        split at byte
        · rfl
        · cases byte
      refine ⟨[], ?_, fun hsize => (freeNothing_does rfl hsize).imp ?_⟩
      · change [_] = [(⟨ptr, 1 * count, 1⟩ : Allocation)]
        rw [UInt32.one_mul]
      · rintro _ _ rfl
        exact ⟨.of_eq rfl, .refl ready⟩
    · obtain ⟨ps, elems, rfl, length, row, rfl⟩ := h
      rw [← length]
      exact ⟨elems, rfl, fun hsize => freeElems_does hs hp ready row hsize⟩
  obtain ⟨elems, hblocks, freed⟩ := freed
  rw [← bind_assoc]
  refine Runs.bind (Q := fun _ q => Lifted true blocks p.machine q.machine)
    (Runs.ownBlocks (steps_blocks _) hrs fun hsize => ?_)
    fun _ q _ lifted => Runs.pure lifted
  rw [Exec.instr_freeList hp]
  refine (freed hsize).bind ?_
  rintro _ m1 ⟨kept, lifted⟩
  obtain ⟨m2, ran, hregs, _, lifted'⟩ := Exec.runFrom_free (lifted.ready ready).1 ptr
    ((place? elem).size * count) (place? elem).align
  refine Does.of_ok (runFrom_bind_ok ran) ⟨kept.trans (.of_eq hregs) (Nat.le_refl _), rfl,
    fun _ q _ alike _ => ?_⟩
  rw [hblocks]
  exact (lifted.trans lifted').alike alike

/-! ## Sums -/

def Code.freeCase (addr : Reg) (start : UInt32) (part : Option Shape) : Code (List Reg) := do
  if ownsMemory? part then free? part addr start
  return []

omit [BumpLike α] in
theorem freeCases_eq (addr : Reg) (start : UInt32) (payloads : Parts) :
    freeCases addr start payloads
      = Code.blocks (payloads.map (Code.freeCase addr start)) := by
  induction payloads with
  | nil => rfl
  | cons p payloads ih => rw [freeCases, ih]; rfl

theorem freeCase_runs {payloads : Parts}
    (hs : ∀ s, some s ∈ payloads → FreeRuns raw E c s) (hp : PayloadsPassable payloads)
    {index : Nat} {a start : UInt32}
    (h : CaseLaid raw p.machine.world.memory payloads index parcel (a + start) blocks)
    (ha : p.Holds ra (.ofU32 a)) (ready : p.Ready) :
    ∃ part, payloads[index]? = some part ∧ ∀ k', p.next ≤ k' →
      (freeCase ra start part).Runs E c {} ⟨k', p.machine⟩ fun _ q =>
        Lifted true blocks p.machine q.machine := by
  rcases caseLaid_iff.mp h with ⟨hpart, rfl, rfl⟩ | ⟨s, hpart, laid⟩
  · exact ⟨none, hpart, fun k' _ => Runs.pure (.refl ready)⟩
  · refine ⟨some s, hpart, fun k' hk => ?_⟩
    have mem : some s ∈ payloads := List.mem_of_getElem? hpart
    have later : p.Extends ⟨k', p.machine⟩ := .ahead hk
    have code : freeCase ra start (some s)
        = (if ownsMemory? (some s) then free? (some s) ra start else pure ()) >>= fun _ =>
          pure [] := by
      rw [freeCase]
      split <;> rfl
    rw [code]
    refine Runs.bind (freePart_runs (p := ⟨k', p.machine⟩)
      (fun s' e => hs s' (e ▸ mem)) (fun s' e => payloadsPassable_iff.mp hp s' (e ▸ mem)) a start
      laid (ha.extend later) ready) ?_
    exact fun _ q _ lifted => Runs.pure lifted

/-! ## All shapes -/

theorem freeRuns (s : Shape) : FreeRuns raw E c s := by
  induction s with
  | string =>
    rintro hp scope p ra _ a offset _ ⟨ptr, count, pair, data, rfl, _, rfl⟩ ha ready
    refine (loadPair_runs ha pair).bind ?_
    rintro rs q _ ⟨hrs, alike⟩
    obtain ⟨m', ran, hregs, _, lifted⟩ := Exec.runFrom_free (alike.ready ready) ptr count 1
    have whole : runFrom (Exec.instr c scope 0 (fun n s => Exec.nth c s n []) .freeString
        [.ofU32 ptr, .ofU32 count]) q.machine = (.ok [], m') := by
      simp only [Exec.instr, List.headD_cons, List.getD_cons_succ, List.getD_cons_zero,
        toUInt32_core_ofU32]
      rw [runFrom_bind_ok ran]
      rfl
    exact Runs.emitNone rfl hrs (Does.of_ok whole ⟨hregs, rfl, fun q' _ alike' =>
      (lifted.since alike).alike alike'⟩)
  | list l elem ih =>
    rintro hp scope p ra _ a offset _ ⟨ptr, count, pair, list⟩ ha ready
    refine (loadPair_runs ha pair).bind ?_
    rintro rs q _ ⟨hrs, alike⟩
    refine (freeList_runs ih hp (alike.world ▸ list) hrs (alike.ready ready)).imp ?_
    exact fun _ q' _ lifted => lifted.since alike
  | product l form fields ih =>
    rintro hp scope p ra _ a offset _ ⟨ps, rfl, laid⟩ ha ready
    exact freeFields_runs ih hp laid ha ready
  | sum l form payloads ih =>
    intro hp scope p ra parcel a offset blocks laid ha ready
    rw [free]
    split
    · obtain ⟨index, payload, rfl, hcount, lies, laid⟩ := laid
      rw [← IntWidth.width_loadOp _ (tagWidth_ne payloads.length)] at lies
      refine (load_runs ha lies (recovers_tag (toNat_lt_of_lt_ofNat hcount))).bind ?_
      rintro r q hpq ⟨hr, alike⟩
      rw [UInt32.add_assoc] at laid
      obtain ⟨part, hpart, body⟩ := freeCase_runs ih hp (alike.world ▸ laid) (ha.extend hpq)
        (alike.ready ready)
      rw [freeCases_eq, ← bind_assoc]
      refine Runs.bind (Q := fun _ q' => Lifted true blocks p.machine q'.machine)
        (Runs.ownBlocks (steps_blocks _) (.cons hr .nil) fun hsize => ?_)
        fun _ q' _ lifted => Runs.pure lifted
      have unfolded : ∀ (n : Nat) (run : Nat → Scope → Exec α (List Value)),
          Exec.instr c scope n run (.freeSum l payloads.length) [.u64 index.toUInt64] = (do
            let _ ← Exec.runCase n run index {}
            return []) := by
        intro n run
        simp only [Exec.instr, List.headD_cons, Value.core, UInt32.toUInt32_toUInt64]
      rw [unfolded, runCase_eq (by rwa [List.length_map])]
      refine (Runs.nth (by rw [List.getElem?_map, hpart]; rfl) body hsize).bind ?_
      rintro _ m' ⟨kept, rs, n, lifted, rfl⟩
      exact Does.pure ⟨kept, rfl, fun _ q' _ alike' _ => (lifted.since alike).alike alike'⟩
    · next owns =>
      have nothing : (Shape.sum l form payloads).ownsMemory = false :=
        Bool.eq_false_of_not_eq_true owns
      rw [laid.blocks_eq_nil nothing]
      exact Runs.pure (.refl ready)
  | synonym l target ih =>
    intro hp scope p ra parcel a offset blocks laid ha ready
    cases target with
    | none => exact hp.elim
    | some s => exact ih s rfl hp laid ha ready
  | scalar | enum | flags | handle =>
    intro hp scope p ra parcel a offset blocks laid ha ready
    rw [laid.blocks_eq_nil rfl]
    exact Runs.pure (.refl ready)
  | channel | resource | unfinished => exact fun hp => hp.elim

end Parts

end CanonicalAbi
