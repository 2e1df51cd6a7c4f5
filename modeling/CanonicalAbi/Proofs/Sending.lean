import CanonicalAbi.Proofs.Carriage

/-!
# Sending parcels

Lowering a value makes the parcel that `send` says, in core values, and storing it makes the parcel
in memory. This holds of every value, well formed or not: where `send` fails, the code fails.
-/

namespace CanonicalAbi

open List Code Shape Exec

variable {α : Type} [BumpLike α] {r ra k : Reg} {part elem : Option Shape} {l : Label}
  {fields payloads : Parts} {i : Instr} {a offset index : UInt32} {vs : List Value}
  {m m' : Machine α} {rs : List Reg} {ps : List Parcel} {form : SumForm}

/-! ## What is left behind -/

section Posts

variable (realloc : String)

/-- Registers hold core values, of which `rep` says what they carry. -/
def Spreads (rep : Memory → List UInt64 → List Allocation → Prop) (p : Point α) (rs : List Reg)
    (q : Point α) : Prop :=
  ∃ xs blocks, q.HoldsAll rs (xs.map .u64)
    ∧ Carries realloc (fun _ => False) blocks p.machine q.machine fun mem => rep mem xs blocks

/-- Registers hold a pointer and a length, of which `rep` says what is there. -/
def Points (rep : Memory → UInt32 → UInt32 → List Allocation → Prop) (p : Point α) (rs : List Reg)
    (q : Point α) : Prop :=
  ∃ ptr count blocks, q.HoldsAll rs [.ofU32 ptr, .ofU32 count]
    ∧ Carries realloc (fun _ => False) blocks p.machine q.machine fun mem =>
      rep mem ptr count blocks

/-- An area and memory that was taken hold what `rep` says. -/
def Deposits (area : Nat → Prop) (rep : Memory → List Allocation → Prop) (m m' : Machine α) :
    Prop :=
  ∃ blocks, Carries realloc area blocks m m' fun mem => rep mem blocks

end Posts

section Left

variable {realloc : String} {p q q' : Point α} {rs : List Reg}

theorem Spreads.since {rep : Memory → List UInt64 → List Allocation → Prop}
    (h : Spreads realloc rep q rs q') (hm : q.machine.Alike p.machine) :
    Spreads realloc rep p rs q' := by
  obtain ⟨xs, blocks, holds, carries⟩ := h
  exact ⟨xs, blocks, holds, carries.since hm⟩

theorem Spreads.ready {rep : Memory → List UInt64 → List Allocation → Prop}
    (h : Spreads realloc rep p rs q) : q.Ready := by
  obtain ⟨_, _, _, carries⟩ := h
  exact carries.lowered.ready

theorem Points.spreads {rep : Memory → UInt32 → UInt32 → List Allocation → Prop}
    (h : Points realloc rep p rs q) :
    Spreads realloc (fun mem xs blocks => ∃ ptr count : UInt32, xs = [ptr.toUInt64, count.toUInt64]
      ∧ rep mem ptr count blocks) p rs q := by
  obtain ⟨ptr, count, blocks, holds, carries⟩ := h
  exact ⟨[ptr.toUInt64, count.toUInt64], blocks, holds,
    carries.imp fun mem hrep => ⟨ptr, count, rfl, hrep⟩⟩

theorem Deposits.since {area : Nat → Prop} {rep : Memory → List Allocation → Prop} {m'' : Machine α}
    (h : Deposits realloc area rep m' m'') (hm : m'.Alike m) : Deposits realloc area rep m m'' := by
  obtain ⟨blocks, carries⟩ := h
  exact ⟨blocks, carries.since hm⟩

omit [BumpLike α] in
theorem Stores.custody [BumpLike α] {area : Nat → Prop} {laid : Memory → Prop}
    (h : Stores area m m' laid) : m'.custody = m.custody := by
  rw [Machine.custody, h.table, h.lent, Machine.custody]

end Left

section Contract

variable (raw : RawRule) (realloc : String) (c : Setting α)

/-- Lowering makes the parcel of a value, in new blocks. -/
structure SendsWell (s : Shape) : Prop where
  lower ⦃scope : Scope⦄ ⦃p : Point α⦄ ⦃r : Reg⦄ ⦃v : Value⦄ :
    s.Sized v → p.Holds r v → p.Ready →
    (lower raw realloc s r).Mirrors c scope p (s.send raw false v) fun parcel rs q =>
      Spreads realloc (fun mem xs blocks => s.Spread raw mem parcel xs blocks) p rs q
  write ⦃scope : Scope⦄ ⦃p : Point α⦄ ⦃r ra : Reg⦄ ⦃v : Value⦄ ⦃a offset : UInt32⦄ :
    s.Sized v → p.Holds r v → p.Holds ra (.ofU32 a) → p.Ready →
    (a + offset).toNat + s.place.size.toNat ≤ p.machine.world.frontier →
    (write raw realloc s r ra offset).Mirrors c scope p (s.send raw true v) fun parcel _ q =>
      Deposits realloc (Region (a + offset) s.place.size.toNat)
        (fun mem blocks => s.Laid raw mem parcel (a + offset) blocks) p.machine q.machine

def SendMirrors (s : Shape) : Prop := s.Passable → s.Fits → SendsWell raw realloc c s

end Contract

section Parts

variable {raw : RawRule} {realloc : String} {c : Setting α} {scope : Scope} {p : Point α}
  {m : Machine α} {s : Shape} {v : Value} {stored : Bool}

/-! ## Single core values -/

theorem sendWord_mirrors (realloc : String) (hi : s.lowerInstr = some i) (v : Value)
    (ready : m.world.Ready) {run : Nat → Scope → Exec α (List Value)} :
    Mirrors (s.sendWord v) (instr c scope 0 run i [v]) m fun x results m' =>
      m'.registers = m.registers ∧ results = [.u64 x] ∧ Forall₂ CoreType.Holds s.slots [x]
        ∧ Lowered realloc (fun _ => False) [] m m' := by
  cases s with
  | scalar s =>
    cases hi
    rcases hw : s.lowerValue v with e | w
    · simp only [instr, headD_cons, sendWord, hw]
      exact .of_error rfl rfl
    · obtain ⟨x, rfl, holds, _⟩ := Scalar.lowered hw
      simp only [instr, headD_cons, sendWord, hw]
      exact .of_ok rfl rfl ⟨rfl, rfl, .cons holds .nil, .refl ready⟩
  | enum l cases =>
    cases hi
    cases v with
    | u32 n =>
      exact .of_ok rfl rfl ⟨rfl, rfl, .cons (CoreType.holds_toUInt64 _ n) .nil, .refl ready⟩
    | _ => exact .of_error rfl rfl
  | handle l form type =>
    cases hi
    refine .map _ ((lowerHandle_mirrors form l type v).before ?_)
    rintro h _ _ ⟨rfl, table, lent, rfl⟩
    exact Does.pure ⟨rfl, rfl, rfl, .cons (CoreType.holds_toUInt64 _ h) .nil,
      .of_lent (.of_table ready table) lent⟩
  | _ => simp [lowerInstr] at hi

theorem Shape.sendSingle_eq (stored : Bool) (s : Shape) (v : Value) :
    s.sendSingle stored v
      = (fun x => s.opened (if stored then s.loadOp.reload x else x)) <$> s.sendWord v := by
  rw [sendSingle, bind_pure_comp]

theorem lowerSingle_mirrors (hi : s.lowerInstr = some i) (hr : p.Holds r v)
    (ready : p.Ready) :
    (emit i [r]).Mirrors c scope p (s.sendSingle false v) fun parcel rs q =>
      Spreads realloc (fun _ xs blocks => s.SpreadSingle parcel xs blocks) p rs q := by
  refine .map _ (.emit (.cons hr .nil) ((sendWord_mirrors realloc hi v ready).imp ?_))
  rintro x _ m ⟨hregs, rfl, holds, lowered⟩
  refine ⟨hregs, (results_lowerInstr hi).symm, fun rs q _ alike hrs => ⟨[x], [], hrs, ?_⟩⟩
  exact (Carries.of_forall lowered fun _ => ⟨x, rfl, holds, rfl, rfl⟩).alike alike

theorem writeSingle_mirrors (hi : s.lowerInstr = some i) {op : StoreOp}
    (hop : op.width = s.loadOp.width) (hr : p.Holds r v) (ha : p.Holds ra (.ofU32 a))
    (ready : p.Ready)
    (inside : (a + offset).toNat + s.place.size.toNat ≤ p.machine.world.frontier) :
    (emitOne i [r] >>= fun value => store op value ra offset).Mirrors c scope p
      (s.sendSingle true v) fun parcel _ q =>
        Deposits realloc (Region (a + offset) s.place.size.toNat)
          (fun mem blocks => s.LaidSingle mem parcel (a + offset) blocks) p.machine q.machine := by
  have size : s.place.size.toNat = op.width.size.toNat := by rw [size_single hi, hop]
  rw [sendSingle_eq]
  refine .map _ (.before (Q := fun x r' q => q.Holds r' (.u64 x)
    ∧ Lowered realloc (fun _ => False) [] p.machine q.machine)
    (.emitOne (results_lowerInstr hi) (.cons hr .nil)
      ((sendWord_mirrors realloc hi v ready).imp ?_)) ?_)
  · rintro x _ m ⟨hregs, rfl, _, lowered⟩
    exact ⟨hregs, _, rfl, fun r' q _ alike holds => ⟨holds, lowered.alike alike⟩⟩
  · rintro x r' q later ⟨holds, lowered⟩
    rw [size] at inside ⊢
    refine (store_runs op lowered.ready holds (ha.extend later)
      (Nat.le_trans inside lowered.frontier)).imp ?_
    intro _ q' _ stores
    refine ⟨stores.custody, [], (Carries.behind lowered (stores.carries realloc) nofun
      fun i hi => .inl hi).imp ?_⟩
    exact fun mem here => ⟨x, hop ▸ here, rfl, rfl⟩

/-! ## Texts, bytes and lists -/

theorem storePair_deposits {rep : Memory → UInt32 → UInt32 → List Allocation → Prop} {q : Point α}
    (h : Points realloc rep p rs q) (ha : q.Holds ra (.ofU32 a))
    (inside : (a + offset).toNat + 8 ≤ p.machine.world.frontier) :
    (storePair rs ra offset).Runs (·.IsRefusal) c scope q fun _ q' =>
      q'.machine.custody = q.machine.custody
        ∧ Deposits realloc (Region (a + offset) 8) (fun mem blocks =>
          ∃ ptr count, PairLies mem (a + offset) ptr count ∧ rep mem ptr count blocks)
          p.machine q'.machine := by
  obtain ⟨ptr, count, blocks, holds, carries⟩ := h
  have frontier := carries.lowered.frontier
  refine (storePair_runs carries.lowered.ready holds ha (Nat.le_trans inside frontier)).imp ?_
  intro _ q' _ stores
  have both : Carries realloc (Region (a + offset) 8) _ p.machine q'.machine _ :=
    carries.and (stores.carries realloc) nofun (fun i hi => hi) (by
      rintro i (none | fresh) region
      · exact none
      · have := fresh.1
        have := region.2
        omega)
  rw [append_nil] at both
  exact ⟨stores.custody, blocks, both.imp fun mem ⟨hrep, pair⟩ => ⟨ptr, count, pair, hrep⟩⟩

theorem putBytes_mirrors (hi : i.results = 2) {data : List UInt8} (pack : List UInt8 → Parcel)
    (hr : p.Holds r v)
    (h : instr c scope 0 (fun n s => nth c s n []) i [v] = putBytes realloc data)
    (short : data.length < 2 ^ 32) (ready : p.Ready) :
    (emit i [r]).Mirrors c scope p (pure (pack data)) fun parcel rs q =>
      Points realloc (fun mem ptr count blocks => PackLies mem pack ptr count parcel blocks)
        p rs q := by
  refine .emit (.cons hr .nil) ?_
  rw [h]
  refine ((putBytes_does ready realloc short).weaken fun e => .inl).imp ?_
  rintro _ m ⟨hregs, htable, hlent, ptr, count, rfl, lowered, secures⟩
  refine ⟨pack data, ?_, hregs, hi.symm, fun rs q _ alike holds =>
    ⟨ptr, count, [⟨ptr, count, 1⟩], holds, ?_⟩⟩
  · rw [Machine.custody, Machine.custody, htable, hlent]
    rfl
  · exact (Carries.mk lowered (secures.widen fun _ => .inr)).alike alike |>.imp
      fun mem lie => ⟨data, rfl, lie, rfl⟩

theorem lowerString_mirrors (sized : string.Sized v) (hr : p.Holds r v)
    (ready : p.Ready) :
    (emit (.lowerString realloc) [r]).Mirrors c scope p (string.send raw stored v)
      fun parcel rs q => Points realloc
        (fun mem ptr count blocks => PackLies mem .text ptr count parcel blocks) p rs q := by
  cases v with
  | string data => exact putBytes_mirrors rfl _ hr rfl (sized data rfl) ready
  | _ => exact .emit (.cons hr .nil) (.of_error rfl rfl)

section

variable (hs : ∀ s, part = some s → SendMirrors raw realloc c s) (hp : Passable? part)
  (hfit : Fits? part)
include hs hp hfit

theorem write?_mirrors (a offset : UInt32) (sized : Sized? part v) (hr : p.Holds r v)
    (ha : p.Holds ra (.ofU32 a)) (ready : p.Ready)
    (inside : (a + offset).toNat + (place? part).size.toNat ≤ p.machine.world.frontier) :
    (write? raw realloc part r ra offset).Mirrors c scope p (send? raw true part v)
      fun parcel _ q => Deposits realloc (Region (a + offset) (place? part).size.toNat)
        (fun mem blocks => Laid? raw mem part parcel (a + offset) blocks) p.machine q.machine := by
  cases part with
  | none => exact hp.elim
  | some s => exact (hs s rfl hp hfit).write sized hr ha ready inside

theorem lower?_mirrors (sized : Sized? part v) (hr : p.Holds r v) (ready : p.Ready) :
    (lower? raw realloc part r).Mirrors c scope p (send? raw false part v) fun parcel rs q =>
      Spreads realloc (fun mem xs blocks => Spread? raw mem part parcel xs blocks) p rs q := by
  cases part with
  | none => exact hp.elim
  | some s => exact (hs s rfl hp hfit).lower sized hr ready

end

section

variable {base : UInt32} (hs : ∀ s, elem = some s → SendMirrors raw realloc c s)
  (hp : Passable? elem) (hfit : Fits? elem)
include hs hp hfit

theorem writeElem_mirrors (sized : Sized? elem v) (ready : m.world.Ready)
    (inside : base.toNat + (place? elem).size.toNat ≤ m.world.frontier) :
    (writeElem raw realloc elem).Mirrors c { elem := v, base } ⟨k, m⟩ (send? raw true elem v)
      fun parcel _ q => Deposits realloc (Region base (place? elem).size.toNat)
        (fun mem blocks => Laid? raw mem elem parcel base blocks) m q.machine := by
  refine .after (emitOne_runs rfl .nil rfl) ?_
  rintro rv q1 _ ⟨hrv, alike1⟩
  refine ⟨alike1.custody, .after (emitOne_runs rfl .nil rfl) ?_⟩
  rintro ra q2 h2 ⟨hra, alike2⟩
  have alike : q2.machine.Alike m := alike2.trans alike1
  refine ⟨alike2.custody, .before (write?_mirrors hs hp hfit base 0 sized (hrv.extend h2) hra
    (alike.ready ready) ?_) ?_⟩
  · rw [UInt32.add_zero, alike.world]
    exact inside
  · intro parcel _ q3 _ deposits
    rw [UInt32.add_zero] at deposits
    exact Code.Runs.pure ⟨rfl, deposits.since alike⟩

theorem lowerElems_mirrors (sized : ∀ x ∈ vs, Sized? elem x) {k : Nat} (ready : m.world.Ready)
    (inside : base.toNat + (place? elem).size.toNat * vs.length ≤ m.world.frontier)
    (hsize : ((blocks [writeElem raw realloc elem]).run k).next ≤ m.registers.size) :
    Mirrors (vs.mapM fun v => send? raw true elem v) (lowerElems
      (fun s => nth c s 0 ((blocks [writeElem raw realloc elem]).run k).value)
      (place? elem).size base vs) m fun ps _ m' => Kept k m m' ∧ ps.length = vs.length
        ∧ Deposits realloc (Region base ((place? elem).size.toNat * vs.length)) (fun mem blocks =>
          RowLies (Laid? raw mem elem) (place? elem).size base ps blocks) m m' := by
  induction vs generalizing m base with
  | nil => exact .of_ok rfl rfl ⟨.of_eq rfl, rfl, [], .of_alike ready (.refl _) fun _ => rfl⟩
  | cons v vs ih =>
    simp only [length_cons, Nat.mul_add, Nat.mul_one] at inside ⊢
    have next : (base + (place? elem).size).toNat = base.toNat + (place? elem).size.toNat :=
      toNat_add_of_le ready (by omega)
    rw [lowerElems, mapM_cons]
    refine .bind (Code.Mirrors.nth (n := 0) rfl (fun k' _ => writeElem_mirrors hs hp hfit
      (sized v mem_cons_self) ready (by omega)) hsize) ?_
    rintro parcel _ m1 ⟨kept, _, _, ⟨first, carries⟩, _⟩
    change Carries _ _ _ m m1 _ at carries
    have frontier := carries.lowered.frontier
    refine .map _ ((ih (tail_parts sized) carries.lowered.ready
      (by rw [next]; omega) (by rw [kept.size]; exact hsize)).imp ?_)
    rintro ps _ m2 ⟨kept', length, rest, row⟩
    refine ⟨kept.trans kept' (Nat.le_refl _), by rw [length_cons, length], first ++ rest,
      (carries.and row ?_ ?_ ?_).imp fun mem both => ⟨first, rest, both.1, both.2, rfl⟩⟩
    · intro i hi
      simp only [Region] at hi ⊢
      omega
    · intro i hi
      simp only [Region, next] at hi ⊢
      omega
    · -- What follows is stored behind the first element.
      intro i hi
      simp only [Region, Fresh, next] at hi ⊢
      omega

end

theorem RowLies.take {mem : Memory} (hfit : Fits? elem) {size addr : UInt32}
    {blocks : List Allocation} (h : RowLies (Laid? raw mem elem) size addr ps blocks)
    (bounded : (place? elem).size.toNat * ps.length < 2 ^ 32) :
    RowLies (Laid? raw mem elem) size addr (ps.take (UInt32.ofNat ps.length).toNat) blocks := by
  by_cases short : ps.length < 2 ^ 32
  · rwa [UInt32.toNat_ofNat_of_lt' short, take_length]
  · have nothing : ownsMemory? elem = false := by
      cases elem with
      | none => rfl
      | some s =>
        by_contra owns
        have : 0 < s.place.size.toNat := size_pos hfit (Bool.eq_true_of_not_eq_false owns)
        exact short (Nat.lt_of_le_of_lt (Nat.le_mul_of_pos_left _ this) bounded)
    generalize (UInt32.ofNat ps.length).toNat = n
    clear bounded short
    induction ps generalizing addr n blocks with
    | nil => rwa [take_nil]
    | cons p ps ih =>
      obtain ⟨first, rest, head, tail, rfl⟩ := h
      cases n with
      | zero =>
        have none := ih tail 0
        rw [Laid?.blocks_eq_nil nothing head, show rest = [] from none]
        rfl
      | succ n => exact ⟨first, rest, head, ih tail n, rfl⟩

theorem lowerList_mirrors (hs : ∀ s, elem = some s → SendMirrors raw realloc c s)
    (hp : Passable? elem) (hfit : Fits? elem) (sized : (list l elem).Sized v)
    (hr : p.Holds r v) (ready : p.Ready) :
    (lowerList raw realloc l elem (fun value addr => write? raw realloc elem value addr 0)
      r).Mirrors c scope p ((list l elem).send raw stored v) fun parcel rs q =>
        Points realloc (fun mem ptr count blocks =>
          ListLies raw mem elem (Laid? raw mem elem) ptr count parcel blocks) p rs q := by
  simp only [lowerList, send, ListLies]
  by_cases hbytes : raw elem = true
  · simp only [if_pos hbytes]
    by_cases byte : Program.isByte elem = true
    · cases v with
      | bytes data =>
        have unfolded : instr c scope 0 (fun n s => nth c s n [])
            (.lowerBytes l elem realloc) [.bytes data] = putBytes realloc data := by
          simp only [instr, requireBytes, if_pos byte]
          rfl
        simp only [if_pos byte]
        refine (putBytes_mirrors rfl .bytes hr unfolded (sized.1 data rfl) ready).imp ?_
        rintro parcel rs q _ ⟨ptr, count, blocks, holds, carries⟩
        exact ⟨ptr, count, blocks, holds, carries.imp fun mem pack => ⟨byte, pack⟩⟩
      | _ =>
        refine .emit (.cons hr .nil) ?_
        simp only [instr, requireBytes, if_pos byte]
        exact .of_error rfl rfl
    · refine .emit (.cons hr .nil) ?_
      simp only [instr, requireBytes, if_neg byte]
      refine .of_error rfl ?_
      cases v with
      | bytes data => rfl
      | _ => rfl
  · simp only [if_neg hbytes]
    change (blocks [writeElem raw realloc elem]
      >>= own (.lowerList l elem realloc) [r]).Mirrors _ _ _ _ _
    cases v with
    | list vs =>
      obtain ⟨bounded, parts⟩ := sized.2 vs rfl
      have exact := place?_exact hfit
      have bytes := toNat_size_mul hfit bounded
      rw [← exact.size] at bounded
      refine .ownBlocks (steps_blocks _) (.cons hr .nil) fun hsize => ?_
      rw [instr_lowerList hp]
      refine .after (allocFor_does ready realloc _ exact.isAlignment) ?_
      rintro ptr m1 ⟨hregs, htable, hlent, hmem, lowered, start, stop⟩
      refine ⟨by rw [Machine.custody, Machine.custody, htable, hlent], ?_⟩
      refine .bind (lowerElems_mirrors hs hp hfit parts lowered.ready (by omega)
        (by rw [hregs]; exact hsize)) ?_
      rintro ps _ m2 ⟨kept, length, elems, row⟩
      have fresh : ∀ i, Region ptr ((place? elem).size.toNat * vs.length) i →
          False ∨ Fresh p.machine m1 i := by
        intro i hi
        simp only [Region, Fresh] at hi ⊢
        omega
      have whole := Carries.behind lowered row (fun _ => False.elim) fresh
      have carries : Carries realloc _ _ p.machine m2 _ :=
        ⟨whole.lowered.perm perm_append_comm, whole.secures⟩
      refine .of_ok rfl rfl ⟨(Kept.of_eq hregs).trans kept (Nat.le_refl _), rfl,
        fun rs q _ alike holds => ⟨ptr, .ofNat vs.length, _, holds,
          Carries.imp (carries.alike alike)
          fun mem row => ?_⟩⟩
      refine ⟨_, elems, rfl, ?_, length ▸ row.take hfit (length ▸ bounded), rfl⟩
      rw [length_take, length, UInt32.toNat_ofNat']
      exact Nat.min_eq_left (Nat.mod_le _ _)
    | _ =>
      exact .ownBlocks (steps_blocks _) (.cons hr .nil) fun hsize => .of_error rfl rfl

/-! ## Products -/

theorem Spreads.cons {parcel : Parcel} {q q' : Point α} {first rest : List Reg}
    (head : Spreads realloc (fun mem xs blocks => Spread? raw mem part parcel xs blocks) p first q)
    (later : q.Extends q')
    (tail : Spreads realloc (fun mem xs blocks => FieldsSpread raw mem fields ps xs blocks)
      q rest q') :
    Spreads realloc (fun mem xs blocks =>
      FieldsSpread raw mem (part :: fields) (parcel :: ps) xs blocks) p (first ++ rest) q' := by
  obtain ⟨xs, blocks, holds, carries⟩ := head
  obtain ⟨ys, blocks', holds', carries'⟩ := tail
  refine ⟨xs ++ ys, blocks ++ blocks', ?_,
    (carries.and carries' nofun (fun _ hi => hi) fun i _ => id).imp ?_⟩
  · rw [map_append]
    exact (holds.extend later).append holds'
  · rintro mem ⟨spread, spread'⟩
    exact ⟨xs, ys, blocks, blocks', spread, spread', rfl, rfl⟩

theorem lowerFields_mirrors (hs : ∀ s, some s ∈ fields → SendMirrors raw realloc c s)
    (hp : FieldsPassable fields) (hfit : FieldsFit fields) (length : vs.length = fields.length)
    (sized : FieldsSized fields vs) (hrs : p.HoldsAll rs vs) (ready : p.Ready) :
    (lowerFields raw realloc fields rs).Mirrors c scope p (sendFields raw false fields vs)
      fun ps rs q => Spreads realloc
        (fun mem xs blocks => FieldsSpread raw mem fields ps xs blocks) p rs q := by
  induction fields generalizing p rs vs with
  | nil =>
    obtain rfl : vs = [] := length_eq_zero_iff.mp length
    cases hrs
    exact .pure ⟨[], [], .nil, .of_alike ready (.refl _) fun _ => ⟨rfl, rfl⟩⟩
  | cons part fields ih =>
    cases vs with
    | nil => simp at length
    | cons v vs =>
      cases hrs with
      | cons hr hrs =>
        refine .bind (lower?_mirrors (head_part hs) hp.1 hfit.1 sized.1 hr ready) ?_
        intro parcel first q1 h1 head
        refine .bind (ih (tail_parts hs) hp.2 hfit.2 (by simpa using length)
          sized.2 (Point.HoldsAll.extend hrs h1) head.ready) ?_
        exact fun ps rest q2 h2 tail => .pure (head.cons h2 tail)

theorem Deposits.cons {parcel : Parcel} {o addr : UInt32} {offsets : List UInt32} {start stop : Nat}
    {m'' : Machine α} (ready : m.world.Ready)
    (between : Layout.Between start stop (o :: offsets) (fieldPlaces (part :: fields)))
    (inside : addr.toNat + stop ≤ m.world.frontier)
    (head : Deposits realloc (Region (addr + o) (place? part).size.toNat)
      (fun mem blocks => Laid? raw mem part parcel (addr + o) blocks) m m')
    (tail : Deposits realloc (Span addr.toNat (o.toNat + (place? part).size.toNat) stop)
      (fun mem blocks => FieldsLaid raw mem fields offsets ps addr blocks) m' m'') :
    Deposits realloc (Span addr.toNat start stop) (fun mem blocks =>
      FieldsLaid raw mem (part :: fields) (o :: offsets) (parcel :: ps) addr blocks) m m'' := by
  obtain ⟨first, carries⟩ := head
  obtain ⟨rest, carries'⟩ := tail
  have start_le := between.1
  have rest_le := between.2.start_le
  have addr_toNat : (addr + o).toNat = addr.toNat + o.toNat := toNat_add_of_le ready (by omega)
  have frontier := carries.lowered.frontier
  refine ⟨first ++ rest, (carries.and carries' ?_ ?_ ?_).imp fun mem both =>
    ⟨first, rest, both.1, both.2, rfl⟩⟩
  · intro i hi
    simp only [Region, Span, addr_toNat] at hi ⊢
    omega
  · intro i hi
    simp only [Span] at hi ⊢
    omega
  · intro i hi
    simp only [Region, Span, addr_toNat, Fresh] at hi ⊢
    omega

theorem writeFields_mirrors (hs : ∀ s, some s ∈ fields → SendMirrors raw realloc c s)
    (hp : FieldsPassable fields) (hfit : FieldsFit fields) {offsets : List UInt32}
    {start stop : Nat} (length : vs.length = fields.length) (sized : FieldsSized fields vs)
    (hrs : p.HoldsAll rs vs) (ha : p.Holds ra (.ofU32 a)) (ready : p.Ready)
    (between : Layout.Between start stop offsets (fieldPlaces fields))
    (inside : (a + offset).toNat + stop ≤ p.machine.world.frontier) :
    (writeFields raw realloc fields rs offsets ra offset).Mirrors c scope p
      (sendFields raw true fields vs) fun ps _ q =>
        Deposits realloc (Span (a + offset).toNat start stop) (fun mem blocks =>
          FieldsLaid raw mem fields offsets ps (a + offset) blocks) p.machine q.machine := by
  induction fields generalizing p rs vs offsets start with
  | nil =>
    obtain rfl : vs = [] := length_eq_zero_iff.mp length
    cases hrs
    exact .pure ⟨[], .of_alike ready (.refl _) fun _ => by cases offsets <;> rfl⟩
  | cons part fields ih =>
    cases vs with
    | nil => simp at length
    | cons v vs =>
      cases offsets with
      | nil => exact between.elim
      | cons o offsets =>
        cases hrs with
        | cons hr hrs =>
          have rest_le := between.2.start_le
          have addr : a + (offset + o) = a + offset + o := (UInt32.add_assoc a offset o).symm
          have addr_toNat : (a + offset + o).toNat = (a + offset).toNat + o.toNat :=
            toNat_add_of_le ready (by omega)
          refine .bind (write?_mirrors (head_part hs) hp.1 hfit.1 a
            (offset + o) sized.1 hr ha ready (by rw [addr, addr_toNat]; omega)) ?_
          rw [addr]
          intro parcel _ q1 h1 head
          have lowered := head.choose_spec.lowered
          refine .map _ ((ih (tail_parts hs) hp.2 hfit.2
            (by simpa using length) sized.2 (Point.HoldsAll.extend hrs h1) (ha.extend h1)
            lowered.ready between.2 (Nat.le_trans inside lowered.frontier)).imp ?_)
          exact fun ps _ q2 _ tail => head.cons ready between inside tail

theorem sendFields_eq_of_length (h : vs.length ≠ fields.length) (c : Custody) :
    (sendFields raw stored fields vs).run c = none := by
  induction fields generalizing vs c with
  | nil =>
    cases vs with
    | nil => exact absurd rfl h
    | cons => rfl
  | cons part fields ih =>
    cases vs with
    | nil => rfl
    | cons v vs =>
      rw [sendFields]
      rcases hv : (send? raw stored part v).run c with _ | ⟨parcel, c1⟩
      · exact Passing.run_bind_none hv
      · rw [Passing.run_bind_some hv]
        exact Passing.run_bind_none (ih (by simpa using h) c1)

/-- The fields of a product are taken apart, and then `rest` is done with them. -/
theorem lowerProduct_mirrors {β γ : Type} {form : ProductForm} (hr : p.Holds r v)
    {rest : List Reg → Code β} {g : List Parcel → γ} {Q : γ → β → Point α → Prop}
    (h : ∀ vs rs q, v = .list vs → vs.length = fields.length → p.Extends q →
      q.HoldsAll rs vs → q.machine.Alike p.machine →
      (rest rs).Mirrors c scope q (sendFields raw stored fields vs) fun ps b q => Q (g ps) b q) :
    (emit (.lowerProduct form l fields.length) [r] >>= rest).Mirrors c scope p
      (match v with
        | .list vs => g <$> sendFields raw stored fields vs
        | _ => failure) Q := by
  cases v with
  | list vs =>
    by_cases length : vs.length = fields.length
    · refine .map _ (.after (lowerProduct_runs length hr) ?_)
      rintro rs q later ⟨hrs, alike⟩
      exact ⟨alike.custody, h vs rs q rfl length later hrs alike⟩
    · -- A list of another length is refused on both sides.
      have refused : (sendFields raw stored fields vs).run p.machine.custody = none :=
        sendFields_eq_of_length length _
      refine .map _ (Code.Runs.bind (Q := fun _ _ => False) (.emit (.cons hr .nil) ?_)
        fun _ _ _ => False.elim)
      simp only [instr, headD_cons, length]
      exact Does.of_error rfl (.inr refused)
  | _ =>
    exact Code.Runs.bind (Q := fun _ _ => False)
      (.emit (.cons hr .nil) (Does.of_error rfl (.inr rfl)))
      fun _ _ _ => False.elim

/-! ## Sums -/

/-- The body of the case of a value gives the number of the case and one core value for each slot
that the cases share. -/
theorem lowerCase_mirrors (l : Label) (form : SumForm)
    (hs : ∀ s, some s ∈ payloads → SendMirrors raw realloc c s) (hp : PayloadsPassable payloads)
    (hfit : PayloadsFit payloads) (hcount : index < .ofNat payloads.length)
    (hpart : payloads[index.toNat]? = some part) (sized : CaseSized payloads index.toNat v)
    (ready : p.Ready) (k : Reg) :
    (lowerCase raw realloc (flatSum (payloadSlots payloads)).tail index.toNat part).Mirrors c
      { payload := v } ⟨k, p.machine⟩ (sendCase raw false payloads index.toNat v)
        fun payload rs q =>
        Spreads realloc (fun mem xs blocks =>
          (sum l form payloads).Spread raw mem (.case index payload) xs blocks) p rs q := by
  cases part with
  | none =>
    rw [sendCase_eq, hpart]
    have none : FitSlots [] (flatSum (payloadSlots payloads)).tail := trivial
    have nothing := holds_applyCasts_up none .nil
    refine .after (emitOne_runs rfl .nil rfl) ?_
    rintro _ q1 _ ⟨_, alike1⟩
    refine ⟨alike1.custody, .after (caseNumber_runs index) ?_⟩
    rintro tag q2 _ ⟨htag, alike2⟩
    refine ⟨alike2.custody, .after (padZeros_runs _) ?_⟩
    rintro zeros q3 h3 ⟨hzeros, alike3⟩
    have alike : q3.machine.Alike p.machine := alike3.trans (alike2.trans alike1)
    refine ⟨alike3.custody, .pure ⟨_ :: _, [], .cons (htag.extend h3) hzeros,
      .of_alike ready alike fun mem => ?_⟩⟩
    exact ⟨index, _, _, rfl, hcount, rfl, nothing, caseSpread_iff.mpr (.inl ⟨hpart, rfl, rfl⟩)⟩
  | some s =>
    have mem : some s ∈ payloads := mem_of_getElem? hpart
    have fits : FitSlots s.slots _ := FitSlots.of_mem mem
    rw [sendCase_eq, hpart]
    refine .after (emitOne_runs rfl .nil rfl) ?_
    rintro value q1 _ ⟨hvalue, alike1⟩
    refine ⟨alike1.custody, .after (caseNumber_runs index) ?_⟩
    rintro tag q2 h2 ⟨htag, alike2⟩
    have alike : q2.machine.Alike p.machine := alike2.trans alike1
    have sends := hs s mem (payloadsPassable_iff.mp hp s mem) (hfit.of_mem mem)
    refine ⟨alike2.custody, .before (sends.lower (caseSized_iff.mp sized s hpart)
      (hvalue.extend h2) (alike.ready ready)) ?_⟩
    rintro parcel flat q3 h3 ⟨xs, blocks, hflat, carries⟩
    have holds := carries.secures.here.holds
    refine (castSlots_runs hflat ((length_castsBetween_up fits).trans holds.length_eq)).bind ?_
    rintro cast q4 h4 ⟨hcast, alike4⟩
    refine (padZeros_runs _).bind ?_
    rintro zeros q5 h5 ⟨hzeros, alike5⟩
    have alike' : q5.machine.Alike q3.machine := alike5.trans alike4
    have hslots := (Point.HoldsAll.extend hcast h5).append hzeros
    rw [← map_append] at hslots
    refine Code.Runs.pure ⟨alike'.custody, _ :: _, blocks,
      .cons (htag.extend (h3.trans (h4.trans h5))) hslots,
      ((carries.since alike).alike alike').imp fun mem spread => ?_⟩
    refine ⟨index, _, _, rfl, hcount, rfl, holds_applyCasts_up fits holds,
      caseSpread_iff.mpr (.inr ⟨s, hpart, ?_⟩)⟩
    rw [applyCasts_down_up fits holds]
    exact spread

theorem runCases_mirrors {body : Nat → Option Shape → Code (List Reg)}
    {Q : Parcel → List Reg → Point α → Prop}
    (hcount : index < .ofNat payloads.length)
    (h : ∀ part, payloads[index.toNat]? = some part → ∀ k', k ≤ k' →
      (body index.toNat part).Mirrors c { payload := v } ⟨k', m⟩
        (sendCase raw stored payloads index.toNat v) Q)
    (hsize : ((blocks (payloads.mapIdx body)).run k).next ≤ m.registers.size) :
    Mirrors (sendCase raw stored payloads index.toNat v)
      (runCase ((blocks (payloads.mapIdx body)).run k).value.length
        (fun n s => nth c s n ((blocks (payloads.mapIdx body)).run k).value) index
        { payload := v }) m
      fun payload vals m' => Kept k m m' ∧ ∃ rs n, Q payload rs ⟨n, m'⟩ ∧ vals = rs.map m'.reg := by
  have hpart := getElem?_eq_getElem (toNat_lt_of_lt_ofNat hcount)
  rw [runCase_eq (by rwa [length_mapIdx])]
  refine Code.Mirrors.nth ?_ (h _ hpart) hsize
  rw [getElem?_mapIdx, hpart]
  rfl

theorem outside_mirrors {body : Nat → Option Shape → Code (List Reg)} {flat : List CoreType}
    {run : Nat → Scope → Exec α (List Value)} {Q : Parcel → List Value → Machine α → Prop}
    (hcount : ¬ index < .ofNat payloads.length) {x : Passing Parcel} :
    Mirrors (if index < .ofNat payloads.length then x else failure)
      (instr c scope ((blocks (payloads.mapIdx body)).run k).value.length run
        (.lowerSum form l payloads.length flat) [.case index v]) m Q := by
  simp only [instr, headD_cons, runCase, length_blocks, length_mapIdx, if_neg hcount]
  exact .of_error rfl rfl

section

variable (hs : ∀ s, some s ∈ payloads → SendMirrors raw realloc c s)
  (hp : PayloadsPassable payloads)
include hs hp

/-- The body of the case of a value stores the number of the case and then the payload behind
it. -/
theorem writeCase_mirrors (hfit : (sum l form payloads).Fits)
    (hcount : index < .ofNat payloads.length) (hpart : payloads[index.toNat]? = some part)
    (sized : CaseSized payloads index.toNat v)
    (ha : p.Holds ra (.ofU32 a)) (ready : p.Ready)
    (inside : (a + offset).toNat + (sum l form payloads).place.size.toNat
      ≤ p.machine.world.frontier)
    (hk : p.next ≤ k) : (writeCase raw realloc (tagWidth payloads.length) ra offset
      (offset + placedPayload payloads) index.toNat part).Mirrors c { payload := v }
      ⟨k, p.machine⟩ (sendCase raw true payloads index.toNat v) fun payload rs q => rs = []
        ∧ Deposits realloc (Region (a + offset) (sum l form payloads).place.size.toNat)
          (fun mem blocks => (sum l form payloads).Laid raw mem (.case index payload)
            (a + offset) blocks) p.machine q.machine := by
  obtain ⟨hfit, hsize⟩ := hfit
  obtain ⟨tag_le, start_le⟩ := tag_le_placedPayload hfit hsize
  have addr_toNat : (a + offset + placedPayload payloads).toNat
      = (a + offset).toNat + (placedPayload payloads).toNat :=
    toNat_add_of_le ready (Nat.le_trans (Nat.add_le_add_left start_le _) inside)
  have within : ∀ s, some s ∈ payloads → (placedPayload payloads).toNat + s.place.size.toNat
      ≤ (sum l form payloads).place.size.toNat := fun s => placedPayload_le hfit hsize
  change _ ≤ (sum l form payloads).place.size.toNat at start_le
  generalize (sum l form payloads).place.size.toNat = size at inside start_le within ⊢
  have inner : ∀ i, Region (a + offset) (tagWidth payloads.length).size.toNat i →
      Region (a + offset) size i := by
    intro i hi
    simp only [Region] at hi ⊢
    omega
  -- Both kinds of cases begin with the number.
  have numbered : ∀ {rest : Reg → Code (List Reg)} {R : Parcel → List Reg → Point α → Prop},
      (∀ value q, q.Holds value v → p.Extends q →
        Carries realloc (Region (a + offset) (tagWidth payloads.length).size.toNat) [] p.machine
          q.machine (fun mem => mem.At (a + offset).toNat
            (Memory.toBytes (tagWidth payloads.length).size.toNat index.toUInt64)) →
        (rest value).Mirrors c { payload := v } q (sendCase raw true payloads index.toNat v) R) →
      (do
        let value ← emitOne .payload []
        let number ← emitOne (.i32Const (.ofNat index.toNat)) []
        store (tagWidth payloads.length).storeOp number ra offset
        rest value : Code (List Reg)).Mirrors c { payload := v } ⟨k, p.machine⟩
          (sendCase raw true payloads index.toNat v) R := by
    intro rest R hrest
    refine .after (emitOne_runs rfl .nil rfl) ?_
    rintro value q1 h1 ⟨hvalue, alike1⟩
    refine ⟨alike1.custody, .after (caseNumber_runs index) ?_⟩
    rintro number q2 h2 ⟨hnumber, alike2⟩
    have alike : q2.machine.Alike p.machine := alike2.trans alike1
    have later : p.Extends q2 := (Point.Extends.ahead hk).trans (h1.trans h2)
    refine ⟨alike2.custody, .after (storeTag_runs (alike.ready ready) hnumber (ha.extend later)
      (by rw [alike.world]; omega)) ?_⟩
    intro _ q3 h3 stores
    exact ⟨stores.custody, hrest value q3 (hvalue.extend (h2.trans h3)) (later.trans h3)
      ((stores.carries realloc).since alike)⟩
  cases part with
  | none =>
    rw [sendCase_eq, hpart] at numbered ⊢
    refine numbered fun value q3 _ _ carries => .pure ⟨rfl, [], ?_⟩
    exact (carries.widen inner).imp fun mem here =>
      ⟨index, _, rfl, hcount, here, caseLaid_iff.mpr (.inl ⟨hpart, rfl, rfl⟩)⟩
  | some s =>
    have mem : some s ∈ payloads := mem_of_getElem? hpart
    have room_for := within s mem
    have addr : a + (offset + placedPayload payloads) = a + offset + placedPayload payloads :=
      (UInt32.add_assoc a offset _).symm
    rw [sendCase_eq, hpart] at numbered ⊢
    refine numbered fun value q3 hvalue later carries => ?_
    have frontier := carries.lowered.frontier
    refine .before ((hs s mem (payloadsPassable_iff.mp hp s mem) (hfit.of_mem mem)).write
      (caseSized_iff.mp sized s hpart) hvalue (ha.extend later) carries.lowered.ready
      (by rw [addr, addr_toNat]; omega)) ?_
    rw [addr]
    rintro parcel _ q4 _ ⟨blocks, behind⟩
    refine Code.Runs.pure ⟨rfl, rfl, blocks,
      (carries.and behind (fun i hi => ⟨inner i hi, ?_⟩) ?_ ?_).imp ?_⟩
    · simp only [Region] at hi
      omega
    · intro i hi
      simp only [Region, addr_toNat] at hi ⊢
      omega
    · intro i hi
      simp only [Region, addr_toNat, Fresh] at hi ⊢
      omega
    · rintro mem ⟨here, laid⟩
      exact ⟨index, parcel, rfl, hcount, here, caseLaid_iff.mpr (.inr ⟨s, hpart, laid⟩)⟩

theorem sum_mirrors (hfit : (sum l form payloads).Fits) :
    SendsWell raw realloc c (.sum l form payloads) := by
  refine ⟨fun {scope p r v} sized hr ready => ?_, fun {scope p r ra v a offset} sized hr ha ready
    inside => ?_⟩
  · rw [lower, lowerCases_eq]
    simp only [Nat.zero_add, send]
    cases v with
    | case index payload =>
      by_cases hcount : index < .ofNat payloads.length
      · have body := fun part (hpart : payloads[index.toNat]? = some part) k (_ : p.next ≤ k) =>
          lowerCase_mirrors l form hs hp hfit.1 hcount hpart (sized index payload rfl) ready k
        simp only [if_pos hcount]
        refine .map _ (.ownBlocks (steps_blocks _) (.cons hr .nil) fun hsize =>
          (runCases_mirrors hcount body hsize).imp ?_)
        rintro parcel _ m ⟨kept, rs, n, ⟨xs, blocks, holds, carries⟩, rfl⟩
        rw [holds.map_reg]
        refine ⟨kept, ?_, fun rs q _ alike holds => ⟨xs, blocks, holds, carries.alike alike⟩⟩
        rw [length_map, ← carries.secures.here.holds.length_eq]
        rfl
      · exact .ownBlocks (steps_blocks _) (.cons hr .nil) fun hsize => outside_mirrors hcount
    | _ => exact .ownBlocks (steps_blocks _) (.cons hr .nil) fun hsize => .of_error rfl rfl
  · rw [write, writeCases_eq, ← bind_assoc]
    simp only [Nat.zero_add, send]
    refine .before (Q := fun parcel _ q => Deposits realloc _ (fun mem blocks =>
      (sum l form payloads).Laid raw mem parcel (a + offset) blocks) p.machine q.machine) ?_
      fun parcel _ q _ deposits => Code.Runs.pure ⟨rfl, deposits⟩
    cases v with
    | case index payload =>
      by_cases hcount : index < .ofNat payloads.length
      · have body := fun part (hpart : payloads[index.toNat]? = some part) k (hk : p.next ≤ k) =>
          writeCase_mirrors hs hp hfit hcount hpart (sized index payload rfl) ha ready inside hk
        simp only [if_pos hcount]
        refine .map _ (.ownBlocks (steps_blocks _) (.cons hr .nil) fun hsize =>
          (runCases_mirrors hcount body hsize).imp ?_)
        rintro parcel _ m ⟨kept, _, n, ⟨rfl, blocks, carries⟩, rfl⟩
        exact ⟨kept, rfl, fun _ q _ alike _ => ⟨blocks, carries.alike alike⟩⟩
      · exact .ownBlocks (steps_blocks _) (.cons hr .nil) fun hsize => outside_mirrors hcount
    | _ => exact .ownBlocks (steps_blocks _) (.cons hr .nil) fun hsize => .of_error rfl rfl

end

/-! ## Flags -/

theorem lowerFlags_mirrors {count : Nat} (hr : p.Holds r v) :
    (emit (.lowerFlags l count) [r]).Mirrors c scope p ((flags l count).send raw stored v)
      fun parcel rs q => ∃ lanes : List UInt32, lanes.length = (FlagsStorage.ofCount count).lanes
        ∧ q.HoldsAll rs (lanes.map .ofU32) ∧ q.machine.Alike p.machine
        ∧ parcel = .flags count (if stored then reloadLanes count lanes else lanes) := by
  cases v with
  | flags fs =>
    refine (lowerFlags_runs hr).imp ?_
    rintro rs q _ ⟨holds, alike⟩
    refine ⟨_, ?_, _, length_flagLanes _ _, holds, alike, rfl⟩
    rw [alike.custody]
    rfl
  | _ => exact .emit (.cons hr .nil) (.of_error rfl rfl)

/-! ## All shapes -/

theorem sendMirrors (s : Shape) : SendMirrors raw realloc c s := by
  induction s with
  | scalar s =>
    exact fun _ _ => ⟨fun _ _ _ _ _ => lowerSingle_mirrors rfl,
      fun _ _ _ _ _ _ _ _ => writeSingle_mirrors rfl s.width_storeOp⟩
  | enum l cases =>
    refine fun _ _ => ⟨fun _ _ _ _ _ => lowerSingle_mirrors rfl,
      fun _ _ _ _ _ _ _ _ => writeSingle_mirrors rfl ?_⟩
    rw [IntWidth.width_storeOp _ (tagWidth_ne cases)]
    exact (IntWidth.width_loadOp _ (tagWidth_ne cases)).symm
  | handle l form type =>
    exact fun _ _ => ⟨fun _ _ _ _ _ => lowerSingle_mirrors rfl,
      fun _ _ _ _ _ _ _ _ => writeSingle_mirrors rfl rfl⟩
  | string =>
    refine fun _ _ => ⟨fun _ _ _ _ sized hr ready => ?_,
      fun _ _ _ _ _ _ _ sized hr ha ready inside => ?_⟩
    · exact (lowerString_mirrors sized hr ready).imp fun _ _ _ _ points => points.spreads
    · refine .before (lowerString_mirrors sized hr ready) ?_
      exact fun parcel rs q later points => storePair_deposits points (ha.extend later) inside
  | list l elem ih =>
    refine fun hp hfit => ⟨fun _ _ _ _ sized hr ready => ?_,
      fun _ _ _ _ _ _ _ sized hr ha ready inside => ?_⟩
    · exact (lowerList_mirrors ih hp hfit sized hr ready).imp fun _ _ _ _ points => points.spreads
    · refine .before (lowerList_mirrors ih hp hfit sized hr ready) ?_
      exact fun parcel rs q later points => storePair_deposits points (ha.extend later) inside
  | product l form fields ih =>
    refine fun hp hfit => ⟨fun _ _ _ _ sized hr ready => lowerProduct_mirrors hr ?_,
      fun _ _ _ _ _ _ _ sized hr ha ready inside => lowerProduct_mirrors hr ?_⟩
    · rintro vs rs q rfl length _ hrs alike
      refine (lowerFields_mirrors ih hp hfit.1 length (sized vs rfl) hrs (alike.ready ready)).imp ?_
      rintro ps _ q' _ spreads
      obtain ⟨xs, blocks, holds, carries⟩ := spreads.since alike
      exact ⟨xs, blocks, holds, carries.imp fun mem spread => ⟨ps, rfl, spread⟩⟩
    · rintro vs rs q rfl length later hrs alike
      refine (writeFields_mirrors ih hp hfit.1 length (sized vs rfl) hrs (ha.extend later)
        (alike.ready ready) (placedOffsets_between hfit.1 hfit.2) (alike.world ▸ inside)).imp ?_
      rintro ps _ q' _ ⟨blocks, carries⟩
      exact ⟨blocks, (carries.since alike).imp fun mem laid => ⟨ps, rfl, laid⟩⟩
  | sum l form payloads ih => exact fun hp hfit => sum_mirrors ih hp hfit
  | flags l count =>
    refine fun _ hfit => ⟨fun _ _ _ _ _ hr ready => (lowerFlags_mirrors hr).imp ?_,
      fun _ _ _ _ _ _ _ _ hr ha ready inside => .before (lowerFlags_mirrors hr) ?_⟩
    · rintro _ rs q _ ⟨lanes, length, holds, alike, rfl⟩
      refine ⟨lanes.map (·.toUInt64), [], ?_, .of_alike ready alike fun mem => ?_⟩
      · rw [map_map]
        exact holds
      · exact ⟨lanes, length, rfl, rfl, rfl⟩
    · rintro _ rs q later ⟨lanes, length, holds, alike, rfl⟩
      refine (storeFlags_runs hfit length (alike.ready ready) holds (ha.extend later)
        (alike.world ▸ inside)).imp ?_
      intro _ q' _ stores
      refine ⟨stores.custody, [], ((stores.carries realloc).since alike).imp ?_⟩
      exact fun mem lie => ⟨lanes, length, lie, rfl, rfl⟩
  | synonym l target ih =>
    exact fun hp hfit => ⟨fun _ _ _ _ => lower?_mirrors ih hp hfit,
      fun _ _ _ _ _ a offset => write?_mirrors ih hp hfit a offset⟩
  | channel | resource | unfinished => exact fun hp => hp.elim

end Parts

end CanonicalAbi
