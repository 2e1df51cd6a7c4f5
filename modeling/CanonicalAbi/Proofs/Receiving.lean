import CanonicalAbi.Proofs.Carriage
import CanonicalAbi.Proofs.Loading

/-!
# Receiving parcels

Lifting core values over which a parcel is spread does what `receive` says, and so does reading a
parcel that was laid down.
-/

namespace CanonicalAbi

open List Code Exec

variable {α : Type} [BumpLike α] {rs : List Reg} {v : Value} {r ra : Reg} {i : Instr} {owned : Bool}
  {p q : Point α} {a ptr count : UInt32} {elem : Option Shape} {ps : List Parcel} {l : Label}

/-- A register holds a value whose blocks were given back, if they were handed over. -/
def Obtains (owned : Bool) (blocks : List Allocation) (p : Point α) (v : Value) (r : Reg)
    (q : Point α) : Prop :=
  q.Holds r v ∧ Lifted owned blocks p.machine q.machine

def ObtainsAll (owned : Bool) (blocks : List Allocation) (p : Point α) (vs : List Value)
    (rs : List Reg) (q : Point α) : Prop :=
  q.HoldsAll rs vs ∧ Lifted owned blocks p.machine q.machine

theorem Obtains.since {blocks : List Allocation} {q' : Point α} (h : Obtains owned blocks q v r q')
    (hm : q.machine.Alike p.machine) : Obtains owned blocks p v r q' :=
  ⟨h.1, h.2.since hm⟩

theorem ObtainsAll.head {blocks : List Allocation} {c : Setting α} {scope : Scope}
    {E : Failure → Prop} (h : ObtainsAll owned blocks p [v] rs q) :
    (pure (rs.headD 0) : Code Reg).Runs E c scope q fun r q' =>
      q'.machine.custody = q.machine.custody ∧ Obtains owned blocks p v r q' := by
  obtain ⟨holds, lifted⟩ := h
  cases holds with
  | cons holds rest => exact Code.Runs.pure ⟨rfl, holds, lifted⟩

theorem Obtains.cons {first rest : List Allocation} {q' : Point α} {vs : List Value}
    (head : Obtains owned first p v r q) (later : q.Extends q')
    (tail : ObtainsAll owned rest q vs rs q') :
    ObtainsAll owned (first ++ rest) p (v :: vs) (r :: rs) q' :=
  ⟨.cons (head.1.extend later) tail.1, head.2.trans tail.2⟩

section Contract

variable (raw : RawRule) (c : Setting α)

/-- Lifting makes the value of a parcel, and frees its blocks if they are owned. -/
structure ReceivesWell (s : Shape) : Prop where
  lift ⦃scope : Scope⦄ ⦃p : Point α⦄ ⦃rs : List Reg⦄ ⦃parcel : Parcel⦄ ⦃xs : List UInt64⦄
    ⦃blocks : List Allocation⦄ :
    s.Spread raw p.machine.world.memory parcel xs blocks → p.HoldsAll rs (xs.map .u64) →
    p.Ready →
    (lift raw s rs).Mirrors c scope p parcel.receive (Obtains c.owned blocks p)
  read ⦃scope : Scope⦄ ⦃p : Point α⦄ ⦃ra : Reg⦄ ⦃parcel : Parcel⦄ ⦃a offset : UInt32⦄
    ⦃blocks : List Allocation⦄ :
    s.Laid raw p.machine.world.memory parcel (a + offset) blocks → p.Holds ra (.ofU32 a) →
    p.Ready →
    (read raw s ra offset).Mirrors c scope p parcel.receive (Obtains c.owned blocks p)

def ReceiveMirrors (s : Shape) : Prop := s.Passable → ReceivesWell raw c s

end Contract

section Parts

variable {raw : RawRule} {c : Setting α} {scope : Scope} {p : Point α} {m : Machine α}
  {s : Shape} {parcel : Parcel} {blocks : List Allocation}

/-! ## Single core values -/

theorem liftWord_mirrors (hi : s.liftInstr = some i) (x : UInt64) (ready : m.world.Ready)
    {run : Nat → Scope → Exec α (List Value)} :
    Mirrors (s.opened x).receive (instr c scope 0 run i [.u64 x]) m fun v results m' =>
      m'.registers = m.registers ∧ results = [v] ∧ Lifted c.owned [] m m' := by
  have same : Lifted c.owned [] m m := .refl ready
  cases s with
  | scalar s =>
    cases hi
    simp only [instr, headD_cons, Value.core, Shape.opened]
    rcases s.liftValue x with e | v
    · exact .of_error rfl rfl
    · exact .of_ok rfl rfl ⟨rfl, rfl, same⟩
  | enum l cases =>
    cases hi
    have unfolded : instr c scope 0 run (.liftEnum l cases) [.u64 x]
        = if x.toUInt32 < .ofNat cases then pure [.u32 x.toUInt32]
          else throw (.invalidDiscriminant .eval [] x.toUInt32 (.ofNat cases - 1)) := rfl
    rw [unfolded, Shape.opened]
    by_cases inside : x.toUInt32 < .ofNat cases
    · rw [if_pos inside, if_pos inside]
      exact .of_ok rfl rfl ⟨rfl, rfl, same⟩
    · rw [if_neg inside, if_neg inside]
      exact .of_error rfl rfl
  | handle l form type =>
    cases hi
    refine (liftHandle_mirrors form type x.toUInt32).before ?_
    rintro v w m' ⟨hw, table, hm⟩
    subst hw hm
    exact Does.pure ⟨rfl, rfl, rfl, .of_table ready table⟩
  | _ => simp [Shape.liftInstr] at hi

theorem liftSingle_mirrors (hi : s.liftInstr = some i) {x : UInt64} (hr : p.Holds r (.u64 x))
    (ready : p.Ready) :
    (emitOne i [r]).Mirrors c scope p (s.opened x).receive (Obtains c.owned [] p) := by
  refine .emitOne (results_liftInstr hi) (.cons hr .nil) ((liftWord_mirrors hi x ready).imp ?_)
  rintro v results m ⟨hregs, hresults, lifted⟩
  exact ⟨hregs, v, hresults, fun r q _ alike holds => ⟨holds, lifted.alike alike⟩⟩

theorem readSingle_mirrors (hi : s.liftInstr = some i) {offset : UInt32}
    (h : s.LaidSingle p.machine.world.memory parcel (a + offset) blocks)
    (ha : p.Holds ra (.ofU32 a)) (ready : p.Ready) :
    (load s.loadOp ra offset >>= fun flat => emitOne i [flat]).Mirrors c scope p
      parcel.receive (Obtains c.owned blocks p) := by
  obtain ⟨x, lies, rfl, rfl⟩ := h
  refine .after (reload_runs ha lies) ?_
  rintro r q _ ⟨hr, alike⟩
  refine ⟨alike.custody, (liftSingle_mirrors hi hr (alike.ready ready)).imp ?_⟩
  exact fun v r' q' _ obtains => obtains.since alike

/-! ## Texts, bytes and lists -/

theorem liftBlock_mirrors (hi : i.results = 1)
    (h : runFrom (instr c scope 0 (fun n s => nth c s n []) i
        [.ofU32 ptr, .ofU32 count]) p.machine
      = runFrom (freeOwned c ptr count 1 >>= fun _ => pure [v]) p.machine)
    (hrs : p.HoldsAll rs [.ofU32 ptr, .ofU32 count]) (ready : p.Ready) :
    (emitOne i rs).Mirrors c scope p (Parcel.leaf (some v)).receive
      (Obtains c.owned [⟨ptr, count, 1⟩] p) := by
  obtain ⟨m', ran, hregs, htable, lifted⟩ := runFrom_freeOwned ready c ptr count 1
  rw [runFrom_bind_ok ran] at h
  have custody : m'.custody = p.machine.custody := by
    rw [Machine.custody, Machine.custody, htable, lifted.lent]
  refine .emitOne hi hrs (.of_ok (a := v) h ?_ ⟨hregs, v, rfl, fun r q _ alike holds => ?_⟩)
  · rw [custody]
    rfl
  · exact ⟨holds, lifted.alike alike⟩

theorem liftString_mirrors (h : PackLies p.machine.world.memory .text ptr count parcel blocks)
    (hrs : p.HoldsAll rs [.ofU32 ptr, .ofU32 count]) (ready : p.Ready) :
    (emitOne .liftString rs).Mirrors c scope p parcel.receive (Obtains c.owned blocks p) := by
  obtain ⟨data, rfl, block, rfl⟩ := h
  have read := runFrom_bytesAt block
  rw [Parcel.text]
  by_cases valid : Text.Utf8.isValid data = true
  · rw [if_pos valid]
    refine liftBlock_mirrors rfl ?_ hrs ready
    simp only [instr, liftString, headD_cons, getD_cons_succ,
      getD_cons_zero, toUInt32_core_ofU32, bind_assoc]
    rw [runFrom_bind_ok read]
    simp only [valid, if_true]
    rw [bind_assoc]
    rfl
  · refine .emitOne rfl hrs ?_
    simp only [instr, liftString, headD_cons, getD_cons_succ,
      getD_cons_zero, toUInt32_core_ofU32, bind_assoc]
    refine .after (Does.of_ok read (Q := fun found m => found = data ∧ m = p.machine) ⟨rfl, rfl⟩) ?_
    rintro found m ⟨hfound, hm⟩
    subst hfound hm
    refine ⟨rfl, ?_⟩
    simp only [valid]
    exact .of_error rfl rfl

section

variable {part : Option Shape} (hs : ∀ s, part = some s → ReceiveMirrors raw c s)
  (hp : Passable? part)
include hs hp

theorem lift?_mirrors {xs : List UInt64}
    (h : Spread? raw p.machine.world.memory part parcel xs blocks)
    (hrs : p.HoldsAll rs (xs.map .u64)) (ready : p.Ready) :
    (lift? raw part rs).Mirrors c scope p parcel.receive (Obtains c.owned blocks p) := by
  cases part with
  | none => exact hp.elim
  | some s => exact (hs s rfl hp).lift h hrs ready

theorem read?_mirrors (a offset : UInt32)
    (h : Laid? raw p.machine.world.memory part parcel (a + offset) blocks)
    (ha : p.Holds ra (.ofU32 a)) (ready : p.Ready) :
    (read? raw part ra offset).Mirrors c scope p parcel.receive (Obtains c.owned blocks p) := by
  cases part with
  | none => exact hp.elim
  | some s => exact (hs s rfl hp).read h ha ready

end

section

variable (hs : ∀ s, elem = some s → ReceiveMirrors raw c s) (hp : Passable? elem)
include hs hp

theorem readElem_mirrors {base : UInt32} {k : Reg} (ready : m.world.Ready)
    (h : Laid? raw m.world.memory elem parcel base blocks) :
    (readElem raw elem).Mirrors c { base } ⟨k, m⟩ parcel.receive fun v rs q =>
      q.HoldsAll rs [v] ∧ Lifted c.owned blocks m q.machine := by
  refine .after (emitOne_runs rfl .nil rfl) ?_
  rintro ra q1 _ ⟨hra, alike⟩
  have laid : Laid? raw q1.machine.world.memory elem parcel (base + 0) blocks := by
    rw [UInt32.add_zero, alike.world]
    exact h
  refine ⟨alike.custody, .before (read?_mirrors hs hp base 0 laid hra (alike.ready ready)) ?_⟩
  rintro v r q2 _ ⟨holds, lifted⟩
  exact Code.Runs.pure ⟨rfl, .cons holds .nil, lifted.since alike⟩

theorem liftElems_mirrors {before : List Value} {k : Nat} {base : UInt32} (ready : m.world.Ready)
    (row : RowLies (Laid? raw m.world.memory elem) (place? elem).size base ps blocks)
    (hsize : ((Code.blocks [Code.readElem raw elem]).run k).next ≤ m.registers.size) :
    Mirrors (Parcel.receiveAll ps) (liftElems
      (fun s => nth c s 0 ((Code.blocks [Code.readElem raw elem]).run k).value)
      (place? elem).size before base ps.length) m fun vs out m' =>
        Kept k m m' ∧ out = before.reverse ++ vs ∧ Lifted c.owned blocks m m' := by
  induction ps generalizing m base before blocks with
  | nil =>
    cases row
    exact .of_ok rfl rfl ⟨.of_eq rfl, (append_nil _).symm, .refl ready⟩
  | cons parcel ps ih =>
    obtain ⟨first, rest, head, tail, rfl⟩ := row
    refine .bind (Code.Mirrors.nth (n := 0) rfl (fun k' _ => readElem_mirrors hs hp ready head)
      hsize) ?_
    rintro v out m1 ⟨kept, rs, n, ⟨holds, lifted⟩, hout⟩
    rw [hout, holds.map_reg, headD_cons, bind_pure_comp]
    refine .map _ ((ih (lifted.ready ready).1 (lifted.memory ▸ tail)
      (by rw [kept.size]; exact hsize)).imp ?_)
    rintro vs out m2 ⟨kept', hout, lifted'⟩
    refine ⟨kept.trans kept' (Nat.le_refl _), ?_, lifted.trans lifted'⟩
    rw [hout, reverse_cons, append_assoc, singleton_append]

theorem liftList_mirrors
    (h : ListLies raw p.machine.world.memory elem (Laid? raw p.machine.world.memory elem) ptr count
      parcel blocks)
    (hrs : p.HoldsAll rs [.ofU32 ptr, .ofU32 count]) (ready : p.Ready) :
    (Code.liftList raw l elem (fun addr => Code.read? raw elem addr 0) rs).Mirrors c scope p
      parcel.receive (Obtains c.owned blocks p) := by
  rw [ListLies] at h
  rw [Code.liftList]
  split_ifs at h ⊢ with hbytes
  · obtain ⟨byte, data, rfl, block, rfl⟩ := h
    refine liftBlock_mirrors rfl ?_ hrs ready
    simp only [instr, requireBytes, byte, if_true, headD_cons, getD_cons_succ,
      getD_cons_zero, toUInt32_core_ofU32, pure_bind]
    rw [runFrom_bind_ok (runFrom_bytesAt block)]
  · obtain ⟨ps, elems, rfl, length, row, rfl⟩ := h
    change (Code.blocks [Code.readElem raw elem] >>= fun blocks =>
      Code.own (.liftList l elem) rs blocks >>= fun outs => pure (outs.headD 0)).Mirrors _ _ _ _ _
    refine .before (Q := fun v outs q => ObtainsAll c.owned _ p [v] outs q)
      (.map _ (.ownBlocks (Code.steps_blocks _) hrs fun hsize => ?_))
      fun v outs q _ obtains => obtains.head
    rw [instr_liftList hp, ← length]
    refine (liftElems_mirrors hs hp ready row hsize).before ?_
    rintro vs out m1 ⟨kept, hout, lifted⟩
    obtain ⟨m2, ran, hregs, htable, freed⟩ := runFrom_freeOwned (lifted.ready ready).1 c ptr
      ((place? elem).size * count) (place? elem).align
    have custody : m2.custody = m1.custody := by
      rw [Machine.custody, Machine.custody, htable, freed.lent]
    refine Does.of_ok (runFrom_bind_ok ran) ⟨custody,
      kept.trans (.of_eq hregs) (Nat.le_refl _), rfl, fun outs q _ alike holds => ?_⟩
    rw [hout] at holds
    exact ⟨holds, (lifted.trans freed).alike alike⟩

end

/-! ## Products -/

variable {fields : Parts}

section

variable (hs : ∀ s, some s ∈ fields → ReceiveMirrors raw c s) (hp : FieldsPassable fields)
include hs hp

theorem liftFields_mirrors {xs : List UInt64}
    (h : FieldsSpread raw p.machine.world.memory fields ps xs blocks)
    (hrs : p.HoldsAll rs (xs.map .u64)) (ready : p.Ready) :
    (liftFields raw fields rs).Mirrors c scope p (Parcel.receiveAll ps)
      (ObtainsAll c.owned blocks p) := by
  induction fields generalizing p rs ps xs blocks with
  | nil =>
    cases ps with
    | cons => exact h.elim
    | nil =>
      obtain ⟨_, rfl⟩ := h
      exact .pure ⟨.nil, .refl ready⟩
  | cons part fields ih =>
    cases ps with
    | nil => exact h.elim
    | cons parcel ps =>
      obtain ⟨ys, zs, first, rest, head, tail, rfl, rfl⟩ := h
      have count : (slots? part).length = ys.length := by
        cases part with
        | none => exact head.elim
        | some s => exact head.holds.length_eq
      rw [map_append] at hrs
      have hys : p.HoldsAll (rs.take (slots? part).length) (ys.map .u64) := by
        have := forall₂_take (slots? part).length hrs
        rwa [take_left' (by rw [length_map, count])] at this
      have hzs : p.HoldsAll (rs.drop (slots? part).length) (zs.map .u64) := by
        have := forall₂_drop (slots? part).length hrs
        rwa [drop_left' (by rw [length_map, count])] at this
      refine .bind (lift?_mirrors (head_part hs) hp.1 head hys ready) ?_
      intro v r q1 h1 obtains
      refine .bind (ih (tail_parts hs) hp.2 (obtains.2.memory ▸ tail)
        (Point.HoldsAll.extend hzs h1) (obtains.2.ready ready).1) ?_
      exact fun vs rs' q2 h2 others => .pure (obtains.cons h2 others)

theorem readFields_mirrors {offsets : List UInt32} {offset : UInt32}
    (h : FieldsLaid raw p.machine.world.memory fields offsets ps (a + offset) blocks)
    (ha : p.Holds ra (.ofU32 a)) (ready : p.Ready) :
    (readFields raw fields offsets ra offset).Mirrors c scope p (Parcel.receiveAll ps)
      (ObtainsAll c.owned blocks p) := by
  induction fields generalizing p ps offsets blocks with
  | nil =>
    cases ps with
    | cons => cases offsets <;> exact h.elim
    | nil =>
      have code : readFields raw [] offsets ra offset = return [] := by
        cases offsets <;> rfl
      have none : blocks = [] := by cases offsets <;> exact h
      rw [code, none]
      exact .pure ⟨.nil, .refl ready⟩
  | cons part fields ih =>
    cases offsets with
    | nil => cases ps <;> exact h.elim
    | cons start offsets =>
      cases ps with
      | nil => exact h.elim
      | cons parcel ps =>
        obtain ⟨first, rest, head, tail, rfl⟩ := h
        rw [UInt32.add_assoc] at head
        refine .bind (read?_mirrors (head_part hs) hp.1 a
          (offset + start) head ha ready) ?_
        intro v r q1 h1 obtains
        refine .bind (ih (tail_parts hs) hp.2 (obtains.2.memory ▸ tail) (ha.extend h1)
          (obtains.2.ready ready).1) ?_
        exact fun vs rs' q2 h2 others => .pure (obtains.cons h2 others)

end

/-! ## Sums -/

theorem liftSum_mirrors {form : SumForm} {cases : Nat} {index : UInt32}
    {bodies : List (Code (List Reg))} {body : Code (List Reg)}
    (hcount : index < .ofNat bodies.length) (hbody : bodies[index.toNat]? = some body)
    (hr : p.Holds r (.ofU32 index))
    (h : ∀ k', p.next ≤ k' → body.Mirrors c {} ⟨k', p.machine⟩ parcel.receive fun v rs q =>
      ∃ ws, ObtainsAll c.owned blocks p ws rs q ∧ ws.headD .nothing = v) :
    (Code.blocks bodies >>= fun blocks => Code.own (.liftSum form l cases) [r] blocks
      >>= fun outs =>
      pure (outs.headD 0)).Mirrors c scope p (Parcel.case index parcel).receive
        (Obtains c.owned blocks p) := by
  rw [← bind_assoc]
  refine .before (Q := fun v outs q => ObtainsAll c.owned blocks p [v] outs q)
    (.map _ (.ownBlocks (Code.steps_blocks _) (.cons hr .nil) fun hsize => ?_))
    fun v outs q _ obtains => obtains.head
  have unfolded : ∀ (n : Nat) (run : Nat → Scope → Exec α (List Value)),
      instr c scope n run (.liftSum form l cases) [.ofU32 index] = (do
        let out ← runCase n run index {}
        return [.case index (out.headD .nothing)]) := by
    intro n run
    simp only [instr, headD_cons, toUInt32_core_ofU32]
  rw [unfolded, Code.runCase_eq hcount]
  refine (Code.Mirrors.nth hbody h hsize).before ?_
  rintro v out m ⟨kept, rs, n, ⟨ws, ⟨holds, lifted⟩, hv⟩, hout⟩
  rw [hout, holds.map_reg, hv]
  exact Does.pure ⟨rfl, kept, rfl, fun outs q _ alike holds => ⟨holds, lifted.alike alike⟩⟩

variable {payloads : Parts}

section

variable {index : Nat} (hs : ∀ s, some s ∈ payloads → ReceiveMirrors raw c s)
  (hp : PayloadsPassable payloads)
include hs hp

theorem liftCase_mirrors {rest : List UInt64}
    (h : CaseSpread raw p.machine.world.memory (flatSum (payloadSlots payloads)).tail payloads index
      parcel rest blocks)
    (hrest : List.Forall₂ CoreType.Holds (flatSum (payloadSlots payloads)).tail rest)
    (hrs : p.HoldsAll rs (rest.map .u64)) (ready : p.Ready) :
    ∃ part, payloads[index]? = some part ∧ ∀ k', p.next ≤ k' →
      (liftCase raw (flatSum (payloadSlots payloads)).tail rs part).Mirrors c {} ⟨k', p.machine⟩
        parcel.receive fun v rs q =>
          ∃ ws, ObtainsAll c.owned blocks p ws rs q ∧ ws.headD .nothing = v := by
  rcases caseSpread_iff.mp h with ⟨hpart, rfl, rfl⟩ | ⟨s, hpart, spread⟩
  · exact ⟨none, hpart, fun k' _ => .pure ⟨[], ⟨.nil, .refl ready⟩, rfl⟩⟩
  · refine ⟨some s, hpart, fun k' hk => ?_⟩
    have mem : some s ∈ payloads := mem_of_getElem? hpart
    have fits : FitSlots s.slots _ := FitSlots.of_mem mem
    have taken : Point.HoldsAll ⟨k', p.machine⟩ (rs.take s.slots.length)
        ((rest.take s.slots.length).map .u64) := by
      rw [map_take]
      exact forall₂_take _ (Point.HoldsAll.extend hrs (.ahead hk))
    have length : (castsBetween ((flatSum (payloadSlots payloads)).tail.take s.slots.length)
        s.slots).length = (rest.take s.slots.length).length := by
      have := fits.length_le
      rw [length_castsBetween_down fits, length_take, ← hrest.length_eq]
      omega
    refine .after (castSlots_runs taken length) ?_
    rintro flats q1 _ ⟨hflats, alike⟩
    refine ⟨alike.custody, .before ((hs s mem (payloadsPassable_iff.mp hp s mem)).lift
      (alike.world ▸ spread) hflats (alike.ready ready)) ?_⟩
    rintro v r q2 _ ⟨holds, lifted⟩
    exact Code.Runs.pure ⟨rfl, [v], ⟨.cons holds .nil, lifted.since alike⟩, rfl⟩

theorem readCase_mirrors {start : UInt32}
    (h : CaseLaid raw p.machine.world.memory payloads index parcel (a + start) blocks)
    (ha : p.Holds ra (.ofU32 a)) (ready : p.Ready) :
    ∃ part, payloads[index]? = some part ∧ ∀ k', p.next ≤ k' →
      (readCase raw ra start part).Mirrors c {} ⟨k', p.machine⟩ parcel.receive fun v rs q =>
        ∃ ws, ObtainsAll c.owned blocks p ws rs q ∧ ws.headD .nothing = v := by
  rcases caseLaid_iff.mp h with ⟨hpart, rfl, rfl⟩ | ⟨s, hpart, laid⟩
  · exact ⟨none, hpart, fun k' _ => .pure ⟨[], ⟨.nil, .refl ready⟩, rfl⟩⟩
  · refine ⟨some s, hpart, fun k' hk => ?_⟩
    have mem : some s ∈ payloads := mem_of_getElem? hpart
    have later : p.Extends ⟨k', p.machine⟩ := .ahead hk
    refine .before ((hs s mem (payloadsPassable_iff.mp hp s mem)).read (p := ⟨k', p.machine⟩)
      laid (ha.extend later) ready) ?_
    rintro v r q _ ⟨holds, lifted⟩
    exact Code.Runs.pure ⟨rfl, [v], ⟨.cons holds .nil, lifted⟩, rfl⟩

end

/-! ## Flags -/

theorem liftFlags_mirrors {count : Nat} {lanes : List UInt32}
    (hrs : p.HoldsAll rs (lanes.map .ofU32)) (ready : p.Ready) :
    (emitOne (.liftFlags l count) rs).Mirrors c scope p (Parcel.flags count lanes).receive
      (Obtains c.owned [] p) := by
  have words : (lanes.map Value.ofU32).map (·.core.toUInt32) = lanes := by
    rw [map_map]
    exact (map_congr_left fun n _ => toUInt32_core_ofU32 n).trans (map_id _)
  refine .emitOne rfl hrs ?_
  simp only [instr, words]
  exact .of_ok rfl rfl ⟨rfl, _, rfl, fun r q _ alike holds =>
    ⟨holds, (Lifted.refl ready).alike alike⟩⟩

/-! ## All shapes -/

theorem receiveMirrors (s : Shape) : ReceiveMirrors raw c s := by
  induction s with
  | scalar s =>
    refine fun _ => ⟨?_, fun _ _ _ _ _ _ _ => readSingle_mirrors (s := .scalar s) rfl⟩
    rintro scope p _ _ _ _ ⟨x, rfl, _, rfl, rfl⟩ (_ | ⟨hr, _ | _⟩) ready
    exact liftSingle_mirrors (s := .scalar s) rfl hr ready
  | enum l cases =>
    refine fun _ => ⟨?_, fun _ _ _ _ _ _ _ => readSingle_mirrors (s := .enum l cases) rfl⟩
    rintro scope p _ _ _ _ ⟨x, rfl, _, rfl, rfl⟩ (_ | ⟨hr, _ | _⟩) ready
    exact liftSingle_mirrors (s := .enum l cases) rfl hr ready
  | handle l form type =>
    refine fun _ => ⟨?_, fun _ _ _ _ _ _ _ => readSingle_mirrors (s := .handle l form type) rfl⟩
    rintro scope p _ _ _ _ ⟨x, rfl, _, rfl, rfl⟩ (_ | ⟨hr, _ | _⟩) ready
    exact liftSingle_mirrors (s := .handle l form type) rfl hr ready
  | string =>
    refine fun hp => ⟨?_, ?_⟩
    · rintro scope p rs _ _ _ ⟨ptr, count, rfl, text⟩ hrs ready
      exact liftString_mirrors text hrs ready
    · rintro scope p ra _ a offset _ ⟨ptr, count, pair, text⟩ ha ready
      refine .after (loadPair_runs ha pair) ?_
      rintro rs q _ ⟨hrs, alike⟩
      refine ⟨alike.custody, (liftString_mirrors (alike.world ▸ text) hrs
        (alike.ready ready)).imp ?_⟩
      exact fun v r q' _ obtains => obtains.since alike
  | list l elem ih =>
    refine fun hp => ⟨?_, ?_⟩
    · rintro scope p rs _ _ _ ⟨ptr, count, rfl, list⟩ hrs ready
      exact liftList_mirrors ih hp list hrs ready
    · rintro scope p ra _ a offset _ ⟨ptr, count, pair, list⟩ ha ready
      refine .after (loadPair_runs ha pair) ?_
      rintro rs q _ ⟨hrs, alike⟩
      refine ⟨alike.custody, (liftList_mirrors ih hp (alike.world ▸ list) hrs
        (alike.ready ready)).imp ?_⟩
      exact fun v r q' _ obtains => obtains.since alike
  | product l form fields ih =>
    refine fun hp => ⟨?_, ?_⟩
    · rintro scope p rs _ xs _ ⟨ps, rfl, spread⟩ hrs ready
      refine .map _ (.before (liftFields_mirrors ih hp spread hrs ready) ?_)
      rintro vs rs' q _ ⟨holds, lifted⟩
      refine (liftProduct_runs holds).imp ?_
      rintro r q' _ ⟨hr, alike⟩
      exact ⟨alike.custody, hr, lifted.alike alike⟩
    · rintro scope p ra _ a offset _ ⟨ps, rfl, laid⟩ ha ready
      refine .map _ (.before (readFields_mirrors ih hp laid ha ready) ?_)
      rintro vs rs' q _ ⟨holds, lifted⟩
      refine (liftProduct_runs holds).imp ?_
      rintro r q' _ ⟨hr, alike⟩
      exact ⟨alike.custody, hr, lifted.alike alike⟩
  | sum l form payloads ih =>
    refine fun hp => ⟨?_, ?_⟩
    · rintro scope p _ _ _ _ ⟨index, payload, rest, rfl, hcount, rfl, hrest, spread⟩
        (_ | ⟨hr, hrs⟩) ready
      rw [Code.lift, liftCases_eq]
      obtain ⟨part, hpart, body⟩ := liftCase_mirrors ih hp spread hrest hrs ready
      exact liftSum_mirrors (by rwa [length_map]) (by rw [List.getElem?_map, hpart]; rfl) hr body
    · rintro scope p ra _ a offset _ ⟨index, payload, rfl, hcount, lies, laid⟩ ha ready
      rw [← IntWidth.width_loadOp _ (tagWidth_ne payloads.length)] at lies
      refine .after (load_runs ha lies (recovers_tag (toNat_lt_of_lt_ofNat hcount))) ?_
      rintro r q later ⟨hr, alike⟩
      rw [UInt32.add_assoc] at laid
      obtain ⟨part, hpart, body⟩ := readCase_mirrors ih hp (alike.world ▸ laid) (ha.extend later)
        (alike.ready ready)
      rw [readCases_eq]
      refine ⟨alike.custody,
        (liftSum_mirrors (by rwa [length_map]) (by rw [List.getElem?_map, hpart]; rfl)
          hr body).imp ?_⟩
      exact fun v r' q' _ obtains => obtains.since alike
  | flags l count =>
    refine fun hp => ⟨?_, ?_⟩
    · rintro scope p rs _ _ _ ⟨lanes, length, rfl, rfl, rfl⟩ hrs ready
      rw [List.map_map] at hrs
      exact liftFlags_mirrors hrs ready
    · rintro scope p ra _ a offset _ ⟨lanes, length, lie, rfl, rfl⟩ ha ready
      refine .after (loadFlags_runs length ha lie) ?_
      rintro rs q _ ⟨hrs, alike⟩
      refine ⟨alike.custody, (liftFlags_mirrors hrs (alike.ready ready)).imp ?_⟩
      exact fun v r q' _ obtains => obtains.since alike
  | synonym l target ih =>
    exact fun hp => ⟨fun _ _ _ _ _ _ => lift?_mirrors ih hp,
      fun _ _ _ _ a offset _ => read?_mirrors ih hp a offset⟩
  | channel | resource | unfinished => exact fun hp => hp.elim

end Parts

end CanonicalAbi
