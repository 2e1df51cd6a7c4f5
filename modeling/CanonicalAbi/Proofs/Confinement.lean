import CanonicalAbi.Proofs.Framing
import CanonicalAbi.Proofs.Storing
import CanonicalAbi.Proofs.Parcels

/-!
# Lowered values stay in their places

Whatever value is lowered, of the right type or not: lowering it changes only memory that it obtains
itself, and storing it at an address changes besides only the bytes that its type takes there.
-/

namespace CanonicalAbi

open List Code

variable {α : Type} {l : Label} {elem part : Option Shape} {count : Nat} {rs : List Reg} {s : Shape}
  {i : Instr} {vs : List Value} {payloads : Parts}

/-! ## Addresses -/

/-- A register holds a value whose bits are taken for an address. -/
def Point.Addresses (p : Point α) (r : Reg) (a : UInt32) : Prop :=
  ∃ v, p.Holds r v ∧ v.core.toUInt32 = a

theorem Point.Addresses.extend {p q : Point α} {r : Reg} {a : UInt32} (h : p.Addresses r a)
    (hq : p.Extends q) : q.Addresses r a := by
  obtain ⟨v, holds, same⟩ := h
  exact ⟨v, holds.extend hq, same⟩

theorem Point.Addresses.of_holds {p : Point α} {r : Reg} {a : UInt32}
    (h : p.Holds r (.ofU32 a)) : p.Addresses r a :=
  ⟨_, h, by rw [Value.ofU32, Value.core, UInt32.toUInt32_toUInt64]⟩

section Confinement

variable [Firm α] {area : Nat → Prop} {raw : RawRule} {realloc : String} {c : Setting α}
  {scope : Scope} {p : Point α} {m : Machine α} {v : Value} {r ra : Reg} {a offset : UInt32}

/-! ## Stores -/

theorem store_confined (op : StoreOp) (rv : Reg) (ready : p.Ready)
    (ha : p.Addresses ra a)
    (harea : ∀ i, Around (a + offset) op.width.size.toNat i → area i) :
    (store op rv ra offset).Confined area c scope p fun _ _ => True := by
  obtain ⟨x, hx, rfl⟩ := ha
  refine .emitNone ?_
  simp only [Exec.instr, map_cons, map_nil, headD_cons, getD_cons_succ,
    getD_cons_zero, hx.2]
  refine ((Confined.store ready op _ _).widen harea).bind ?_
  exact fun _ m ready hregs => .pure ready hregs

theorem storePair_confined (rs : List Reg) (ready : p.Ready) (ha : p.Addresses ra a)
    (harea : ∀ i, Around (a + offset) 8 i → area i) :
    (storePair rs ra offset).Confined area c scope p fun _ _ => True := by
  have width : StoreOp.i32.width.size.toNat = 4 := rfl
  refine .bind (store_confined .i32 _ ready ha fun i hi => harea i ?_) ?_
  · rw [← UInt32.add_assoc, width] at hi
    exact hi.part (by decide)
  · intro _ q later ready' _
    refine store_confined .i32 _ ready' (ha.extend later) fun i hi => harea i ?_
    exact hi.mono (by rw [width]; omega)

theorem storeLanes_confined (rs : List Reg) (ready : p.Ready) (ha : p.Addresses ra a)
    (harea : ∀ i, Around (a + offset) (4 * rs.length) i → area i) :
    (storeLanes ra offset rs).Confined area c scope p fun _ _ => True := by
  induction rs generalizing p offset with
  | nil => exact .pure ready trivial
  | cons r rs ih =>
    rw [length_cons] at harea
    refine .bind (store_confined .i32 r ready ha fun i hi => harea i ?_) ?_
    · have width : StoreOp.i32.width.size.toNat = 4 := rfl
      exact hi.mono (by rw [width]; omega)
    · intro _ q later ready' _
      refine ih ready' (ha.extend later) fun i hi => harea i ?_
      have four : (4 : UInt32).toNat = 4 := rfl
      rw [← UInt32.add_assoc] at hi
      exact hi.part (by rw [four]; omega)

theorem storeFlags_confined (hfit : (Extent.flags count).size < 2 ^ 32)
    (length : rs.length = (FlagsStorage.ofCount count).lanes) (ready : p.Ready)
    (ha : p.Addresses ra a)
    (harea : ∀ i, Around (a + offset) (Layout.flags count).size.toNat i → area i) :
    (storeFlags count rs ra offset).Confined area c scope p fun _ _ => True := by
  have size := (Layout.flags_exact hfit).size
  rw [storeFlags]
  simp only [Extent.flags_eq] at size
  split_ifs with hunit
  · refine storeLanes_confined rs ready ha fun i hi => harea i ?_
    rw [size, hunit, ← length]
    exact hi
  · refine store_confined _ _ ready ha fun i hi => harea i ?_
    rw [IntWidth.width_storeOp _ (unit_ne count)] at hi
    rwa [size, lanes_eq_one hunit, Nat.mul_one]

/-! ## Single core values -/

theorem lowerWord_confined (hi : s.lowerInstr = some i) (ready : m.world.Ready) (n : Nat)
    (run : Nat → Scope → Exec α (List Value)) (args : List Value) :
    Confined area (Exec.instr c scope n run i args) m fun _ m' => m'.registers = m.registers := by
  cases s <;> cases hi
  case scalar s =>
    refine (Confined.ofExcept (Q := fun _ m' => m' = m) ready fun _ _ => rfl).bind ?_
    rintro _ m' ready' rfl
    exact .pure ready' rfl
  case enum l cases =>
    simp only [Exec.instr]
    split
    · exact .pure ready rfl
    · exact .throw ready _
  case handle l form type =>
    refine (Confined.lowerHandle ready form l type _).bind ?_
    exact fun _ m' ready' hregs => .pure ready' hregs

theorem lowerSingle_confined (hi : s.lowerInstr = some i) (ready : p.Ready) :
    (emit i [r]).Confined area c scope p fun _ _ => True :=
  (Code.Confined.emit_any (lowerWord_confined hi ready 0 _ _)).imp fun _ _ _ _ => trivial

theorem writeSingle_confined (hi : s.lowerInstr = some i) {op : StoreOp}
    (hop : op.width = s.loadOp.width) (ha : p.Addresses ra a) (ready : p.Ready)
    (harea : ∀ i, Around (a + offset) s.place.size.toNat i → area i) :
    (do
      let value ← emitOne i [r]
      store op value ra offset).Confined area c scope p fun _ _ => True := by
  refine .bind (.emitOne (lowerWord_confined hi ready 0 _ _)) ?_
  intro value q later ready' _
  refine store_confined op value ready' (ha.extend later) fun i hi' => harea i ?_
  rwa [Shape.size_single hi, ← hop]

/-! ## Texts and lists -/

theorem lowerString_confined (sized : Shape.string.Sized v) (hr : p.Holds r v)
    (ready : p.Ready) :
    (emit (.lowerString realloc) [r]).Confined area c scope p
      fun rs _ => rs.length = 2 := by
  refine .emit_any ?_
  rw [map_cons, hr.2]
  simp only [Exec.instr, headD_cons]
  split
  · next data => exact .putBytes ready realloc (sized data rfl)
  · exact .throw ready _

theorem lowerBytes_confined (sized : (Shape.list l elem).Sized v) (hr : p.Holds r v)
    (ready : p.Ready) :
    (emit (.lowerBytes l elem realloc) [r]).Confined area c scope p
      fun rs _ => rs.length = 2 := by
  refine .emit_any ?_
  rw [map_cons, hr.2]
  simp only [Exec.instr, headD_cons, Exec.requireBytes]
  by_cases byte : Program.isByte elem = true
  · simp only [if_pos byte]
    refine (Confined.pure (Q := fun _ m' => m' = p.machine) ready rfl).bind ?_
    rintro _ m ready' rfl
    split
    · next data => exact .putBytes ready' realloc (sized.1 data rfl)
    · exact .throw ready' _
  · simp only [if_neg byte]
    exact (Confined.throw (Q := fun _ _ => False) ready _).bind fun _ _ _ => False.elim

variable (raw realloc c) in
/-- Lowering a value changes only memory that is obtained for it, and storing it besides only the
bytes that it takes. -/
structure StaysPut (s : Shape) : Prop where
  lower {area : Nat → Prop} {scope : Scope} {p : Point α} {r : Reg} {v : Value} : s.Sized v →
    p.Holds r v → p.Ready →
    (lower raw realloc s r).Confined area c scope p fun _ _ => True
  write {area : Nat → Prop} {scope : Scope} {p : Point α} {r ra : Reg} {v : Value}
    {a offset : UInt32} : s.Sized v → p.Holds r v → p.Addresses ra a → p.Ready →
    (∀ i, Around (a + offset) s.place.size.toNat i → area i) →
    (write raw realloc s r ra offset).Confined area c scope p fun _ _ => True

variable (raw realloc c) in
def SendConfined (s : Shape) : Prop := s.Passable → s.Fits → StaysPut raw realloc c s

section

variable (hs : ∀ s, part = some s → SendConfined raw realloc c s) (hp : Passable? part)
  (hfit : Fits? part) (sized : Sized? part v) (hr : p.Holds r v)
include hs hp hfit sized hr

theorem lower?_confined (ready : p.Ready) :
    (lower? raw realloc part r).Confined area c scope p fun _ _ => True := by
  cases part with
  | none => exact hp.elim
  | some s => exact (hs s rfl hp hfit).lower sized hr ready

theorem write?_confined (ha : p.Addresses ra a) (ready : p.Ready)
    (harea : ∀ i, Around (a + offset) (place? part).size.toNat i → area i) :
    (write? raw realloc part r ra offset).Confined area c scope p fun _ _ => True := by
  cases part with
  | none => exact hp.elim
  | some s => exact (hs s rfl hp hfit).write sized hr ha ready harea

end

/-- In each turn the body runs for an element of a list, at the place of its index in a row. -/
def elemTurns (elem : Option Shape) (body : Scope → Exec α (List Value)) (ptr : UInt32)
    (elems : List (Value × Nat)) : List (Turn (Exec α Unit)) :=
  elems.map fun x =>
    let base := ptr + .ofNat ((extent? elem).size * x.2)
    (do let _ ← body { elem := x.1, base }, base, (extent? elem).size)

section

variable (hs : ∀ s, elem = some s → SendConfined raw realloc c s) (hp : Passable? elem)
  (hfit : Fits? elem)
include hs hp hfit

theorem writeElem_confined (sized : Sized? elem v) {base : UInt32} {k : Reg} (ready : m.world.Ready)
    (harea : ∀ i, Around base (place? elem).size.toNat i → area i) :
    (writeElem raw realloc elem).Confined area c { elem := v, base } ⟨k, m⟩
      fun _ _ => True := by
  refine .bind (.of_runs ready (Code.Runs.imp (emitOne_runs rfl .nil rfl)
    fun _ _ _ h => ⟨h.2, h.1⟩)) ?_
  intro value q1 _ ready1 hvalue
  refine .bind (.of_runs ready1 (Code.Runs.imp (emitOne_runs rfl .nil rfl)
    fun _ _ _ h => ⟨h.2, h.1⟩)) ?_
  intro addr q2 h2 ready2 haddr
  refine .bind (write?_confined hs hp hfit sized (hvalue.extend h2) (.of_holds haddr) ready2 ?_) ?_
  · rwa [UInt32.add_zero]
  · exact fun _ _ _ ready3 _ => .pure ready3 trivial

section Elems

variable {k : Nat} {base : UInt32} {turn : Turn (Exec α Unit)}
  {body : Scope → Exec α (List Value)}

omit [Firm α] hs hp in
theorem lowerElems_from (n : Nat) :
    Exec.lowerElems body (place? elem).size (base + .ofNat ((extent? elem).size * n)) vs
      = (elemTurns elem body base (vs.zipIdx n)).forM Prod.fst := by
  induction vs generalizing n with
  | nil => rfl
  | cons v vs ih =>
    have next := ih (n + 1)
    rw [Nat.mul_succ, UInt32.ofNat_add, ← UInt32.add_assoc, ← (place?_exact hfit).size,
      UInt32.ofNat_toNat, (place?_exact hfit).size] at next
    rw [Exec.lowerElems, next]
    change _ = ((body _ >>= fun _ => pure ()) >>= fun _ => List.forM _ _)
    simp only [bind_assoc, pure_bind]
    rfl

omit [Firm α] hs hp in
theorem lowerElems_eq_turns : Exec.lowerElems body (place? elem).size base vs
    = (elemTurns elem body base vs.zipIdx).forM Prod.fst := by
  have from_start : Exec.lowerElems body _ (base + .ofNat (_ * 0)) vs = _ := lowerElems_from hfit 0
  rwa [Nat.mul_zero, show UInt32.ofNat 0 = 0 from rfl, UInt32.add_zero] at from_start

omit [Firm α] hs hp hfit in
theorem elemTurns_apart (bounded : (extent? elem).size * vs.length < 2 ^ 32) :
    (∀ turn ∈ elemTurns elem body base vs.zipIdx, ∃ o : UInt32, turn.2.1 = base + o
        ∧ o.toNat + turn.2.2 ≤ (extent? elem).size * vs.length)
      ∧ Turn.Apart (elemTurns elem body base vs.zipIdx) := by
  have offset : ∀ {n}, n < vs.length → (UInt32.ofNat ((extent? elem).size * n)).toNat
      = (extent? elem).size * n
      ∧ (extent? elem).size * n + (extent? elem).size ≤ (extent? elem).size * vs.length := by
    intro n hn
    have upto := Nat.mul_le_mul_left (extent? elem).size hn
    rw [Nat.mul_succ] at upto
    exact ⟨UInt32.toNat_ofNat_of_lt' (by simp only [UInt32.size]; omega), upto⟩
  refine ⟨fun turn hturn => ?_, pairwise_map.mpr ?_⟩
  · obtain ⟨x, hx, rfl⟩ := mem_map.mp hturn
    obtain ⟨same, upto⟩ := offset (snd_lt_of_mem_zipIdx hx)
    exact ⟨_, rfl, by rwa [same]⟩
  · refine pairwise_iff_getElem.mpr fun j k hj hk hjk i hi => ?_
    rw [length_zipIdx] at hj hk
    simp only [getElem_zipIdx, Nat.zero_add] at hi ⊢
    have order := Nat.mul_le_mul_left (extent? elem).size hjk
    rw [Nat.mul_succ] at order
    refine hi.not_of_le ?_ ?_
    · rwa [(offset hj).1, (offset hk).1]
    · have := offset hk
      omega

theorem elemTurn_confined (sized : ∀ x ∈ vs, Sized? elem x)
    (hturn : turn ∈ elemTurns elem
      (fun s => Exec.nth c s 0 ((blocks [writeElem raw realloc elem]).run k).value) base vs.zipIdx)
    (hsize : ((blocks [writeElem raw realloc elem]).run k).next ≤ m.registers.size)
    (ready : m.world.Ready) :
    Confined (Around turn.2.1 turn.2.2) turn.1 m fun _ => Kept k m := by
  obtain ⟨x, hx, rfl⟩ := mem_map.mp hturn
  refine .bind (Code.Confined.nth (n := 0) rfl (fun k' _ => writeElem_confined hs hp hfit
    (sized x.1 (fst_mem_of_mem_zipIdx hx)) ready fun i hi => ?_) hsize) ?_
  · rwa [(place?_exact hfit).size] at hi
  · exact fun _ m' ready' kept => .pure ready' kept

theorem lowerElems_confined (sized : ∀ x ∈ vs, Sized? elem x) (ready : m.world.Ready)
    (inside : base.toNat + (place? elem).size.toNat * vs.length < 2 ^ 32)
    (harea : ∀ i, Region base ((place? elem).size.toNat * vs.length) i → area i)
    (hsize : ((blocks [writeElem raw realloc elem]).run k).next ≤ m.registers.size) :
    Confined area (Exec.lowerElems
      (fun s => Exec.nth c s 0 ((blocks [writeElem raw realloc elem]).run k).value)
      (place? elem).size base vs) m fun _ m' => Kept k m m' := by
  rw [(place?_exact hfit).size] at inside harea
  rw [lowerElems_eq_turns hfit]
  refine .forM (fun turn hturn m' ready' kept => ?_) ready (.of_eq rfl)
  have own := elemTurn_confined hs hp hfit sized hturn (kept.size ▸ hsize) ready'
  refine (own.widen fun i hi => harea i ?_).imp fun _ _ => (kept.trans · (Nat.le_refl _))
  obtain ⟨o, same, within⟩ := (elemTurns_apart (by omega)).1 turn hturn
  rw [same] at hi
  exact (hi.part within).region (by omega)

end Elems

theorem lowerList_confined (sized : (Shape.list l elem).Sized v) (hr : p.Holds r v)
    (ready : p.Ready) :
    (lowerList raw realloc l elem (fun value addr => write? raw realloc elem value addr 0)
      r).Confined area c scope p fun rs _ => rs.length = 2 := by
  rw [lowerList]
  by_cases hbytes : raw elem = true
  · rw [if_pos hbytes]
    exact lowerBytes_confined sized hr ready
  · rw [if_neg hbytes]
    change (blocks [writeElem raw realloc elem]
      >>= own (.lowerList l elem realloc) [r]).Confined _ _ _ _ _
    refine .ownBlocks (steps_blocks _) fun hsize => ?_
    rw [map_cons, hr.2]
    simp only [Exec.instr, headD_cons]
    split
    · next vs =>
      obtain ⟨bounded, parts⟩ := sized.2 vs rfl
      simp only [optLayout_eq hp, Exec.ofExcept]
      refine .congr (runFrom_bind_ok (runFrom_pure _ _)) ?_
      refine .allocFor ready realloc _ (place?_exact hfit).isAlignment ?_
      intro ptr m1 hregs _ ready1 _ stop
      rw [toNat_size_mul hfit bounded] at stop ⊢
      have small : ptr.toNat + (place? elem).size.toNat * vs.length < 2 ^ 32 := by
        have := ready1.frontier_le
        have := ready1.size_le
        omega
      refine (lowerElems_confined hs hp hfit parts ready1 small (fun _ => .inr)
        (by rw [hregs]; exact hsize)).bind ?_
      intro _ m2 ready2 kept
      refine .pure ready2 ⟨(Kept.of_eq hregs).trans kept (Nat.le_refl _), ?_⟩
      exact fun rs q length _ _ _ => length
    · exact .throw ready _

end

/-! ## Products -/

section

variable {fields : Parts} (hs : ∀ s, some s ∈ fields → SendConfined raw realloc c s)
  (hp : FieldsPassable fields) (hfit : FieldsFit fields) (sized : FieldsSized fields vs)
  (hrs : p.HoldsAll rs vs)
include hs hp hfit sized hrs

theorem lowerFields_confined (ready : p.Ready) :
    (lowerFields raw realloc fields rs).Confined area c scope p fun _ _ => True := by
  induction fields generalizing p rs vs with
  | nil => exact .pure ready trivial
  | cons part fields ih =>
    cases hrs with
    | nil => exact .pure ready trivial
    | cons hr hrs =>
      refine .bind (lower?_confined (head_part hs) hp.1 hfit.1 sized.1
        hr ready) ?_
      intro _ q1 h1 ready1 _
      refine .bind (ih (tail_parts hs) hp.2 hfit.2 sized.2
        (Point.HoldsAll.extend hrs h1) ready1) ?_
      exact fun _ _ _ ready2 _ => .pure ready2 trivial

end

section Fields

variable {fields : Parts} {offsets : List UInt32} {start : Nat} {stop : UInt32}
  {gets : List (Code Reg)} {base : UInt32}

variable (raw realloc ra offset) in
/-- In each turn a field is brought into a register and stored at its offset from the base. -/
def fieldTurns (base : UInt32) (gets : List (Code Reg)) (fields : Parts) (offsets : List UInt32) :
    List (Turn (Code Unit)) :=
  ((gets.zip fields).zip offsets).map fun x =>
    (x.1.1 >>= fun r => write? raw realloc x.1.2 r ra (offset + x.2), base + x.2,
      (extent? x.1.2).size)

theorem writeFields_eq_turns (base : UInt32) (rs : List Reg) (offsets : List UInt32) :
    writeFields raw realloc fields rs offsets ra offset
      = (fieldTurns raw realloc ra offset base (rs.map pure) fields offsets).forM Prod.fst := by
  induction fields generalizing rs offsets with
  | nil => cases rs <;> rfl
  | cons part fields ih => cases rs <;> cases offsets <;> simp_all [writeFields, fieldTurns]

theorem fieldTurns_apart (between : Layout.Between start stop.toNat offsets (fieldPlaces fields))
    (hfit : FieldsFit fields) :
    (∀ turn ∈ fieldTurns raw realloc ra offset base gets fields offsets, ∃ o, turn.2.1 = base + o
        ∧ start ≤ o.toNat ∧ o.toNat + turn.2.2 ≤ stop.toNat)
      ∧ Turn.Apart (fieldTurns raw realloc ra offset base gets fields offsets) := by
  induction fields generalizing gets start offsets with
  | nil => cases gets <;> exact ⟨fun _ hx => absurd hx not_mem_nil, .nil⟩
  | cons part fields ih =>
    cases offsets with
    | nil => exact between.elim
    | cons o offsets =>
      cases gets with
      | nil => exact ⟨fun _ hx => absurd hx not_mem_nil, .nil⟩
      | cons get gets =>
        obtain ⟨behind, rest⟩ := between
        rw [(place?_exact hfit.1).size] at rest
        obtain ⟨within, apart⟩ : (∀ turn ∈ fieldTurns _ _ _ _ _ gets _ _, _) ∧ _ := ih rest hfit.2
        refine ⟨fun x hx => ?_, .cons (fun x hx i hi => ?_) apart⟩
        · rcases mem_cons.mp hx with rfl | hx
          · exact ⟨o, rfl, behind, rest.start_le⟩
          · obtain ⟨o', same, after, inside⟩ := within x hx
            exact ⟨o', same, by omega, inside⟩
        · obtain ⟨o', same, after, inside⟩ := within x hx
          rw [same]
          exact hi.not_of_le after (Nat.le_trans inside (Nat.le_of_lt stop.toNat_lt))

variable (c scope) in
/-- Each field is brought into a register, from a point on or later. -/
def Point.Fetches (p : Point α) (gets : List (Code Reg)) (fields : Parts) : Prop :=
  ∀ x ∈ gets.zip fields, ∀ q area, p.Extends q → q.Ready →
    x.1.Confined area c scope q fun r q' => ∃ v, q'.Holds r v ∧ Sized? x.2 v

theorem Point.Fetches.of_holds (hrs : p.HoldsAll rs vs) (sized : FieldsSized fields vs) :
    p.Fetches c scope (rs.map pure) fields := by
  induction hrs generalizing fields with
  | nil => exact fun _ hx => absurd hx not_mem_nil
  | cons hr _ ih =>
    cases fields with
    | nil => exact fun _ hx => absurd hx not_mem_nil
    | cons part fields =>
      intro x hx q area hq ready
      rcases mem_cons.mp hx with rfl | hx
      · exact .pure ready ⟨_, hr.extend hq, sized.1⟩
      · exact ih sized.2 x hx q area hq ready

section

variable (hs : ∀ s, some s ∈ fields → SendConfined raw realloc c s) (hp : FieldsPassable fields)
  (hfit : FieldsFit fields) (ha : p.Addresses ra a) (fetches : p.Fetches c scope gets fields)
include hs hp hfit ha fetches

theorem fieldTurn_confined {turn : Turn (Code Unit)}
    (hturn : turn ∈ fieldTurns raw realloc ra offset (a + offset) gets fields offsets)
    {q : Point α} (hq : p.Extends q) (ready : q.Ready) :
    turn.1.Confined (Around turn.2.1 turn.2.2) c scope q fun _ _ => True := by
  obtain ⟨x, hx, rfl⟩ := mem_map.mp hturn
  have mem := (of_mem_zip hx).1
  have hpart := (of_mem_zip mem).2
  have fits := hfit.of_mem hpart
  refine .bind (fetches x.1 mem q _ hq ready) ?_
  rintro r q' later ready' ⟨v, hr, sized⟩
  refine write?_confined (fun s hs' => hs s (hs' ▸ hpart)) (fieldsPassable_iff.mp hp _ hpart) fits
    sized hr ((ha.extend hq).extend later) ready' fun i hi => ?_
  rwa [(place?_exact fits).size, ← UInt32.add_assoc] at hi

theorem fieldTurns_confined (ready : p.Ready)
    (between : Layout.Between start stop.toNat offsets (fieldPlaces fields))
    (harea : ∀ i, Around (a + offset) stop.toNat i → area i) :
    (List.forM (fieldTurns raw realloc ra offset (a + offset) gets fields offsets)
      Prod.fst).Confined area c scope p fun (_ : PUnit) _ => True := by
  refine .forM ready fun turn hturn q hq ready' size => ?_
  refine (fieldTurn_confined hs hp hfit ha fetches hturn hq ready' size).widen fun i hi => ?_
  obtain ⟨o, same, _, inside⟩ := (fieldTurns_apart between hfit).1 turn hturn
  rw [same] at hi
  exact harea i (hi.part inside)

end

theorem writeFields_confined (hs : ∀ s, some s ∈ fields → SendConfined raw realloc c s)
    (hp : FieldsPassable fields) (hfit : FieldsFit fields) (sized : FieldsSized fields vs)
    (hrs : p.HoldsAll rs vs) (ha : p.Addresses ra a) (ready : p.Ready)
    (between : Layout.Between start stop.toNat offsets (fieldPlaces fields))
    (harea : ∀ i, Around (a + offset) stop.toNat i → area i) :
    (writeFields raw realloc fields rs offsets ra offset).Confined area c scope p
      fun _ _ => True := by
  rw [writeFields_eq_turns (a + offset)]
  exact fieldTurns_confined hs hp hfit ha (.of_holds hrs sized) ready between harea

end Fields

theorem lowerProduct_confined {form : ProductForm} (hr : p.Holds r v)
    (ready : p.Ready) :
    (emit (.lowerProduct form l count) [r]).Confined area c scope p
      fun rs q => ∃ vs, v = .list vs ∧ q.HoldsAll rs vs := by
  refine .emit ?_
  rw [map_cons, hr.2]
  simp only [Exec.instr, headD_cons]
  split
  · next vs =>
    split
    · next length =>
      exact .pure ready ⟨rfl, fun rs q _ _ _ holds => ⟨vs, rfl, holds length⟩⟩
    · exact .throw ready _
  · exact .throw ready _

/-! ## Sums -/

theorem castSlots_confined (source target : List CoreType) (rs : List Reg)
    (ready : p.Ready) :
    (castSlots source target rs).Confined area c scope p fun _ _ => True := by
  rw [castSlots]
  split
  · refine (Code.Confined.emit_any ?_).imp fun _ _ _ _ => trivial
    exact .pure ready rfl
  · exact .pure ready trivial

theorem padZeros_confined (types : List CoreType) (ready : p.Ready) :
    (padZeros types).Confined area c scope p fun _ _ => True :=
  .of_runs ready ((padZeros_runs types).imp fun _ _ _ h => ⟨h.2, trivial⟩)

section

variable {index : Nat} (hs : ∀ s, some s ∈ payloads → SendConfined raw realloc c s)
  (hp : PayloadsPassable payloads)
include hs hp

theorem lowerCase_confined (hfit : PayloadsFit payloads) (hpart : payloads[index]? = some part)
    (sized : CaseSized payloads index v) (slots : List CoreType) (ready : m.world.Ready) (k : Reg) :
    (lowerCase raw realloc slots index part).Confined area c { payload := v } ⟨k, m⟩
      fun _ _ => True := by
  cases part with
  | none =>
    refine .bind (.emitOne (.pure ready rfl)) ?_
    intro _ q1 _ ready1 _
    refine .bind (.emitOne (.pure ready1 rfl)) ?_
    intro _ q2 _ ready2 _
    refine .bind (padZeros_confined slots ready2) ?_
    exact fun _ _ _ ready3 _ => .pure ready3 trivial
  | some s =>
    have mem : some s ∈ payloads := mem_of_getElem? hpart
    have sent := hs s mem (payloadsPassable_iff.mp hp s mem) (hfit.of_mem mem)
    refine .bind (.of_runs ready (Code.Runs.imp (emitOne_runs rfl .nil rfl)
      fun _ _ _ h => ⟨h.2, h.1⟩)) ?_
    intro value q1 _ ready1 hvalue
    refine .bind (.emitOne (.pure ready1 rfl)) ?_
    intro _ q2 h2 ready2 _
    refine .bind (sent.lower (caseSized_iff.mp sized s hpart) (hvalue.extend h2) ready2) ?_
    intro flat q3 _ ready3 _
    refine .bind (castSlots_confined _ _ _ ready3) ?_
    intro _ q4 _ ready4 _
    refine .bind (padZeros_confined _ ready4) ?_
    exact fun _ _ _ ready5 _ => .pure ready5 trivial

theorem writeCase_confined {form : SumForm} (hfit : (Shape.sum l form payloads).Fits)
    (hpart : payloads[index]? = some part) (sized : CaseSized payloads index v)
    (ha : p.Addresses ra a) (ready : p.Ready)
    (harea : ∀ i, Around (a + offset) (Shape.sum l form payloads).place.size.toNat i → area i)
    {k : Reg} (hk : p.next ≤ k) : (writeCase raw realloc (tagWidth payloads.length) ra offset
      (offset + placedPayload payloads) index part).Confined area c { payload := v }
      ⟨k, p.machine⟩ fun _ _ => True := by
  obtain ⟨hfit, hsize⟩ := hfit
  obtain ⟨tag_le, start_le⟩ := tag_le_placedPayload hfit hsize
  have number : ∀ i, Around (a + offset) (tagWidth payloads.length).storeOp.width.size.toNat i →
      area i := by
    intro i hi
    rw [IntWidth.width_storeOp _ (tagWidth_ne payloads.length)] at hi
    exact harea i (hi.mono (Nat.le_trans tag_le start_le))
  have here : (⟨k, p.machine⟩ : Point α).Addresses ra a := ha.extend (.ahead hk)
  cases part with
  | none =>
    refine .bind (.emitOne (.pure ready rfl)) ?_
    intro _ q1 h1 ready1 _
    refine .bind (.emitOne (.pure ready1 rfl)) ?_
    intro tag q2 h2 ready2 _
    refine .bind (store_confined _ tag ready2 (here.extend (h1.trans h2)) number) ?_
    exact fun _ _ _ ready3 _ => .pure ready3 trivial
  | some s =>
    have mem : some s ∈ payloads := mem_of_getElem? hpart
    have sent := hs s mem (payloadsPassable_iff.mp hp s mem) (hfit.of_mem mem)
    refine .bind (.of_runs ready (Code.Runs.imp (emitOne_runs rfl .nil rfl)
      fun _ _ _ h => ⟨h.2, h.1⟩)) ?_
    intro value q1 h1 ready1 hvalue
    refine .bind (.emitOne (.pure ready1 rfl)) ?_
    intro tag q2 h2 ready2 _
    refine .bind (store_confined _ tag ready2 (here.extend (h1.trans h2)) number) ?_
    intro _ q3 h3 ready3 _
    refine .bind (sent.write (caseSized_iff.mp sized s hpart) (hvalue.extend (h2.trans h3))
      (here.extend (h1.trans (h2.trans h3))) ready3 fun i hi => harea i ?_) ?_
    · -- The payload lies behind the number.
      rw [← UInt32.add_assoc] at hi
      exact hi.part (placedPayload_le hfit hsize mem)
    · exact fun _ _ _ ready4 _ => .pure ready4 trivial

end

theorem lowerSum_confined {form : SumForm} {flat : List CoreType}
    {body : Nat → Option Shape → Code (List Reg)} (hr : p.Holds r v) (ready : p.Ready)
    (h : ∀ (index : UInt32) payload part, v = .case index payload →
      payloads[index.toNat]? = some part → ∀ k, p.next ≤ k →
        (body index.toNat part).Confined area c { payload } ⟨k, p.machine⟩ fun _ _ => True) :
    (blocks (payloads.mapIdx body) >>= own (.lowerSum form l payloads.length flat)
      [r]).Confined area c scope p fun _ _ => True := by
  refine .ownBlocks (steps_blocks _) fun hsize => ?_
  rw [map_cons, hr.2]
  simp only [Exec.instr, headD_cons]
  split
  · next index payload =>
    refine (Code.Confined.runCase ready ?_ hsize).imp ?_
    · intro b hb k hk
      rw [getElem?_mapIdx, Option.map_eq_some_iff] at hb
      obtain ⟨part, hpart, rfl⟩ := hb
      exact h index payload part rfl hpart k hk
    · exact fun _ _ kept => ⟨kept, fun _ _ _ _ _ _ => trivial⟩
  · exact .throw ready _

/-! ## Flags -/

theorem lowerFlags_confined (ready : p.Ready) :
    (emit (.lowerFlags l count) [r]).Confined area c scope p
      fun rs _ => rs.length = (FlagsStorage.ofCount count).lanes := by
  refine .emit_any ?_
  simp only [Exec.instr]
  split
  · exact .pure ready rfl
  · exact .throw ready _

/-! ## All shapes -/

theorem sendConfined (s : Shape) : SendConfined raw realloc c s := by
  induction s with
  | scalar s =>
    exact fun _ _ => ⟨fun _ _ ready => lowerSingle_confined (s := .scalar s) rfl ready,
      fun _ _ => writeSingle_confined (s := .scalar s) rfl s.width_storeOp⟩
  | enum l cases =>
    refine fun _ _ => ⟨fun _ _ ready => lowerSingle_confined (s := .enum l cases) rfl ready,
      fun _ _ => writeSingle_confined (s := .enum l cases) rfl ?_⟩
    rw [IntWidth.width_storeOp _ (tagWidth_ne cases)]
    exact (IntWidth.width_loadOp _ (tagWidth_ne cases)).symm
  | handle l form type =>
    exact fun _ _ => ⟨fun _ _ ready => lowerSingle_confined (s := .handle l form type) rfl ready,
      fun _ _ => writeSingle_confined (s := .handle l form type) rfl rfl⟩
  | string =>
    refine fun _ _ => ⟨fun sized hr ready => ?_, fun sized hr ha ready harea => ?_⟩
    · exact (lowerString_confined sized hr ready).imp fun _ _ _ _ => trivial
    · refine .bind (lowerString_confined sized hr ready) ?_
      exact fun rs q later ready' _ => storePair_confined rs ready' (ha.extend later) harea
  | list l elem ih =>
    refine fun hp hfit => ⟨fun sized hr ready => ?_, fun sized hr ha ready harea => ?_⟩
    · exact (lowerList_confined ih hp hfit sized hr ready).imp fun _ _ _ _ => trivial
    · refine .bind (lowerList_confined ih hp hfit sized hr ready) ?_
      exact fun rs q later ready' _ => storePair_confined rs ready' (ha.extend later) harea
  | product l form fields ih =>
    refine fun hp hfit => ⟨fun sized hr ready => ?_, fun sized hr ha ready harea => ?_⟩
    · refine .bind (lowerProduct_confined hr ready) ?_
      rintro rs q _ ready' ⟨vs, rfl, hrs⟩
      exact lowerFields_confined ih hp hfit.1 (sized vs rfl) hrs ready'
    · refine .bind (lowerProduct_confined hr ready) ?_
      rintro rs q later ready' ⟨vs, rfl, hrs⟩
      exact writeFields_confined ih hp hfit.1 (sized vs rfl) hrs (ha.extend later) ready'
        (placedOffsets_between hfit.1 hfit.2) harea
  | sum l form payloads ih =>
    refine fun hp hfit => ⟨fun sized hr ready => ?_, fun sized hr ha ready harea => ?_⟩
    · rw [lower, lowerCases_eq]
      simp only [Nat.zero_add]
      refine lowerSum_confined hr ready ?_
      rintro index payload part rfl hpart k _
      exact lowerCase_confined ih hp hfit.1 hpart (sized index payload rfl) _ ready k
    · rw [write, writeCases_eq, ← bind_assoc]
      simp only [Nat.zero_add]
      refine .bind (lowerSum_confined hr ready ?_) fun _ _ _ ready' _ => .pure ready' trivial
      rintro index payload part rfl hpart k hk
      exact writeCase_confined ih hp hfit hpart (sized index payload rfl) ha ready harea hk
  | flags l count =>
    refine fun hp hfit => ⟨fun _ _ ready => ?_, fun _ _ ha ready harea => ?_⟩
    · exact (lowerFlags_confined ready).imp fun _ _ _ _ => trivial
    · refine .bind (lowerFlags_confined ready) ?_
      exact fun rs q later ready' length =>
        storeFlags_confined hfit length ready' (ha.extend later) harea
  | synonym l target ih =>
    exact fun hp hfit => ⟨lower?_confined ih hp hfit, write?_confined ih hp hfit⟩
  | channel | resource | unfinished => exact fun hp => hp.elim

end Confinement

end CanonicalAbi
