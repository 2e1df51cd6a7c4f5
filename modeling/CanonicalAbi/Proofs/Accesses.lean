import CanonicalAbi.Proofs.CaseOrder
import CanonicalAbi.Proofs.Layouts

/-!
# Loads and stores inside the layout

A value of a type is stored, read and freed by loads and stores at fixed offsets from its address.
-/

namespace CanonicalAbi

open List Extent

variable {offset : UInt32} {i : Instr} {count : Nat}

/-! ## Parts of an extent -/

/-- A part of extent `p` lies at an offset in a whole of extent `e`, and is aligned where the whole
is. -/
structure Extent.Places (e : Extent) (offset : Nat) (p : Extent) : Prop where
  inside : offset + p.size ≤ e.size
  align_dvd : p.align ∣ e.align
  offset_dvd : p.align ∣ offset

def IntWidth.extent (w : IntWidth) : Extent := ⟨w.size.toNat, w.size.toNat⟩

/-- The extent of some integers of 32 bits, one behind the other. -/
def Extent.lanes (n : Nat) : Extent := ⟨4 * n, if n = 0 then 1 else 4⟩

namespace Extent

theorem pair_first : Places ⟨8, 4⟩ 0 IntWidth.u32.extent :=
  ⟨by decide, by decide, by decide⟩

theorem pair_second : Places ⟨8, 4⟩ (4 : UInt32).toNat IntWidth.u32.extent :=
  ⟨by decide, by decide, by decide⟩

theorem lanes_first (n : Nat) : (lanes (n + 1)).Places 0 IntWidth.u32.extent := by
  refine ⟨?_, ?_, Nat.dvd_zero _⟩
  · change 0 + 4 ≤ 4 * (n + 1)
    omega
  · exact ⟨1, by simp [lanes, IntWidth.extent, IntWidth.size]⟩

theorem lanes_rest (n : Nat) : (lanes (n + 1)).Places (4 : UInt32).toNat (lanes n) := by
  refine ⟨?_, ?_, ?_⟩
  · change 4 + 4 * n ≤ 4 * (n + 1)
    omega
  · simp only [lanes]
    split <;> simp
  · simp only [lanes]
    split <;> decide

theorem flags_eq_lanes (h : (FlagsStorage.ofCount count).unit = .u32) :
    flags count = lanes (FlagsStorage.ofCount count).lanes := by
  have empty : (FlagsStorage.ofCount count).count = 0 ↔ (FlagsStorage.ofCount count).lanes = 0 := by
    simp only [FlagsStorage.lanes, FlagsStorage.ofCount]
    split_ifs <;> simp
    omega
  simp only [flags_eq, lanes, FlagsStorage.align, h, empty]
  split <;> rfl

theorem flags_eq_unit (h : (FlagsStorage.ofCount count).unit ≠ .u32) :
    flags count = (FlagsStorage.ofCount count).unit.extent := by
  have one := lanes_eq_one h
  have nonzero : (FlagsStorage.ofCount count).count ≠ 0 := by
    intro zero
    simp [FlagsStorage.lanes, zero] at one
  simp only [flags_eq, one, Nat.mul_one, FlagsStorage.align, if_neg nonzero]
  rfl

theorem enum_eq_tag (cases : Nat) : sum (tag cases) [] = (tagWidth cases).extent := by
  simp only [tag, tagWidth]
  split_ifs <;> rfl

theorem scalar_eq (s : Scalar) : scalar s = s.loadOp.width.extent := by
  cases s <;> rfl

end Extent

theorem fieldExtents_eq_map (fields : Parts) :
    fieldExtents fields = fields.map extent? := by
  induction fields with
  | nil => rfl
  | cons f fs ih => simp [fieldExtents, ih]

theorem Layout.Packed.offset_dvd {start : Nat} {offsets : List UInt32} {extents : List Extent}
    (h : Packed start offsets extents) : ∀ f ∈ offsets.zip extents, f.2.align ∣ f.1.toNat := by
  induction h with
  | nil => simp
  | cons least _ ih => exact forall_mem_cons.mpr ⟨least.1.1, ih⟩

variable {fields : Parts}

namespace Shape.Bounded

variable {l : Label}

theorem field {form : ProductForm}
    (h : (Shape.product l form fields).Bounded) {o : UInt32} {f : Option Shape}
    (hf : (o, f) ∈ (placedOffsets fields).zip fields) :
    (Shape.product l form fields).extent.Places o.toNat (extent? f) := by
  have exact := fieldPlaces_exact_of_parts fun s hs => (h.part hs).place_exact
  have layout := Layout.product_ofFields exact h.size
  have found : (o, extent? f) ∈ (placedOffsets fields).zip (fieldExtents fields) := by
    rw [fieldExtents_eq_map, zip_map_right]
    exact mem_map.mpr ⟨(o, f), hf, rfl⟩
  refine ⟨?_, ?_, layout.packed.offset_dvd _ found⟩
  · have inside := layout.inside _ found
    rw [layout.sized.size] at inside
    exact inside
  · exact Layout.align_dvd_maxAlign exact ⟨0, by omega, rfl⟩ (of_mem_zip found).2

variable {form : SumForm} {payloads : Parts}

theorem payloads_exact (h : (Shape.sum l form payloads).Bounded) :
    Forall₂ Layout.Exact (payloadPlaces payloads) (payloadExtents payloads) :=
  payloadPlaces_exact_of_parts fun _ hs => (h.part hs).place_exact

theorem tag (h : (Shape.sum l form payloads).Bounded) :
    (Shape.sum l form payloads).extent.Places 0 (tagWidth payloads.length).extent := by
  have exact := h.payloads_exact
  have size := h.size
  rw [Shape.extent, Extent.tag_eq] at size ⊢
  have layout := Layout.sum_ofPayloads exact _ size
  refine ⟨?_, Layout.least_dvd_maxAlign exact (Layout.IntWidth.isAlignment _), Nat.dvd_zero _⟩
  have behind := layout.behind
  have inside := layout.payload_le
  rw [layout.sized.size] at inside
  change 0 + (tagWidth payloads.length).size.toNat ≤ (Extent.sum _ (payloadExtents payloads)).size
  omega

theorem payload (h : (Shape.sum l form payloads).Bounded) {p : Shape} (hp : some p ∈ payloads) :
    (Shape.sum l form payloads).extent.Places (placedPayload payloads).toNat p.extent := by
  have exact := h.payloads_exact
  have size := h.size
  rw [Shape.extent, Extent.tag_eq] at size ⊢
  have layout := Layout.sum_ofPayloads exact _ size
  have found := mem_payloadExtents hp
  refine ⟨?_, ?_, layout.aligned _ found⟩
  · have inside := layout.inside _ found
    rw [layout.sized.size] at inside
    exact inside
  · exact Layout.align_dvd_maxAlign exact (Layout.IntWidth.isAlignment _) found

end Shape.Bounded

/-! ## Areas of memory -/

/-- A place in memory that an instruction reads or writes, from the address that it is given. -/
structure Access where
  offset : UInt32
  width : IntWidth
  deriving DecidableEq

namespace Instr

def access? : Instr → Option Access
  | load op offset => some ⟨offset, op.width⟩
  | store op offset => some ⟨offset, op.width⟩
  | _ => none

/-- The type of the elements that the block of an instruction on a list handles. -/
def elem? : Instr → Option (Option Shape)
  | lowerList _ elem _ | liftList _ elem | freeList _ elem => some elem
  | _ => none

theorem access?_of_elem? {elem : Option Shape} (h : i.elem? = some elem) : i.access? = none := by
  cases i <;> first | rfl | cases h

theorem of_ownsCases (h : i.ownsCases = true) : i.access? = none ∧ i.elem? = none := by
  cases i <;> first | exact ⟨rfl, rfl⟩ | cases h

end Instr

/-- The bytes from `start` to `stop` behind the address in a register. -/
structure Area where
  addr : Reg
  start : Nat
  stop : Nat

/-- An access to the operand `args` stays inside the area, at a multiple of its width. -/
structure Area.Takes (area : Area) (args : List Reg) (a : Access) : Prop where
  addr : args.getLast? = some area.addr
  start : area.start ≤ a.offset.toNat
  stop : a.offset.toNat + a.width.size.toNat ≤ area.stop
  aligned : a.width.size.toNat ∣ a.offset.toNat

mutual

/-- Whether the loads and stores of some steps stay inside an area. -/
def StepsStay : List Step → Area → Prop
  | [], _ => True
  | s :: ss, area => s.Stays area ∧ StepsStay ss area

def Step.Stays : Step → Area → Prop
  | .exec i args _ blocks, area =>
    (∀ a, i.access? = some a → area.Takes args a)
      ∧ match i.elem? with
        | none => BlocksStay blocks area
        | some elem => ElementsStay blocks elem
  | .scratch _ _ _, _ => True

def BlocksStay : List Block → Area → Prop
  | [], _ => True
  | .mk steps _ :: blocks, area => StepsStay steps area ∧ BlocksStay blocks area

/-- The loads and stores of blocks that handle elements stay inside the memory of an element, whose
address the block asks for. -/
def ElementsStay : List Block → Option Shape → Prop
  | [], _ => True
  | .mk steps _ :: blocks, elem =>
    (∃ base, (steps ≠ [] → .exec .iterBase [] [base] [] ∈ steps)
      ∧ StepsStay steps ⟨base, 0, (extent? elem).size⟩) ∧ ElementsStay blocks elem

end

theorem stepsStay_append {ss ts : List Step} {area : Area} :
    StepsStay (ss ++ ts) area ↔ StepsStay ss area ∧ StepsStay ts area := by
  induction ss with
  | nil => simp [StepsStay]
  | cons s ss ih => simp [StepsStay, ih, and_assoc]

/-- A value of this extent fits into the area at `offset`. -/
structure Area.Holds (area : Area) (offset : UInt32) (e : Extent) : Prop where
  start : area.start ≤ offset.toNat
  stop : offset.toNat + e.size ≤ area.stop
  below : area.stop < 2 ^ 32
  aligned : e.align ∣ offset.toNat

namespace Area.Holds

variable {area : Area} {offset : UInt32} {e p : Extent}

theorem part (h : area.Holds offset e) {o : UInt32} (hp : e.Places o.toNat p) :
    area.Holds (offset + o) p := by
  have start := h.start
  have stop := h.stop
  have below := h.below
  have inside := hp.inside
  have sum : (offset + o).toNat = offset.toNat + o.toNat := by
    rw [UInt32.toNat_add, Nat.mod_eq_of_lt (by omega)]
  refine ⟨by omega, by omega, below, ?_⟩
  rw [sum]
  exact Nat.dvd_add (hp.align_dvd.trans h.aligned) hp.offset_dvd

theorem first (h : area.Holds offset e) (hp : e.Places 0 p) : area.Holds offset p := by
  have part := h.part (o := 0) hp
  rwa [UInt32.add_zero] at part

theorem takes {w : IntWidth} (h : area.Holds offset w.extent) {args : List Reg}
    (last : args.getLast? = some area.addr) : area.Takes args ⟨offset, w⟩ :=
  ⟨last, h.start, h.stop, h.aligned⟩

end Area.Holds

namespace Code

variable {β γ : Type} {area : Area}

def Stays (area : Area) (code : Code β) : Prop := ∀ k, StepsStay (code.run k).steps area

namespace Stays

theorem pure (v : β) : Stays area (pure v) := fun _ => trivial

theorem bind {x : Code γ} {f : γ → Code β} (hx : Stays area x)
    (hf : ∀ k, Stays area (f (x.run k).value)) : Stays area (x >>= f) :=
  fun k => stepsStay_append.mpr ⟨hx k, hf _ _⟩

theorem emit (hi : i.access? = none) (args : List Reg) : Stays area (emit i args) := by
  refine fun k => ⟨⟨by simp [hi], ?_⟩, trivial⟩
  split <;> trivial

theorem emitOne (hi : i.access? = none) (args : List Reg) : Stays area (emitOne i args) :=
  (emit hi args).bind fun _ => pure _

theorem emitNone (hi : i.access? = none) (args : List Reg) : Stays area (emitNone i args) :=
  (emit hi args).bind fun _ => pure _

theorem ite {p : Prop} [Decidable p] {x y : Code β} (hx : p → Stays area x)
    (hy : ¬ p → Stays area y) : Stays area (if p then x else y) := by
  split
  · next h => exact hx h
  · next h => exact hy h

theorem store (op : StoreOp) {value : Reg} (h : area.Holds offset op.width.extent) :
    Stays area (store op value area.addr offset) := by
  refine Stays.bind (fun k => ⟨⟨?_, trivial⟩, trivial⟩) fun _ => pure _
  rintro _ ⟨⟩
  exact h.takes rfl

theorem load (op : LoadOp) (h : area.Holds offset op.width.extent) :
    Stays area (load op area.addr offset) := by
  refine Stays.bind (fun k => ⟨⟨?_, trivial⟩, trivial⟩) fun _ => pure _
  rintro _ ⟨⟩
  exact h.takes rfl

variable {bodies : List (Code (List Reg))}

theorem blocks (h : ∀ body ∈ bodies, Stays area body) (k : Reg) :
    BlocksStay ((Code.blocks bodies).run k).value area := by
  induction bodies generalizing k with
  | nil => trivial
  | cons body bodies ih =>
    exact ⟨h body mem_cons_self k, ih (tail_parts h) _⟩

theorem ownCases (hi : i.ownsCases = true) (args : List Reg)
    (h : ∀ body ∈ bodies, Stays area body) : Stays area (Code.blocks bodies >>= own i args) := by
  intro k
  rw [bind_steps, steps_blocks]
  obtain ⟨access, elem⟩ := Instr.of_ownsCases hi
  refine ⟨⟨by simp [access], ?_⟩, trivial⟩
  rw [elem]
  exact blocks h k

end Stays

/-- Code of a block whose loads and stores stay inside the memory of an element. -/
def StaysInElement (elem : Option Shape) (body : Code β) : Prop := ∀ k, ∃ base,
  ((body.run k).steps ≠ [] → .exec .iterBase [] [base] [] ∈ (body.run k).steps)
    ∧ StepsStay (body.run k).steps ⟨base, 0, (extent? elem).size⟩

namespace StaysInElement

variable {elem : Option Shape}

theorem pure (v : β) : StaysInElement elem (pure v) := fun k => ⟨k, fun h => absurd rfl h, trivial⟩

theorem base {f : Reg → Code β} (h : ∀ base, Stays ⟨base, 0, (extent? elem).size⟩ (f base)) :
    StaysInElement elem (emitOne .iterBase [] >>= f) :=
  fun k => ⟨k, fun _ => mem_cons_self, ⟨⟨nofun, trivial⟩, h k (k + 1)⟩⟩

theorem value {f : Reg → Reg → Code β}
    (h : ∀ value base, Stays ⟨base, 0, (extent? elem).size⟩ (f value base)) :
    StaysInElement elem (do
      let value ← emitOne (.iterElem elem) []
      let base ← emitOne .iterBase []
      f value base) :=
  fun k => ⟨k + 1, fun _ => mem_cons_of_mem _ mem_cons_self,
    ⟨⟨nofun, trivial⟩, ⟨nofun, trivial⟩, h k (k + 1) (k + 2)⟩⟩

/-- An instruction on a list stays inside every area, whatever its block does inside the memory of
an element. -/
theorem own (hi : i.elem? = some elem) {body : Code (List Reg)} (h : StaysInElement elem body)
    (args : List Reg) :
    Stays area (do
      let b ← Code.block body
      own i args [b]) := by
  intro k
  refine ⟨⟨by simp [Instr.access?_of_elem? hi], ?_⟩, trivial⟩
  rw [hi]
  exact ⟨h k, trivial⟩

end StaysInElement

/-! ## Memory -/

theorem storePair_stays (h : area.Holds offset Layout.pointerPair.extent) (pair : List Reg) :
    Stays area (storePair pair area.addr offset) :=
  (Stays.store .i32 (h.part pair_second)).bind fun _ =>
    Stays.store .i32 (h.first pair_first)

theorem loadPair_stays (h : area.Holds offset Layout.pointerPair.extent) :
    Stays area (loadPair area.addr offset) :=
  (Stays.load .i32 (h.first pair_first)).bind fun _ =>
    (Stays.load .i32 (h.part pair_second)).bind fun _ => .pure _

theorem storeLanes_stays (regs : List Reg) (h : area.Holds offset (.lanes regs.length)) :
    Stays area (storeLanes area.addr offset regs) := by
  induction regs generalizing offset with
  | nil => exact .pure _
  | cons lane regs ih =>
    refine (Stays.store .i32 (h.first (lanes_first _))).bind fun _ => ?_
    exact ih (h.part (lanes_rest _))

theorem loadLanes_stays (n : Nat) (h : area.Holds offset (.lanes n)) :
    Stays area (loadLanes area.addr offset n) := by
  induction n generalizing offset with
  | zero => exact .pure _
  | succ n ih =>
    refine (Stays.load .i32 (h.first (lanes_first _))).bind fun _ => ?_
    exact (ih (h.part (lanes_rest _))).bind fun _ => .pure _

theorem storeFlags_stays (h : area.Holds offset (.flags count)) {regs : List Reg}
    (hregs : regs.length = (FlagsStorage.ofCount count).lanes) :
    Stays area (storeFlags count regs area.addr offset) := by
  refine .ite (fun wide => ?_) fun narrow => ?_
  · rw [flags_eq_lanes wide, ← hregs] at h
    exact storeLanes_stays regs h
  · rw [flags_eq_unit narrow, ← IntWidth.width_storeOp _ (unit_ne count)] at h
    exact .store _ h

theorem loadFlags_stays (h : area.Holds offset (.flags count)) :
    Stays area (loadFlags count area.addr offset) := by
  refine .ite (fun wide => ?_) fun narrow => ?_
  · rw [flags_eq_lanes wide] at h
    exact loadLanes_stays _ h
  · rw [flags_eq_unit narrow, ← IntWidth.width_loadOp _ (unit_ne count)] at h
    exact (Stays.load _ h).bind fun _ => .pure _

theorem storeTag_stays {cases : Nat} (h : area.Holds offset (tagWidth cases).extent) (value : Reg) :
    Stays area (store (tagWidth cases).storeOp value area.addr offset) := by
  rw [← IntWidth.width_storeOp _ (tagWidth_ne cases)] at h
  exact .store _ h

theorem loadTag_stays {cases : Nat} (h : area.Holds offset (tagWidth cases).extent) :
    Stays area (load (tagWidth cases).loadOp area.addr offset) := by
  rw [← IntWidth.width_loadOp _ (tagWidth_ne cases)] at h
  exact .load _ h

/-! ## Values -/

/-- What storing, reading and freeing values of a shape owes, as the hypothesis of its parts. -/
structure StaysInside (raw : RawRule) (s : Shape) : Prop where
  write : ∀ {area : Area} {offset : UInt32}, area.Holds offset s.extent → ∀ realloc r,
    Stays area (write raw realloc s r area.addr offset)
  read : ∀ {area : Area} {offset : UInt32}, area.Holds offset s.extent →
    Stays area (read raw s area.addr offset)
  free : ∀ {area : Area} {offset : UInt32}, area.Holds offset s.extent →
    Stays area (free s area.addr offset)

section Parts

variable {raw : RawRule} {part : Option Shape} {parts : Parts}
  {offset : UInt32}

section

variable (hs : ∀ s, part = some s → StaysInside raw s) (h : area.Holds offset (extent? part))
include hs h

theorem write?_stays (realloc : String) (r : Reg) :
    Stays area (write? raw realloc part r area.addr offset) := by
  cases part with
  | none => exact .pure _
  | some s => exact (hs s rfl).write h realloc r

theorem read?_stays : Stays area (read? raw part area.addr offset) := by
  cases part with
  | none => exact .pure _
  | some s => exact (hs s rfl).read h

theorem free?_stays : Stays area (free? part area.addr offset) := by
  cases part with
  | none => exact .pure _
  | some s => exact (hs s rfl).free h

end

section Fields

variable {offsets : List UInt32} (hs : ∀ s, some s ∈ parts → StaysInside raw s)
  (h : ∀ o part, (o, part) ∈ offsets.zip parts → area.Holds (offset + o) (extent? part))
include hs h

theorem writeFields_stays (realloc : String) (rs : List Reg) :
    Stays area (writeFields raw realloc parts rs offsets area.addr offset) := by
  induction parts generalizing rs offsets with
  | nil => exact .pure _
  | cons part parts ih =>
    cases rs with
    | nil => exact .pure _
    | cons r rs =>
      cases offsets with
      | nil => exact .pure _
      | cons o offsets =>
        have first := h o part mem_cons_self
        refine (write?_stays (head_part hs) first _ _).bind fun _ => ?_
        exact ih (tail_parts hs)
          (fun o' p m => h o' p (mem_cons_of_mem _ m)) _

theorem readFields_stays : Stays area (readFields raw parts offsets area.addr offset) := by
  induction parts generalizing offsets with
  | nil => exact .pure _
  | cons part parts ih =>
    cases offsets with
    | nil => exact .pure _
    | cons o offsets =>
      have first := h o part mem_cons_self
      refine (read?_stays (head_part hs) first).bind fun _ => ?_
      exact (ih (tail_parts hs)
        fun o' p m => h o' p (mem_cons_of_mem _ m)).bind fun _ => .pure _

theorem freeFields_stays : Stays area (freeFields parts offsets area.addr offset) := by
  induction parts generalizing offsets with
  | nil => exact .pure _
  | cons part parts ih =>
    cases offsets with
    | nil => exact .pure _
    | cons o offsets =>
      have first := free?_stays (head_part hs)
        (h o part mem_cons_self)
      have rest := ih (tail_parts hs)
        fun o' p m => h o' p (mem_cons_of_mem _ m)
      rw [freeFields]
      split
      · exact first.bind fun _ => rest
      · exact rest

end Fields

theorem Area.holds_element (bounded : (extent? part).size < 2 ^ 32) (base : Reg) :
    Area.Holds ⟨base, 0, (extent? part).size⟩ 0 (extent? part) :=
  ⟨Nat.le_refl _, by simp, bounded, by simp⟩

section

variable (hs : ∀ s, part = some s → StaysInside raw s) (bounded : (extent? part).size < 2 ^ 32)
  (l : Label)
include hs bounded l

theorem lowerList_stays (realloc : String) (r : Reg) : Stays area (lowerList raw realloc l part
      (fun value addr => write? raw realloc part value addr 0) r) := by
  refine .ite (fun _ => .emit rfl _) fun _ => StaysInElement.own rfl (.value fun value base => ?_) _
  exact (write?_stays hs (Area.holds_element bounded base) _ _).bind fun _ => .pure _

theorem liftList_stays (pair : List Reg) :
    Stays area (liftList raw l part (fun addr => read? raw part addr 0) pair) := by
  refine .ite (fun _ => .emitOne rfl _) fun _ => ?_
  have body : StaysInElement part (do
      let addr ← emitOne .iterBase []
      let value ← read? raw part addr 0
      return [value]) :=
    .base fun base => (read?_stays hs (Area.holds_element bounded base)).bind fun _ => .pure _
  exact (body.own rfl pair).bind fun _ => .pure _

theorem freeList_stays (pair : List Reg) : Stays area (do
      let body ← block do
        if ownsMemory? part then
          let base ← emitOne .iterBase []
          free? part base 0
        return []
      own (.freeList l part) pair [body]) := by
  refine StaysInElement.own rfl ?_ pair
  split
  · exact .base fun base => (free?_stays hs (Area.holds_element bounded base)).bind fun _ => .pure _
  · exact .pure _

end

section Cases

variable {l : Label} {form : SumForm} (hb : (Shape.sum l form parts).Bounded)
  (hs : ∀ s, some s ∈ parts → StaysInside raw s)
  (h : area.Holds offset (Shape.sum l form parts).extent) (hpart : part ∈ parts)
include hb hs h hpart

theorem writeCase_stays (realloc : String) (n : Nat) :
    Stays area (writeCase raw realloc (tagWidth parts.length) area.addr offset
      (offset + placedPayload parts) n part) := by
  have tag := storeTag_stays (h.first hb.tag)
  cases part with
  | none =>
    refine (Stays.emitOne rfl _).bind fun _ => (Stays.emitOne rfl _).bind fun _ => ?_
    exact (tag _).bind fun _ => .pure _
  | some p =>
    refine (Stays.emitOne rfl _).bind fun _ => (Stays.emitOne rfl _).bind fun _ => ?_
    refine (tag _).bind fun _ => ?_
    exact ((hs p hpart).write (h.part (hb.payload hpart)) _ _).bind fun _ => .pure _

theorem readCase_stays :
    Stays area (readCase raw area.addr (offset + placedPayload parts) part) := by
  cases part with
  | none => exact .pure _
  | some p => exact ((hs p hpart).read (h.part (hb.payload hpart))).bind fun _ => .pure _

theorem freeCase_stays : Stays area (freeCase area.addr (offset + placedPayload parts) part) := by
  rw [freeCase]
  split
  · cases part with
    | none => exact Stays.bind (.pure _) fun _ => .pure _
    | some p => exact ((hs p hpart).free (h.part (hb.payload hpart))).bind fun _ => .pure _
  · exact .pure _

end Cases

theorem sum_stays {l : Label} {form : SumForm} (hb : (Shape.sum l form parts).Bounded)
    (hs : ∀ s, some s ∈ parts → StaysInside raw s) : StaysInside raw (.sum l form parts) := by
  refine ⟨fun {area offset} h realloc r => ?_, fun {area offset} h => ?_, fun {area offset} h => ?_⟩
  · rw [write, writeCases_eq, ← bind_assoc]
    refine Stays.bind (.ownCases rfl _ fun body hbody => ?_) fun _ => .pure _
    obtain ⟨n, inside, rfl⟩ := mem_mapIdx.mp hbody
    exact writeCase_stays hb hs h (getElem_mem inside) realloc _
  · rw [read, readCases_eq]
    refine (loadTag_stays (h.first hb.tag)).bind fun _ => ?_
    rw [← bind_assoc]
    refine Stays.bind (.ownCases rfl _ fun body hbody => ?_) fun _ => .pure _
    obtain ⟨part, hpart, rfl⟩ := mem_map.mp hbody
    exact readCase_stays hb hs h hpart
  · rw [free, freeCases_eq]
    refine .ite (fun _ => (loadTag_stays (h.first hb.tag)).bind fun _ => ?_) fun _ => .pure _
    rw [← bind_assoc]
    refine Stays.bind (.ownCases rfl _ fun body hbody => ?_) fun _ => .pure _
    obtain ⟨part, hpart, rfl⟩ := mem_map.mp hbody
    exact freeCase_stays hb hs h hpart

end Parts

theorem product_stays {raw : RawRule} {l : Label} {form : ProductForm}
    (hb : (Shape.product l form fields).Bounded)
    (hs : ∀ s, some s ∈ fields → StaysInside raw s) : StaysInside raw (.product l form fields) := by
  have held : ∀ {area : Area} {offset : UInt32},
      area.Holds offset (Shape.product l form fields).extent →
      ∀ o part, (o, part) ∈ (placedOffsets fields).zip fields →
        area.Holds (offset + o) (extent? part) :=
    fun h o part hpart => h.part (hb.field hpart)
  refine ⟨fun h realloc r => ?_, fun h => ?_, fun h => freeFields_stays hs (held h)⟩
  · exact (Stays.emit rfl _).bind fun _ => writeFields_stays hs (held h) _ _
  · exact (readFields_stays hs (held h)).bind fun _ => .emitOne rfl _

theorem staysInside {raw : RawRule} {s : Shape} (hb : s.Bounded) :
    StaysInside raw s := by
  induction s with
  | scalar s =>
    refine ⟨fun h _ _ => ?_, fun h => ?_, fun _ => .pure _⟩
    · rw [Shape.extent, scalar_eq, ← Scalar.width_storeOp] at h
      exact (Stays.emitOne rfl _).bind fun _ => .store _ h
    · rw [Shape.extent, scalar_eq] at h
      exact (Stays.load _ h).bind fun _ => .emitOne rfl _
  | string =>
    refine ⟨fun h _ _ => ?_, fun h => ?_, fun h => ?_⟩
    · exact (Stays.emit rfl _).bind fun _ => storePair_stays h _
    · exact (loadPair_stays h).bind fun _ => .emitOne rfl _
    · exact (loadPair_stays h).bind fun _ => .emitNone rfl _
  | product l form fields ih => exact product_stays hb fun s hs => ih s hs (hb.part hs)
  | sum l form payloads ih => exact sum_stays hb fun s hs => ih s hs (hb.part hs)
  | enum l cases =>
    refine ⟨fun h _ _ => ?_, fun h => ?_, fun _ => .pure _⟩
    · rw [Shape.extent, enum_eq_tag] at h
      exact (Stays.emitOne rfl _).bind fun _ => storeTag_stays h _
    · rw [Shape.extent, enum_eq_tag] at h
      exact (loadTag_stays h).bind fun _ => .emitOne rfl _
  | flags l count =>
    refine ⟨fun h _ _ => ?_, fun h => ?_, fun _ => .pure _⟩
    · exact (Stays.emit rfl _).bind fun _ => storeFlags_stays h length_range'
    · exact (loadFlags_stays h).bind fun _ => .emitOne rfl _
  | list l elem ih =>
    have parts : ∀ s, elem = some s → s.Bounded := fun s e => hb.part (mem_singleton.mpr e.symm)
    have hs : ∀ s, elem = some s → StaysInside raw s := fun s e => ih s e (parts s e)
    have bounded : (extent? elem).size < 2 ^ 32 := by
      cases elem with
      | none => decide
      | some s => exact (parts s rfl).size
    refine ⟨fun h _ _ => ?_, fun h => ?_, fun h => ?_⟩
    · exact (lowerList_stays hs bounded l _ _).bind fun _ => storePair_stays h _
    · exact (loadPair_stays h).bind fun _ => liftList_stays hs bounded l _
    · refine (loadPair_stays h).bind fun _ => ?_
      exact (freeList_stays hs bounded l _).bind fun _ => .pure _
  | handle l form resource =>
    refine ⟨fun h _ _ => ?_, fun h => ?_, fun _ => .pure _⟩
    · exact (Stays.emitOne rfl _).bind fun _ => Stays.store .i32 h
    · exact (Stays.load .i32 h).bind fun _ => .emitOne rfl _
  | synonym l target ih =>
    have hs : ∀ s, target = some s → StaysInside raw s :=
      fun s e => ih s e (hb.part (mem_singleton.mpr e.symm))
    exact ⟨fun h => write?_stays hs h, fun h => read?_stays hs h, fun h => free?_stays hs h⟩
  | channel | resource | unfinished =>
    exact ⟨fun _ _ _ => .pure _, fun _ => .pure _, fun _ => .pure _⟩

end Code

end CanonicalAbi
