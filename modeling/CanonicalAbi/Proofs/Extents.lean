import CanonicalAbi.Proofs.Shapes
import CanonicalAbi.Proofs.Unfolding
import Mathlib.Tactic.IntervalCases

/-!
# Exact layouts

Layouts are computed modulo 2^32. Here sizes and alignments are computed without a bound, and a
shape fits if none of its parts needs 2^32 bytes.
-/

namespace CanonicalAbi

open List Layout

variable {k : Nat} {align : UInt32} {s p : Shape} {payloads fields : Parts}

/-! ## Rounding -/

def roundUp (n align : Nat) : Nat := (n + align - 1) / align * align

/-- The alignments that occur are the powers of two up to eight. -/
def IsAlignment (align : UInt32) : Prop := ∃ k ≤ 3, align = UInt32.ofNat (2 ^ k)

theorem toNat_pow (hk : k < 32) : (UInt32.ofNat (2 ^ k)).toNat = 2 ^ k := by
  rw [UInt32.toNat_ofNat', Nat.mod_eq_of_lt (Nat.pow_lt_pow_right (by omega) hk)]

theorem toNat_and_not (x : UInt32) (hk : k < 32) :
    (x &&& ~~~(UInt32.ofNat (2 ^ k) - 1)).toNat = x.toNat / 2 ^ k * 2 ^ k := by
  have mask : (~~~(UInt32.ofNat (2 ^ k) - 1)).toNat = (2 ^ (32 - k) - 1) <<< k := by
    have whole : 2 ^ (32 - k) * 2 ^ k = 2 ^ 32 := by rw [← Nat.pow_add, Nat.sub_add_cancel hk.le]
    have pos := Nat.two_pow_pos k
    have below : 2 ^ k < 2 ^ 32 := Nat.pow_lt_pow_right (by omega) hk
    rw [UInt32.toNat_not, UInt32.toNat_sub, toNat_pow hk, UInt32.toNat_one, Nat.shiftLeft_eq,
      Nat.sub_mul, whole, Nat.one_mul, UInt32.size]
    omega
  have high : ∀ i, 32 ≤ i → x.toNat.testBit i = false := fun i hi =>
    Nat.testBit_lt_two_pow (lt_of_lt_of_le x.toNat_lt (Nat.pow_le_pow_right (by omega) hi))
  rw [UInt32.toNat_and, mask]
  apply Nat.eq_of_testBit_eq
  intro i
  rw [Nat.testBit_and, Nat.testBit_shiftLeft, Nat.testBit_two_pow_sub_one,
    ← Nat.shiftRight_eq_div_pow, ← Nat.shiftLeft_eq, Nat.testBit_shiftLeft,
    Nat.testBit_shiftRight]
  by_cases hi : k ≤ i
  · grind
  · simp [hi]

theorem le_roundUp (n : Nat) {align : Nat} (h : 0 < align) : n ≤ roundUp n align := by
  have := Nat.div_add_mod (n + align - 1) align
  have := Nat.mod_lt (n + align - 1) h
  rw [roundUp, Nat.mul_comm]
  omega

theorem IsAlignment.pos (h : IsAlignment align) : 0 < align.toNat := by
  obtain ⟨k, hk, rfl⟩ := h
  rw [toNat_pow (by omega)]
  exact Nat.two_pow_pos k

theorem IsAlignment.le_eight (h : IsAlignment align) : align.toNat ≤ 8 := by
  obtain ⟨k, hk, rfl⟩ := h
  interval_cases k <;> decide

theorem alignUp_pow_toNat (n : UInt32) (hk : k < 32) :
    (alignUp n (.ofNat (2 ^ k))).toNat = roundUp n.toNat (2 ^ k) % 2 ^ 32 := by
  have power := toNat_pow hk
  have pos := Nat.two_pow_pos k
  have nonzero : UInt32.ofNat (2 ^ k) ≠ 0 := by
    intro zero
    rw [zero, UInt32.toNat_zero] at power
    omega
  have sum : (n + .ofNat (2 ^ k) - 1).toNat = (n.toNat + 2 ^ k - 1) % 2 ^ 32 := by
    rw [UInt32.toNat_sub, UInt32.toNat_add, power, UInt32.toNat_one]
    omega
  have divides : 2 ^ k ∣ 2 ^ 32 := pow_dvd_pow 2 hk.le
  rw [alignUp, if_neg nonzero, toNat_and_not _ hk, sum, roundUp]
  -- Dropping multiples of 2^32 and dropping the remainder by 2^k commute.
  obtain ⟨q, hq⟩ := divides
  rw [hq, Nat.mod_mul_right_div_self, Nat.mul_comm (2 ^ k) q, Nat.mul_mod_mul_right]

theorem IsAlignment.alignUp_toNat (h : IsAlignment align) {n : UInt32}
    (hn : roundUp n.toNat align.toNat < 2 ^ 32) :
    (alignUp n align).toNat = roundUp n.toNat align.toNat := by
  obtain ⟨k, hk, rfl⟩ := h
  have small : k < 32 := by omega
  rw [toNat_pow small] at hn ⊢
  rw [alignUp_pow_toNat n small, Nat.mod_eq_of_lt hn]

/-! ## Extents -/

/-- A size and an alignment, without bounds. -/
structure Extent where
  size : Nat
  align : Nat

namespace Extent

/-- Where fields end that follow one another from `offset` on. -/
def stop (offset : Nat) : List Extent → Nat
  | [] => offset
  | f :: fs => stop (roundUp offset f.align + f.size) fs

/-- The strictest of some alignments, at least `least`. -/
def maxAlign (least : Nat) (parts : List Extent) : Nat :=
  parts.foldl (fun a f => max a f.align) least

/-- The largest of some sizes, at least `least`. -/
def maxSize (least : Nat) (parts : List Extent) : Nat :=
  parts.foldl (fun a f => max a f.size) least

/-- Fields in order, each at the next multiple of its alignment. -/
def product (fields : List Extent) : Extent where
  size := roundUp (stop 0 fields) (maxAlign 1 fields)
  align := maxAlign 1 fields

/-- The bytes that the number of one of some cases takes. -/
def tag (cases : Nat) : Nat := if cases ≤ 256 then 1 else if cases ≤ 65536 then 2 else 4

/-- The extent of a sum whose case number takes `tag` bytes, with the payloads of those cases that
have one. -/
def sum (tag : Nat) (payloads : List Extent) : Extent where
  size :=
    let align := maxAlign tag payloads
    roundUp (roundUp tag align + maxSize 0 payloads) align
  align := maxAlign tag payloads

/-- The extent of flags, one bit each: none, one small integer, or words of four bytes. -/
def flags (count : Nat) : Extent :=
  if count = 0 then ⟨0, 1⟩
  else if count ≤ 8 then ⟨1, 1⟩
  else if count ≤ 16 then ⟨2, 2⟩
  else ⟨4 * ((count + 31) / 32), 4⟩

def scalar : Scalar → Extent
  | .bool | .s8 | .u8 => ⟨1, 1⟩
  | .s16 | .u16 => ⟨2, 2⟩
  | .s32 | .u32 | .f32 | .char => ⟨4, 4⟩
  | .s64 | .u64 | .f64 => ⟨8, 8⟩

theorem tag_eq (cases : Nat) : tag cases = (tagWidth cases).size.toNat := by
  simp only [tag, tagWidth]
  split_ifs <;> rfl

theorem flags_eq (count : Nat) :
    flags count
      = ⟨(FlagsStorage.ofCount count).unit.size.toNat * (FlagsStorage.ofCount count).lanes,
        (FlagsStorage.ofCount count).align.toNat⟩ := by
  simp only [flags, FlagsStorage.ofCount]
  split_ifs with zero
  · rfl
  · rfl
  · rfl
  · have pos : ((count + 31) / 32 : Nat) ≠ (0 : Int) := by omega
    rw [FlagsStorage.align, if_neg pos]
    rfl

end Extent

def Layout.extent (l : Layout) : Extent := ⟨l.size.toNat, l.align.toNat⟩

theorem Extent.scalar_eq_layout (s : Scalar) : scalar s = (Layout.scalar s).extent := by
  cases s <;> rfl

mutual

def Shape.extent : Shape → Extent
  | .scalar s => .scalar s
  | .string | .list _ _ => ⟨8, 4⟩
  | .product _ _ fields => .product (fieldExtents fields)
  | .sum _ _ payloads => .sum (Extent.tag payloads.length) (payloadExtents payloads)
  | .enum _ cases => .sum (Extent.tag cases) []
  | .flags _ count => .flags count
  | .handle _ _ _ | .channel _ _ | .resource _ | .unfinished _ => ⟨4, 4⟩
  | .synonym _ target => extent? target

def extent? : Option Shape → Extent
  | none => ⟨4, 4⟩
  | some s => s.extent

def fieldExtents : Parts → List Extent
  | [] => []
  | f :: fs => extent? f :: fieldExtents fs

/-- The extents of the payloads of a sum, without the cases that have none. -/
def payloadExtents : Parts → List Extent
  | [] => []
  | none :: ps => payloadExtents ps
  | some p :: ps => p.extent :: payloadExtents ps

end

/-- A shape, or a part of it at any depth. -/
inductive Shape.Holds : Shape → Shape → Prop where
  | self (s : Shape) : Holds s s
  | part {s p u : Shape} : some p ∈ s.parts → Holds p u → Holds s u

/-- No part takes 2^32 bytes. -/
def Shape.Bounded (s : Shape) : Prop := ∀ u, s.Holds u → u.extent.size < 2 ^ 32

theorem Shape.Bounded.size (h : s.Bounded) : s.extent.size < 2 ^ 32 := h s (.self s)

theorem Shape.Bounded.part (h : s.Bounded) (hp : some p ∈ s.parts) : p.Bounded :=
  fun u hu => h u (.part hp hu)

theorem Shape.Bounded.of_parts (size : s.extent.size < 2 ^ 32)
    (parts : ∀ p, some p ∈ s.parts → p.Bounded) : s.Bounded := by
  intro u hu
  cases hu with
  | self => exact size
  | part hp hu => exact parts _ hp u hu

mutual

/-- Whether no part of a shape takes 2^32 bytes or numbers 2^32 cases of an enumeration. -/
def Shape.Fits : Shape → Prop
  | .product _ _ fields => FieldsFit fields ∧ (Extent.product (fieldExtents fields)).size < 2 ^ 32
  | .sum _ _ payloads => PayloadsFit payloads
      ∧ (Extent.sum (Extent.tag payloads.length) (payloadExtents payloads)).size < 2 ^ 32
  | .enum _ cases => cases < 2 ^ 32
  | .flags _ count => (Extent.flags count).size < 2 ^ 32
  | .list _ elem => Fits? elem
  | .synonym _ target => Fits? target
  | .scalar _ | .string | .handle _ _ _ | .channel _ _ | .resource _ | .unfinished _ => True

def Fits? : Option Shape → Prop
  | none => True
  | some s => s.Fits

def FieldsFit : Parts → Prop
  | [] => True
  | f :: fs => Fits? f ∧ FieldsFit fs

def PayloadsFit : Parts → Prop
  | [] => True
  | p :: ps => Fits? p ∧ PayloadsFit ps

end

theorem mem_payloadExtents (h : some p ∈ payloads) : p.extent ∈ payloadExtents payloads := by
  have extents : payloadExtents payloads = payloads.filterMap (·.map Shape.extent) := by
    clear h
    induction payloads with
    | nil => rfl
    | cons q ps ih => cases q <;> simp [payloadExtents, ih]
  exact extents ▸ mem_filterMap.mpr ⟨some p, h, rfl⟩

/-- Whether the types of a function fit, and the areas of its parameters and of its results. -/
structure FunctionShape.Fits (f : FunctionShape) : Prop where
  params : FieldsFit f.params
  paramArea : (Extent.product (fieldExtents f.params)).size < 2 ^ 32
  results : FieldsFit f.results
  resultArea : (Extent.product (fieldExtents f.results)).size < 2 ^ 32

theorem FieldsFit.of_mem (h : FieldsFit fields) {part : Option Shape} (hp : part ∈ fields) :
    Fits? part := by
  induction fields with
  | nil => simp at hp
  | cons f fs ih =>
    rcases mem_cons.mp hp with rfl | hp
    · exact h.1
    · exact ih h.2 hp

theorem PayloadsFit.of_mem (h : PayloadsFit payloads) (hp : some p ∈ payloads) : p.Fits := by
  induction payloads with
  | nil => simp at hp
  | cons q ps ih =>
    rcases mem_cons.mp hp with rfl | hp
    · exact h.1
    · exact ih h.2 hp

/-! ## Layouts against extents -/

namespace Layout

/-- The layout has this extent: nothing wrapped around. -/
structure Exact (l : Layout) (e : Extent) : Prop where
  size : l.size.toNat = e.size
  align : l.align.toNat = e.align
  isAlignment : IsAlignment l.align

theorem exact_extent {l : Layout} (h : IsAlignment l.align) : l.Exact l.extent := ⟨rfl, rfl, h⟩

/-- Fields that lie one behind the other from `start` to `stop`. -/
def Between (start stop : Nat) : List UInt32 → List Layout → Prop
  | [], [] => start ≤ stop
  | o :: offsets, l :: layouts =>
    start ≤ o.toNat ∧ Between (o.toNat + l.size.toNat) stop offsets layouts
  | _, _ => False

theorem Between.start_le {start stop : Nat} {offsets : List UInt32} {layouts : List Layout}
    (h : Between start stop offsets layouts) : start ≤ stop := by
  induction offsets generalizing start layouts with
  | nil =>
    cases layouts with
    | nil => exact h
    | cons => exact h.elim
  | cons o offsets ih =>
    cases layouts with
    | nil => exact h.elim
    | cons l layouts =>
      have := ih h.2
      have := h.1
      omega

theorem Between.mono {start stop stop' : Nat} {offsets : List UInt32} {layouts : List Layout}
    (h : Between start stop offsets layouts) (hs : stop ≤ stop') :
    Between start stop' offsets layouts := by
  induction offsets generalizing start layouts with
  | nil =>
    cases layouts with
    | nil => exact Nat.le_trans h hs
    | cons => exact h.elim
  | cons o offsets ih =>
    cases layouts with
    | nil => exact h.elim
    | cons l layouts => exact ⟨h.1, ih h.2⟩

variable {layouts : List Layout} {extents : List Extent}

theorem maxAlign_exact (h : Forall₂ Exact layouts extents) {least : UInt32}
    (hl : IsAlignment least) :
    (maxAlign least layouts).toNat = Extent.maxAlign least.toNat extents
      ∧ IsAlignment (maxAlign least layouts) := by
  induction h generalizing least with
  | nil => exact ⟨rfl, hl⟩
  | @cons l e ls es hle _ ih =>
    simp only [maxAlign, Extent.maxAlign, foldl_cons] at ih ⊢
    by_cases hgt : l.align > least
    · rw [if_pos hgt]
      have hmax : max least.toNat e.align = l.align.toNat := by
        rw [hle.align]
        have := UInt32.lt_iff_toNat_lt.mp hgt
        rw [hle.align] at this
        omega
      rw [hmax]
      exact ih hle.isAlignment
    · rw [if_neg hgt]
      have hmax : max least.toNat e.align = least.toNat := by
        have := UInt32.le_iff_toNat_le.mp (UInt32.not_lt.mp hgt)
        rw [hle.align] at this
        omega
      rw [hmax]
      exact ih hl

theorem maxSize_exact (h : Forall₂ Exact layouts extents) :
    (maxSize layouts).toNat = Extent.maxSize 0 extents := by
  suffices ∀ least : UInt32,
      (layouts.foldl (fun a f => if f.size > a then f.size else a) least).toNat
        = Extent.maxSize least.toNat extents from this 0
  induction h with
  | nil => exact fun _ => rfl
  | @cons l e ls es hle _ ih =>
    intro least
    simp only [Extent.maxSize, foldl_cons] at ih ⊢
    by_cases hgt : l.size > least
    · rw [if_pos hgt, ih, hle.size]
      have := UInt32.lt_iff_toNat_lt.mp hgt
      rw [hle.size] at this
      rw [max_eq_right (by omega)]
    · rw [if_neg hgt, ih]
      have := UInt32.le_iff_toNat_le.mp (UInt32.not_lt.mp hgt)
      rw [hle.size] at this
      rw [max_eq_left this]

theorem le_stop (h : Forall₂ Exact layouts extents) (offset : Nat) :
    offset ≤ Extent.stop offset extents := by
  induction h generalizing offset with
  | nil => exact le_refl _
  | @cons l e ls es hle _ ih =>
    have rounded : offset ≤ roundUp offset e.align :=
      le_roundUp offset (hle.align ▸ hle.isAlignment.pos)
    have := ih (roundUp offset e.align + e.size)
    simp only [Extent.stop]
    omega

theorem placeField_exact {l : Layout} {e : Extent} (h : l.Exact e) (offset : UInt32)
    (hstop : roundUp offset.toNat e.align + e.size < 2 ^ 32) :
    (alignUp offset l.align).toNat = roundUp offset.toNat e.align
      ∧ (alignUp offset l.align + l.size).toNat = roundUp offset.toNat e.align + e.size := by
  rw [← h.align, ← h.size] at hstop ⊢
  have start := h.isAlignment.alignUp_toNat (n := offset) (by omega)
  exact ⟨start, by rw [UInt32.toNat_add, start, Nat.mod_eq_of_lt hstop]⟩

theorem placeFields_between (h : Forall₂ Exact layouts extents) (offset : UInt32)
    (hstop : Extent.stop offset.toNat extents < 2 ^ 32) :
    (placeFields offset layouts).2.toNat = Extent.stop offset.toNat extents
      ∧ Between offset.toNat (placeFields offset layouts).2.toNat
          (placeFields offset layouts).1 layouts := by
  induction h generalizing offset with
  | nil => exact ⟨rfl, le_refl _⟩
  | @cons l e ls es hle hrest ih =>
    simp only [Extent.stop] at hstop ⊢
    have below := le_stop hrest (roundUp offset.toNat e.align + e.size)
    obtain ⟨start, stop⟩ := placeField_exact hle offset (by omega)
    rw [← stop] at hstop ⊢
    obtain ⟨ends, between⟩ := ih _ hstop
    refine ⟨ends, ?_, ?_⟩
    · rw [start]
      exact le_roundUp _ (hle.align ▸ hle.isAlignment.pos)
    · rw [start, hle.size, ← stop]
      exact between

theorem product_exact (h : Forall₂ Exact layouts extents)
    (hsize : (Extent.product extents).size < 2 ^ 32) :
    (product layouts).Exact (.product extents)
      ∧ Between 0 (product layouts).size.toNat (product layouts).offsets layouts := by
  have one : IsAlignment 1 := ⟨0, by omega, rfl⟩
  obtain ⟨align, isAlignment⟩ := maxAlign_exact h one
  have rounded := le_roundUp (Extent.stop 0 extents) (align ▸ isAlignment.pos)
  simp only [Extent.product] at hsize
  have hstop : Extent.stop 0 extents < 2 ^ 32 := by
    rw [UInt32.toNat_one] at rounded
    omega
  obtain ⟨stop, between⟩ := placeFields_between h 0 hstop
  have size : (product layouts).size.toNat = (Extent.product extents).size := by
    simp only [product, Extent.product]
    rw [isAlignment.alignUp_toNat] <;> rw [stop, align] <;> [rfl; exact hsize]
  refine ⟨⟨size, align, isAlignment⟩, between.mono ?_⟩
  rw [size, stop]
  exact rounded

theorem IntWidth.isAlignment (w : IntWidth) : IsAlignment w.align := by
  cases w
  · exact ⟨0, by omega, rfl⟩
  · exact ⟨1, by omega, rfl⟩
  · exact ⟨2, by omega, rfl⟩
  · exact ⟨3, by omega, rfl⟩

theorem least_le_foldl_max (number : Extent → Nat) (extents : List Extent) (least : Nat) :
    least ≤ extents.foldl (fun a f => max a (number f)) least := by
  induction extents generalizing least with
  | nil => exact le_refl _
  | cons f fs ih => exact le_trans (le_max_left _ _) (ih _)

theorem le_foldl_max (number : Extent → Nat) {e : Extent} (he : e ∈ extents) (least : Nat) :
    number e ≤ extents.foldl (fun a f => max a (number f)) least := by
  induction extents generalizing least with
  | nil => simp at he
  | cons f fs ih =>
    rcases mem_cons.mp he with rfl | he
    · exact le_trans (le_max_right _ _) (least_le_foldl_max number fs _)
    · exact ih he _

theorem le_maxSize {e : Extent} (he : e ∈ extents) : e.size ≤ Extent.maxSize 0 extents :=
  le_foldl_max (·.size) he 0

theorem le_maxAlign {e : Extent} (he : e ∈ extents) (least : Nat) :
    e.align ≤ Extent.maxAlign least extents :=
  le_foldl_max (·.align) he least

theorem sum_payload (h : Forall₂ Exact layouts extents) (tag : IntWidth)
    (hsize : (Extent.sum tag.size.toNat extents).size < 2 ^ 32) :
    (sum tag layouts).payload.toNat
      = roundUp tag.size.toNat (Extent.maxAlign tag.size.toNat extents) := by
  obtain ⟨align, isAlignment⟩ := maxAlign_exact h (IntWidth.isAlignment tag)
  have align' : (maxAlign tag.align layouts).toNat = Extent.maxAlign tag.size.toNat extents := align
  have outer := le_roundUp (roundUp tag.size.toNat (maxAlign tag.align layouts).toNat
    + Extent.maxSize 0 extents) isAlignment.pos
  rw [align'] at outer
  simp only [Extent.sum] at hsize
  rw [← align']
  exact isAlignment.alignUp_toNat (by rw [align']; omega)

/-- A sum that takes less than 2^32 bytes has room for the case number and, behind it, for each
payload. -/
theorem sum_exact (h : Forall₂ Exact layouts extents) (tag : IntWidth)
    (hsize : (Extent.sum tag.size.toNat extents).size < 2 ^ 32) :
    (sum tag layouts).Exact (.sum tag.size.toNat extents)
      ∧ tag.size.toNat ≤ (sum tag layouts).payload.toNat
      ∧ (sum tag layouts).payload.toNat + (maxSize layouts).toNat
          ≤ (sum tag layouts).size.toNat := by
  obtain ⟨align, isAlignment⟩ := maxAlign_exact h (IntWidth.isAlignment tag)
  have align' : (maxAlign tag.align layouts).toNat = Extent.maxAlign tag.size.toNat extents := align
  have payload := sum_payload h tag hsize
  have largest := maxSize_exact h
  rw [← align'] at payload
  simp only [Extent.sum, ← align', ← largest] at hsize
  have outer := le_roundUp (roundUp tag.size.toNat (maxAlign tag.align layouts).toNat
    + (maxSize layouts).toNat) isAlignment.pos
  have stop : (alignUp tag.size (maxAlign tag.align layouts) + maxSize layouts).toNat
      = roundUp tag.size.toNat (maxAlign tag.align layouts).toNat + (maxSize layouts).toNat := by
    rw [UInt32.toNat_add]
    change ((sum tag layouts).payload.toNat + _) % _ = _
    rw [payload, Nat.mod_eq_of_lt (by omega)]
  have size : (sum tag layouts).size.toNat
      = roundUp (roundUp tag.size.toNat (maxAlign tag.align layouts).toNat
          + (maxSize layouts).toNat) (maxAlign tag.align layouts).toNat := by
    simp only [sum]
    rw [isAlignment.alignUp_toNat] <;> rw [stop]
    exact hsize
  refine ⟨⟨?_, align, isAlignment⟩, ?_, ?_⟩
  · simp only [Extent.sum, ← align', ← largest]
    exact size
  · rw [payload]
    exact le_roundUp _ isAlignment.pos
  · rw [payload, size]
    exact outer

theorem tagged_exact (h : Forall₂ Exact layouts extents) (cases : Nat)
    (hsize : (Extent.sum (Extent.tag cases) extents).size < 2 ^ 32) :
    (sum (tagWidth cases) layouts).Exact (.sum (Extent.tag cases) extents)
      ∧ (tagWidth cases).size.toNat ≤ (sum (tagWidth cases) layouts).payload.toNat
      ∧ (sum (tagWidth cases) layouts).payload.toNat + (maxSize layouts).toNat
          ≤ (sum (tagWidth cases) layouts).size.toNat := by
  rw [Extent.tag_eq] at hsize ⊢
  exact sum_exact h _ hsize

theorem ofInt_natCast (n : Nat) : UInt32.ofInt n = UInt32.ofNat n := by
  apply UInt32.toNat_inj.mp
  simp [UInt32.ofInt, Int.toNat_emod]

theorem flags_exact {count : Nat} (hsize : (Extent.flags count).size < 2 ^ 32) :
    (flags count).Exact (.flags count) := by
  refine ⟨?_, by rw [Extent.flags_eq]; rfl, ?_⟩
  · have count_eq : UInt32.ofInt (FlagsStorage.ofCount count).count
        = UInt32.ofNat (FlagsStorage.ofCount count).lanes := by
      rw [← ofInt_natCast, FlagsStorage.lanes, Int.toNat_of_nonneg]
      simp only [FlagsStorage.ofCount]
      split_ifs <;> simp
      omega
    have unit : 0 < (FlagsStorage.ofCount count).unit.size.toNat := by
      cases (FlagsStorage.ofCount count).unit <;> decide
    simp only [Extent.flags_eq] at hsize ⊢
    have lanes : (FlagsStorage.ofCount count).lanes < 2 ^ 32 :=
      lt_of_le_of_lt (Nat.le_mul_of_pos_left _ unit) hsize
    simp only [flags, FlagsStorage.size, count_eq, UInt32.toNat_mul, UInt32.toNat_ofNat']
    rw [Nat.mod_eq_of_lt lanes, Nat.mod_eq_of_lt hsize]
  · simp only [flags, FlagsStorage.align]
    split
    · exact ⟨0, by omega, rfl⟩
    · exact IntWidth.isAlignment _

theorem scalar_isAlignment (s : Scalar) : IsAlignment (scalar s).align := by
  cases s
  all_goals first
    | exact ⟨0, by omega, rfl⟩
    | exact ⟨1, by omega, rfl⟩
    | exact ⟨2, by omega, rfl⟩
    | exact ⟨3, by omega, rfl⟩

end Layout

/-! ## Shapes that fit -/

theorem fieldPlaces_exact_of_parts (h : ∀ s, some s ∈ fields → s.place.Exact s.extent) :
    Forall₂ Layout.Exact (fieldPlaces fields) (fieldExtents fields) := by
  induction fields with
  | nil => exact .nil
  | cons f fs ih =>
    have rest := ih fun s hs => h s (mem_cons_of_mem _ hs)
    cases f with
    | none => exact .cons (exact_extent ⟨2, by omega, rfl⟩) rest
    | some s => exact .cons (h s mem_cons_self) rest

theorem payloadPlaces_exact_of_parts (h : ∀ s, some s ∈ payloads → s.place.Exact s.extent) :
    Forall₂ Layout.Exact (payloadPlaces payloads) (payloadExtents payloads) := by
  induction payloads with
  | nil => exact .nil
  | cons p ps ih =>
    have rest := ih fun s hs => h s (mem_cons_of_mem _ hs)
    cases p with
    | none => exact rest
    | some p => exact .cons (h p mem_cons_self) rest

theorem Extent.enum_size_lt (cases : Nat) : (Extent.sum (Extent.tag cases) []).size < 2 ^ 32 := by
  simp only [Extent.tag]
  split_ifs <;> decide

theorem Shape.Bounded.place_exact (h : s.Bounded) : s.place.Exact s.extent := by
  induction s with
  | scalar s =>
    rw [Shape.extent, Extent.scalar_eq_layout]
    exact exact_extent (scalar_isAlignment s)
  | string | list => exact exact_extent ⟨2, by omega, rfl⟩
  | product l form fields ih =>
    have parts := fieldPlaces_exact_of_parts fun s hs => ih s hs (h.part hs)
    exact (product_exact parts h.size).1
  | sum l form payloads ih =>
    have parts := payloadPlaces_exact_of_parts fun s hs => ih s hs (h.part hs)
    exact (tagged_exact parts _ h.size).1
  | enum l cases => exact (tagged_exact .nil cases (Extent.enum_size_lt cases)).1
  | flags l count => exact flags_exact h.size
  | handle | channel | resource | unfinished => exact exact_extent ⟨2, by omega, rfl⟩
  | synonym l target ih =>
    cases target with
    | none => exact exact_extent ⟨2, by omega, rfl⟩
    | some t => exact ih t rfl (h.part mem_cons_self)

theorem Shape.Fits.bounded (h : s.Fits) : s.Bounded := by
  induction s with
  | scalar s => exact .of_parts (by cases s <;> decide) nofun
  | string => exact .of_parts (by decide) nofun
  | product l form fields ih =>
    exact .of_parts h.2 fun p hp => ih p hp (h.1.of_mem hp)
  | sum l form payloads ih =>
    exact .of_parts h.2 fun p hp => ih p hp (h.1.of_mem hp)
  | enum l cases => exact .of_parts (Extent.enum_size_lt cases) nofun
  | flags l count => exact .of_parts h nofun
  | list l elem ih =>
    refine .of_parts (by change 8 < 2 ^ 32; decide) fun p hp => ?_
    obtain rfl := mem_singleton.mp hp
    exact ih p rfl h
  | handle | channel | resource | unfinished =>
    exact .of_parts (by change 4 < 2 ^ 32; decide) nofun
  | synonym l target ih =>
    cases target with
    | none => exact .of_parts (by change 4 < 2 ^ 32; decide) (by simp [Shape.parts])
    | some t =>
      have bounded := ih t rfl h
      refine .of_parts bounded.size fun p hp => ?_
      obtain rfl := Option.some.inj (mem_singleton.mp hp)
      exact bounded

theorem Shape.place_exact (h : s.Fits) : s.place.Exact s.extent := h.bounded.place_exact

theorem place?_exact {part : Option Shape} (h : Fits? part) :
    (place? part).Exact (extent? part) := by
  cases part with
  | none => exact exact_extent ⟨2, by omega, rfl⟩
  | some s => exact Shape.place_exact h

theorem fieldPlaces_exact (h : FieldsFit fields) :
    Forall₂ Layout.Exact (fieldPlaces fields) (fieldExtents fields) :=
  fieldPlaces_exact_of_parts fun _ hs => Shape.place_exact (h.of_mem hs)

theorem payloadPlaces_exact (h : PayloadsFit payloads) :
    Forall₂ Layout.Exact (payloadPlaces payloads) (payloadExtents payloads) :=
  payloadPlaces_exact_of_parts fun _ hs => Shape.place_exact (h.of_mem hs)

theorem placedOffsets_between (h : FieldsFit fields)
    (hsize : (Extent.product (fieldExtents fields)).size < 2 ^ 32) :
    Layout.Between 0 (Layout.product (fieldPlaces fields)).size.toNat (placedOffsets fields)
      (fieldPlaces fields) :=
  (Layout.product_exact (fieldPlaces_exact h) hsize).2

section

variable (h : PayloadsFit payloads)
  (hsize : (Extent.sum (Extent.tag payloads.length) (payloadExtents payloads)).size < 2 ^ 32)
include h hsize

theorem tag_le_placedPayload :
    (tagWidth payloads.length).size.toNat ≤ (placedPayload payloads).toNat
      ∧ (placedPayload payloads).toNat
        ≤ (sum (tagWidth payloads.length) (payloadPlaces payloads)).size.toNat := by
  obtain ⟨_, tag, payload⟩ := tagged_exact (payloadPlaces_exact h) _ hsize
  exact ⟨tag, by simp only [placedPayload]; omega⟩

theorem placedPayload_le (hp : some p ∈ payloads) :
    (placedPayload payloads).toNat + p.place.size.toNat
      ≤ (sum (tagWidth payloads.length) (payloadPlaces payloads)).size.toNat := by
  have exact := payloadPlaces_exact h
  obtain ⟨_, _, payload⟩ := tagged_exact exact _ hsize
  have largest : p.place.size.toNat ≤ (maxSize (payloadPlaces payloads)).toNat := by
    rw [maxSize_exact exact, (Shape.place_exact (h.of_mem hp)).size]
    exact le_maxSize (mem_payloadExtents hp)
  simp only [placedPayload]
  omega

end

theorem enum_size (cases : Nat) : (enum cases).size = (tagWidth cases).size := by
  simp only [enum, tagWidth]
  split_ifs <;> decide

end CanonicalAbi
