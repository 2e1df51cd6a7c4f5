import CanonicalAbi.Proofs.Calculations
import CanonicalAbi.Proofs.Validation
import Mathlib.Order.Bounds.Basic

/-!
# Well-formed layouts

The layout that a calculator finds for a type has the exact size and alignment, as long as nothing
in the type takes 2^32 bytes. The alignment is one, two, four or eight and divides the size.
-/

namespace CanonicalAbi

variable {e : Extent} {t : Option TypeRef}

/-! ## Rounding -/

theorem dvd_roundUp (n align : Nat) : align ∣ roundUp n align := Nat.dvd_mul_left _ _

theorem isLeast_roundUp (n : Nat) {align : Nat} (h : 0 < align) :
    IsLeast {m | align ∣ m ∧ n ≤ m} (roundUp n align) := by
  refine ⟨⟨dvd_roundUp n align, le_roundUp n h⟩, ?_⟩
  rintro m ⟨⟨k, rfl⟩, hn⟩
  have quotient : (n + align - 1) / align ≤ k := by
    refine Nat.lt_succ_iff.mp ((Nat.div_lt_iff_lt_mul h).mpr ?_)
    rw [Nat.succ_mul, Nat.mul_comm k]
    omega
  calc roundUp n align = (n + align - 1) / align * align := rfl
    _ ≤ k * align := Nat.mul_le_mul_right _ quotient
    _ = align * k := Nat.mul_comm _ _

theorem IsAlignment.mem {align : UInt32} (h : IsAlignment align) : align ∈ [1, 2, 4, 8] := by
  obtain ⟨k, hk, rfl⟩ := h
  interval_cases k <;> decide

theorem IsAlignment.dvd {a b : UInt32} (ha : IsAlignment a) (hb : IsAlignment b)
    (h : a.toNat ≤ b.toNat) : a.toNat ∣ b.toNat := by
  obtain ⟨i, hi, rfl⟩ := ha
  obtain ⟨j, hj, rfl⟩ := hb
  rw [toNat_pow (by omega : i < 32), toNat_pow (by omega : j < 32)] at *
  exact pow_dvd_pow 2 ((Nat.pow_le_pow_iff_right (by omega)).mp h)

/-! ## Alignments divide sizes -/

namespace Extent

theorem align_dvd_flags (count : Nat) : (flags count).align ∣ (flags count).size := by
  simp only [flags]
  split_ifs <;> simp

theorem align_dvd_scalar (s : Scalar) : (scalar s).align ∣ (scalar s).size := by
  cases s <;> decide

end Extent

theorem Shape.align_dvd_size (s : Shape) : s.extent.align ∣ s.extent.size := by
  induction s with
  | scalar s => exact Extent.align_dvd_scalar s
  | string | list => exact ⟨2, rfl⟩
  | product | sum | enum => exact dvd_roundUp _ _
  | flags l count => exact Extent.align_dvd_flags count
  | handle | channel | resource | unfinished => exact ⟨1, rfl⟩
  | synonym l target ih =>
    cases target with
    | none => exact ⟨1, rfl⟩
    | some t => exact ih t rfl

/-! ## What a layout has to be -/

namespace Layout

/-- A layout of the exact size and alignment, where the alignment is one that occurs and divides the
size. -/
structure Sized (l : Layout) (e : Extent) : Prop where
  size : l.size.toNat = e.size
  align : l.align.toNat = e.align
  align_mem : l.align ∈ [1, 2, 4, 8]
  align_dvd : l.align.toNat ∣ l.size.toNat

/-- Offsets at which fields begin, each at the first multiple of its alignment that is not before
the end of the field before. -/
inductive Packed : Nat → List UInt32 → List Extent → Prop where
  | nil (start : Nat) : Packed start [] []
  | cons {start : Nat} {o : UInt32} {os : List UInt32} {f : Extent} {fs : List Extent} :
    IsLeast {m | f.align ∣ m ∧ start ≤ m} o.toNat → Packed (o.toNat + f.size) os fs →
      Packed start (o :: os) (f :: fs)

/-- Fields lie in order, apart and inside. -/
structure OfFields (l : Layout) (fields : List Extent) : Prop where
  sized : l.Sized (.product fields)
  packed : Packed 0 l.offsets fields
  apart : (l.offsets.zip fields).Pairwise fun a b => a.1.toNat + a.2.size ≤ b.1.toNat
  inside : ∀ f ∈ l.offsets.zip fields, f.1.toNat + f.2.size ≤ l.size.toNat

/-- Payloads lie inside, aligned and behind the tag. -/
structure OfPayloads (l : Layout) (tag : IntWidth) (payloads : List Extent) : Prop where
  sized : l.Sized (.sum tag.size.toNat payloads)
  tag_eq : l.tag = tag
  behind : tag.size.toNat ≤ l.payload.toNat
  aligned : ∀ p ∈ payloads, p.align ∣ l.payload.toNat
  payload_le : l.payload.toNat ≤ l.size.toNat
  inside : ∀ p ∈ payloads, l.payload.toNat + p.size ≤ l.size.toNat

theorem Exact.sized {l : Layout} (h : l.Exact e) (dvd : e.align ∣ e.size) : l.Sized e :=
  ⟨h.size, h.align, h.isAlignment.mem, by rwa [h.size, h.align]⟩

variable {layouts : List Layout} {extents : List Extent}

/-! ## Products -/

theorem Packed.start_le {start : Nat} {offsets : List UInt32} (h : Packed start offsets extents) :
    ∀ f ∈ offsets.zip extents, start ≤ f.1.toNat := by
  induction h with
  | nil => simp
  | @cons start o os f fs least rest ih =>
    have from_start := least.1.2
    intro g hg
    rcases List.mem_cons.mp hg with rfl | hg
    · exact from_start
    · have := ih g hg
      omega

theorem Packed.apart {start : Nat} {offsets : List UInt32} (h : Packed start offsets extents) :
    (offsets.zip extents).Pairwise fun a b => a.1.toNat + a.2.size ≤ b.1.toNat := by
  induction h with
  | nil => exact .nil
  | cons _ rest ih => exact .cons rest.start_le ih

theorem placeFields_packed (h : List.Forall₂ Exact layouts extents) (offset : UInt32)
    (hstop : Extent.stop offset.toNat extents < 2 ^ 32) :
    Packed offset.toNat (placeFields offset layouts).1 extents
      ∧ ∀ f ∈ (placeFields offset layouts).1.zip extents,
          f.1.toNat + f.2.size ≤ Extent.stop offset.toNat extents := by
  induction h generalizing offset with
  | nil => exact ⟨.nil _, by simp [placeFields]⟩
  | @cons l e ls es hle hrest ih =>
    simp only [Extent.stop] at hstop ⊢
    have below := le_stop hrest (roundUp offset.toNat e.align + e.size)
    obtain ⟨start, stop⟩ := placeField_exact hle offset (by omega)
    rw [← stop] at hstop below ⊢
    obtain ⟨packed, inside⟩ := ih _ hstop
    refine ⟨.cons ?_ ?_, ?_⟩
    · rw [start]
      exact isLeast_roundUp _ (hle.align ▸ hle.isAlignment.pos)
    · rw [start, ← stop]
      exact packed
    · intro f hf
      rcases List.mem_cons.mp hf with rfl | hf
      · simp only
        rw [start, ← stop]
        exact below
      · exact inside f hf

theorem product_ofFields (h : List.Forall₂ Exact layouts extents)
    (hsize : (Extent.product extents).size < 2 ^ 32) : (product layouts).OfFields extents := by
  have exact := (product_exact h hsize).1
  have pos : 0 < (Extent.product extents).align := exact.align ▸ exact.isAlignment.pos
  have rounded : Extent.stop 0 extents ≤ (Extent.product extents).size := le_roundUp _ pos
  obtain ⟨packed, inside⟩ := placeFields_packed h 0 (lt_of_le_of_lt rounded hsize)
  refine ⟨exact.sized (dvd_roundUp _ _), packed, packed.apart, fun f hf => ?_⟩
  rw [exact.size]
  exact le_trans (inside f hf) rounded

/-! ## Sums -/

section

variable (h : List.Forall₂ Exact layouts extents)
include h

theorem exists_exact_of_mem (he : e ∈ extents) : ∃ l : Layout, l.Exact e := by
  induction h with
  | nil => simp at he
  | cons hle _ ih =>
    rcases List.mem_cons.mp he with rfl | he
    · exact ⟨_, hle⟩
    · exact ih he

theorem align_dvd_maxAlign {least : UInt32} (hl : IsAlignment least) (he : e ∈ extents) :
    e.align ∣ Extent.maxAlign least.toNat extents := by
  obtain ⟨l, exact⟩ := exists_exact_of_mem h he
  obtain ⟨align, isAlignment⟩ := maxAlign_exact h hl
  rw [← exact.align, ← align]
  refine exact.isAlignment.dvd isAlignment ?_
  rw [exact.align, align]
  exact le_maxAlign he _

theorem least_dvd_maxAlign {least : UInt32} (hl : IsAlignment least) :
    least.toNat ∣ Extent.maxAlign least.toNat extents := by
  obtain ⟨align, isAlignment⟩ := maxAlign_exact h hl
  rw [← align]
  refine hl.dvd isAlignment ?_
  rw [align]
  exact least_le_foldl_max _ _ _

theorem sum_ofPayloads (tag : IntWidth)
    (hsize : (Extent.sum tag.size.toNat extents).size < 2 ^ 32) :
    (sum tag layouts).OfPayloads tag extents := by
  obtain ⟨exact, behind, room⟩ := sum_exact h tag hsize
  rw [maxSize_exact h] at room
  refine ⟨exact.sized (dvd_roundUp _ _), rfl, behind, fun p hp => ?_, by omega, fun p hp => ?_⟩
  · rw [sum_payload h tag hsize]
    exact (align_dvd_maxAlign h (IntWidth.isAlignment tag) hp).trans (dvd_roundUp _ _)
  · have := le_maxSize hp
    omega

end

end Layout

theorem lt_of_tagWidth {cases : Nat} (h : cases ≤ 2 ^ 32) {i : Nat} (hi : i < cases) :
    i < 2 ^ (8 * (tagWidth cases).size.toNat) := by
  simp only [tagWidth]
  split_ifs
  · change i < 2 ^ 8
    omega
  · change i < 2 ^ 16
    omega
  · change i < 2 ^ 32
    omega

/-! ## Types that have a layout -/

namespace Graph

variable {g : Graph}

/-- What is at a position can be laid out: it is a type, and not a resource by value or a definition
without a kind. -/
def Laid (g : Graph) : Option TypeRef → Prop
  | none => False
  | some (.scalar _) | some .string => True
  | some (.defn id) => ∃ k, g.kind? id = some k ∧ k ≠ .resource

theorem Fit.laid (h : g.Fit t) : g.Laid t := by
  rcases t with _ | (s | _ | id)
  · exact h
  · trivial
  · trivial
  · obtain ⟨k, hk, fit⟩ := h
    exact ⟨k, hk, by rintro rfl; exact fit⟩

def Placed (g : Graph) (t : Option TypeRef) : Prop :=
  optLayout (g.shapes.shape? t) = .ok (place? (g.shapes.shape? t))

theorem fieldLayouts_map {α : Type} {xs : List α} {f : α → Option TypeRef}
    (h : ∀ x ∈ xs, g.Placed (f x)) :
    fieldLayouts (xs.map fun x => g.shapes.shape? (f x))
      = .ok (fieldPlaces (xs.map fun x => g.shapes.shape? (f x))) := by
  refine fieldLayouts_of_parts fun p hp => ?_
  obtain ⟨x, hx, rfl⟩ := List.mem_map.mp hp
  exact h x hx

theorem payloadLayouts_map {α : Type} (xs : List α) {f : α → Option TypeRef}
    (h : ∀ x ∈ xs, (f x).isSome → g.Placed (f x)) :
    payloadLayouts (xs.map fun x => g.shapes.shape? (f x))
      = .ok (payloadPlaces (xs.map fun x => g.shapes.shape? (f x))) := by
  refine payloadLayouts_of_parts fun p hp => ?_
  obtain ⟨x, hx, hsome, he⟩ := exists_of_mem_map_shape? hp
  have placed := h x hx hsome
  rw [Placed, he] at placed
  exact placed

theorem product_placed {l : Label} {form : ProductForm} {fields : Parts}
    (h : fieldLayouts fields = .ok (fieldPlaces fields)) :
    (Shape.product l form fields).layout = .ok (Shape.product l form fields).place := by
  rw [Shape.layout, h]
  rfl

theorem sum_placed {l : Label} {form : SumForm} {payloads : Parts}
    (h : payloadLayouts payloads = .ok (payloadPlaces payloads)) :
    (Shape.sum l form payloads).layout = .ok (Shape.sum l form payloads).place := by
  rw [Shape.layout, h]
  rfl

theorem placed_of_kind (hg : g.Acyclic) {id : DefId} {k : Kind} (hk : g.kind? id = some k)
    (byValue : k ≠ .resource) (parts : ∀ t ∈ k.required, g.Placed t) :
    g.Placed (some (.defn id)) := by
  simp only [Placed, ShapeTable.shape?, Option.map_some, optLayout, place?,
    shapes_defn_of_kind? hg hk]
  cases k with
  | record fields =>
    exact product_placed (fieldLayouts_map fun m hm => parts _ (List.mem_map.mpr ⟨m, hm, rfl⟩))
  | tuple types => exact product_placed (fieldLayouts_map (f := fun t => t) parts)
  | variant cases =>
    exact sum_placed (payloadLayouts_map cases fun m hm some =>
      parts _ (List.mem_map.mpr ⟨m, List.mem_filter.mpr ⟨hm, some⟩, rfl⟩))
  | union types =>
    exact sum_placed (payloadLayouts_map types (f := fun t => t) fun t ht _ => parts t ht)
  | option t =>
    refine sum_placed (payloadLayouts_map [none, t] (f := fun t => t) fun u hu some => ?_)
    exact parts u (by grind [Kind.required])
  | result ok err =>
    exact sum_placed (payloadLayouts_map [ok, err] (f := fun t => t) fun u hu some =>
      parts u (List.mem_filter.mpr ⟨hu, some⟩))
  | synonym t => exact parts t List.mem_cons_self
  | enum | flags | list | own | borrow | future | stream => rfl
  | resource => exact absurd rfl byValue

theorem placed_of_laid (hg : g.Acyclic) (laid : ∀ u, g.Reaches t u → g.Laid u) : g.Placed t := by
  induction t using contains_induction hg with
  | _ t ih =>
    rcases t with _ | (s | _ | id)
    · exact (laid _ .refl).elim
    · rfl
    · rfl
    · obtain ⟨k, hk, byValue⟩ := laid _ .refl
      refine placed_of_kind hg hk byValue fun u hu => ?_
      have below := contains_of_mem_required hk hu
      exact ih u below fun v reaches => laid v (.head below reaches)

/-- Everything the type reaches is laid out. -/
structure Measured (g : Graph) (t : Option TypeRef) : Prop where
  laid : ∀ u, g.Reaches t u → g.Laid u
  bounded : ∀ s, g.shapes.shape? t = some s → s.Bounded

variable {ts : List (Option TypeRef)}

theorem Measured.exact (h : g.Measured t) :
    (place? (g.shapes.shape? t)).Exact (extent? (g.shapes.shape? t)) := by
  cases hs : g.shapes.shape? t with
  | none => exact Layout.exact_extent ⟨2, by omega, rfl⟩
  | some s => exact (h.bounded s hs).place_exact

theorem exact_of_mem (h : ∀ t ∈ ts, t.isSome → g.Measured t) {s : Shape}
    (hs : some s ∈ ts.map g.shapes.shape?) : s.place.Exact s.extent := by
  obtain ⟨t, ht, hsome, he⟩ := exists_of_mem_map_shape? (f := fun t => t) hs
  exact ((h t ht hsome).bounded s he).place_exact

end Graph

/-! ## Calculated layouts -/

/-- The layouts of types, of products of types and of sums of types over an acyclic graph are well
formed, whatever the calculator was used for before. Up to 2^32 cases have a case number that can be
each of them. -/
theorem layouts_wellFormed {g : Graph} (hg : g.Acyclic) {c : Calculator} (hc : c.Recalls g) :
    (∀ t, g.Measured t → ∃ l c', (Calculator.layout? (g.shapes.shape? t)).run.run c = (.ok l, c')
        ∧ c'.Recalls g ∧ l.Sized (extent? (g.shapes.shape? t)))
    ∧ (∀ ts : List (Option TypeRef), (∀ t ∈ ts, g.Measured t) →
        (Extent.product (fieldExtents (ts.map g.shapes.shape?))).size < 2 ^ 32 →
        ∃ l c', (Calculator.product (ts.map g.shapes.shape?)).run.run c = (.ok l, c')
          ∧ c'.Recalls g ∧ l.OfFields (fieldExtents (ts.map g.shapes.shape?)))
    ∧ (∀ (tag : IntWidth) (ts : List (Option TypeRef)), (∀ t ∈ ts, t.isSome → g.Measured t) →
        (Extent.sum tag.size.toNat (payloadExtents (ts.map g.shapes.shape?))).size < 2 ^ 32 →
        ∃ l c', (Calculator.sum tag (ts.map g.shapes.shape?)).run.run c = (.ok l, c')
          ∧ c'.Recalls g ∧ l.OfPayloads tag (payloadExtents (ts.map g.shapes.shape?)))
    ∧ ∀ cases ≤ 2 ^ 32, ∀ i < cases, i < 2 ^ (8 * (tagWidth cases).size.toNat) := by
  refine ⟨fun t ht => ?_, fun ts ht hsize => ?_, fun tag ts ht hsize => ?_,
    fun cases h i hi => lt_of_tagWidth h hi⟩
  · obtain ⟨c', run, hc'⟩ := Calculator.answers_type hg t c hc
    rw [Graph.placed_of_laid hg ht.laid] at run
    refine ⟨_, c', run, hc', ht.exact.sized ?_⟩
    cases hs : g.shapes.shape? t with
    | none => exact ⟨1, rfl⟩
    | some s => exact s.align_dvd_size
  · obtain ⟨c', run, hc'⟩ := Calculator.answers_product hg ts c hc
    rw [Graph.fieldLayouts_map (f := fun t => t) fun t h => Graph.placed_of_laid hg (ht t h).laid]
      at run
    refine ⟨_, c', run, hc', Layout.product_ofFields ?_ hsize⟩
    exact fieldPlaces_exact_of_parts fun s hs => Graph.exact_of_mem (fun t h _ => ht t h) hs
  · obtain ⟨c', run, hc'⟩ := Calculator.answers_sum hg tag ts c hc
    rw [Graph.payloadLayouts_map _ (f := fun t => t) fun t h some =>
      Graph.placed_of_laid hg (ht t h some).laid] at run
    refine ⟨_, c', run, hc', Layout.sum_ofPayloads ?_ tag hsize⟩
    exact payloadPlaces_exact_of_parts fun s hs => Graph.exact_of_mem ht hs

/-- With one more case there is one that the case number cannot be. -/
theorem tagWidth_too_narrow :
    ¬ ∀ cases i, i < cases → i < 2 ^ (8 * (tagWidth cases).size.toNat) := by
  intro h
  have := h (2 ^ 32 + 1) (2 ^ 32) (by decide)
  exact absurd this (by decide)

namespace Postbox

theorem reaches_letter : graph.Reaches (some (.defn 2)) (some (.defn 1)) :=
  .single (Graph.contains_of_mem_required rfl (by decide))

theorem measured_find : graph.Measured (some (.defn 2)) where
  laid u reaches :=
    (fit_of_validate acyclic.guarded validate_swap ⟨"find", some (.defn 2)⟩ (by decide)
      u reaches).laid
  bounded := by
    rintro _ ⟨⟩
    exact (fits_swap.results.of_mem List.mem_cons_self).bounded

theorem measured_letter : graph.Measured (some (.defn 1)) where
  laid u reaches := measured_find.laid u (reaches_letter.trans reaches)
  bounded := by
    rintro _ ⟨⟩
    have found : find.Bounded := measured_find.bounded find rfl
    exact found.part (List.mem_cons_of_mem _ List.mem_cons_self)

theorem measured_key : graph.Measured (some (.scalar .u64)) where
  laid u reaches := by
    obtain rfl := Graph.eq_of_reachesPast (by rintro v ⟨_, _, heq, _⟩; cases heq) reaches
    trivial
  bounded := by
    rintro _ ⟨⟩
    exact Shape.Fits.bounded (s := .scalar .u64) trivial

end Postbox

/-- What is found in a box, a letter and a key side by side, and either of the two under a case
number of two bytes. -/
theorem layouts_wellFormed_postbox :
    (Postbox.graph.Acyclic ∧ Calculator.empty.Recalls Postbox.graph)
    ∧ (∃ l c', (Calculator.layout? (Postbox.graph.shapes.shape? (some (.defn 2)))).run.run .empty
          = (.ok l, c') ∧ l.Sized ⟨32, 8⟩)
    ∧ (∃ l c', (Calculator.product
          ([some (.defn 1), some (.scalar .u64)].map Postbox.graph.shapes.shape?)).run.run .empty
          = (.ok l, c') ∧ l.OfFields [⟨20, 4⟩, ⟨8, 8⟩])
    ∧ (∃ l c', (Calculator.sum .u16
          ([some (.defn 1), none, some (.scalar .u64)].map Postbox.graph.shapes.shape?)).run.run
            .empty
          = (.ok l, c') ∧ l.OfPayloads .u16 [⟨20, 4⟩, ⟨8, 8⟩])
    ∧ 65535 < 2 ^ (8 * (tagWidth 65536).size.toNat) := by
  have recalls := Calculator.empty_recalls Postbox.graph
  obtain ⟨types, products, sums, tags⟩ := layouts_wellFormed Postbox.acyclic recalls
  refine ⟨⟨Postbox.acyclic, recalls⟩, ?_, ?_, ?_, tags 65536 (by decide) 65535 (by decide)⟩
  · obtain ⟨l, c', run, _, sized⟩ := types _ Postbox.measured_find
    exact ⟨l, c', run, sized⟩
  · have fields : ∀ t ∈ [some (.defn 1), some (.scalar .u64)], Postbox.graph.Measured t := by
      simp [Postbox.measured_letter, Postbox.measured_key]
    obtain ⟨l, c', run, _, layout⟩ := products _ fields (by decide)
    exact ⟨l, c', run, layout⟩
  · have payloads : ∀ t ∈ [some (.defn 1), none, some (.scalar .u64)], t.isSome →
        Postbox.graph.Measured t := by
      simp [Postbox.measured_letter, Postbox.measured_key]
    obtain ⟨l, c', run, _, layout⟩ := sums .u16 _ payloads (by decide)
    exact ⟨l, c', run, layout⟩

end CanonicalAbi
