import CanonicalAbi.Stream.Checked
import CanonicalAbi.Proofs.Extents
import CanonicalAbi.Proofs.Inspection

/-!
# What validation guarantees

A function without reports has passable shapes. It has none if and only if everything in it fits and
its results hold no borrowed handle, apart from those that are found in a product or sum which the
parameters have as well.
-/

namespace CanonicalAbi

open List

/-! ## Passable shapes -/

namespace Graph

variable {g : Graph}

def Sound (g : Graph) (t : Option TypeRef) : Prop := Passable? (g.shapes.shape? t)

/-- What the parts of a kind have to be for a definition of that kind to be sound. -/
def SoundKind (g : Graph) : Kind → Prop
  | .record fields => ∀ m ∈ fields, g.Sound m.type
  | .variant cases => ∀ m ∈ cases, m.type.isSome → g.Sound m.type
  | .union types | .tuple types => ∀ t ∈ types, g.Sound t
  | .option t | .list t | .synonym t => g.Sound t
  | .result ok err => (ok.isSome → g.Sound ok) ∧ (err.isSome → g.Sound err)
  | .enum _ | .flags _ | .own _ | .borrow _ => True
  | .resource | .future _ | .stream _ => False

theorem exists_of_mem_map_shape? {α : Type} {xs : List α} {f : α → Option TypeRef} {p : Shape}
    (h : some p ∈ xs.map fun x => g.shapes.shape? (f x)) :
    ∃ x ∈ xs, (f x).isSome ∧ g.shapes.shape? (f x) = some p := by
  obtain ⟨x, hx, he⟩ := mem_map.mp h
  refine ⟨x, hx, ?_, he⟩
  cases hfx : f x with
  | none => simp [hfx, ShapeTable.shape?] at he
  | some t => rfl

theorem payloadsPassable_map {α : Type} {xs : List α} {f : α → Option TypeRef}
    (h : ∀ x ∈ xs, (f x).isSome → g.Sound (f x)) :
    PayloadsPassable (xs.map fun x => g.shapes.shape? (f x)) := by
  rw [payloadsPassable_iff]
  intro p hp
  obtain ⟨x, hx, hsome, he⟩ := exists_of_mem_map_shape? hp
  have hsound := h x hx hsome
  rw [Sound, he] at hsound
  exact hsound

theorem fieldsPassable_map {α : Type} {xs : List α} {f : α → Option TypeRef}
    (h : ∀ x ∈ xs, g.Sound (f x)) : FieldsPassable (xs.map fun x => g.shapes.shape? (f x)) := by
  rw [fieldsPassable_iff]
  intro p hp
  obtain ⟨x, hx, rfl⟩ := mem_map.mp hp
  exact h x hx

theorem sound_of_kind (hg : g.Acyclic) {id : DefId} {k : Kind} (hk : g.kind? id = some k)
    (h : g.SoundKind k) : g.Sound (some (.defn id)) := by
  simp only [Sound, ShapeTable.shape?, Option.map_some, Passable?, shapes_defn_of_kind? hg hk]
  cases k with
  | record fields => exact fieldsPassable_map h
  | variant cases => exact payloadsPassable_map h
  | union types =>
    exact payloadsPassable_map (f := fun t => t) fun t ht _ => h t ht
  | tuple types => exact fieldsPassable_map (f := fun t => t) h
  | option t =>
    refine payloadsPassable_iff.mpr fun p hp => ?_
    have hp' : g.shapes.shape? t = some p := by simpa [eq_comm] using hp
    have hs : g.Sound t := h
    rwa [Sound, hp'] at hs
  | result ok err =>
    have hparts : ∀ t ∈ [ok, err], t.isSome → g.Sound t := by
      simpa [SoundKind] using h
    exact payloadsPassable_map (f := fun t => t) hparts
  | list t => exact h
  | synonym t => exact h
  | enum | flags | own | borrow => exact trivial
  | resource | future | stream => exact absurd h (by simp [SoundKind])

theorem soundKind_of_fit {k : Kind} (fit : g.FitKind k) (sound : ∀ t ∈ k.required, g.Sound t) :
    g.SoundKind k := by
  cases k with
  | record fields => exact fun m hm => sound _ (mem_map.mpr ⟨m, hm, rfl⟩)
  | variant cases =>
    exact fun m hm some => sound _ (mem_map.mpr ⟨m, mem_filter.mpr ⟨hm, some⟩, rfl⟩)
  | union types => exact sound
  | tuple types => exact sound
  | option t => exact sound t (by simp [Kind.required])
  | list t => exact sound t (by simp [Kind.required])
  | synonym t => exact sound t (by simp [Kind.required])
  | result ok err =>
    exact ⟨fun some => sound ok (mem_filter.mpr ⟨by simp, some⟩),
      fun some => sound err (mem_filter.mpr ⟨by simp, some⟩)⟩
  | enum | flags | own | borrow => exact trivial
  | resource | future | stream => exact fit

theorem sound_of_defn {t : Option TypeRef} (fit : g.Fit t)
    (sound : ∀ id, t = some (.defn id) → g.Sound t) : g.Sound t := by
  rcases t with _ | (s | _ | id)
  · exact fit.elim
  · exact trivial
  · exact trivial
  · exact sound id rfl

theorem sound_of_fit (hg : g.Acyclic) {t : Option TypeRef}
    (fit : ∀ u, g.Reaches t u → g.Fit u) : g.Sound t := by
  induction t using contains_induction hg with
  | _ t ih =>
    refine sound_of_defn (fit t .refl) ?_
    rintro id rfl
    obtain ⟨k, hk, fitKind⟩ := fit _ .refl
    refine sound_of_kind hg hk (soundKind_of_fit fitKind fun u hu => ?_)
    have below := contains_of_mem_required hk hu
    exact ih u below fun v reaches => fit v (.head below reaches)

end Graph

/-- All parameters and results can be passed. -/
structure FunctionShape.Passable (f : FunctionShape) : Prop where
  params : FieldsPassable f.params
  results : FieldsPassable f.results

/-! ## Functions without reports -/

theorem validate_eq_nil_iff_inspected {g : Graph} (hg : g.Guarded) (f : Function) :
    validate g (some f) = [] ↔
      (∀ m ∈ f.params, ∀ u, g.Reaches m.type u → Inspect.Allowed g false u)
      ∧ (∀ m ∈ f.results, ∀ u, g.ReachesPast (g.ReachedFrom f.params) m.type u →
          Inspect.Allowed g true u)
      ∧ (f.kind = .freestanding ∨ f.resource.isSome) := by
  rw [validate, reverse_eq_nil_iff]
  exact Inspect.function_found_eq_nil_iff hg f

theorem fit_of_validate {g : Graph} (hg : g.Guarded) {f : Function}
    (h : validate g (some f) = []) :
    ∀ m ∈ f.params ++ f.results, ∀ u, g.Reaches m.type u → g.Fit u := by
  obtain ⟨inParams, inResults, _⟩ := (validate_eq_nil_iff_inspected hg f).mp h
  intro m hm u reaches
  rcases mem_append.mp hm with hm | hm
  · exact (inParams m hm u reaches).1
  · rcases reaches.through (g.ReachedFrom f.params) with past | ⟨id, ⟨p, hp, reached⟩, _, _, rest⟩
    · exact (inResults m hm u past).1
    · exact (inParams p hp u (reached.trans rest)).1

theorem passable_of_validate {g : Graph} (hg : g.Acyclic) {f : Function}
    (h : validate g (some f) = []) : (g.shapes.function f).Passable := by
  have fit := fit_of_validate hg.guarded h
  constructor
  · simp only [ShapeTable.function, Function.paramTypes, map_map]
    exact Graph.fieldsPassable_map fun m hm =>
      Graph.sound_of_fit hg (fit m (mem_append_left _ hm))
  · simp only [ShapeTable.function, Function.resultTypes, map_map]
    exact Graph.fieldsPassable_map fun m hm =>
      Graph.sound_of_fit hg (fit m (mem_append_right _ hm))

/-- All types of the function can be passed, and a method has its resource. -/
structure Graph.FitFunction (g : Graph) (f : Function) : Prop where
  positions : ∀ m ∈ f.params ++ f.results, ∀ u, g.Reaches m.type u → g.Fit u
  resource : f.kind = .freestanding ∨ f.resource.isSome

/-- A function has no reports if and only if everything in it fits and no borrowed handle is found
in its results, on ways that enter none of the products and sums of the parameters. Where no product
or sum of the parameters leads to a borrowed handle, there is none in the results at all. -/
theorem validate_eq_nil_iff {g : Graph} (hg : g.Acyclic) (f : Function) :
    (validate g (some f) = [] ↔ g.FitFunction f
      ∧ ∀ m ∈ f.results, ∀ u, g.ReachesPast (g.ReachedFrom f.params) m.type u → ¬ g.IsBorrow u)
    ∧ ((∀ id, g.IsAggregate id → g.ReachedFrom f.params id →
          ∀ u, g.Reaches (some (.defn id)) u → ¬ g.IsBorrow u) →
        (validate g (some f) = [] ↔ g.FitFunction f
          ∧ ∀ m ∈ f.results, ∀ u, g.Reaches m.type u → ¬ g.IsBorrow u)) := by
  have inspected : validate g (some f) = [] ↔ g.FitFunction f ∧ ∀ m ∈ f.results, ∀ u,
      g.ReachesPast (g.ReachedFrom f.params) m.type u → ¬ g.IsBorrow u := by
    constructor
    · intro h
      obtain ⟨_, inResults, resource⟩ := (validate_eq_nil_iff_inspected hg.guarded f).mp h
      exact ⟨⟨fit_of_validate hg.guarded h, resource⟩,
        fun m hm u past => (inResults m hm u past).2 rfl⟩
    · rintro ⟨⟨fit, resource⟩, noBorrow⟩
      refine (validate_eq_nil_iff_inspected hg.guarded f).mpr ⟨fun m hm u reaches => ?_,
        fun m hm u past => ⟨?_, fun _ => noBorrow m hm u past⟩, resource⟩
      · exact ⟨fit m (List.mem_append_left _ hm) u reaches, by simp⟩
      · exact fit m (List.mem_append_right _ hm) u past.reaches
  refine ⟨inspected, fun unshared => inspected.trans (and_congr_right fun _ => ?_)⟩
  refine ⟨fun noBorrow m hm u reaches => ?_, fun noBorrow m hm u past =>
    noBorrow m hm u past.reaches⟩
  rcases reaches.through (g.ReachedFrom f.params) with past | ⟨id, reached, _, agg, rest⟩
  · exact noBorrow m hm u past
  · exact unshared id agg reached u rest

namespace Slot

def graph : Graph where
  defs := #[
    { name := "file", kind := some .resource },
    { kind := some (.borrow (some 0)) },
    { name := "slot", kind := some (.record [⟨"file", some (.defn 1)⟩]) }]

def give : Function where
  name := "give"
  params := [⟨"slot", some (.defn 2)⟩]
  results := [⟨"", some (.defn 2)⟩]

def fetch : Function where
  name := "fetch"
  params := []
  results := [⟨"", some (.defn 2)⟩]

theorem acyclic : graph.Acyclic := Graph.Descending.acyclic (by decide)

theorem reaches_file : graph.Reaches (some (.defn 2)) (some (.defn 1)) :=
  .single ⟨2, _, rfl, rfl, fun _ => not_false, by simp [Kind.required]⟩

theorem isBorrow_file : graph.IsBorrow (some (.defn 1)) := ⟨1, some 0, rfl, rfl⟩

end Slot

/-- A slot that is also a parameter is returned with the borrowed file in it, and nothing is
reported. Without the parameter it is. -/
theorem validate_eq_nil_iff_slot :
    Slot.graph.Acyclic
    ∧ validate Slot.graph (some Slot.give) = []
    ∧ (∃ m ∈ Slot.give.results, ∃ u, Slot.graph.Reaches m.type u ∧ Slot.graph.IsBorrow u)
    ∧ (∀ m ∈ Slot.give.results, ∀ u,
        Slot.graph.ReachesPast (Slot.graph.ReachedFrom Slot.give.params) m.type u →
          ¬ Slot.graph.IsBorrow u)
    ∧ validate Slot.graph (some Slot.fetch) ≠ [] := by
  have silent : validate Slot.graph (some Slot.give) = [] := by decide
  refine ⟨Slot.acyclic, silent, ?_, ?_, fun none => ?_⟩
  · exact ⟨_, List.mem_singleton_self _, _, Slot.reaches_file, Slot.isBorrow_file⟩
  · exact ((validate_eq_nil_iff Slot.acyclic Slot.give).1.mp silent).2
  · have unshared : ∀ id, Slot.graph.IsAggregate id → Slot.graph.ReachedFrom Slot.fetch.params id →
        ∀ u, Slot.graph.Reaches (some (.defn id)) u → ¬ Slot.graph.IsBorrow u := by
      rintro id _ ⟨m, hm, _⟩
      cases hm
    have noBorrow := (((validate_eq_nil_iff Slot.acyclic Slot.fetch).2 unshared).mp none).2
    exact noBorrow _ (List.mem_singleton_self _) _ Slot.reaches_file Slot.isBorrow_file

/-! ## A small interface -/

namespace Postbox

/-- The types of a postbox: letters with pages of bytes, what was found in a box, and handles to
boxes. -/
def graph : Graph where
  defs := #[
    { name := "page", kind := some (.list (some (.scalar .u8))) },
    { name := "letter", kind := some (.record [⟨"to", some .string⟩, ⟨"page", some (.defn 0)⟩,
        ⟨"weight", some (.scalar .f32)⟩]) },
    { name := "find", kind := some (.variant [⟨"nothing", none⟩, ⟨"letter", some (.defn 1)⟩,
        ⟨"key", some (.scalar .u64)⟩]) },
    { name := "box", kind := some .resource },
    { kind := some (.own (some 3)) }]

def swap : Function where
  name := "swap"
  params := [⟨"box", some (.defn 4)⟩, ⟨"find", some (.defn 2)⟩]
  results := [⟨"", some (.defn 2)⟩]

/-- The function with the types it refers to. -/
abbrev subject : Subject := .ofGraph graph (some swap)

theorem acyclic : graph.Acyclic := Graph.Descending.acyclic (by decide)

theorem validate_swap : validate graph (some swap) = [] := by decide

def find : Shape :=
  .sum (graph.label 2) .variant [none,
    some (.product (graph.label 1) .record
      [some .string, some (.list (graph.label 0) (some (.scalar .u8))), some (.scalar .f32)]),
    some (.scalar .u64)]

theorem shapes_swap : graph.shapes.function swap
    = ⟨"swap", [some (.handle (graph.label 4) .own (some (graph.label 3))), some find],
        [some find]⟩ := rfl

theorem fits_swap : (graph.shapes.function swap).Fits := by
  rw [shapes_swap]
  constructor <;> simp [FieldsFit, Fits?, Shape.Fits, find, PayloadsFit] <;> decide

end Postbox

end CanonicalAbi
