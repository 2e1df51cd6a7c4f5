import CanonicalAbi.Shape.OfGraph
import Mathlib.Data.Finset.Card
import Mathlib.Logic.Relation

/-!
# Unfolding acyclic graphs

The shapes of a graph are unfolded to a depth of the size of the graph. If no definition leads back
to itself, this depth reaches the end of every way down, so the shapes satisfy the equation that
defines them: the shape of a definition is built from the shapes of the types in it.
-/

namespace CanonicalAbi

open Relation Finset

variable {id : DefId} {table : ShapeTable}

def Kind.parts : Kind → List (Option TypeRef)
  | record fields | variant fields => fields.map (·.type)
  | union types | tuple types => types
  | option t | list t | synonym t => [t]
  | result ok err => [ok, err]
  | enum _ | flags _ | own _ | borrow _ | resource | future _ | stream _ => []

def TypeRef.defn? : TypeRef → Option DefId
  | scalar _ | string => none
  | defn id => some id

def defns (t : Option TypeRef) : List DefId := (t.bind TypeRef.defn?).toList

theorem mem_defns {t : Option TypeRef} {b : DefId} : b ∈ defns t ↔ some (.defn b) = t := by
  match t with
  | none | some (.scalar _) | some .string | some (.defn _) => simp [defns, TypeRef.defn?]

/-- All definitions that a kind refers to, resources among them. -/
def Kind.references : Kind → List DefId
  | record ms | variant ms => ms.flatMap fun m => defns m.type
  | union ts | tuple ts => ts.flatMap defns
  | option t | list t | future t | stream t | synonym t => defns t
  | result ok err => defns ok ++ defns err
  | own r | borrow r => r.toList
  | enum _ | flags _ | resource => []

theorem Kind.mem_references {k : Kind} (h : some (.defn id) ∈ k.parts) : id ∈ k.references := by
  cases k <;> simp_all [parts, references, mem_defns, eq_comm]

def Shape.parts : Shape → Parts
  | .product _ _ parts | .sum _ _ parts => parts
  | .list _ part | .synonym _ part => [part]
  | .scalar _ | .string | .enum _ _ | .flags _ _ | .handle _ _ _ | .channel _ _ | .resource _
  | .unfinished _ => []

theorem ShapeTable.exists_shape_of_shape? {t : Option TypeRef} {s : Shape}
    (h : table.shape? t = some s) : ∃ u, table.shape u = s := by
  obtain ⟨u, _, shape⟩ := Option.map_eq_some_iff.mp h
  exact ⟨u, shape⟩

namespace Graph

variable {g : Graph}

/-- Definition `a` has definition `b` as one of its parts. -/
def Refers (g : Graph) (a b : DefId) : Prop :=
  ∃ k, g.kind? a = some k ∧ some (.defn b) ∈ k.parts

/-- Definition `a` refers to definition `b`. -/
def Uses (g : Graph) (a b : DefId) : Prop := ∃ k, g.kind? a = some k ∧ b ∈ k.references

theorem Refers.uses {a b : DefId} (h : g.Refers a b) : g.Uses a b :=
  h.imp fun _ hk => ⟨hk.1, Kind.mem_references hk.2⟩

/-- No definition needs itself. -/
def Acyclic (g : Graph) : Prop := ∀ id, ¬ TransGen g.Refers id id

theorem get?_push (g : Graph) (d : Definition) (id : DefId) :
    (g.push d).get? id = if id = g.size then some d else g.get? id :=
  Array.getElem?_push

theorem lt_size_of_get? {d : Definition} (h : g.get? id = some d) : id < g.size :=
  (Array.getElem?_eq_some_iff.mp h).1

theorem lt_size_of_kind? {k : Kind} (h : g.kind? id = some k) : id < g.size := by
  by_contra hn
  have hnone : g.get? id = none := by
    simp only [get?, Array.getElem?_eq_none_iff]
    exact Nat.le_of_not_lt hn
  simp [kind?, hnone] at h

theorem Uses.lt_size {a b : DefId} (h : g.Uses a b) : a < g.size :=
  h.elim fun _ hk => lt_size_of_kind? hk.1

/-- A check that is enough for a graph to be acyclic: definitions refer to earlier ones only. -/
def Descending (g : Graph) : Prop :=
  ∀ a < g.size, ∀ k ∈ g.kind? a, ∀ t ∈ k.parts, ∀ b ∈ t.bind TypeRef.defn?, b < a

instance : Decidable g.Descending :=
  inferInstanceAs (Decidable (∀ a < g.size, ∀ k ∈ g.kind? a, ∀ t ∈ k.parts,
    ∀ b ∈ t.bind TypeRef.defn?, b < a))

theorem Descending.acyclic (h : g.Descending) : g.Acyclic := by
  have hstep : ∀ {a b}, g.Refers a b → b < a := by
    rintro a b ⟨k, hk, hb⟩
    exact h a (lt_size_of_kind? hk) k hk _ hb b rfl
  intro id hid
  have hlt : ∀ {b}, TransGen g.Refers id b → b < id := by
    intro b hb
    induction hb with
    | single h => exact hstep h
    | tail _ h ih => exact (hstep h).trans ih
  exact Nat.lt_irrefl id (hlt hid)

section Rank

open Classical

variable {r : DefId → DefId → Prop} {a b : DefId}

/-- The definitions of the graph that ways along `r` lead to. -/
noncomputable def reached (g : Graph) (r : DefId → DefId → Prop) (id : DefId) : Finset DefId :=
  (range g.size).filter fun b => TransGen r id b

/-- Their number, which bounds every way along `r` if none leads back. -/
noncomputable def rank (g : Graph) (r : DefId → DefId → Prop) (id : DefId) : Nat :=
  (g.reached r id).card

theorem rank_le_size (r : DefId → DefId → Prop) (id : DefId) : g.rank r id ≤ g.size := by
  have h : (g.reached r id).card ≤ (range g.size).card :=
    card_le_card (filter_subset _ _)
  rwa [card_range] at h

theorem rank_lt_size (hr : ∀ id, ¬ TransGen r id id) (h : id < g.size) : g.rank r id < g.size := by
  have hss : g.reached r id ⊂ range g.size := by
    refine (ssubset_iff_of_subset (filter_subset _ _)).mpr ⟨id, ?_, ?_⟩
    · exact mem_range.mpr h
    · intro hm
      exact hr id (mem_filter.mp hm).2
  have hlt := card_lt_card hss
  rwa [card_range] at hlt

theorem rank_lt (hr : ∀ id, ¬ TransGen r id id) (h : r a b) (hb : b < g.size) :
    g.rank r b < g.rank r a := by
  apply card_lt_card
  refine (ssubset_iff_of_subset ?_).mpr ⟨b, ?_, ?_⟩
  · intro c hc
    obtain ⟨hc1, hc2⟩ := mem_filter.mp hc
    exact mem_filter.mpr ⟨hc1, .head h hc2⟩
  · exact mem_filter.mpr ⟨mem_range.mpr hb, .single h⟩
  · intro hm
    exact hr b (mem_filter.mp hm).2

theorem rank_le (hr : ∀ id, ¬ TransGen r id id) (inside : ∀ c, r b c → b < g.size) {n : Nat}
    (h : r a b) (ha : g.rank r a ≤ n + 1) : g.rank r b ≤ n := by
  by_cases hb : b < g.size
  · have := rank_lt hr h hb
    omega
  · have none : ∀ c, ¬ TransGen r b c := by
      intro c hc
      obtain ⟨c', step, _⟩ := TransGen.head'_iff.mp hc
      exact hb (inside c' step)
    have empty : g.reached r b = ∅ := by
      simp [reached, none]
    simp [rank, empty]

end Rank

/-! ## The shapes of an acyclic graph -/

theorem size_unfold (depth : Nat) : (g.unfold depth).size = g.size := by
  cases depth <;> simp [unfold, size]

theorem unfold_succ_defn {d : Definition} (h : g.get? id = some d) (depth : Nat) :
    (g.unfold (depth + 1)).shape (.defn id)
      = g.unfoldKind (g.unfold depth) (g.label id) d.kind := by
  simp only [get?] at h
  simp [ShapeTable.shape, unfold, Array.getElem?_mapIdx, h, Array.getD_eq_getD_getElem?]

theorem unfold_defn_of_size_le (h : g.size ≤ id) (depth : Nat) :
    (g.unfold depth).shape (.defn id) = .unfinished ⟨id, "<nil>"⟩ := by
  have hn : (g.unfold depth)[id]? = none := by
    rw [Array.getElem?_eq_none_iff, size_unfold]
    exact h
  simp [ShapeTable.shape, Array.getD_eq_getD_getElem?, hn]

theorem unfoldKind_congr {table' : ShapeTable} (l : Label) (k : Kind)
    (h : ∀ t ∈ k.parts, table.shape? t = table'.shape? t) :
    g.unfoldKind table l (some k) = g.unfoldKind table' l (some k) := by
  cases k <;> simp_all [unfoldKind, Kind.parts]

theorem unfold_stable (hg : g.Acyclic) (n : Nat) :
    ∀ id, g.rank g.Refers id ≤ n → ∀ depth, n < depth →
      (g.unfold depth).shape (.defn id) = (g.unfold (depth + 1)).shape (.defn id) := by
  induction n using Nat.strong_induction_on with
  | _ n ih =>
    intro id hn depth hd
    obtain ⟨depth, rfl⟩ : ∃ m, depth = m + 1 := ⟨depth - 1, by omega⟩
    cases hdef : g.get? id with
    | none =>
      have hsize : g.size ≤ id := by simpa [get?, size] using hdef
      rw [unfold_defn_of_size_le hsize, unfold_defn_of_size_le hsize]
    | some d =>
      rw [unfold_succ_defn hdef, unfold_succ_defn hdef]
      cases hk : d.kind with
      | none => rfl
      | some k =>
        refine unfoldKind_congr _ _ fun t ht => ?_
        rcases t with _ | (s | _ | c)
        · rfl
        · rfl
        · rfl
        · have href : g.Refers id c := ⟨k, by simp [kind?, hdef, hk], ht⟩
          by_cases hc : c < g.size
          · have hlt := rank_lt hg href hc
            exact congrArg some (ih (n - 1) (by omega) c (by omega) depth (by omega))
          · have hsize : g.size ≤ c := Nat.le_of_not_lt hc
            simp only [ShapeTable.shape?, Option.map_some]
            rw [unfold_defn_of_size_le hsize, unfold_defn_of_size_le hsize]

/-- The shape of a definition of an acyclic graph is built from the shapes of the types in it. -/
theorem shapes_defn (hg : g.Acyclic) {d : Definition} (h : g.get? id = some d) :
    g.shapes.shape (.defn id) = g.unfoldKind g.shapes (g.label id) d.kind := by
  have hlt : id < g.size := (Array.getElem?_eq_some_iff.mp h).1
  have hstable := unfold_stable hg _ id le_rfl g.size (rank_lt_size hg hlt)
  rw [unfold_succ_defn h] at hstable
  exact hstable

theorem shapes_defn_of_kind? (hg : g.Acyclic) {k : Kind} (h : g.kind? id = some k) :
    g.shapes.shape (.defn id) = g.unfoldKind g.shapes (g.label id) (some k) := by
  obtain ⟨d, hd, hk⟩ := Option.bind_eq_some_iff.mp h
  rw [shapes_defn hg hd, hk]

/-! ## The parts of a shape of a graph -/

theorem label?_unfoldKind (table : ShapeTable) (l : Label) (k : Option Kind) :
    (g.unfoldKind table l k).label? = some l := by
  rcases k with _ | k
  · rfl
  · cases k <;> rfl

theorem exists_shape_of_mem_unfoldKind {l : Label} {k : Option Kind} {s : Shape}
    (h : some s ∈ (g.unfoldKind table l k).parts) : ∃ u, table.shape u = s := by
  rcases k with _ | k
  · simp [unfoldKind, Shape.parts] at h
  · cases k <;> simp only [unfoldKind, Shape.parts, List.mem_map, List.mem_cons, List.not_mem_nil,
      or_false, reduceCtorEq, false_or] at h
    case record | variant | union | tuple =>
      obtain ⟨_, _, shape⟩ := h
      exact table.exists_shape_of_shape? shape
    case option | list | synonym => exact table.exists_shape_of_shape? h.symm
    case result =>
      rcases h with ok | err
      · exact table.exists_shape_of_shape? ok.symm
      · exact table.exists_shape_of_shape? err.symm

theorem shape_label (hg : g.Acyclic) {t : TypeRef} {l : Label}
    (h : (g.shapes.shape t).label? = some l) : t = .defn l.id := by
  rcases t with s | _ | id
  · cases h
  · cases h
  · cases hdef : g.get? id with
    | none =>
      have outside : g.size ≤ id := by simpa [get?, size] using hdef
      rw [shapes, unfold_defn_of_size_le outside] at h
      cases h
      rfl
    | some d =>
      rw [shapes_defn hg hdef, label?_unfoldKind] at h
      cases h
      rfl

theorem exists_shape_of_mem_parts (hg : g.Acyclic) {t : TypeRef} {s : Shape}
    (h : some s ∈ (g.shapes.shape t).parts) : ∃ u, g.shapes.shape u = s := by
  rcases t with _ | _ | id
  · simp [ShapeTable.shape, Shape.parts] at h
  · simp [ShapeTable.shape, Shape.parts] at h
  · cases hdef : g.get? id with
    | none =>
      have outside : g.size ≤ id := by simpa [get?, size] using hdef
      rw [shapes, unfold_defn_of_size_le outside] at h
      simp [Shape.parts] at h
    | some d =>
      rw [shapes_defn hg hdef] at h
      exact exists_shape_of_mem_unfoldKind h

end Graph

end CanonicalAbi
