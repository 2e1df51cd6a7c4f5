import CanonicalAbi.Proofs.Unfolding

/-!
# Positions in types

What stands in a type, on a way down that may be barred from some products and sums, and what has to
stand at every position of a type for it to be passed.
-/

namespace CanonicalAbi

open Relation

/-! ## Positions -/

namespace Kind

def required : Kind → List (Option TypeRef)
  | record fields => fields.map (·.type)
  | variant cases => (cases.filter (·.type.isSome)).map (·.type)
  | union types | tuple types => types
  | option t | list t | synonym t => [t]
  | result ok err => [ok, err].filter (·.isSome)
  | enum _ | flags _ | own _ | borrow _ | resource | future _ | stream _ => []

theorem mem_parts_of_mem_required {k : Kind} {t : Option TypeRef} (h : t ∈ k.required) :
    t ∈ k.parts := by
  cases k with
  | variant cases =>
    obtain ⟨m, hm, rfl⟩ := List.mem_map.mp h
    exact List.mem_map.mpr ⟨m, List.mem_of_mem_filter hm, rfl⟩
  | result ok err => exact List.mem_of_mem_filter h
  | _ => exact h

def isAggregate : Kind → Bool
  | record _ | tuple _ | variant _ | union _ => true
  | enum _ | flags _ | option _ | result _ _ | list _ | own _ | borrow _ | resource | future _
  | stream _ | synonym _ => false

end Kind

namespace Graph

variable {g : Graph} {S S' : DefId → Prop} {t u v : Option TypeRef} {id : DefId} {k : Kind}

/-- The definition is a product or a sum. -/
def IsAggregate (g : Graph) (id : DefId) : Prop := ∃ k, g.kind? id = some k ∧ k.isAggregate = true

/-- The type `u` stands in the type `t`, which is none of the products and sums in `S`. -/
def Contains (g : Graph) (S : DefId → Prop) (t u : Option TypeRef) : Prop :=
  ∃ id k, t = some (.defn id) ∧ g.kind? id = some k ∧ (k.isAggregate = true → ¬ S id)
    ∧ u ∈ k.required

/-- The type `u` is found on a way down from `t` that enters none of the products and sums in `S`.
-/
def ReachesPast (g : Graph) (S : DefId → Prop) : Option TypeRef → Option TypeRef → Prop :=
  ReflTransGen (g.Contains S)

/-- The type `u` is found on a way down from `t`. -/
def Reaches (g : Graph) : Option TypeRef → Option TypeRef → Prop := g.ReachesPast fun _ => False

theorem Contains.mono (sub : ∀ id, g.IsAggregate id → S' id → S id) (h : g.Contains S t u) :
    g.Contains S' t u := by
  obtain ⟨id, k, rfl, hk, outside, hu⟩ := h
  exact ⟨id, k, rfl, hk, fun agg hS' => outside agg (sub id ⟨k, hk, agg⟩ hS'), hu⟩

theorem ReachesPast.mono (sub : ∀ id, g.IsAggregate id → S' id → S id)
    (h : g.ReachesPast S t u) : g.ReachesPast S' t u :=
  ReflTransGen.mono (fun _ _ step => step.mono sub) _ _ h

theorem ReachesPast.reaches (h : g.ReachesPast S t u) : g.Reaches t u :=
  h.mono fun _ _ => False.elim

theorem reachesPast_defn (hk : g.kind? id = some k) (outside : k.isAggregate = true → ¬ S id) :
    g.ReachesPast S (some (.defn id)) u
      ↔ u = some (.defn id) ∨ ∃ t ∈ k.required, g.ReachesPast S t u := by
  constructor
  · intro h
    rcases h.cases_head with rfl | ⟨t, ⟨id', k', heq, hk', _, ht⟩, rest⟩
    · exact .inl rfl
    · cases heq
      rw [hk] at hk'
      cases hk'
      exact .inr ⟨t, ht, rest⟩
  · rintro (rfl | ⟨t, ht, rest⟩)
    · exact .refl
    · exact .head ⟨id, k, rfl, hk, outside, ht⟩ rest

theorem eq_of_reachesPast (leaf : ∀ u, ¬ g.Contains S t u) (h : g.ReachesPast S t u) : u = t := by
  rcases h.cases_head with rfl | ⟨v, hv, _⟩
  · rfl
  · exact absurd hv (leaf v)

/-- A way that enters more than `S'` allows leads through what is in `S'` and not in `S`. -/
theorem ReachesPast.through (S' : DefId → Prop) (h : g.ReachesPast S t u) :
    g.ReachesPast S' t u ∨ ∃ id, S' id ∧ ¬ S id ∧ g.IsAggregate id
      ∧ g.ReachesPast S (some (.defn id)) u := by
  induction h using ReflTransGen.head_induction_on with
  | refl => exact .inl .refl
  | @head t v step rest ih =>
    obtain ⟨id, k, rfl, hk, outside, hv⟩ := step
    rcases ih with past | through
    · by_cases inside : k.isAggregate = true ∧ S' id
      · exact .inr ⟨id, inside.2, outside inside.1, ⟨k, hk, inside.1⟩,
          .head ⟨id, k, rfl, hk, outside, hv⟩ rest⟩
      · exact .inl (.head ⟨id, k, rfl, hk, fun agg hS' => inside ⟨agg, hS'⟩, hv⟩ past)
    · exact .inr through

theorem ReachesPast.enter (hk : g.kind? id = some k) (h : g.ReachesPast S t u) :
    g.ReachesPast (fun a => a = id ∨ S a) t u
      ∨ ∃ v ∈ k.required, g.ReachesPast (fun a => a = id ∨ S a) v u := by
  induction h using ReflTransGen.head_induction_on with
  | refl => exact .inl .refl
  | @head t v step _ ih =>
    obtain ⟨c, kc, rfl, hc, outside, hv⟩ := step
    rcases ih with past | later
    · by_cases heq : c = id
      · subst heq
        rw [hk] at hc
        cases hc
        exact .inr ⟨v, hv, past⟩
      · refine .inl (.head ⟨c, kc, rfl, hc, fun agg hS => ?_, hv⟩ past)
        rcases hS with rfl | hS
        · exact heq rfl
        · exact outside agg hS
    · exact .inr later

/-! ## What has to be at a position -/

/-- The definition is a resource, or a synonym of one. -/
inductive NamesResource (g : Graph) : DefId → Prop where
  | here {id : DefId} : g.kind? id = some .resource → NamesResource g id
  | synonym {id id' : DefId} : g.kind? id = some (.synonym (some (.defn id'))) →
    NamesResource g id' → NamesResource g id

/-- What a kind has to be for its definition to be passed: handles name a resource, and all other
resources and all that arrives later cannot be passed. -/
def FitKind (g : Graph) : Kind → Prop
  | .own r | .borrow r => ∃ id, r = some id ∧ g.NamesResource id
  | .resource | .future _ | .stream _ => False
  | .record _ | .variant _ | .enum _ | .flags _ | .union _ | .option _ | .result _ _ | .tuple _
  | .list _ | .synonym _ => True

/-- What has to be at a position: a type, and if it is a definition, one of a kind that fits. -/
def Fit (g : Graph) : Option TypeRef → Prop
  | none => False
  | some (.scalar _) | some .string => True
  | some (.defn id) => ∃ k, g.kind? id = some k ∧ g.FitKind k

/-- The type is a borrowed handle. -/
def IsBorrow (g : Graph) (t : Option TypeRef) : Prop :=
  ∃ id r, t = some (.defn id) ∧ g.kind? id = some (.borrow r)

/-- A definition that is no product or sum refers to another one. -/
def Passes (g : Graph) (a b : DefId) : Prop := g.Refers a b ∧ ¬ g.IsAggregate a

/-- A definition leads back to itself only through a product or sum. -/
def Guarded (g : Graph) : Prop := ∀ id, ¬ TransGen g.Passes id id

theorem Acyclic.guarded (hg : g.Acyclic) : g.Guarded :=
  fun id way => hg id (.mono (fun _ _ step => step.1) _ _ way)

theorem passes_of_mem_required {c : DefId} (hk : g.kind? id = some k)
    (single : k.isAggregate = false) (hc : some (.defn c) ∈ k.required) : g.Passes id c := by
  refine ⟨⟨k, hk, Kind.mem_parts_of_mem_required hc⟩, ?_⟩
  rintro ⟨k', hk', agg⟩
  rw [hk] at hk'
  cases hk'
  rw [single] at agg
  cases agg

theorem passes_of_synonym {c : DefId} (hk : g.kind? id = some (.synonym (some (.defn c)))) :
    g.Passes id c :=
  passes_of_mem_required hk rfl (by simp [Kind.required])

theorem contains_of_mem_required (hk : g.kind? id = some k) (ht : t ∈ k.required) :
    g.Contains (fun _ => False) (some (.defn id)) t :=
  ⟨id, k, rfl, hk, fun _ => not_false, ht⟩

/-- Induction on the types of an acyclic graph: what holds of a type if it holds of all types that
stand in it holds of every type. -/
theorem contains_induction (hg : g.Acyclic) {P : Option TypeRef → Prop}
    (step : ∀ t, (∀ u, g.Contains (fun _ => False) t u → P u) → P t) (t : Option TypeRef) :
    P t := by
  have leaf : ∀ u, (∀ id, u = some (.defn id) → g.size ≤ id) → P u := by
    intro u outside
    refine step u ?_
    rintro v ⟨id, k, rfl, hk, _⟩
    exact absurd (lt_size_of_kind? hk) (Nat.not_lt.mpr (outside id rfl))
  -- Below a definition the induction is on the number of definitions that it leads to.
  have defn : ∀ n id, g.rank g.Refers id = n → P (some (.defn id)) := by
    intro n
    induction n using Nat.strong_induction_on with
    | _ n ih =>
      rintro id rfl
      refine step _ ?_
      rintro u ⟨_, k, heq, hk, _, hu⟩
      cases heq
      by_cases inside : ∃ c, u = some (.defn c) ∧ c < g.size
      · obtain ⟨c, rfl, hc⟩ := inside
        have refers : g.Refers id c := ⟨k, hk, Kind.mem_parts_of_mem_required hu⟩
        exact ih _ (rank_lt hg refers hc) c rfl
      · exact leaf u fun c hc => Nat.not_lt.mp fun lt => inside ⟨c, hc, lt⟩
  rcases t with _ | (s | _ | id)
  · exact leaf _ nofun
  · exact leaf _ nofun
  · exact leaf _ nofun
  · exact defn _ id rfl

theorem NamesResource.lt_size (h : g.NamesResource id) : id < g.size := by
  cases h with
  | here hk => exact lt_size_of_kind? hk
  | synonym hk _ => exact lt_size_of_kind? hk

theorem followSynonyms_eq_resource_iff (hg : g.Guarded) (fuel : Nat) (id : DefId)
    (enough : g.rank g.Passes id ≤ fuel) :
    g.followSynonyms fuel (g.kind? id) = some .resource ↔ g.NamesResource id := by
  induction fuel generalizing id with
  | zero =>
    refine ⟨.here, fun h => ?_⟩
    cases h with
    | here hk => exact hk
    | synonym hk rest =>
      have := rank_lt hg (passes_of_synonym hk) rest.lt_size
      omega
  | succ fuel ih =>
    by_cases hs : ∃ c, g.kind? id = some (.synonym (some (.defn c)))
    · obtain ⟨c, hk⟩ := hs
      have less := rank_le hg (fun _ step => step.1.uses.lt_size) (passes_of_synonym hk) enough
      rw [hk, followSynonyms, ih c less]
      refine ⟨.synonym hk, fun h => ?_⟩
      cases h with
      | here hk' =>
        rw [hk] at hk'
        cases hk'
      | synonym hk' rest =>
        rw [hk] at hk'
        cases hk'
        exact rest
    · have stop : g.followSynonyms (fuel + 1) (g.kind? id) = g.kind? id := by
        rw [followSynonyms]
        intro _ c _ hk
        exact hs ⟨c, hk⟩
      rw [stop]
      refine ⟨.here, fun h => ?_⟩
      cases h with
      | here hk => exact hk
      | synonym hk _ => exact absurd ⟨_, hk⟩ hs

theorem resolve_eq_resource_iff (hg : g.Guarded) :
    g.resolve id = some .resource ↔ g.NamesResource id :=
  followSynonyms_eq_resource_iff hg g.size id (rank_le_size _ id)

end Graph

end CanonicalAbi
