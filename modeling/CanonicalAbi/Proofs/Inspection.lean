import CanonicalAbi.Interface.Validate
import CanonicalAbi.Proofs.Positions

/-!
# What an inspection looks at

An inspection passes over a product or sum that it has met before. What it looks at is therefore
what can be reached without entering those, and afterwards it has met all that it could reach:
`Covers`.
-/

namespace CanonicalAbi

open List

variable {work : Inspect Unit}

namespace Inspect

variable {g : Graph} {P Q : Prop} {ok : Option TypeRef → Prop} {T T' : Option TypeRef → Prop}
  {id : DefId} {k : Kind} {t : Option TypeRef} {S : List DefId} {work' : Inspect Unit}

/-! ## Single positions -/

/-- An inspection that reports something unless `P`, and meets no product or sum. -/
def Checks (work : Inspect Unit) (P : Prop) : Prop :=
  ∀ st : Inspection, (work.run st).2.seen = st.seen
    ∧ ((work.run st).2.found = [] ↔ st.found = [] ∧ P)

theorem Checks.skip (h : P) : Checks (pure ()) P :=
  fun _ => ⟨rfl, fun none => ⟨none, h⟩, And.left⟩

theorem Checks.report (r : Report) (h : ¬ P) : Checks (report r) P :=
  fun _ => ⟨rfl, fun none => absurd none (cons_ne_nil _ _), fun hp => absurd hp.2 h⟩

theorem Checks.congr (h : Checks work P) (same : P ↔ Q) : Checks work Q := by
  intro st
  rw [← same]
  exact h st

theorem Checks.seq {x y : Inspect Unit} (hx : Checks x P) (hy : Checks y Q) :
    Checks (x >>= fun _ => y) (P ∧ Q) := by
  intro st
  obtain ⟨seenx, foundx⟩ := hx st
  obtain ⟨seeny, foundy⟩ := hy (x.run st).2
  refine ⟨seeny.trans seenx, foundy.trans ?_⟩
  rw [foundx, and_assoc]

theorem handle_checks (hg : g.Guarded) (spelling : String) (r : Option DefId)
    (path : List String) :
    Checks (handle g spelling r path) (∃ id, r = some id ∧ g.NamesResource id) := by
  cases r with
  | none =>
    refine Checks.report _ ?_
    rintro ⟨id, hr, _⟩
    cases hr
  | some id =>
    have names : (∃ id', some id = some id' ∧ g.NamesResource id') ↔ g.NamesResource id := by
      simp
    rw [handle, names]
    by_cases found : g.resolve id = some .resource
    · rw [if_pos found]
      exact Checks.skip ((Graph.resolve_eq_resource_iff hg).mp found)
    · rw [if_neg found]
      exact Checks.report _ fun h => found ((Graph.resolve_eq_resource_iff hg).mpr h)

/-! ## Ways down -/

/-- A type is found on a way down from one of the types in `T` that enters nothing that was met. -/
def Meets (g : Graph) (seen : List DefId) (T : Option TypeRef → Prop) (u : Option TypeRef) : Prop :=
  ∃ t, T t ∧ g.ReachesPast (· ∈ seen) t u

/-- An inspection that has met `S` and looks at all positions on the ways down from the types in `T`
that enter nothing it has met before. Each of them has to be `ok`. It meets the products and sums
among them, each for the first time, and `work'` does the same. -/
structure Covers (g : Graph) (ok : Option TypeRef → Prop) (S : List DefId)
    (work work' : Inspect Unit) (T : Option TypeRef → Prop) : Prop where
  seen : ∀ st, S ⊆ st.seen → ∀ id, id ∈ (work.run st).2.seen ↔ id ∈ st.seen
    ∨ g.IsAggregate id ∧ Meets g st.seen T (some (.defn id))
  found : ∀ st, S ⊆ st.seen → ((work.run st).2.found = [] ↔ st.found = []
    ∧ ∀ u, Meets g st.seen T u → ok u)
  nodup : ∀ st, S ⊆ st.seen → st.seen.Nodup → (work.run st).2.seen.Nodup
  same : ∀ st, S ⊆ st.seen → work'.run st = work.run st

theorem Covers.congr (h : Covers g ok S work work' T) (same : ∀ t, T t ↔ T' t) :
    Covers g ok S work work' T' := by
  obtain rfl : T = T' := funext fun t => propext (same t)
  exact h

theorem Covers.self (h : Covers g ok S work work' T) : Covers g ok S work work T :=
  ⟨h.seen, h.found, h.nodup, fun _ _ => rfl⟩

theorem Covers.skip : Covers g ok S (pure ()) (pure ()) fun _ => False where
  seen st _ id := by
    change id ∈ st.seen ↔ _
    simp [Meets]
  found st _ := by
    change st.found = [] ↔ _
    simp [Meets]
  nodup _ _ h := h
  same _ _ := rfl

theorem Checks.covers (h : Checks work (ok t)) (leaf : ∀ S u, ¬ g.Contains S t u)
    (noAggregate : ∀ id, t = some (.defn id) → ¬ g.IsAggregate id) :
    Covers g ok S work work (· = t) := by
  have here : ∀ seen u, Meets g seen (· = t) u ↔ u = t := by
    intro seen u
    constructor
    · rintro ⟨_, rfl, reaches⟩
      exact Graph.eq_of_reachesPast (leaf _) reaches
    · rintro rfl
      exact ⟨u, rfl, .refl⟩
  refine ⟨fun st _ id => ?_, fun st _ => ?_, fun st _ distinct => (h st).1 ▸ distinct,
    fun _ _ => rfl⟩
  · rw [(h st).1, here]
    exact ⟨.inl, (·.resolve_right fun new => noAggregate id new.2.symm new.1)⟩
  · simp only [(h st).2, here, forall_eq]

/-- What the second inspection passes over because the first one has met it, the first one has
looked at. -/
theorem Covers.seq {x x' y y' : Inspect Unit} (hx : Covers g ok S x x' T)
    (hy : Covers g ok S y y' T') :
    Covers g ok S (x >>= fun _ => y) (x' >>= fun _ => y') fun t => T t ∨ T' t := by
  have back : ∀ st, S ⊆ st.seen → st.seen ⊆ (x.run st).2.seen :=
    fun st met id seen => (hx.seen st met id).mpr (.inl seen)
  have after : ∀ st, S ⊆ st.seen → S ⊆ (x.run st).2.seen :=
    fun st met => Subset.trans met (back st met)
  have both : ∀ st, S ⊆ st.seen → ∀ u, Meets g st.seen (fun t => T t ∨ T' t) u
      ↔ Meets g st.seen T u ∨ Meets g (x.run st).2.seen T' u := by
    intro st met u
    constructor
    · rintro ⟨t, ht | ht, reaches⟩
      · exact .inl ⟨t, ht, reaches⟩
      · rcases reaches.through (· ∈ (x.run st).2.seen) with past | ⟨id, seen, unseen, _, rest⟩
        · exact .inr ⟨t, ht, past⟩
        · obtain ⟨_, t', ht', reached⟩ := ((hx.seen st met id).mp seen).resolve_left unseen
          exact .inl ⟨t', ht', reached.trans rest⟩
    · rintro (⟨t, ht, reaches⟩ | ⟨t, ht, reaches⟩)
      · exact ⟨t, .inl ht, reaches⟩
      · exact ⟨t, .inr ht, reaches.mono fun _ _ seen => back st met seen⟩
  constructor
  · intro st met id
    change id ∈ (y.run (x.run st).2).2.seen ↔ _
    rw [hy.seen _ (after st met), hx.seen st met, both st met, and_or_left, or_assoc]
  · intro st met
    change (y.run (x.run st).2).2.found = [] ↔ _
    rw [hy.found _ (after st met), hx.found st met, and_assoc]
    simp only [both st met, or_imp, forall_and]
  · exact fun st met distinct => hy.nodup _ (after st met) (hx.nodup st met distinct)
  · intro st met
    change y'.run (x'.run st).2 = y.run (x.run st).2
    rw [hx.same st met, hy.same _ (after st met)]

theorem Covers.wrap (h : Covers g ok S work work' (· ∈ k.required)) (hk : g.kind? id = some k)
    (single : k.isAggregate = false) (hok : ok (some (.defn id))) :
    Covers g ok S work work' (· = some (.defn id)) := by
  have below : ∀ seen u, Meets g seen (· = some (.defn id)) u
      ↔ u = some (.defn id) ∨ Meets g seen (· ∈ k.required) u := by
    intro seen u
    have outside : k.isAggregate = true → id ∉ seen := by simp [single]
    simpa [Meets] using Graph.reachesPast_defn hk outside
  refine ⟨?_, ?_, h.nodup, h.same⟩
  · intro st met id'
    rw [h.seen st met, below]
    refine or_congr_right (and_congr_right fun agg => (or_iff_right ?_).symm)
    rintro ⟨⟩
    obtain ⟨k', hk', agg⟩ := agg
    rw [hk] at hk'
    cases hk'
    rw [single] at agg
    cases agg
  · intro st met
    simp only [h.found st met, below, or_imp, forall_and, forall_eq, hok, true_and]

theorem once_run (id : DefId) (work : Inspect Unit) (st : Inspection) :
    (once id work).run st
      = if st.seen.contains id then ((), st) else work.run { st with seen := id :: st.seen } := by
  by_cases h : st.seen.contains id
  · rw [if_pos h]
    change (if st.seen.contains id then _ else _ : Inspect Unit).run st = _
    rw [if_pos h]
    rfl
  · rw [if_neg h]
    change (if st.seen.contains id then _ else _ : Inspect Unit).run st = _
    rw [if_neg h]
    rfl

theorem Covers.once (h : id ∉ S → Covers g ok (id :: S) work work' (· ∈ k.required))
    (hk : g.kind? id = some k) (agg : k.isAggregate = true) (hok : ok (some (.defn id))) :
    Covers g ok S (once id work) (once id work') (· = some (.defn id)) := by
  -- A definition that was met before is not entered.
  have closed : ∀ seen, id ∈ seen → ∀ u,
      Meets g seen (· = some (.defn id)) u ↔ u = some (.defn id) := by
    intro seen inside u
    constructor
    · rintro ⟨_, rfl, reaches⟩
      refine Graph.eq_of_reachesPast ?_ reaches
      rintro v ⟨id', k', heq, hk', outside, _⟩
      cases heq
      rw [hk] at hk'
      cases hk'
      exact outside agg inside
    · rintro rfl
      exact ⟨_, rfl, .refl⟩
  -- One that was not is entered once.
  have opened : ∀ seen, id ∉ seen → ∀ u, Meets g seen (· = some (.defn id)) u
      ↔ u = some (.defn id) ∨ Meets g (id :: seen) (· ∈ k.required) u := by
    intro seen unmet u
    have first : Meets g seen (· = some (.defn id)) u
        ↔ u = some (.defn id) ∨ Meets g seen (· ∈ k.required) u := by
      simpa [Meets] using Graph.reachesPast_defn hk fun _ => unmet
    refine first.trans (or_congr_right ⟨?_, ?_⟩)
    · rintro ⟨t, ht, reaches⟩
      have grown : ∀ t, g.ReachesPast (fun a => a = id ∨ a ∈ seen) t u →
          g.ReachesPast (· ∈ id :: seen) t u := fun t reaches =>
        reaches.mono fun a _ ha => mem_cons.mp ha
      rcases reaches.enter hk with past | ⟨v, hv, past⟩
      · exact ⟨t, ht, grown t past⟩
      · exact ⟨v, hv, grown v past⟩
    · rintro ⟨t, ht, reaches⟩
      exact ⟨t, ht, reaches.mono fun a _ ha => mem_cons_of_mem _ ha⟩
  have entered : ∀ st : Inspection, S ⊆ st.seen → id ∉ st.seen →
      Covers g ok (id :: S) work work' (· ∈ k.required) ∧ id :: S ⊆ id :: st.seen :=
    fun st met unmet => ⟨h fun hid => unmet (met hid), cons_subset_cons _ met⟩
  constructor
  · intro st met id'
    rw [once_run]
    by_cases seen : id ∈ st.seen
    · rw [if_pos (by simpa using seen), closed _ seen]
      refine ⟨.inl, ?_⟩
      rintro (seen' | ⟨_, ⟨⟩⟩)
      · exact seen'
      · exact seen
    · obtain ⟨inner, met'⟩ := entered st met seen
      rw [if_neg (by simpa using seen), inner.seen _ met', mem_cons, opened _ seen]
      have aggregate : id' = id → g.IsAggregate id' := fun heq => heq ▸ ⟨k, hk, agg⟩
      simp only [Option.some.injEq, TypeRef.defn.injEq]
      tauto
  · intro st met
    rw [once_run]
    by_cases seen : id ∈ st.seen
    · simp only [if_pos (show st.seen.contains id = true by simpa using seen), closed _ seen,
        forall_eq, hok, and_true]
    · obtain ⟨inner, met'⟩ := entered st met seen
      rw [if_neg (by simpa using seen), inner.found _ met']
      simp only [opened _ seen, or_imp, forall_and, forall_eq, hok, true_and]
  · intro st met distinct
    rw [once_run]
    by_cases seen : id ∈ st.seen
    · rw [if_pos (by simpa using seen)]
      exact distinct
    · obtain ⟨inner, met'⟩ := entered st met seen
      rw [if_neg (by simpa using seen)]
      exact inner.nodup _ met' (nodup_cons.mpr ⟨seen, distinct⟩)
  · intro st met
    rw [once_run, once_run]
    by_cases seen : id ∈ st.seen
    · rw [if_pos (by simpa using seen), if_pos (by simpa using seen)]
    · obtain ⟨inner, met'⟩ := entered st met seen
      rw [if_neg (by simpa using seen), if_neg (by simpa using seen), inner.same _ met']

/-! ## Types -/

section Walks

variable {type type' : Option TypeRef → List String → Inspect Unit} {path : List String}

theorem members_covers {ms : List Member}
    (h : ∀ m ∈ ms, ∀ path, Covers g ok S (type m.type path) (type' m.type path) (· = m.type)) :
    Covers g ok S (members type path ms) (members type' path ms) (· ∈ ms.map (·.type)) := by
  induction ms with
  | nil => exact Covers.skip.congr fun t => by simp
  | cons m ms ih =>
    have first := h m mem_cons_self (path ++ [m.name])
    have rest := ih fun m' hm' => h m' (mem_cons_of_mem _ hm')
    exact (first.seq rest).congr fun t => by simp

theorem map_type_mapIdx {β : Type} (name : Nat → β → String) (type : β → Option TypeRef)
    (bs : List β) :
    (bs.mapIdx fun index b => (⟨name index b, type b⟩ : Member)).map (·.type) = bs.map type := by
  refine ext_getElem? fun index => ?_
  rw [getElem?_map, getElem?_mapIdx, getElem?_map, Option.map_map]
  rfl

end Walks

/-- What has to be at a position of the parameters, or of the results. -/
def Allowed (g : Graph) (result : Bool) (t : Option TypeRef) : Prop :=
  g.Fit t ∧ (result = true → ¬ g.IsBorrow t)

theorem allowed_defn (hk : g.kind? id = some k) (result : Bool) :
    Allowed g result (some (.defn id))
      ↔ g.FitKind k ∧ (result = true → ∀ r, k ≠ .borrow r) := by
  have fit : g.Fit (some (.defn id)) ↔ g.FitKind k := by
    constructor
    · rintro ⟨k', hk', fit⟩
      rw [hk] at hk'
      cases hk'
      exact fit
    · exact fun fit => ⟨k, hk, fit⟩
  have borrow : g.IsBorrow (some (.defn id)) ↔ ∃ r, k = .borrow r := by
    constructor
    · rintro ⟨id', r, heq, hk'⟩
      cases heq
      rw [hk] at hk'
      exact ⟨r, Option.some.inj hk'⟩
    · rintro ⟨r, rfl⟩
      exact ⟨id, r, rfl, hk⟩
  rw [Allowed, fit, borrow, not_exists]

theorem Checks.covers_defn {result : Bool} (hk : g.kind? id = some k) (empty : k.required = [])
    (single : k.isAggregate = false)
    (h : Checks work (g.FitKind k ∧ (result = true → ∀ r, k ≠ .borrow r))) :
    Covers g (Allowed g result) S work work (· = some (.defn id)) := by
  refine Checks.covers (t := some (.defn id)) ?_ ?_ ?_
  · rw [allowed_defn hk]
    exact h
  · rintro S u ⟨id', k', heq, hk', _, hu⟩
    cases heq
    rw [hk] at hk'
    cases hk'
    rw [empty] at hu
    cases hu
  · rintro id' heq ⟨k', hk', agg⟩
    cases heq
    rw [hk] at hk'
    cases hk'
    rw [single] at agg
    cases agg

theorem kind_covers (hg : g.Guarded) (hk : g.kind? id = some k)
    {type type' : Option TypeRef → List String → Inspect Unit} (result : Bool) (path : List String)
    (h : ∀ S', k.isAggregate = true ∧ id ∉ S ∧ S' = id :: S ∨ k.isAggregate = false ∧ S' = S →
      ∀ t ∈ k.required, ∀ path,
        Covers g (Allowed g result) S' (type t path) (type' t path) (· = t)) :
    Covers g (Allowed g result) S (kind type g once result id path k)
      (kind type' g once result id path k)
      (· = some (.defn id)) := by
  have allowed : g.FitKind k → (∀ r, k ≠ .borrow r) → Allowed g result (some (.defn id)) :=
    fun fit ne => (allowed_defn hk result).mpr ⟨fit, fun _ => ne⟩
  have body (ms : List Member) (hms : ms.map (·.type) = k.required) (agg : k.isAggregate = true)
      (ok : Allowed g result (some (.defn id))) :
      Covers g (Allowed g result) S (once id (members type path ms))
        (once id (members type' path ms)) (· = some (.defn id)) := by
    refine Covers.once (fun fresh => ?_) hk agg ok
    rw [← hms]
    exact members_covers fun m hm =>
      h _ (.inl ⟨agg, fresh, rfl⟩) m.type (hms ▸ mem_map.mpr ⟨m, hm, rfl⟩)
  cases k with
  | synonym t =>
    have inner := h S (.inr ⟨rfl, rfl⟩) t (by simp [Kind.required]) path
    exact (inner.congr fun u => by simp [Kind.required]).wrap hk rfl (allowed trivial (by simp))
  | option t =>
    have inner := h S (.inr ⟨rfl, rfl⟩) t (by simp [Kind.required]) (path ++ ["some"])
    exact (inner.congr fun u => by simp [Kind.required]).wrap hk rfl (allowed trivial (by simp))
  | list t =>
    have inner := h S (.inr ⟨rfl, rfl⟩) t (by simp [Kind.required]) (path ++ ["elem"])
    exact (inner.congr fun u => by simp [Kind.required]).wrap hk rfl (allowed trivial (by simp))
  | result okType err =>
    -- A side that carries nothing is not inspected.
    have side : ∀ (t : Option TypeRef) (path : List String), t ∈ [okType, err] →
        Covers g (Allowed g result) S (if t.isSome then type t path else pure ())
          (if t.isSome then type' t path else pure ()) fun u => u = t ∧ u.isSome := by
      intro t path ht
      by_cases some : t.isSome = true
      · rw [if_pos some, if_pos some]
        exact (h S (.inr ⟨rfl, rfl⟩) t (mem_filter.mpr ⟨ht, some⟩) path).congr fun u =>
          ⟨fun heq => ⟨heq, heq ▸ some⟩, And.left⟩
      · rw [if_neg some, if_neg some]
        exact Covers.skip.congr fun u => ⟨False.elim, fun hu => some (hu.1 ▸ hu.2)⟩
    have both := (side okType (path ++ ["ok"]) (by simp)).seq (side err (path ++ ["err"]) (by simp))
    have heq : ∀ type, kind type g once result id path (.result okType err)
        = (if okType.isSome then type okType (path ++ ["ok"]) else pure ()) >>= fun _ =>
            if err.isSome then type err (path ++ ["err"]) else pure () := by
      intro type
      cases okType <;> cases err <;> rfl
    rw [heq, heq]
    refine (both.congr fun u => ?_).wrap hk rfl (allowed trivial (by simp))
    simp only [Kind.required, mem_filter, mem_cons, not_mem_nil, or_false]
    exact or_and_right.symm
  | record fields => exact body _ rfl rfl (allowed trivial (by simp))
  | variant cases => exact body _ rfl rfl (allowed trivial (by simp))
  | tuple types | union types =>
    exact body _ ((map_type_mapIdx _ _ types).trans types.map_id) rfl (allowed trivial (by simp))
  | own r =>
    refine Checks.covers_defn hk rfl rfl ?_
    exact (handle_checks hg _ r path).congr ⟨fun names => ⟨names, by simp⟩, And.left⟩
  | borrow r =>
    refine Checks.covers_defn hk rfl rfl ?_
    have returned : Checks (if result then unsupported path (g.spelling (.defn id))
        "borrowed handles cannot be returned" else pure ())
        (result = true → ∀ r', Kind.borrow r ≠ .borrow r') := by
      cases result with
      | true => exact Checks.report _ fun h => h rfl r rfl
      | false => exact Checks.skip (by simp)
    exact (handle_checks hg _ r path).seq returned
  | enum names => exact Checks.covers_defn hk rfl rfl (Checks.skip ⟨trivial, by simp⟩)
  | flags names => exact Checks.covers_defn hk rfl rfl (Checks.skip ⟨trivial, by simp⟩)
  | resource => exact Checks.covers_defn hk rfl rfl (Checks.report _ And.left)
  | future t => exact Checks.covers_defn hk rfl rfl (Checks.report _ And.left)
  | stream t => exact Checks.covers_defn hk rfl rfl (Checks.report _ And.left)

theorem Checks.covers_plain {result : Bool} (plain : ∀ id, t ≠ some (.defn id))
    (h : Checks work (g.Fit t)) : Covers g (Allowed g result) S work work (· = t) := by
  have allowed : g.Fit t ↔ Allowed g result t := by
    refine ⟨fun fit => ⟨fit, fun _ => ?_⟩, And.left⟩
    rintro ⟨id, r, heq, _⟩
    exact plain id heq
  refine (h.congr allowed).covers ?_ fun id heq => absurd heq (plain id)
  rintro S u ⟨id, k, heq, _⟩
  exact plain id heq

theorem unfinished_covers (hk : g.kind? id = none) (result : Bool) (r : Report) :
    Covers g (Allowed g result) S (report r) (report r) (· = some (.defn id)) := by
  refine Checks.covers (t := some (.defn id)) (Checks.report r ?_) ?_ ?_
  · rintro ⟨⟨k, hk', _⟩, _⟩
    rw [hk] at hk'
    cases hk'
  · rintro S u ⟨id', k, heq, hk', _⟩
    cases heq
    rw [hk] at hk'
    cases hk'
  · rintro id' heq ⟨k, hk', _⟩
    cases heq
    rw [hk] at hk'
    cases hk'

/-- Inspects a type as `type` does, and goes on with `stop` at definitions that are too deep. -/
def typeTo (g : Graph) (result : Bool) (stop : DefId → List String → Inspect Unit) :
    Nat → Option TypeRef → List String → Inspect Unit
  | _, none, path => invalid path "" "missing type"
  | _, some (.scalar _), _ | _, some .string, _ => pure ()
  | 0, some (.defn id), path => stop id path
  | fuel + 1, some (.defn id), path =>
    match g.kind? id with
    | none => invalid path (g.spelling (.defn id)) "definition without a kind"
    | some k => kind (typeTo g result stop fuel) g once result id path k

section Depth

open Classical

/-- The products and sums that an inspection which has met `S` may still enter. -/
noncomputable def unmet (g : Graph) (S : List DefId) : Finset DefId :=
  (Finset.range g.size).filter fun id => g.IsAggregate id ∧ id ∉ S

theorem card_unmet_le (g : Graph) (S : List DefId) : (unmet g S).card ≤ g.size := by
  have h : (unmet g S).card ≤ (Finset.range g.size).card :=
    Finset.card_le_card (Finset.filter_subset _ _)
  rwa [Finset.card_range] at h

theorem card_unmet_lt (agg : g.IsAggregate id) (fresh : id ∉ S) :
    (unmet g (id :: S)).card < (unmet g S).card := by
  apply Finset.card_lt_card
  refine (Finset.ssubset_iff_of_subset ?_).mpr ⟨id, ?_, ?_⟩
  · intro a ha
    simp only [unmet, Finset.mem_filter, mem_cons, not_or] at ha ⊢
    exact ⟨ha.1, ha.2.1, ha.2.2.2⟩
  · have inside := agg.elim fun _ hk => Graph.lt_size_of_kind? hk.1
    exact Finset.mem_filter.mpr ⟨Finset.mem_range.mpr inside, agg, fresh⟩
  · intro ha
    exact (Finset.mem_filter.mp ha).2.2 mem_cons_self

end Depth

/-- No product or sum is entered twice, and between two of them no definition is passed twice. -/
theorem type_covers (hg : g.Guarded) (result : Bool) (stop : DefId → List String → Inspect Unit)
    (fuel fuel' : Nat) (t : Option TypeRef) (path : List String) (hfuel : 0 < fuel)
    (hle : fuel ≤ fuel') (need : ∀ id, t = some (.defn id) → id < g.size →
      (unmet g S).card * (g.size + 1) + g.rank g.Passes id + 1 < fuel) :
    Covers g (Allowed g result) S (type g once result fuel t path)
      (typeTo g result stop fuel' t path)
      (· = t) := by
  induction fuel generalizing fuel' t path S with
  | zero => exact absurd hfuel (Nat.lt_irrefl 0)
  | succ fuel ih =>
    obtain ⟨fuel', rfl⟩ := Nat.exists_eq_add_one.mpr (Nat.lt_of_lt_of_le hfuel hle)
    rcases t with _ | (s | _ | id)
    · exact Checks.covers_plain (by simp) (Checks.report _ id)
    · exact Checks.covers_plain (by simp) (Checks.skip trivial)
    · exact Checks.covers_plain (by simp) (Checks.skip trivial)
    · simp only [type, typeTo]
      cases hk : g.kind? id with
      | none => exact unfinished_covers hk result _
      | some k =>
        have hid := need id rfl (Graph.lt_size_of_kind? hk)
        refine kind_covers hg hk result path fun S' hS' t ht path =>
          ih fuel' t path (by omega) (by omega) ?_
        rintro c rfl hc
        rcases hS' with ⟨agg, fresh, rfl⟩ | ⟨single, rfl⟩
        · have fewer := card_unmet_lt ⟨k, hk, agg⟩ fresh
          have less : ((unmet g (id :: S)).card + 1) * (g.size + 1)
              ≤ (unmet g S).card * (g.size + 1) := Nat.mul_le_mul_right _ fewer
          have := Graph.rank_lt_size hg hc
          rw [Nat.add_one_mul] at less
          omega
        · have := Graph.rank_lt hg (Graph.passes_of_mem_required hk single ht) hc
          omega

theorem type_maxDepth_covers (hg : g.Guarded) (result : Bool)
    (stop : DefId → List String → Inspect Unit) {depth : Nat} (deep : maxDepth g ≤ depth)
    (t : Option TypeRef) (path : List String) :
    Covers g (Allowed g result) [] (type g once result (maxDepth g) t path)
      (typeTo g result stop depth t path) (· = t) := by
  refine type_covers hg result stop _ depth t path (Nat.mul_pos ?_ ?_) deep fun id _ hid => ?_
  · exact Nat.succ_pos _
  · exact Nat.succ_pos _
  · have hlt := Graph.rank_lt_size hg hid
    have hle : (unmet g []).card * (g.size + 1) ≤ g.size * (g.size + 1) :=
      Nat.mul_le_mul_right _ (card_unmet_le g [])
    rw [maxDepth, Nat.add_one_mul]
    omega

/-! ## Functions -/

theorem positions_covers (hg : g.Guarded) (result : Bool) (f : Function) (ms : List Member)
    {types : List (Option TypeRef)} (same : ms.map (·.type) = types) :
    Covers g (Allowed g result) [] (members (type g once result (maxDepth g)) [f.name] ms)
      (members (type g once result (maxDepth g)) [f.name] ms) (· ∈ types) := by
  subst same
  exact members_covers fun m _ path =>
    (type_maxDepth_covers hg result (fun _ _ => pure ()) le_rfl m.type path).self

end Inspect

namespace Graph

variable {g : Graph} {f : Function} {t u : Option TypeRef}

/-- The definition is found on a way down from one of the members. -/
def ReachedFrom (g : Graph) (ms : List Member) (id : DefId) : Prop :=
  ∃ m ∈ ms, g.Reaches m.type (some (.defn id))

end Graph

namespace Inspect

variable {g : Graph}

theorem function_found_eq_nil_iff (hg : g.Guarded) (f : Function) :
    ((function g f).run {}).2.found = [] ↔
      (∀ m ∈ f.params, ∀ u, g.Reaches m.type u → Allowed g false u)
      ∧ (∀ m ∈ f.results, ∀ u, g.ReachesPast (g.ReachedFrom f.params) m.type u →
          Allowed g true u)
      ∧ (f.kind = .freestanding ∨ f.resource.isSome) := by
  have resource : Checks
      (if f.kind ≠ .freestanding ∧ f.resource.isNone then
        invalid [f.name] "" (f.kind.name ++ " function without a resource") else pure ())
      (f.kind = .freestanding ∨ f.resource.isSome) := by
    by_cases missing : f.kind ≠ .freestanding ∧ f.resource.isNone
    · rw [if_pos missing]
      refine Checks.report _ fun h => ?_
      rcases h with free | some
      · exact missing.1 free
      · simp [Option.isNone_iff_eq_none.mp missing.2] at some
    · rw [if_neg missing]
      refine Checks.skip ?_
      by_cases free : f.kind = .freestanding
      · exact .inl free
      · exact .inr (Option.isSome_iff_ne_none.mpr (by simpa [free] using missing))
  have params := positions_covers hg false f (params f) map_map
  have results := positions_covers hg true f (results f) (map_type_mapIdx _ _ _)
  -- What the parameters were walked through is what can be reached from them.
  have met : ∀ id, g.IsAggregate id →
      (id ∈ ((members (type g once false (maxDepth g)) [f.name] (Inspect.params f)).run {}).2.seen
        ↔ g.ReachedFrom f.params id) := by
    intro id agg
    rw [params.seen {} (nil_subset _)]
    constructor
    · rintro (seen | ⟨_, t, ht, reaches⟩)
      · cases seen
      · obtain ⟨m, hm, rfl⟩ := mem_map.mp ht
        exact ⟨m, hm, reaches.reaches⟩
    · rintro ⟨m, hm, reaches⟩
      refine .inr ⟨agg, m.type, mem_map.mpr ⟨m, hm, rfl⟩, reaches.mono fun _ _ seen => ?_⟩
      cases seen
  change ((if f.kind ≠ .freestanding ∧ f.resource.isNone then
    invalid [f.name] "" (f.kind.name ++ " function without a resource") else pure () :
      Inspect Unit).run ((members (type g once true _) [f.name] (Inspect.results f)).run
        ((members (type g once false _) [f.name] (Inspect.params f)).run {}).2).2).2.found = [] ↔ _
  rw [(resource _).2, results.found _ (nil_subset _), params.found {} (nil_subset _)]
  constructor
  · rintro ⟨⟨⟨_, inParams⟩, inResults⟩, hr⟩
    refine ⟨fun m hm u reaches => ?_, fun m hm u reaches => ?_, hr⟩
    · refine inParams u ⟨m.type, mem_map.mpr ⟨m, hm, rfl⟩, reaches.mono fun _ _ seen => ?_⟩
      cases seen
    · exact inResults u ⟨m.type, mem_map.mpr ⟨m, hm, rfl⟩,
        reaches.mono fun id agg seen => (met id agg).mp seen⟩
  · rintro ⟨inParams, inResults, hr⟩
    refine ⟨⟨⟨rfl, ?_⟩, ?_⟩, hr⟩
    · rintro u ⟨t, ht, reaches⟩
      obtain ⟨m, hm, rfl⟩ := mem_map.mp ht
      exact inParams m hm u reaches.reaches
    · rintro u ⟨t, ht, reaches⟩
      obtain ⟨m, hm, rfl⟩ := mem_map.mp ht
      exact inResults m hm u (reaches.mono fun id agg seen => (met id agg).mpr seen)

end Inspect

end CanonicalAbi
