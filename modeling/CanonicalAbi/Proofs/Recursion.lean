import CanonicalAbi.Proofs.Validation

/-!
# Recursive types

Types may refer to themselves. Where every cycle leads through a product or sum, the inspection of a
function is never cut short, and where every cycle leads through a name, no spelling is. Still
nothing that cannot be passed is overlooked.
-/

namespace CanonicalAbi

open Relation List

namespace Kind

theorem spelling_congr {k : Kind} {spell spell' : TypeRef → String} (names : DefId → String)
    (h : ∀ t, defns t ⊆ k.references → orHole spell t = orHole spell' t) :
    k.spelling spell names = k.spelling spell' names := by
  cases k with
  | record fields =>
    have same : ∀ m ∈ fields, m.spelling spell = m.spelling spell' := fun m hm =>
      congrArg (m.name ++ ": " ++ ·) (h m.type fun c hc => mem_flatMap.mpr ⟨m, hm, hc⟩)
    simp only [spelling, map_congr_left same]
  | variant cases =>
    have same : ∀ m ∈ cases, m.caseSpelling spell = m.caseSpelling spell' := by
      intro m hm
      have part := h m.type fun c hc => mem_flatMap.mpr ⟨m, hm, hc⟩
      rw [Member.caseSpelling, Member.caseSpelling]
      cases ht : m.type with
      | none => rfl
      | some t =>
        rw [ht] at part
        exact congrArg (m.name ++ "(" ++ · ++ ")") part
    simp only [spelling, map_congr_left same]
  | union types | tuple types =>
    have same : ∀ t ∈ types, orHole spell t = orHole spell' t := fun t ht =>
      h t fun c hc => mem_flatMap.mpr ⟨t, ht, hc⟩
    simp only [spelling, map_congr_left same]
  | option t | list t | future t | stream t | synonym t =>
    simp only [spelling, h t fun c hc => hc]
  | result ok err =>
    have first := h ok fun c hc => mem_append_left _ hc
    have second := h err fun c hc => mem_append_right _ hc
    cases err with
    | none =>
      cases ok with
      | none => rfl
      | some t => exact congrArg ("result<" ++ · ++ ">") first
    | some e =>
      have both := congrArg₂ (fun a b => "result<" ++ a ++ ", " ++ b ++ ">") first second
      cases ok with
      | none | some => exact both
  | enum | flags | own | borrow | resource => rfl

end Kind

namespace Graph

variable {g : Graph} {P : DefId → Prop} {id : DefId}

/-- A definition without the property `P` refers to another one. -/
def UsesPast (g : Graph) (P : DefId → Prop) (a b : DefId) : Prop := g.Uses a b ∧ ¬ P a

/-- Whoever follows references and comes back to a definition has met one with the property `P`. -/
def EveryCycleMeets (g : Graph) (P : DefId → Prop) : Prop := ∀ id, ¬ TransGen (g.UsesPast P) id id

def IsNamed (g : Graph) (id : DefId) : Prop := g.name id ≠ ""

theorem EveryCycleMeets.of_measure (μ : DefId → Nat)
    (h : ∀ a b, g.Uses a b → ¬ P a → μ b < μ a) : g.EveryCycleMeets P := by
  have descends : ∀ a b, TransGen (g.UsesPast P) a b → μ b < μ a := by
    intro a b way
    induction way with
    | single step => exact h _ _ step.1 step.2
    | tail _ step ih => exact Nat.lt_trans (h _ _ step.1 step.2) ih
  exact fun id way => Nat.lt_irrefl _ (descends id id way)

theorem EveryCycleMeets.guarded (h : g.EveryCycleMeets g.IsAggregate) : g.Guarded :=
  fun id way => h id (.mono (fun _ _ step => ⟨step.1.uses, step.2⟩) _ _ way)

/-- Spells a type as `spellingWithin` does, and writes `stop` for definitions that are too deep. -/
def spellingTo (g : Graph) (stop : DefId → String) : Nat → TypeRef → String
  | _, .scalar s => s.name
  | _, .string => "string"
  | 0, .defn id => stop id
  | fuel + 1, .defn id =>
    match g.get? id with
    | none => "<nil>"
    | some d =>
      if d.name.isEmpty then
        match d.kind with
        | none => "<unknown>"
        | some k => k.spelling (g.spellingTo stop fuel) g.name
      else d.name

theorem spellingTo_eq (named : g.EveryCycleMeets g.IsNamed) (stop : DefId → String)
    (fuel fuel' : Nat) (t : TypeRef) (hfuel : 0 < fuel) (hle : fuel ≤ fuel')
    (need : ∀ id, t = .defn id → id < g.size → g.rank (g.UsesPast g.IsNamed) id + 1 < fuel) :
    g.spellingTo stop fuel' t = g.spellingWithin fuel t := by
  induction fuel generalizing fuel' t with
  | zero => exact absurd hfuel (Nat.lt_irrefl 0)
  | succ fuel ih =>
    obtain ⟨fuel', rfl⟩ := Nat.exists_eq_add_one.mpr (Nat.lt_of_lt_of_le hfuel hle)
    rcases t with s | _ | id
    · rfl
    · rfl
    · rw [spellingTo, spellingWithin]
      cases hd : g.get? id with
      | none => rfl
      | some d =>
        by_cases anonymous : d.name.isEmpty
        · simp only [anonymous, if_true]
          cases hk : d.kind with
          | none => rfl
          | some k =>
            have kind : g.kind? id = some k := by simp [kind?, hd, hk]
            have name : ¬ g.IsNamed id := by simpa [IsNamed, Graph.name, hd] using anonymous
            have hid := need id rfl (lt_size_of_kind? kind)
            refine Kind.spelling_congr _ fun t inside => ?_
            cases t with
            | none => rfl
            | some t =>
              refine ih fuel' t (by omega) (by omega) ?_
              rintro c rfl hc
              have uses : g.Uses id c := ⟨k, kind, inside (mem_defns.mpr rfl)⟩
              have := rank_lt named ⟨uses, name⟩ hc
              omega
        · simp only [anonymous, if_false, Bool.false_eq_true]

theorem spellingTo_eq_spelling (named : g.EveryCycleMeets g.IsNamed) (stop : DefId → String)
    {depth : Nat} (deep : g.size < depth) (t : TypeRef) :
    g.spellingTo stop depth t = g.spelling t := by
  refine spellingTo_eq named stop _ depth t (Nat.succ_pos _) deep fun id _ hid => ?_
  have := rank_lt_size named hid
  omega

theorem followSynonyms_ne_synonym (hg : g.Guarded) (fuel : Nat) (id c : DefId)
    (need : id < g.size → g.rank g.Passes id < fuel) :
    g.followSynonyms fuel (g.kind? id) ≠ some (.synonym (some (.defn c))) := by
  induction fuel generalizing id with
  | zero =>
    intro hk
    exact Nat.not_lt_zero _ (need (lt_size_of_kind? hk))
  | succ fuel ih =>
    by_cases hs : ∃ b, g.kind? id = some (.synonym (some (.defn b)))
    · obtain ⟨b, hk⟩ := hs
      rw [hk, followSynonyms]
      refine ih b fun hb => ?_
      have less := rank_lt hg (passes_of_synonym hk) hb
      have := need (lt_size_of_kind? hk)
      omega
    · rw [followSynonyms]
      · exact fun hk => hs ⟨c, hk⟩
      · exact fun _ b _ hk => hs ⟨b, hk⟩

/-- Nothing is there, or nothing that can be passed: no type, no kind, a resource by value, or
something that arrives later. -/
def Impassable (g : Graph) : Option TypeRef → Prop
  | none => True
  | some (.scalar _) | some .string => False
  | some (.defn id) => ∀ k, g.kind? id = some k → k = .resource ∨ ∃ t, k = .future t ∨ k = .stream t

theorem Fit.not_impassable {t : Option TypeRef} (fit : g.Fit t) : ¬ g.Impassable t := by
  rcases t with _ | (s | _ | id)
  · exact fit.elim
  · exact id
  · exact id
  · obtain ⟨k, hk, fitKind⟩ := fit
    intro impassable
    rcases impassable k hk with rfl | ⟨t, rfl | rfl⟩
    · exact fitKind
    · exact fitKind
    · exact fitKind

end Graph

/-! ## Bodies that are walked -/

/-- An inspection that notes the definitions whose bodies it walks, the newest first. -/
abbrev Survey := StateT (List DefId) Inspect

namespace Survey

/-- The body of a definition is walked. -/
def body (id : DefId) (work : Survey Unit) : Survey Unit := do
  modify (id :: ·)
  work

/-- Walks the body of a definition that was not inspected yet. -/
def once (id : DefId) (work : Survey Unit) : Survey Unit := do
  if (← getThe Inspection).seen.contains id then return
  modifyThe Inspection fun s => { s with seen := id :: s.seen }
  body id work

end Survey

/-- A survey inspects as `y` does, and its notes keep up with what was seen. -/
def Survey.Follows (x : Survey Unit) (y : Inspect Unit) : Prop :=
  ∀ st, (x.run st.seen).run st = (((), (y.run st).2.seen), (y.run st).2)

namespace Survey.Follows

variable {g : Graph} {x x' : Survey Unit} {y y' : Inspect Unit}

theorem lift (h : ∀ st, (y.run st).2.seen = st.seen) : Follows (liftM y) y := by
  intro st
  rw [h]
  rfl

theorem skip : Follows (pure ()) (pure ()) := fun _ => rfl

theorem seq (h : Follows x y) (h' : Follows x' y') :
    Follows (do x; x') (do y; y') := by
  intro st
  change (do let s ← x.run st.seen; x'.run s.2 : Inspect _).run st = _
  rw [StateT.run_bind, h]
  exact h' _

theorem once {id : DefId} (h : Follows x y) : Follows (Survey.once id x) (Inspect.once id y) := by
  intro st
  rw [Inspect.once_run]
  change ((if st.seen.contains id then _ else _ : Survey Unit).run st.seen).run st = _
  split
  · rfl
  · exact h { st with seen := id :: st.seen }

theorem handle_seen (spelling : String) (r : Option DefId) (path : List String) (st : Inspection) :
    ((Inspect.handle g spelling r path).run st).2.seen = st.seen := by
  cases r with
  | none => rfl
  | some id =>
    rw [Inspect.handle]
    split <;> rfl

section Parts

variable {type : Option TypeRef → List String → Survey Unit}
  {type' : Option TypeRef → List String → Inspect Unit}
  (h : ∀ t path, Follows (type t path) (type' t path))
include h

theorem members (path : List String) (ms : List Member) :
    Follows (Inspect.members type path ms) (Inspect.members type' path ms) := by
  induction ms with
  | nil => exact skip
  | cons m ms ih => exact (h _ _).seq ih

theorem kind (result : Bool) (id : DefId) (path : List String) (k : Kind) :
    Follows (Inspect.kind type g Survey.once result id path k)
      (Inspect.kind type' g Inspect.once result id path k) := by
  cases k with
  | synonym t | option t | list t => exact h _ _
  | record fields | variant cases | tuple types | union cases => exact once (members h _ _)
  | result ok err =>
    cases ok with
    | none => cases err with
      | none => exact skip
      | some e => exact h _ _
    | some t => cases err with
      | none => exact (h _ _).seq skip
      | some e => exact (h _ _).seq (h _ _)
  | own r => exact lift (handle_seen _ r path)
  | borrow r =>
    have handled := lift (handle_seen (g := g) (g.spelling (.defn id)) r path)
    cases result with
    | true => exact handled.seq (lift fun _ => rfl)
    | false => exact handled.seq skip
  | resource | future t | stream t => exact lift fun _ => rfl
  | enum cases | flags names => exact skip

end Parts

theorem type (result : Bool) (fuel : Nat) (t : Option TypeRef) (path : List String) :
    Follows (Inspect.type g Survey.once result fuel t path)
      (Inspect.type g Inspect.once result fuel t path) := by
  induction fuel generalizing t path with
  | zero =>
    cases t with
    | none => exact lift fun _ => rfl
    | some t => cases t <;> exact skip
  | succ fuel ih =>
    rcases t with _ | (_ | _ | id)
    · exact lift fun _ => rfl
    · exact skip
    · exact skip
    · rw [Inspect.type, Inspect.type]
      cases g.kind? id with
      | none => exact lift fun _ => rfl
      | some k => exact kind ih result id path k

theorem functionVia (f : Function) :
    Follows (Inspect.functionVia g Survey.once f) (Inspect.function g f) := by
  refine (members (type false _) _ _).seq ((members (type true _) _ _).seq ?_)
  split
  · exact lift fun _ => rfl
  · exact skip

end Survey.Follows

namespace Inspect

variable {g : Graph}

theorem typeTo_eq_type (hg : g.Guarded) (result : Bool) (stop : DefId → List String → Inspect Unit)
    {depth : Nat} (deep : maxDepth g ≤ depth) :
    typeTo g result stop depth = type g once result (maxDepth g) := by
  funext t path st
  exact (type_maxDepth_covers hg result stop deep t path).same st (nil_subset _)

theorem function_seen_nodup (hg : g.Guarded) (f : Function) :
    ((function g f).run {}).2.seen.Nodup := by
  have params := (positions_covers hg false f (params f) rfl).nodup {} (nil_subset _) nodup_nil
  have results := (positions_covers hg true f (results f) rfl).nodup _ (nil_subset _) params
  -- What is checked last meets nothing.
  change ((if f.kind ≠ .freestanding ∧ f.resource.isNone then
    invalid [f.name] "" (f.kind.name ++ " function without a resource") else pure () :
      Inspect Unit).run _).2.seen.Nodup
  split
  · exact results
  · exact results

end Inspect

/-- The inspection of a function ends, if every cycle of the types leads through a product or sum
and through a name: whatever would be done at greater depth, for types, spellings and synonyms
alike, it is never reached. The survey that notes every product and sum whose body it walks does
what the inspection does, and notes none of them twice. What cannot be passed is reported wherever
it is found. -/
theorem validation_ends {g : Graph} (aggregates : g.EveryCycleMeets g.IsAggregate)
    (named : g.EveryCycleMeets g.IsNamed) (f : Function) :
    (∀ result stop depth, Inspect.maxDepth g ≤ depth →
        Inspect.typeTo g result stop depth
          = Inspect.type g Inspect.once result (Inspect.maxDepth g))
    ∧ (∀ stop depth, g.size < depth → ∀ t, g.spellingTo stop depth t = g.spelling t)
    ∧ (∀ id c, g.resolve id ≠ some (.synonym (some (.defn c))))
    ∧ (∃ walked, ((Inspect.functionVia g Survey.once f).run []).run {}
          = (((), walked), ((Inspect.function g f).run {}).2) ∧ walked.Nodup)
    ∧ ∀ m ∈ f.params ++ f.results, ∀ u, g.Reaches m.type u → g.Impassable u →
        validate g (some f) ≠ [] := by
  have hg := aggregates.guarded
  refine ⟨fun result stop depth deep => Inspect.typeTo_eq_type hg result stop deep,
    fun stop depth deep t => Graph.spellingTo_eq_spelling named stop deep t, fun id c => ?_,
    ⟨_, Survey.Follows.functionVia f {}, Inspect.function_seen_nodup hg f⟩,
    fun m hm u reaches impassable silent => ?_⟩
  · exact Graph.followSynonyms_ne_synonym hg g.size id c fun hid => Graph.rank_lt_size hg hid
  · exact (fit_of_validate hg silent m hm u reaches).not_impassable impassable

namespace Tree

def graph : Graph where
  defs := #[
    { name := "tree", kind := some (.record [⟨"children", some (.defn 1)⟩,
        ⟨"leaf", some (.defn 2)⟩]) },
    { kind := some (.list (some (.defn 0))) },
    { kind := some (.future none) }]

def plant : Function where
  name := "plant"
  params := [⟨"tree", some (.defn 0)⟩]
  results := []

/-- Only the list refers to something and is neither a product nor named. -/
theorem everyCycleMeets {P : DefId → Prop} (tree : P 0) : graph.EveryCycleMeets P := by
  refine .of_measure (fun id => if id = 1 then 1 else 0) ?_
  rintro a b ⟨k, hk, hb⟩ other
  have hlt : a < 3 := Graph.lt_size_of_kind? hk
  interval_cases a
  · exact absurd tree other
  · cases hk
    simp [Kind.references, defns, TypeRef.defn?] at hb
    simp [hb]
  · cases hk
    cases hb

end Tree

theorem validation_ends_tree :
    Tree.graph.EveryCycleMeets Tree.graph.IsAggregate
    ∧ Tree.graph.EveryCycleMeets Tree.graph.IsNamed
    ∧ TransGen Tree.graph.Uses 0 0
    ∧ validate Tree.graph (some Tree.plant) ≠ [] := by
  have aggregates := Tree.everyCycleMeets (P := Tree.graph.IsAggregate) ⟨_, rfl, rfl⟩
  have named := Tree.everyCycleMeets (P := Tree.graph.IsNamed)
    (show Tree.graph.name 0 ≠ "" by decide)
  have leaf : Tree.graph.Reaches (some (.defn 0)) (some (.defn 2)) :=
    .single (Graph.contains_of_mem_required rfl (by simp [Kind.required]))
  refine ⟨aggregates, named, ?_, ?_⟩
  · have children : Tree.graph.Uses 0 1 := ⟨_, rfl, List.mem_cons_self⟩
    exact .head children (.single ⟨_, rfl, List.mem_cons_self⟩)
  · refine (validation_ends aggregates named Tree.plant).2.2.2.2 _ (List.mem_singleton_self _) _
      leaf fun k hk => ?_
    cases hk
    exact .inr ⟨none, .inl rfl⟩

end CanonicalAbi
