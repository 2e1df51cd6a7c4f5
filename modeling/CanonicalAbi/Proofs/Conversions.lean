import CanonicalAbi.Proofs.Effects
import CanonicalAbi.Proofs.Unfolding
import CanonicalAbi.Wit.Converter
import Mathlib.Data.List.Forall2

/-!
# Conversions of documents

While a definition is converted, others that are finished inside it may already refer to it. If it
fails, it is forgotten, and they refer to something without a kind. Where no definition that fails
is on a cycle this cannot happen: then a conversion depends on nothing that was converted before,
and whatever the converter knows is finished.
-/

namespace CanonicalAbi.Wit

open Relation List Conversion

variable {α β : Type} {d : Document} {c c' c'' : Converter} {P : List Nat} {id : Nat}

/-! ## What can be converted -/

/-- The types that are converted with a body, the resource of a handle among them. A body that
cannot be converted counts as a type that cannot. -/
def types : Option Body → List (Option TypeUse)
  | some (.record parts) | some (.variant parts) => parts.map (·.type)
  | some (.tuple types) => types
  | some (.option t) | some (.list t) | some (.future t) => [t]
  | some (.result ok err) => [ok, err]
  | some (.same t) => [some t]
  | some (.own (some r)) | some (.borrow (some r)) => [some (.entry r)]
  | some (.own none) | some (.borrow none) | some (.enum _) | some (.flags _) | some .resource
  | some (.stream _) => []
  | some (.pointer _) | none => [some .errorContext]

def isUnresolved : Option Body → Bool
  | some (.own none) | some (.borrow none) => true
  | _ => false

/-- The kind that a body becomes, given what its types become and the resource that is made for it.
The names stay, and so does their order. -/
def kindOf (ts : List (Option TypeRef)) (made : Option DefId) : Option Body → Kind
  | some (.record parts) => .record (parts.zipWith (fun p t => ⟨p.name, t⟩) ts)
  | some (.variant parts) => .variant (parts.zipWith (fun p t => ⟨p.name, t⟩) ts)
  | some (.enum cases) => .enum cases
  | some (.flags names) => .flags names
  | some (.tuple _) => .tuple ts
  | some (.option _) => .option (ts.headD none)
  | some (.result _ _) => .result (ts.headD none) (ts.tail.headD none)
  | some (.list _) => .list (ts.headD none)
  | some (.own _) => .own (((ts.headD none).bind TypeRef.defn?).or made)
  | some (.borrow _) => .borrow (((ts.headD none).bind TypeRef.defn?).or made)
  | some (.future _) => .future (ts.headD none)
  | some (.stream _) => .stream none
  | some (.same _) => .synonym (ts.headD none)
  | some .resource | some (.pointer _) | none => .resource

namespace Document

/-- Definition `b` is converted with definition `a`. -/
def Refers (d : Document) (a b : Nat) : Prop :=
  ∃ e, d.entries[a]? = some e ∧ some (.entry b) ∈ types e.body

def Supports (d : Document) (id : Nat) : Prop :=
  ∃ e, d.entries[id]? = some e ∧ some .errorContext ∉ types e.body

/-- All definitions that are met from one on can be converted. -/
def Convertible (d : Document) (id : Nat) : Prop := ∀ b, ReflTransGen d.Refers id b → d.Supports b

def ConvertibleType (d : Document) (t : Option TypeUse) : Prop :=
  t ≠ some .errorContext ∧ ∀ id, t = some (.entry id) → d.Convertible id

end Document

/-! ## What a converter holds -/

variable {n : DefId} {t : Option TypeUse}

namespace Converter

def Knows (c : Converter) (id : Nat) (n : DefId) : Prop := c.known.lookup id = some n

/-- What a type has become, if its definition is known. -/
def type? (c : Converter) : Option TypeUse → Option (Option TypeRef)
  | none => some none
  | some (.scalar s) => some (some (.scalar s))
  | some .string => some (some .string)
  | some .errorContext => none
  | some (.entry id) => (c.known.lookup id).map fun n => some (.defn n)

/-- What a body has become. For a resource that was left out there is one without a name. -/
def Shows (c : Converter) (body : Option Body) (k : Kind) : Prop :=
  ∃ ts made, k = kindOf ts made body ∧ Forall₂ (fun t r => c.type? t = some r) (types body) ts
    ∧ made.isSome = isUnresolved body
    ∧ ∀ n, made = some n → c.graph.get? n = some ⟨"", some .resource⟩

/-- A definition was converted: the converter knows it as one with its name and its kind. -/
def Holds (d : Document) (c : Converter) (id : Nat) : Prop :=
  ∃ e n k, d.entries[id]? = some e ∧ c.Knows id n ∧ c.graph.get? n = some ⟨e.name, some k⟩
    ∧ c.Shows e.body k

def Keeps (c c' : Converter) : Prop :=
  ∀ ⦃n name k⦄, c.graph.get? n = some ⟨name, some k⟩ → c'.graph.get? n = some ⟨name, some k⟩

/-- What is finished stays, and what is known is known as the same. -/
structure Extends (c c' : Converter) : Prop where
  keeps : c.Keeps c'
  known : ∀ {id n}, c.Knows id n → c'.Knows id n

theorem Extends.refl (c : Converter) : c.Extends c := ⟨fun _ _ _ h => h, fun h => h⟩

theorem Extends.trans (h : c.Extends c') (h' : c'.Extends c'') : c.Extends c'' :=
  ⟨fun _ _ _ hn => h'.keeps (h.keeps hn), fun hn => h'.known (h.known hn)⟩

theorem Knows.unique {m : DefId} (h : c.Knows id n) (h' : c.Knows id m) : n = m :=
  Option.some.inj (h.symm.trans h')

theorem type?_entry {r : Option TypeRef} :
    c.type? (some (.entry id)) = some r ↔ ∃ n, c.Knows id n ∧ some (.defn n) = r :=
  Option.map_eq_some_iff

theorem type?_mono {r : Option TypeRef} (h : c.type? t = some r)
    (known : ∀ u, t = some (.entry u) → ∀ n, c.Knows u n → c'.Knows u n) : c'.type? t = some r := by
  match t with
  | none | some (.scalar _) | some .string | some .errorContext => exact h
  | some (.entry id) =>
    obtain ⟨n, hn, hr⟩ := type?_entry.mp h
    exact type?_entry.mpr ⟨n, known id rfl n hn, hr⟩

theorem exists_knows_of_type?
    (h : c.type? t = some (some (.defn n))) : ∃ u, c.Knows u n := by
  match t with
  | some (.entry u) =>
    obtain ⟨_, hn, hr⟩ := type?_entry.mp h
    cases hr
    exact ⟨u, hn⟩

theorem exists_of_forall₂ {R : α → β → Prop} {xs : List α} {ys : List β} (h : Forall₂ R xs ys)
    {x : α} (hx : x ∈ xs) : ∃ y, R x y := by
  induction h with
  | nil => cases hx
  | cons hr _ ih =>
    rcases mem_cons.mp hx with rfl | hx
    · exact ⟨_, hr⟩
    · exact ih hx

theorem Shows.mono {body : Option Body} {k : Kind} (h : c.Shows body k) (keeps : c.Keeps c')
    (known : ∀ u, some (.entry u) ∈ types body → ∀ n, c.Knows u n → c'.Knows u n) :
    c'.Shows body k := by
  obtain ⟨ts, made, kind, became, unresolved, resource⟩ := h
  have known : ∀ t ∈ types body, ∀ u, t = some (.entry u) → ∀ n, c.Knows u n → c'.Knows u n :=
    fun t ht u hu => known u (hu ▸ ht)
  exact ⟨ts, made, kind, ((forall₂_and_left _ _).mpr ⟨known, became⟩).imp fun _ _ h =>
    type?_mono h.2 h.1, unresolved, fun n hn => keeps (resource n hn)⟩

namespace Holds

theorem exists_knows (h : Holds d c id) {u : Nat} (refers : d.Refers id u) : ∃ n, c.Knows u n := by
  obtain ⟨e, _, _, he, _, _, ts, _, _, became, _⟩ := h
  obtain ⟨_, he', hu⟩ := refers
  cases he.symm.trans he'
  obtain ⟨_, hr⟩ := exists_of_forall₂ became hu
  exact (type?_entry.mp hr).imp fun _ hn => hn.1

theorem supports (h : Holds d c id) : d.Supports id := by
  obtain ⟨e, _, _, he, _, _, ts, _, _, became, _⟩ := h
  refine ⟨e, he, fun ht => ?_⟩
  obtain ⟨_, hr⟩ := exists_of_forall₂ became ht
  cases hr

/-- A definition stays converted as long as what it refers to stays known. -/
theorem mono (h : Holds d c id) (keeps : c.Keeps c')
    (known : ∀ u, u = id ∨ d.Refers id u → ∀ n, c.Knows u n → c'.Knows u n) : Holds d c' id := by
  obtain ⟨e, n, k, he, hn, found, shows⟩ := h
  exact ⟨e, n, k, he, known id (.inl rfl) n hn, keeps found,
    shows.mono keeps fun u hu => known u (.inr ⟨e, he, hu⟩)⟩

end Holds

/-- The state of a converter inside the conversion of the definitions `P`: what is known is finished
apart from these, and what was finished inside one of them and refers to it is on a cycle. -/
structure Inv (d : Document) (P : List Nat) (c : Converter) : Prop where
  holds : ∀ {w n}, c.Knows w n → w ∉ P → Holds d c w
  unfinished : ∀ p ∈ P, ∃ n name, c.Knows p n ∧ c.graph.get? n = some ⟨name, none⟩
  distinct : ∀ {v w n}, c.Knows v n → c.Knows w n → v = w
  back : ∀ {w n}, c.Knows w n → w ∉ P → ∀ p ∈ P, d.Refers w p → ReflTransGen d.Refers p w
  nodup : P.Nodup
  inside : ∀ p ∈ P, p < d.entries.size

theorem lookup_cons_eq (v : Nat) (n : DefId) (known : List (Nat × DefId)) (w : Nat) :
    ((v, n) :: known).lookup w = if w = v then some n else known.lookup w := by
  rw [lookup_cons]
  by_cases h : w = v
  · rw [if_pos h, beq_iff_eq.mpr h]
  · rw [if_neg h, beq_eq_false_iff_ne.mpr h]

theorem knows_enter {name : String} {w : Nat} :
    (c.enter id name).Knows w n ↔ if w = id then c.graph.size = n else c.Knows w n := by
  rw [Knows, enter, lookup_cons_eq]
  split
  · exact Option.some_inj
  · rfl

theorem knows_forget {w : Nat} : (c.forget id).Knows w n ↔ w ≠ id ∧ c.Knows w n := by
  simp only [Knows, forget]
  induction c.known with
  | nil => simp
  | cons entry known ih =>
    obtain ⟨v, m⟩ := entry
    by_cases hv : v = id
    · rw [filter_cons_of_neg (by simpa using hv), ih, lookup_cons_eq, hv]
      exact and_congr_right fun ne => by rw [if_neg ne]
    · rw [filter_cons_of_pos (by simpa using hv), lookup_cons_eq, lookup_cons_eq]
      split
      · next heq => exact (and_iff_right (heq ▸ hv)).symm
      · exact ih

theorem get?_push_of_some {g : Graph} {x y : Definition} (h : g.get? n = some x) :
    (g.push y).get? n = some x := by
  rw [Graph.get?_push, if_neg (Nat.ne_of_lt (Graph.lt_size_of_get? h)), h]

namespace Inv

theorem lt_size (inv : Inv d P c) (h : c.Knows id n) : n < c.graph.size := by
  by_cases hp : id ∈ P
  · obtain ⟨_, _, hn, found⟩ := inv.unfinished id hp
    exact h.unique hn ▸ Graph.lt_size_of_get? found
  · obtain ⟨_, _, _, _, hn, found, _⟩ := inv.holds h hp
    exact h.unique hn ▸ Graph.lt_size_of_get? found

theorem push (inv : Inv d P c) (x : Definition) :
    Inv d P { c with graph := c.graph.push x } where
  holds hn hw := (inv.holds hn hw).mono (fun _ _ _ => get?_push_of_some) fun _ _ _ h => h
  unfinished p hp := by
    obtain ⟨n, name, hn, found⟩ := inv.unfinished p hp
    exact ⟨n, name, hn, get?_push_of_some found⟩
  distinct := inv.distinct
  back := inv.back
  nodup := inv.nodup
  inside := inv.inside

theorem enter (inv : Inv d P c) (name : String) (unknown : ∀ n, ¬ c.Knows id n)
    (inside : id < d.entries.size) :
    Inv d (id :: P) (c.enter id name) ∧ c.Extends (c.enter id name) := by
  have kept : ∀ {w n}, c.Knows w n → (c.enter id name).Knows w n := fun hn =>
    knows_enter.mpr (by rwa [if_neg fun heq => unknown _ (heq ▸ hn)])
  have old : ∀ {w n}, (c.enter id name).Knows w n → w ∉ id :: P → c.Knows w n ∧ w ∉ P :=
    fun hn hw => by
      rw [mem_cons, not_or] at hw
      exact ⟨by rwa [knows_enter, if_neg hw.1] at hn, hw.2⟩
  have keeps : c.Keeps (c.enter id name) := fun _ _ _ => get?_push_of_some
  refine ⟨⟨fun hn hw => ?_, ?_, ?_, fun hn hw p hp refers => ?_, ?_, ?_⟩, keeps, kept⟩
  · exact (inv.holds (old hn hw).1 (old hn hw).2).mono keeps fun _ _ _ => kept
  · intro p hp
    rcases mem_cons.mp hp with rfl | hp
    · exact ⟨_, name, knows_enter.mpr (by rw [if_pos rfl]),
        (Graph.get?_push _ _ _).trans (if_pos rfl)⟩
    · obtain ⟨n, name, hn, found⟩ := inv.unfinished p hp
      exact ⟨n, name, kept hn, get?_push_of_some found⟩
  · intro v w n hv hw
    rw [knows_enter] at hv hw
    split at hv <;> split at hw
    · next hv' hw' => exact hv'.trans hw'.symm
    · exact absurd hv (Nat.ne_of_gt (inv.lt_size hw))
    · exact absurd hw (Nat.ne_of_gt (inv.lt_size hv))
    · exact inv.distinct hv hw
  · obtain ⟨before, outside⟩ := old hn hw
    rcases mem_cons.mp hp with heq | hp
    · obtain ⟨n, known⟩ := (inv.holds before outside).exists_knows refers
      exact absurd (heq ▸ known) (unknown n)
    · exact inv.back before outside p hp refers
  · refine nodup_cons.mpr ⟨fun hp => ?_, inv.nodup⟩
    obtain ⟨n, _, hn, _⟩ := inv.unfinished id hp
    exact unknown n hn
  · exact forall_mem_cons.mpr ⟨inside, inv.inside⟩

/-- The innermost definition gets its kind. -/
theorem finish (inv : Inv d (id :: P) c) {e : Entry} {k : Kind}
    (he : d.entries[id]? = some e) (hn : c.Knows id n) (shows : c.Shows e.body k)
    (way : ∀ p ∈ P, ReflTransGen d.Refers p id) :
    Inv d P { c with graph := c.graph.set n ⟨e.name, some k⟩ }
      ∧ c.Extends { c with graph := c.graph.set n ⟨e.name, some k⟩ } := by
  obtain ⟨m, name, hm, unfinished⟩ := inv.unfinished id mem_cons_self
  cases hn.unique hm
  have other : ∀ {m x}, m ≠ n → c.graph.get? m = some x →
      (c.graph.set n ⟨e.name, some k⟩).get? m = some x := fun ne found =>
    (Array.getElem?_setIfInBounds_ne ne.symm).trans found
  have keeps : c.Keeps { c with graph := c.graph.set n ⟨e.name, some k⟩ } := by
    intro m name k' found
    refine other ?_ found
    rintro rfl
    rw [unfinished] at found
    cases found
  have outside : ∀ {w}, w ≠ id → w ∉ P → w ∉ id :: P := fun ne hP =>
    not_or.mpr ⟨ne, hP⟩ ∘ mem_cons.mp
  refine ⟨⟨fun {w m} hw hP => ?_, fun p hp => ?_, inv.distinct, fun {w m} hw hP p hp refers => ?_,
    (nodup_cons.mp inv.nodup).2, fun p hp => inv.inside p (mem_cons_of_mem id hp)⟩,
    keeps, fun h => h⟩
  · by_cases heq : w = id
    · subst heq
      exact ⟨e, n, k, he, hn,
        Array.getElem?_setIfInBounds_self_of_lt (Graph.lt_size_of_get? unfinished),
        shows.mono keeps fun _ _ _ h => h⟩
    · exact (inv.holds hw (outside heq hP)).mono keeps fun _ _ _ h => h
  · obtain ⟨m, name, hm, found⟩ := inv.unfinished p (mem_cons_of_mem id hp)
    refine ⟨m, name, hm, other (fun heq => ?_) found⟩
    have same : id = p := inv.distinct hn (heq ▸ hm)
    exact (nodup_cons.mp inv.nodup).1 (same ▸ hp)
  · by_cases heq : w = id
    · exact heq ▸ way p hp
    · exact inv.back hw (outside heq hP) p (mem_cons_of_mem id hp) refers

/-- The innermost definition is forgotten. Nothing that stays known refers to it, as that would be
on a cycle with it. -/
theorem forget (inv : Inv d (id :: P) c) (straight : ¬ TransGen d.Refers id id) :
    Inv d P (c.forget id) := by
  have old : ∀ {w n}, (c.forget id).Knows w n → w ∉ P → c.Knows w n ∧ w ∉ id :: P := fun hw hP =>
    ⟨(knows_forget.mp hw).2, not_or.mpr ⟨(knows_forget.mp hw).1, hP⟩ ∘ mem_cons.mp⟩
  refine ⟨fun hw hP => ?_, fun p hp => ?_, fun hv hw => inv.distinct (knows_forget.mp hv).2
    (knows_forget.mp hw).2, fun hw hP p hp => inv.back (old hw hP).1 (old hw hP).2 p
    (mem_cons_of_mem id hp), (nodup_cons.mp inv.nodup).2, fun p hp =>
    inv.inside p (mem_cons_of_mem id hp)⟩
  · obtain ⟨hn, outside⟩ := old hw hP
    refine (inv.holds hn outside).mono (fun _ _ _ h => h) fun u hu m hm => ?_
    refine knows_forget.mpr ⟨?_, hm⟩
    rintro rfl
    rcases hu with rfl | refers
    · exact outside mem_cons_self
    · exact straight (.tail' (inv.back hn outside u mem_cons_self refers) refers)
  · obtain ⟨m, name, hm, found⟩ := inv.unfinished p (mem_cons_of_mem id hp)
    refine ⟨m, name, knows_forget.mpr ⟨?_, hm⟩, found⟩
    rintro rfl
    exact (nodup_cons.mp inv.nodup).1 hp

theorem convertible (inv : Inv d [] c) (h : c.Knows id n) : d.Convertible id := by
  intro b way
  have known : ∃ n, c.Knows b n := by
    induction way with
    | refl => exact ⟨n, h⟩
    | tail _ refers ih =>
      obtain ⟨m, hm⟩ := ih
      exact (inv.holds hm not_mem_nil).exists_knows refers
  obtain ⟨m, hm⟩ := known
  exact (inv.holds hm not_mem_nil).supports

end Inv

end Converter

/-! ## Steps of a conversion -/

open Converter

/-- How a conversion ends that is a part of the conversions of `P`: it loses nothing, and it fails
only if not `Good`. -/
structure Ends (d : Document) (P : List Nat) (c : Converter) (run : Except Failure α × Converter)
    (Good : Prop) (Q : α → Converter → Prop) : Prop where
  grows : c.Extends run.2
  inv : Inv d P run.2
  ok : ∀ a, run.1 = .ok a → Q a run.2
  error : ∀ e, run.1 = .error e → ¬ Good

def Converts (d : Document) (P : List Nat) (x : Conversion α) (Good : Prop)
    (Q : α → Converter → Prop) : Prop :=
  ∀ c, Inv d P c → Ends d P c (runFrom x c) Good Q

def Finds (d : Document) (P : List Nat) (definition : Nat → Conversion DefId) (u : Nat) : Prop :=
  Converts d P (definition u) (d.Convertible u) fun n c => c.Knows u n

namespace Converts

variable {x : Conversion α} {f : α → Conversion β} {G G' : Prop} {Q : α → Converter → Prop}
  {R : β → Converter → Prop}

theorem pure {a : α} (h : ∀ c, Q a c) : Converts d P (pure a) G Q := fun c inv =>
  ⟨.refl c, inv, fun _ ha => by cases ha; exact h c, by simp⟩

theorem throw {e : Failure} (h : ¬ G) : Converts d P (throw e : Conversion α) G Q := fun c inv =>
  ⟨.refl c, inv, by simp, fun _ _ => h⟩

theorem weaken (h : Converts d P x G Q) (good : G' → G) : Converts d P x G' Q := fun c inv =>
  ⟨(h c inv).grows, (h c inv).inv, (h c inv).ok, fun e he hG => (h c inv).error e he (good hG)⟩

theorem bind (hx : Converts d P x G Q)
    (hf : ∀ a, Converts d P (f a) G fun b c' => ∀ c, c.Extends c' → Q a c → R b c') :
    Converts d P (x >>= f) G R := by
  intro c inv
  have first := hx c inv
  rw [runFrom_bind]
  revert first
  rcases runFrom x c with ⟨e | a, c1⟩ <;> intro first
  · exact ⟨first.grows, first.inv, by simp [continueWith], fun _ _ => first.error e rfl⟩
  · have second := hf a c1 first.inv
    exact ⟨first.grows.trans second.grows, second.inv,
      fun b hb => second.ok b hb c1 second.grows (first.ok a rfl), second.error⟩

/-- What holds of all that some conversions make, one after another. -/
theorem mapM {f : α → Conversion β} {R : Converter → α → β → Prop} (xs : List α)
    (stays : ∀ {c c' a b}, c.Extends c' → R c a b → R c' a b)
    (h : ∀ a ∈ xs, Converts d P (f a) G fun b c => R c a b) :
    Converts d P (xs.mapM f) G fun bs c => Forall₂ (R c) xs bs := by
  induction xs with
  | nil => exact .pure fun _ => .nil
  | cons a xs ih =>
    rw [mapM_cons]
    refine (h a mem_cons_self).bind fun b => ?_
    refine (ih fun a' ha' => h a' (mem_cons_of_mem _ ha')).bind fun bs => ?_
    exact .pure fun c' c1 ext1 rest c ext first =>
      .cons (stays ext first) (rest.imp fun _ _ => stays ext1)

end Converts

section Steps

variable {definition : Nat → Conversion DefId}

theorem type_converts (t : Option TypeUse) (h : ∀ u, t = some (.entry u) → Finds d P definition u) :
    Converts d P (type definition t) (d.ConvertibleType t)
      fun r c => c.type? t = some r := by
  match t with
  | none | some (.scalar _) | some .string => exact .pure fun _ => rfl
  | some .errorContext => exact .throw fun good => good.1 rfl
  | some (.entry id) =>
    refine ((h id rfl).weaken fun good => good.2 id rfl).bind fun n => ?_
    exact .pure fun c' c ext known => type?_entry.mpr ⟨n, ext.known known, rfl⟩

def makeResource (body : Option Body) : Conversion (Option DefId) :=
  if isUnresolved body then some <$> add ⟨"", some .resource⟩ else return none

theorem makeResource_converts (body : Option Body) {G : Prop} :
    Converts d P (makeResource body) G fun r c => r.isSome = isUnresolved body
      ∧ ∀ n, r = some n → c.graph.get? n = some ⟨"", some .resource⟩ := by
  rw [makeResource]
  split
  · next h =>
    intro c inv
    refine ⟨⟨fun _ _ _ => get?_push_of_some, fun h => h⟩, inv.push _, ?_, by rintro _ ⟨⟩⟩
    rintro _ ⟨⟩
    refine ⟨h.symm, ?_⟩
    rintro _ ⟨⟩
    exact (Graph.get?_push _ _ _).trans (if_pos rfl)
  · next h => exact .pure fun _ => ⟨by simpa using h, by simp⟩

theorem parts_eq (parts : List Part) : parts.mapM (part definition)
    = (fun ts => parts.zipWith (fun p t => (⟨p.name, t⟩ : Member)) ts)
      <$> (parts.map (·.type)).mapM (type definition) := by
  induction parts with
  | nil => simp
  | cons p parts ih => simp [part, ih]

/-- A body is converted by converting its types and making its resource. -/
theorem kind_eq (definition : Nat → Conversion DefId) (body : Option Body) :
    kind definition body = throw unknownBody
        ∧ some .errorContext ∈ types body
      ∨ kind definition body = do
        let ts ← (types body).mapM (type definition)
        let r ← makeResource body
        return kindOf ts r body := by
  match body with
  | none | some (.pointer _) => exact .inl ⟨rfl, mem_cons_self⟩
  | some (.record parts) | some (.variant parts) =>
    exact .inr (by simp [kind, types, makeResource, isUnresolved, kindOf, parts_eq])
  | some (.own (some r)) | some (.borrow (some r)) =>
    exact .inr (by simp [kind, types, makeResource, isUnresolved, kindOf,
      resource, type, TypeRef.defn?])
  | some (.own none) | some (.borrow none) | some (.enum _) | some (.flags _) | some (.tuple _)
  | some (.option _) | some (.result _ _) | some (.list _) | some .resource | some (.future _)
  | some (.stream _) | some (.same _) =>
    exact .inr (by simp [kind, types, makeResource, isUnresolved, kindOf,
      resource])

theorem kind_converts (body : Option Body)
    (h : ∀ u, some (.entry u) ∈ types body → Finds d P definition u) :
    Converts d P (kind definition body)
      (some .errorContext ∉ types body ∧ ∀ u, some (.entry u) ∈ types body → d.Convertible u)
      fun k c => c.Shows body k := by
  rcases kind_eq definition body with ⟨heq, unsupported⟩ | heq <;> rw [heq]
  · exact .throw fun good => good.1 unsupported
  · refine (Converts.mapM (R := fun c t r => c.type? t = some r) (types body)
      (fun ext became => type?_mono became fun _ _ _ => ext.known) fun t ht => ?_).bind fun ts => ?_
    · refine (type_converts t fun u hu => h u (hu ▸ ht)).weaken fun good => ?_
      exact ⟨fun heq => good.1 (heq ▸ ht), fun u hu => good.2 u (hu ▸ ht)⟩
    · refine (makeResource_converts body).bind fun r => ?_
      refine .pure fun c' c1 ext1 resource c ext became => ?_
      exact ⟨ts, r, rfl, became.imp fun _ _ h => type?_mono h fun _ _ _ => ext.known, resource.1,
        fun n hn => ext1.keeps (resource.2 n hn)⟩

theorem runFrom_outcome (x : Conversion α) (c : Converter) :
    runFrom (outcome x) c = (.ok (runFrom x c).1, (runFrom x c).2) := rfl

theorem entry_ends (hd : ∀ id, TransGen d.Refers id id → d.Convertible id) {e : Entry}
    (he : d.entries[id]? = some e) (way : ∀ p ∈ P, ReflTransGen d.Refers p id)
    (inner : ∀ u, d.Refers id u → Finds d (id :: P) definition u)
    (inv : Inv d P c) (unknown : ∀ n, ¬ c.Knows id n) :
    Ends d P c (runFrom (entry definition id e) c) (d.Convertible id)
      fun n c => c.Knows id n := by
  obtain ⟨entered, ext⟩ := inv.enter e.name unknown (Array.getElem?_eq_some_iff.mp he).1
  have run := kind_converts e.body (fun u hu => inner u ⟨e, he, hu⟩) _ entered
  have known := run.grows.known (knows_enter.mpr (if_pos rfl ▸ rfl) :
    (c.enter id e.name).Knows id c.graph.size)
  rw [entry, runFrom_bind_ok (runFrom_get c), runFrom_bind_ok (runFrom_modify _ c),
    runFrom_bind_ok (runFrom_outcome _ _)]
  revert run known
  rcases runFrom (kind definition e.body) (c.enter id e.name) with ⟨result, c2⟩
  intro run known
  have ext := ext.trans run.grows
  cases result with
  | ok k =>
    obtain ⟨inv, finished⟩ := run.inv.finish he known (run.ok k rfl) way
    refine ⟨ext.trans finished, inv, ?_, by rintro _ ⟨⟩⟩
    rintro _ ⟨⟩
    exact known
  | error cause =>
    have fails : ¬ d.Convertible id := by
      intro convertible
      obtain ⟨_, he', supported⟩ := convertible id .refl
      cases he.symm.trans he'
      exact run.error cause rfl ⟨supported, fun u hu v way => convertible v (.head ⟨e, he, hu⟩ way)⟩
    refine ⟨⟨ext.keeps, fun hn => knows_forget.mpr ⟨?_, ext.known hn⟩⟩,
      run.inv.forget (mt (hd id) fails), by rintro _ ⟨⟩, fun _ _ => fails⟩
    rintro rfl
    exact unknown _ hn

end Steps

/-! ## Conversions -/

section Conversions

variable (hd : ∀ id, TransGen d.Refers id id → d.Convertible id)

include hd

/-- The definitions that are being converted are all different, so they are not more than there are
in the document. -/
theorem convertEntry_converts (depth : Nat) (id : Nat) (way : ∀ p ∈ P, ReflTransGen d.Refers p id)
    (deep : d.entries.size < depth + P.length) : Finds d P (d.convertEntry depth) id := by
  induction depth generalizing P id with
  | zero =>
    intro c inv
    have few := (subperm_of_subset inv.nodup fun p hp =>
      mem_range.mpr (inv.inside p hp)).length_le
    rw [length_range] at few
    omega
  | succ depth ih =>
    intro c inv
    rw [Document.convertEntry, runFrom_bind_ok (runFrom_get c)]
    cases he : d.entries[id]? with
    | none =>
      refine ⟨.refl c, inv, by rintro _ ⟨⟩, fun _ _ convertible => ?_⟩
      obtain ⟨e, he', _⟩ := convertible id .refl
      rw [he] at he'
      cases he'
    | some e =>
      cases hn : c.known.lookup id with
      | some n =>
        refine ⟨.refl c, inv, ?_, by rintro _ ⟨⟩⟩
        rintro _ ⟨⟩
        exact hn
      | none =>
        refine entry_ends hd he way (fun u refers => ih u ?_ ?_) inv fun n known => ?_
        · exact forall_mem_cons.mpr ⟨.single refers, fun p hp => .tail (way p hp) refers⟩
        · rw [length_cons]
          omega
        · rw [Knows, hn] at known
          cases known

theorem convert_converts (t : Option TypeUse) :
    Converts d [] (d.convert t) (d.ConvertibleType t) fun r c => c.type? t = some r :=
  type_converts t fun u _ => convertEntry_converts hd _ u (by simp) (by simp)

def Document.after (d : Document) : List (Option TypeUse) → Converter
  | [] => .empty
  | t :: calls => (runFrom (d.convert t) (d.after calls)).2

theorem inv_after (calls : List (Option TypeUse)) : Inv d [] (d.after calls) := by
  induction calls with
  | nil =>
    have unknown : ∀ {w n}, ¬ Converter.empty.Knows w n := by simp [Knows, Converter.empty]
    exact ⟨fun h => absurd h unknown, by simp, fun h => absurd h unknown,
      fun h => absurd h unknown, .nil, by simp⟩
  | cons t calls ih => exact (convert_converts hd t _ ih).inv

theorem extends_after (calls more : List (Option TypeUse)) :
    (d.after calls).Extends (d.after (more ++ calls)) := by
  induction more with
  | nil => exact .refl _
  | cons t more ih =>
    exact ih.trans (convert_converts hd t _ (inv_after hd (more ++ calls))).grows

theorem convert_ok_iff (inv : Inv d [] c) (t : Option TypeUse) :
    (∃ r, (runFrom (d.convert t) c).1 = .ok r) ↔ d.ConvertibleType t := by
  have run := convert_converts hd t c inv
  constructor
  · rintro ⟨r, hr⟩
    have became := run.ok r hr
    constructor
    · rintro rfl
      cases became
    · rintro u rfl
      obtain ⟨n, hn, _⟩ := type?_entry.mp became
      exact run.inv.convertible hn
  · intro good
    cases hr : (runFrom (d.convert t) c).1 with
    | ok r => exact ⟨r, rfl⟩
    | error e => exact absurd good (run.error e hr)

end Conversions

/-! ## Finished graphs -/

theorem mem_references_kindOf {body : Option Body} {ts : List (Option TypeRef)} {r : Option DefId}
    (h : n ∈ (kindOf ts r body).references) : some (.defn n) ∈ ts ∨ r = some n := by
  have head : ∀ {ts : List (Option TypeRef)}, n ∈ defns (ts.headD none) → some (.defn n) ∈ ts := by
    intro ts h
    cases ts with
    | nil => cases h
    | cons t ts => exact mem_defns.mp h ▸ mem_cons_self
  have parts : ∀ {parts : List Part},
      n ∈ (parts.zipWith (fun p t => (⟨p.name, t⟩ : Member)) ts).flatMap (fun m => defns m.type) →
      some (.defn n) ∈ ts := by
    intro parts h
    obtain ⟨m, hm, hn⟩ := mem_flatMap.mp h
    obtain ⟨i, hi, rfl⟩ := mem_iff_getElem.mp hm
    rw [getElem_zipWith] at hn
    exact mem_defns.mp hn ▸ getElem_mem _
  match body with
  | some (.record _) | some (.variant _) => exact .inl (parts h)
  | some (.tuple _) =>
    obtain ⟨t, ht, hn⟩ := mem_flatMap.mp h
    exact .inl (mem_defns.mp hn ▸ ht)
  | some (.option _) | some (.list _) | some (.future _) | some (.same _) => exact .inl (head h)
  | some (.result _ _) =>
    rcases mem_append.mp h with h | h
    · exact .inl (head h)
    · exact .inl (mem_of_mem_tail (head h))
  | some (.own _) | some (.borrow _) =>
    rcases Option.or_eq_some_iff.mp (Option.mem_toList.mp h) with h | h
    · exact .inl (head (Option.mem_toList.mpr h))
    · exact .inr h.2
  | some (.enum _) | some (.flags _) | some .resource | some (.stream _) | some (.pointer _)
  | none => cases h

/-- Whatever a finished definition refers to is finished. -/
theorem finished_of_path (inv : Inv d [] c) {root : DefId}
    (h : c.type? t = some (some (.defn root))) (way : ReflTransGen c.graph.Uses root n) :
    ∃ k, c.graph.kind? n = some k := by
  have known : (∃ w, c.Knows w n) ∨ c.graph.get? n = some ⟨"", some .resource⟩ := by
    induction way with
    | refl => exact .inl (exists_knows_of_type? h)
    | tail _ uses ih =>
      obtain ⟨k, hk, hn⟩ := uses
      rcases ih with ⟨w, hw⟩ | resource
      · obtain ⟨_, _, _, _, hm, found, ts, r, rfl, became, _, resource⟩ :=
          inv.holds hw not_mem_nil
        rw [hw.unique hm, Graph.kind?, found] at hk
        cases hk
        rcases mem_references_kindOf hn with ht | hr
        · obtain ⟨t, ht⟩ := exists_of_forall₂ became.flip ht
          exact .inl (exists_knows_of_type? ht)
        · exact .inr (resource _ hr)
      · rw [Graph.kind?, resource] at hk
        cases hk
        cases hn
  rcases known with ⟨w, hw⟩ | resource
  · obtain ⟨_, _, _, _, hm, found, _⟩ := inv.holds hw not_mem_nil
    exact ⟨_, by rw [hw.unique hm, Graph.kind?, found]; rfl⟩
  · exact ⟨_, by rw [Graph.kind?, resource]; rfl⟩

/-- **Conversions do not depend on what was converted before**, if no definition that cannot be
converted is on a cycle. After any calls, some of which may have failed, a call succeeds if and only
if it would on a new converter, which is if all that is met from the type on can be converted. What
it returns then is a graph in which all definitions are finished: each definition of the document is
one of the graph, with its name and its kind, and different ones are different. A later call for the
same type returns the same. -/
theorem conversions_independent (hd : ∀ id, TransGen d.Refers id id → d.Convertible id)
    (calls : List (Option TypeUse)) (t : Option TypeUse) :
    ((∃ r, (runFrom (d.convert t) (d.after calls)).1 = .ok r)
      ↔ ∃ r, (runFrom (d.convert t) .empty).1 = .ok r)
    ∧ ((∃ r, (runFrom (d.convert t) .empty).1 = .ok r) ↔ d.ConvertibleType t)
    ∧ ∀ r c, runFrom (d.convert t) (d.after calls) = (.ok r, c) →
      c.type? t = some r
      ∧ (∀ w n, c.Knows w n → Holds d c w)
      ∧ (∀ v w n, c.Knows v n → c.Knows w n → v = w)
      ∧ (∀ root n, r = some (.defn root) → ReflTransGen c.graph.Uses root n →
          ∃ k, c.graph.kind? n = some k)
      ∧ ∀ more, (runFrom (d.convert t) (d.after (more ++ t :: calls))).1 = .ok r := by
  have inv := inv_after hd calls
  have anew := convert_ok_iff hd (inv_after hd []) t
  refine ⟨(convert_ok_iff hd inv t).trans anew.symm, anew, ?_⟩
  intro r c run
  have ends := convert_converts hd t _ inv
  rw [run] at ends
  have became : c.type? t = some r := ends.ok r rfl
  refine ⟨became, fun w n hw => ends.inv.holds hw List.not_mem_nil,
    fun v w n => ends.inv.distinct, ?_, fun more => ?_⟩
  · rintro root n rfl way
    exact finished_of_path ends.inv became way
  · have later := inv_after hd (more ++ t :: calls)
    have known := extends_after hd (t :: calls) more
    rw [Document.after, run] at known
    obtain ⟨r', hr'⟩ := (convert_ok_iff hd later t).mpr
      ((convert_ok_iff hd inv t).mp ⟨r, by rw [run]⟩)
    have again := convert_converts hd t _ later
    have same := type?_mono became fun _ _ _ hn => again.grows.known (known.known hn)
    rw [again.ok r' hr'] at same
    rw [hr', Option.some.inj same]

namespace Chain

/-- Links of a chain, and something that cannot be converted but refers to them. -/
def document : Document where
  entries := #[
    { name := "link", body := some (.record [⟨"next", some (.entry 1)⟩]) },
    { body := some (.option (some (.entry 0))) },
    { name := "broken",
      body := some (.record [⟨"link", some (.entry 0)⟩, ⟨"why", some .errorContext⟩]) }]

theorem refers_le {a b : Nat} (h : document.Refers a b) : b ≤ 1 := by
  obtain ⟨e, he, hb⟩ := h
  match a with
  | 0 | 1 | 2 =>
    cases he
    simp [document, types] at hb
    omega
  | _ + 3 => cases he

theorem convertible_of_cycle (id : Nat) (cycle : TransGen document.Refers id id) :
    document.Convertible id := by
  intro b way
  have small : b ≤ 1 := by
    cases way with
    | refl =>
      obtain ⟨_, _, refers⟩ := TransGen.tail'_iff.mp cycle
      exact refers_le refers
    | tail _ refers => exact refers_le refers
  match b with
  | 0 | 1 => exact ⟨_, rfl, by simp [document, types]⟩

end Chain

theorem conversions_independent_chain :
    ∃ r, (runFrom (Chain.document.convert (some (.entry 1)))
      (Chain.document.after [some (.entry 2)])).1 = .ok r :=
  (conversions_independent Chain.convertible_of_cycle [some (.entry 2)] (some (.entry 1))).1.mpr
    ⟨_, rfl⟩

end CanonicalAbi.Wit
