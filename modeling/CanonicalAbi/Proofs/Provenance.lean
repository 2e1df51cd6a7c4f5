import CanonicalAbi.Proofs.FileReading
import CanonicalAbi.Proofs.Segmentation
import CanonicalAbi.Proofs.Unfolding

/-!
# Where definitions come from

A type is defined after its parts, and nothing is declared before it has been read. So a definition
refers to earlier ones only: to declared ones, and to those that were made for the same type.
-/

namespace CanonicalAbi

open Relation List

namespace Graph

variable {g g' g'' : Graph} {id : DefId}

/-- No definition changed. -/
structure Grows (g g' : Graph) : Prop where
  size : g.size ≤ g'.size
  get : ∀ {id}, id < g.size → g'.get? id = g.get? id

theorem Grows.refl (g : Graph) : g.Grows g := ⟨Nat.le_refl _, fun _ => rfl⟩

theorem Grows.trans (h : g.Grows g') (h' : g'.Grows g'') : g.Grows g'' :=
  ⟨h.size.trans h'.size, fun inside => (h'.get (inside.trans_le h.size)).trans (h.get inside)⟩

theorem size_push (g : Graph) (d : Definition) : (g.push d).size = g.size + 1 :=
  Array.size_push d

theorem Grows.push (g : Graph) (d : Definition) : g.Grows (g.push d) :=
  ⟨by simp [size_push], fun inside => by rw [get?_push, if_neg (Nat.ne_of_lt inside)]⟩

theorem Grows.get_pushed {d : Definition} (h : (g.push d).Grows g') : g'.get? g.size = some d := by
  rw [h.get (by simp [size_push]), get?_push, if_pos rfl]

/-- A definition is finished. It refers to definitions before it, which are declared or made from
`lo` on, and its resource is declared if it is a handle. -/
def Finished (Declared : DefId → Prop) (lo id : DefId) (d : Definition) : Prop :=
  ∃ k, d.kind = some k ∧ (∀ b ∈ k.references, b < id ∧ (Declared b ∨ lo ≤ b))
    ∧ ∀ r, k = .own r ∨ k = .borrow r → ∃ b, r = some b ∧ Declared b

end Graph

namespace Idl

open CanonicalAbi.Graph

variable {ι β γ : Type} {scope : Scope} {g g1 g2 : Graph} {refs : List DefId}

def Scope.Declares (scope : Scope) (id : DefId) : Prop := ∃ name, (name, id) ∈ scope

variable {name : String}

theorem declares_of_lookup {id : DefId} (h : scope.lookup name = some id) :
    scope.Declares id := by
  obtain ⟨before, after, rfl, _⟩ := lookup_eq_some_iff.mp h
  exact ⟨name, by simp⟩

/-! ## Types -/

/-- Anonymous definitions were made for some types, which refer to given definitions. All references
are to declared definitions and to those that were made. -/
structure Made (scope : Scope) (g g' : Graph) (refs : List DefId) : Prop where
  grows : g.Grows g'
  new : ∀ {id d}, g.size ≤ id → g'.get? id = some d →
    d.name = "" ∧ Finished scope.Declares g.size id d
  refs : ∀ b ∈ refs, scope.Declares b ∨ g.size ≤ b ∧ b < g'.size

namespace Made

theorem refl (g : Graph) {l : List DefId} (declared : ∀ b ∈ l, scope.Declares b) :
    Made scope g g l := by
  refine ⟨.refl g, fun hid found => ?_, fun b hb => .inl (declared b hb)⟩
  exact absurd (lt_size_of_get? found) (Nat.not_lt.mpr hid)

theorem trans {refs' : List DefId} (h : Made scope g g1 refs) (h' : Made scope g1 g2 refs') :
    Made scope g g2 (refs ++ refs') := by
  have size := h.grows.size
  refine ⟨h.grows.trans h'.grows, fun {id d} hid found => ?_, fun b hb => ?_⟩
  · rcases Nat.lt_or_ge id g1.size with before | after
    · exact h.new hid ((h'.grows.get before).symm.trans found)
    · obtain ⟨anonymous, k, kind, inside, handle⟩ := h'.new after found
      exact ⟨anonymous, k, kind,
        fun b hb => (inside b hb).imp_right fun known => known.imp_right size.trans, handle⟩
  · rcases mem_append.mp hb with hb | hb
    · exact (h.refs b hb).imp_right fun inside => ⟨inside.1, inside.2.trans_le h'.grows.size⟩
    · exact (h'.refs b hb).imp_right fun inside => ⟨size.trans inside.1, inside.2⟩

theorem define (h : Made scope g g1 refs) (under : ∀ b, scope.Declares b → b < g.size)
    {k : Kind} (hk : k.references = refs)
    (handle : ∀ r, k = .own r ∨ k = .borrow r → ∃ b, r = some b ∧ scope.Declares b) :
    Made scope g (g1.push { kind := some k }) [g1.size] := by
  have size := h.grows.size
  refine ⟨h.grows.trans (.push _ _), fun {id d} hid found => ?_, fun b hb => .inr ?_⟩
  · rw [get?_push] at found
    split at found
    · next eq =>
      cases found
      refine ⟨rfl, k, rfl, fun b hb => ?_, handle⟩
      rcases h.refs b (hk ▸ hb) with declared | inside
      · exact ⟨eq ▸ (under b declared).trans_le size, .inl declared⟩
      · exact ⟨eq ▸ inside.2, .inr inside.1⟩
    · exact h.new hid found
  · rw [mem_singleton.mp hb, size_push]
    exact ⟨size, Nat.lt_succ_self _⟩

end Made

/-- Whatever graph it starts from, a computation makes definitions for some types, and the
references of what it returns have a property. -/
def Makes (scope : Scope) (m : StateM Graph β) (Q : β → List DefId → Prop) : Prop :=
  ∀ g, (∀ b, scope.Declares b → b < g.size) →
    ∃ refs, Q (m.run g).1 refs ∧ Made scope g (m.run g).2 refs

namespace Makes

variable {m : StateM Graph β} {P : β → List DefId → Prop}

theorem pure {v : β} {l : List DefId} (h : P v l) (declared : ∀ b ∈ l, scope.Declares b) :
    Makes scope (pure v) P :=
  fun g _ => ⟨l, h, .refl g declared⟩

theorem bind (h : Makes scope m P) {f : β → StateM Graph γ} {Q : γ → List DefId → Prop}
    (h' : ∀ v refs, P v refs → Makes scope (f v) fun w refs' => Q w (refs ++ refs')) :
    Makes scope (m >>= f) Q := by
  intro g under
  obtain ⟨refs, hv, made⟩ := h g under
  obtain ⟨refs', hw, made'⟩ := h' _ refs hv (m.run g).2 fun b hb =>
    (under b hb).trans_le made.grows.size
  exact ⟨refs ++ refs', hw, made.trans made'⟩

theorem define (h : Makes scope m P) (kind : β → Kind) (hk : ∀ v refs, P v refs →
      (kind v).references = refs
        ∧ ∀ r, kind v = .own r ∨ kind v = .borrow r → ∃ b, r = some b ∧ scope.Declares b) :
    Makes scope (m >>= fun v => define (kind v)) fun t refs => refs = defns t := by
  intro g under
  obtain ⟨refs, hv, made⟩ := h g under
  exact ⟨_, rfl, made.define under (hk _ refs hv).1 (hk _ refs hv).2⟩

end Makes

/-- The definitions made are those the type refers to. -/
abbrev MakesType (scope : Scope) (m : StateM Graph (Option TypeRef)) : Prop :=
  Makes scope m fun t refs => refs = defns t

/-- The definitions made are those the member refers to. -/
abbrev MakesMember (scope : Scope) (m : StateM Graph Member) : Prop :=
  Makes scope m fun v refs => refs = defns v.type

theorem makes_items {meaning : ι → StateM Graph β} {f : β → List DefId} {xs : List ι}
    (h : ∀ x ∈ xs, Makes scope (meaning x) fun v refs => refs = f v) :
    Makes scope (Form.meanings meaning xs) fun vs refs => refs = vs.flatMap f := by
  induction xs with
  | nil => exact .pure rfl nofun
  | cons x xs ih =>
    refine (h x mem_cons_self).bind fun v refs hv =>
      (ih fun y hy => h y (mem_cons_of_mem _ hy)).bind fun vs refs' hvs => ?_
    exact .pure (l := []) (by simp [hv, hvs]) nofun

theorem makes_member {m : StateM Graph (Option TypeRef)} (h : MakesType scope m) (name : String) :
    MakesMember scope (do return ⟨name, ← m⟩) :=
  h.bind fun t refs ht => .pure (l := []) (by simp [ht]) nofun

theorem makes_type (e : TypeExpr) (valid : e.Valid scope) : MakesType scope (e.type scope) := by
  induction e using TypeExpr.induct with | h e ih =>
  have parts : ∀ part ∈ e.parts, MakesType scope (part.type scope) :=
    fun part mem => ih part mem (valid_of_mem_parts mem valid)
  have part? : ∀ t : Option TypeExpr, (∀ part, t = some part → part ∈ e.parts) →
      MakesType scope (type? scope t) := by
    intro t ht
    cases t with
    | none => exact .pure (l := []) rfl (by simp)
    | some part => exact parts part (ht part rfl)
  cases e with
  | named name =>
    refine .pure rfl fun b hb => ?_
    cases found : scope.lookup name with
    | some id =>
      rw [typeNamed, found] at hb
      exact mem_singleton.mp hb ▸ declares_of_lookup found
    | none =>
      obtain ⟨t, builtin⟩ := Option.ne_none_iff_exists'.mp valid.2
      rw [builtin] at hb
      rw [typeNamed, found] at builtin
      obtain ⟨_, _, types, _⟩ := lookup_eq_some_iff.mp builtin
      have none : ∀ p ∈ builtinTypes, defns (some p.2) = [] := by decide
      rw [none (name, t) (by simp [types])] at hb
      cases hb
  | wrapped w elem =>
    refine (part? elem ?_).define (w.kind ·) ?_
    · simp [TypeExpr.parts]
    · rintro t refs rfl
      cases w <;> exact ⟨rfl, by simp [Wrapper.kind]⟩
  | bareResult =>
    exact (Makes.pure (v := ()) (P := fun _ refs => refs = []) rfl (by simp)).define
      (fun _ => .result none none) (by simp [Kind.references, defns])
  | result ok err =>
    have both : Makes scope
        (do let ok ← type? scope ok; let err ← type? scope err; return (ok, err))
        fun p refs => refs = defns p.1 ++ defns p.2 := by
      refine (part? ok (by simp +contextual [TypeExpr.parts])).bind fun t refs ht =>
        (part? err (by simp +contextual [TypeExpr.parts])).bind fun u refs' hu => ?_
      exact .pure (l := []) (by simp [ht, hu]) (by simp)
    have made := both.define (fun p => .result p.1 p.2) (by
      rintro p refs rfl
      exact ⟨rfl, by simp⟩)
    simpa [TypeExpr.type] using made
  | handle form resource =>
    obtain ⟨id, found⟩ := Option.ne_none_iff_exists'.mp valid
    have declared := declares_of_lookup found
    have made := (Makes.pure (v := ()) (P := fun _ refs => refs = [id]) rfl (by simpa)).define
      (fun _ => handleKind (some id) form) (by
        rintro _ _ rfl
        cases form <;> exact ⟨rfl, by simpa [handleKind] using declared⟩)
    rw [TypeExpr.type, found]
    exact made
  | row form types =>
    rw [TypeExpr.type, typesOf_eq]
    refine (makes_items parts).define (form.kind ·) ?_
    rintro ts refs rfl
    cases form <;> exact ⟨rfl, by simp [Row.kind]⟩
  | record fields comma =>
    rw [TypeExpr.type, membersOf_eq]
    refine (makes_items fun f hf =>
      makes_member (parts f.2 (mem_map_of_mem hf)) f.1).define (.record ·) ?_
    rintro ms refs rfl
    exact ⟨rfl, by simp⟩
  | variant cases comma =>
    rw [TypeExpr.type, casesOf_eq]
    have made : ∀ c ∈ cases, MakesMember scope (caseForm.meaning scope c) := by
      rintro ⟨name, _ | t⟩ hc
      · exact .pure (l := []) rfl (by simp)
      · exact makes_member (parts t (mem_filterMap.mpr ⟨_, hc, rfl⟩)) name
    refine (makes_items made).define (.variant ·) ?_
    rintro ms refs rfl
    exact ⟨rfl, by simp⟩
  | names form names comma =>
    refine (Makes.pure (v := names) (P := fun _ refs => refs = []) rfl (by simp)).define
      (form.kind ·) ?_
    rintro ns refs rfl
    cases form <;> exact ⟨rfl, by simp [NameSet.kind]⟩

theorem makes_members {fs : List (String × TypeExpr)} (valid : FieldsValid scope fs) :
    Makes scope (membersOf scope fs) fun ms refs => refs = ms.flatMap fun m => defns m.type := by
  rw [membersOf_eq]
  exact makes_items fun f hf =>
    makes_member (makes_type f.2 ((fieldsValid_iff _ _).mp valid f hf)) f.1

theorem makes_results {r : Results} (valid : r.Valid scope) :
    Makes scope (r.members scope) fun ms refs => refs = ms.flatMap fun m => defns m.type := by
  cases r with
  | nothing => exact .pure rfl nofun
  | single t =>
    exact (makes_type t valid).bind fun v refs hv => .pure (l := []) (by simp [hv]) nofun
  | several fs comma => exact makes_members valid

theorem makes_function {f : FunctionExpr} (valid : f.Valid scope) :
    Makes scope (f.function scope) fun v refs =>
      refs = (v.params ++ v.results).flatMap (fun m => defns m.type)
        ∧ ∀ r ∈ v.resource, scope.Declares r := by
  refine (makes_members valid.params).bind fun ps refs hps =>
    (makes_results valid.results).bind fun rs refs' hrs =>
      .pure (l := []) ⟨by simp [hps, hrs], fun r hr => ?_⟩ nofun
  change r ∈ (membership scope f.name).2 at hr
  rw [membership] at hr
  split at hr
  · cases hr
  · exact declares_of_lookup hr

/-! ## Declarations -/

/-- All that is made for the types of an entry refers to what was declared before the entry and to
what is made for it. -/
def Entry.RefersBack (d : Declarations) : Entry → Prop
  | .semicolon | .resource _ => True
  | .type _ t => Made d.types d.graph ((t.type d.types).run d.graph).2
      (defns ((t.type d.types).run d.graph).1)
  | .function f => Made d.types d.graph ((f.function d.types).run d.graph).2
      (references ((f.function d.types).run d.graph).1)
where
  references (f : Function) : List DefId := (f.params ++ f.results).flatMap fun m => defns m.type

/-- What was declared so far refers to nothing else. -/
structure Closed (d : Declarations) : Prop where
  finished : ∀ {id e}, d.graph.get? id = some e → Finished (Scope.Declares d.types) 0 id e
    ∧ (e.name = "" ∨ (e.name, id) ∈ d.types)
  named : ∀ {name id}, (name, id) ∈ d.types →
    name ≠ "" ∧ ∃ e, d.graph.get? id = some e ∧ e.name = name
  distinct : (d.types.map (·.2)).Nodup
  functions : ∀ f ∈ d.functions, (∀ r ∈ f.resource, Scope.Declares d.types r)
    ∧ ∀ m ∈ f.params ++ f.results, ∀ b ∈ defns m.type, b < d.graph.size

namespace Closed

variable {d : Declarations}

section

variable (h : Closed d)
include h

theorem lt_size (b : DefId) (declared : Scope.Declares d.types b) : b < d.graph.size := by
  obtain ⟨name, mem⟩ := declared
  obtain ⟨_, e, found, _⟩ := h.named mem
  exact lt_size_of_get? found

theorem made {g : Graph} (made : Made d.types d.graph g refs) : Closed { d with graph := g } := by
  refine ⟨fun {id e} found => ?_, fun mem => ?_, h.distinct, fun f hf => ?_⟩
  · rcases Nat.lt_or_ge id d.graph.size with before | after
    · exact h.finished ((made.grows.get before).symm.trans found)
    · obtain ⟨anonymous, k, kind, refs, handle⟩ := made.new after found
      exact ⟨⟨k, kind, fun b hb => ⟨(refs b hb).1, .inr (Nat.zero_le b)⟩, handle⟩, .inl anonymous⟩
  · obtain ⟨nonempty, e, found, named⟩ := h.named mem
    exact ⟨nonempty, e, (made.grows.get (lt_size_of_get? found)).trans found, named⟩
  · obtain ⟨owner, types⟩ := h.functions f hf
    exact ⟨owner, fun m hm b hb => (types m hm b hb).trans_le made.grows.size⟩

theorem declare (nonempty : name ≠ "") {id : DefId} {e : Definition}
    (found : d.graph.get? id = some e) (anonymous : e.name = "") {g : Graph}
    (renamed : ∀ id', g.get? id' = if id' = id then some { e with name } else d.graph.get? id')
    (size : g.size = d.graph.size) :
    Closed { d with graph := g, types := d.types ++ [(name, id)] } := by
  have new : ∀ {name' id'}, (name', id') ∈ d.types → id' ≠ id := by
    rintro name' _ mem rfl
    obtain ⟨nonempty', e', found', named⟩ := h.named mem
    cases found.symm.trans found'
    exact nonempty' (named.symm.trans anonymous)
  have declares : ∀ {b}, Scope.Declares d.types b → Scope.Declares (d.types ++ [(name, id)]) b :=
    fun declared => declared.imp fun _ => mem_append_left _
  have weaker : ∀ {id' e'}, Finished (Scope.Declares d.types) 0 id' e' →
      Finished (Scope.Declares (d.types ++ [(name, id)])) 0 id' e' := by
    rintro id' e' ⟨k, kind, refs, handle⟩
    exact ⟨k, kind, fun b hb => (refs b hb).imp_right fun known => known.imp_left declares,
      fun r hr => (handle r hr).imp fun b hb => ⟨hb.1, declares hb.2⟩⟩
  refine ⟨fun {id' e'} found' => ?_, fun {name' id'} mem => ?_, ?_, fun f hf => ?_⟩
  · rw [renamed] at found'
    split at found'
    · next eq =>
      cases found'
      exact ⟨weaker (eq ▸ (h.finished found).1), .inr (by simp [eq])⟩
    · exact ⟨weaker (h.finished found').1, (h.finished found').2.imp_right (mem_append_left _)⟩
  · rcases mem_append.mp mem with mem | mem
    · obtain ⟨nonempty', e', found', named⟩ := h.named mem
      exact ⟨nonempty', e', by rwa [renamed, if_neg (new mem)], named⟩
    · cases mem_singleton.mp mem
      exact ⟨nonempty, _, (renamed id).trans (if_pos rfl), rfl⟩
  · rw [map_append, nodup_append]
    refine ⟨h.distinct, nodup_singleton _, ?_⟩
    rintro _ mem _ eq rfl
    obtain ⟨p, mem', rfl⟩ := mem_map.mp mem
    exact new mem' (mem_singleton.mp eq)
  · obtain ⟨owner, types⟩ := h.functions f hf
    exact ⟨fun r hr => declares (owner r hr), fun m hm b hb => size ▸ types m hm b hb⟩

theorem push (nonempty : name ≠ "") {g : Graph} (made : Made d.types d.graph g refs) {k : Kind}
    (hk : k.references = refs) (noHandle : ∀ r, ¬ (k = .own r ∨ k = .borrow r)) : Closed { d with
      graph := g.push { name, kind := some k }
      types := d.types ++ [(name, g.nextId)] } := by
  have closed := h.made (made.define h.lt_size hk fun r hr => absurd hr (noHandle r))
  refine closed.declare nonempty (Grows.refl _).get_pushed rfl (fun id => ?_)
    (by simp only [size_push])
  rw [get?_push, get?_push]
  by_cases eq : id = g.size
  · rw [if_pos eq, if_pos eq]
  · rw [if_neg eq, if_neg eq, if_neg eq]

theorem defineNamed (nonempty : name ≠ "") {t : Option TypeRef} {g : Graph}
    (made : Made d.types d.graph g (defns t)) : Closed { d with
      graph := ((defineNamed name t).run g).2
      types := d.types ++ [(name, ((Idl.defineNamed name t).run g).1)] } := by
  have synonym := h.push nonempty made (k := .synonym t) rfl (by simp)
  match t with
  | none | some (.scalar _) | some .string => exact synonym
  | some (.defn id) =>
    have run : (Idl.defineNamed name (some (.defn id))).run g
        = if (g.name id).isEmpty then (id, g.rename id name)
          else (g.nextId, g.push { name, kind := some (.synonym (some (.defn id))) }) := by
      change StateT.run (ite _ _ _) g = _
      split <;> rfl
    rw [run]
    split
    · next anonymous =>
      have inside : id < g.size := by
        rcases made.refs id mem_cons_self with declared | inside
        · exact (h.lt_size id declared).trans_le made.grows.size
        · exact inside.2
      have found : g.get? id = some g.defs[id] := Array.getElem?_eq_getElem inside
      rw [String.isEmpty_iff, Graph.name, found] at anonymous
      refine (h.made made).declare nonempty found anonymous (fun id' => ?_) Array.size_modify
      rw [Graph.rename, Graph.get?, Array.getElem?_modify]
      by_cases eq : id = id'
      · rw [if_pos eq, if_pos eq.symm, ← eq, ← Graph.get?, found]
        rfl
      · rw [if_neg eq, if_neg (Ne.symm eq), Graph.get?]
    · exact synonym

theorem function {f : FunctionExpr} (valid : f.Valid d.types) : Closed { d with
      graph := ((f.function d.types).run d.graph).2
      functions := d.functions ++ [((f.function d.types).run d.graph).1] } := by
  obtain ⟨refs, ⟨rfl, owner⟩, made⟩ := makes_function valid d.graph h.lt_size
  have closed := h.made made
  refine ⟨closed.finished, closed.named, closed.distinct, fun v hv => ?_⟩
  rcases mem_append.mp hv with before | new
  · exact closed.functions v before
  · cases mem_singleton.mp new
    refine ⟨owner, fun m hm b hb => ?_⟩
    rcases made.refs b (mem_flatMap.mpr ⟨m, hm, hb⟩) with declared | inside
    · exact (h.lt_size b declared).trans_le made.grows.size
    · exact inside.2

theorem entry {e : Entry} (valid : e.Valid d) (words : ∀ w, .word w ∈ e.lexemes → w ≠ "") :
    Closed (e.declare d) := by
  cases e with
  | semicolon => exact h
  | resource name =>
    exact h.push (words name (by simp [Entry.lexemes])) (.refl (l := []) d.graph nofun) rfl
      (by simp)
  | type name t =>
    obtain ⟨refs, rfl, made⟩ := makes_type t valid.1 d.graph h.lt_size
    exact h.defineNamed (words name (by simp [Entry.lexemes])) made
  | function f => exact h.function valid.1

theorem refersBack {e : Entry} (valid : e.Valid d) : e.RefersBack d := by
  cases e with
  | semicolon | resource => trivial
  | type name t =>
    obtain ⟨_, rfl, made⟩ := makes_type t valid.1 d.graph h.lt_size
    exact made
  | function f =>
    obtain ⟨_, ⟨rfl, _⟩, made⟩ := makes_function valid.1 d.graph h.lt_size
    exact made

theorem stage {before behind : List Entry} (valid : FileValid d (before ++ behind))
    (words : ∀ w, .word w ∈ (before ++ behind).flatMap Entry.lexemes → w ≠ "") :
    Closed (before.foldl Entry.declare d) ∧ FileValid (before.foldl Entry.declare d) behind := by
  induction before generalizing d with
  | nil => exact ⟨h, valid⟩
  | cons e before ih =>
    refine ih (h.entry valid.1 fun w hw => words w (by simp [hw])) valid.2 fun w hw => ?_
    exact words w (mem_append_right _ hw)

end

end Closed

theorem closed_empty : Closed .empty := by
  refine ⟨fun found => ?_, nofun, .nil, nofun⟩
  cases found

theorem closed_file {text : List Char} {d : Declarations} (h : readDeclarations text = .ok d) :
    ∃ ts file, tokens text = .ok ts ∧ ts.map (·.lexeme) = file.flatMap Entry.lexemes
      ∧ FileValid .empty file ∧ file.foldl Entry.declare .empty = d
      ∧ (∀ before, before <+: file → Closed (before.foldl Entry.declare .empty))
      ∧ ∀ before e, before ++ [e] <+: file → e.RefersBack (before.foldl Entry.declare .empty) := by
  rw [readDeclarations, read_eq_ok_iff] at h
  obtain ⟨ts, scanned, run⟩ := h
  obtain ⟨file, valid, lexemes, declares⟩ := (readTokens_eq_ok_iff ts d).mp run
  have words : ∀ w, .word w ∈ file.flatMap Entry.lexemes → w ≠ "" := fun w hw =>
    (isWord_of_mem_tokens scanned (lexemes ▸ hw)).1
  refine ⟨ts, file, scanned, lexemes, valid, declares,
    fun before part => ?_, fun before e part => ?_⟩
  · obtain ⟨behind, rfl⟩ := part
    exact (closed_empty.stage valid words).1
  · obtain ⟨behind, rfl⟩ := part
    rw [append_assoc] at valid words
    obtain ⟨closed, next⟩ := closed_empty.stage valid words
    exact closed.refersBack next.1

theorem Closed.lt_of_path {d : Declarations} (h : Closed d) {a b : DefId}
    (path : TransGen d.graph.Uses a b) : b < a := by
  have step : ∀ {a b}, d.graph.Uses a b → b < a := by
    rintro a b ⟨k, found, mem⟩
    obtain ⟨e, he, kind⟩ := Option.bind_eq_some_iff.mp found
    obtain ⟨⟨k', kind', refs, _⟩, _⟩ := h.finished he
    cases kind.symm.trans kind'
    exact (refs b mem).1
  induction path with
  | single uses => exact step uses
  | tail _ uses ih => exact (step uses).trans ih

/-- **Declarations are closed and acyclic.** After each entry of a file that is read, and after a
function that is read against the file, all definitions are finished and refer to earlier ones only,
a declared name is the name of its definition, no two names share one, all other definitions are
anonymous, and handles are handles of declared resources. What is made for each entry, for the
function and for any type refers to what was declared before and to what is made for that same one.
So there are no cycles. -/
theorem declarations_closed :
    (∀ {text : List Char} {d : Declarations}, readDeclarations text = .ok d →
      ∃ ts file, tokens text = .ok ts ∧ ts.map (·.lexeme) = file.flatMap Entry.lexemes
        ∧ FileValid .empty file ∧ file.foldl Entry.declare .empty = d
        ∧ (∀ before, before <+: file → Closed (before.foldl Entry.declare .empty))
        ∧ ∀ before e, before ++ [e] <+: file → e.RefersBack (before.foldl Entry.declare .empty))
    ∧ (∀ {text sig : List Char} {d : Declarations} {f : Function} {g : Graph},
      readDeclarations text = .ok d → readFunction d sig = .ok (f, g) →
      Closed { d with graph := g, functions := d.functions ++ [f] }
        ∧ Made d.types d.graph g (Entry.RefersBack.references f))
    ∧ (∀ {scope : Scope} {e : TypeExpr} {g : Graph}, e.Valid scope →
      (∀ b, scope.Declares b → b < g.size) →
      Made scope g ((e.type scope).run g).2 (defns ((e.type scope).run g).1))
    ∧ ∀ {d : Declarations}, Closed d →
      (∀ id, ¬ TransGen d.graph.Uses id id) ∧ d.graph.Acyclic := by
  refine ⟨closed_file, fun read run => ?_, fun valid under => ?_, fun {d} closed => ?_⟩
  · obtain ⟨ts, entries, _, _, _, rfl, closed, _⟩ := closed_file read
    obtain ⟨ts', scanned, e, valid, lexemes, means⟩ := (readFunction_eq_ok_iff _ _ _ _).mp run
    have whole := closed entries List.prefix_rfl
    obtain ⟨_, ⟨rfl, _⟩, made⟩ := makes_function valid _ whole.lt_size
    have added := whole.function valid
    rw [means] at added made
    exact ⟨added, made⟩
  · obtain ⟨_, rfl, made⟩ := makes_type _ valid _ under
    exact made
  · have noCycle : ∀ id, ¬ TransGen d.graph.Uses id id := fun id path =>
      Nat.lt_irrefl id (closed.lt_of_path path)
    exact ⟨noCycle, fun id path => noCycle id (.mono (fun _ _ h => h.uses) _ _ path)⟩

theorem declarations_closed_archive :
    ∃ d f g, readDeclarations "resource a; type b = own<a>; f: func(x: list<b>)".toList = .ok d
      ∧ readFunction d "g: func() -> option<borrow<a>>".toList = .ok (f, g)
      ∧ Closed d ∧ Closed { d with graph := g, functions := d.functions ++ [f] }
      ∧ Made [] .empty (((TypeExpr.wrapped .list (some (.named "u8"))).type []).run .empty).2 [0]
      ∧ d.graph.Acyclic := by
  have reads : (readDeclarations "resource a; type b = own<a>; f: func(x: list<b>)".toList
      |>.toOption.any fun d => (readFunction d "g: func() -> option<borrow<a>>".toList
        |>.toOption.isSome)) = true := by
    decide +kernel
  cases read : readDeclarations "resource a; type b = own<a>; f: func(x: list<b>)".toList with
  | error =>
    rw [read] at reads
    cases reads
  | ok d =>
    rw [read] at reads
    change (readFunction d _).toOption.isSome = true at reads
    cases run : readFunction d "g: func() -> option<borrow<a>>".toList with
    | error =>
      rw [run] at reads
      cases reads
    | ok v =>
      obtain ⟨_, file, _, _, _, rfl, closed, _⟩ := declarations_closed.1 read
      have whole := closed file List.prefix_rfl
      exact ⟨_, v.1, v.2, rfl, run, whole, (declarations_closed.2.1 read run).1,
        declarations_closed.2.2.1 ⟨by decide, by decide⟩ nofun,
        (declarations_closed.2.2.2 whole).2⟩

end Idl

end CanonicalAbi
