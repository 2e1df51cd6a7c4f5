import CanonicalAbi.Layout.Calculator
import CanonicalAbi.Proofs.Shapes
import CanonicalAbi.Proofs.Unfolding

/-!
# Remembered layouts

A calculator that serves one graph remembers the layouts of definitions as they are. This is kept by
every calculation, also by one that fails on the way, so whatever was calculated before, each answer
is the one that the shape alone gives.
-/

namespace CanonicalAbi

namespace Calculator

variable {g : Graph} {α β : Type}

/-- The calculator remembers only layouts that the definitions of the graph have. -/
def Recalls (c : Calculator) (g : Graph) : Prop :=
  ∀ id l, c.known[id]? = some l → (g.shapes.shape (.defn id)).layout = .ok l

theorem empty_recalls (g : Graph) : empty.Recalls g := by
  intro id l h
  simp [empty] at h

/-- After any calculations for the graph, the work ends with the answer and remembers nothing wrong.
-/
def Answers (g : Graph) (work : Calculation α) (answer : Except Failure α) : Prop :=
  ∀ c : Calculator, c.Recalls g → ∃ c' : Calculator, work.run.run c = (answer, c') ∧ c'.Recalls g

/-! ## Putting calculations together -/

theorem answers_pure (g : Graph) (a : α) : Answers g (pure a) (.ok a) := fun c hc => ⟨c, rfl, hc⟩

theorem answers_throw (g : Graph) (e : Failure) : Answers g (throw e : Calculation α) (.error e) :=
  fun c hc => ⟨c, rfl, hc⟩

theorem Answers.bind {work : Calculation α} {answer : Except Failure α} {rest : α → Calculation β}
    {answers : α → Except Failure β} (h : Answers g work answer)
    (hrest : ∀ a, Answers g (rest a) (answers a)) :
    Answers g (work >>= rest) (answer >>= answers) := by
  intro c hc
  obtain ⟨c', run, hc'⟩ := h c hc
  have step : (work >>= rest).run.run c
      = (match answer with
        | .ok a => (rest a).run.run c'
        | .error e => (.error e, c')) := by
    simp only [ExceptT.run_bind, StateT.run_bind, run]
    cases answer <;> rfl
  rw [step]
  cases answer with
  | error e => exact ⟨c', rfl, hc'⟩
  | ok a => exact hrest a c' hc'

theorem Answers.map {work : Calculation α} {answer : Except Failure α} (h : Answers g work answer)
    (f : α → β) : Answers g (do return f (← work)) (do return f (← answer)) :=
  h.bind fun a => answers_pure g (f a)

theorem remember_run (l : Label) (work : Calculation Layout) (c : Calculator) :
    (remember l work).run.run c
      = match c.known[l.id]? with
        | some layout => (.ok layout, c)
        | none => match work.run.run c with
          | (.ok layout, c') => (.ok layout, { known := c'.known.insert l.id layout })
          | (.error e, c') => (.error e, c') := by
  have looked : (remember l work).run.run c
      = (match c.known[l.id]? with
          | some layout => pure layout
          | none => do
            let layout ← work
            modify fun c => { known := c.known.insert l.id layout }
            return layout : Calculation Layout).run.run c := rfl
  rw [looked]
  cases c.known[l.id]? with
  | some layout => rfl
  | none =>
    simp only [ExceptT.run_bind, StateT.run_bind]
    obtain ⟨answer, c'⟩ := work.run.run c
    cases answer <;> rfl

/-- Remembering the layout of a shape of the graph under its label does not change the answer. -/
theorem Answers.remember (hg : g.Acyclic) {t : TypeRef} {s : Shape} (hs : g.shapes.shape t = s)
    {l : Label} (hl : s.label? = some l) {work : Calculation Layout}
    (h : Answers g work s.layout) : Answers g (remember l work) s.layout := by
  have named : g.shapes.shape (.defn l.id) = s := by
    rw [← Graph.shape_label hg (t := t) (hs ▸ hl), hs]
  intro c hc
  rw [remember_run]
  cases hknown : c.known[l.id]? with
  | some layout => exact ⟨c, by rw [← named, hc l.id layout hknown], hc⟩
  | none =>
    obtain ⟨c', run, hc'⟩ := h c hc
    rw [run]
    cases hlayout : s.layout with
    | error e => exact ⟨c', rfl, hc'⟩
    | ok layout =>
      refine ⟨_, rfl, fun id known hid => ?_⟩
      rw [Std.HashMap.getElem?_insert] at hid
      split at hid
      · next same =>
        obtain rfl := Option.some.inj hid
        rw [← eq_of_beq same, named, hlayout]
      · exact hc' id known hid

/-! ## Calculating -/

theorem answers_layout? {part : Option Shape}
    (h : ∀ s, part = some s → Answers g (layout s) s.layout) :
    Answers g (layout? part) (optLayout part) := by
  cases part with
  | none => exact answers_throw g _
  | some s => exact h s rfl

theorem answers_fieldLayouts {fields : Parts}
    (h : ∀ s, some s ∈ fields → Answers g (layout s) s.layout) :
    Answers g (fieldLayouts fields) (CanonicalAbi.fieldLayouts fields) := by
  induction fields with
  | nil => exact answers_pure g []
  | cons f fs ih =>
    have first := answers_layout? fun s hs => h s (hs ▸ List.mem_cons_self)
    have rest := ih fun s hs => h s (List.mem_cons_of_mem _ hs)
    exact first.bind fun layout => rest.map (layout :: ·)

theorem answers_payloadLayouts {payloads : Parts}
    (h : ∀ s, some s ∈ payloads → Answers g (layout s) s.layout) :
    Answers g (payloadLayouts payloads) (CanonicalAbi.payloadLayouts payloads) := by
  induction payloads with
  | nil => exact answers_pure g []
  | cons p ps ih =>
    have rest := ih fun s hs => h s (List.mem_cons_of_mem _ hs)
    cases p with
    | none => exact rest
    | some s =>
      exact (h s List.mem_cons_self).bind fun layout => rest.map (layout :: ·)

theorem answers_shape (hg : g.Acyclic) (t : TypeRef) :
    Answers g (layout (g.shapes.shape t)) (g.shapes.shape t).layout := by
  generalize hs : g.shapes.shape t = s
  induction s generalizing t with
  | scalar | string => exact answers_pure g _
  | product l form fields ih =>
    refine .remember hg hs rfl (Answers.map (answers_fieldLayouts fun p hp => ?_) _)
    obtain ⟨u, hu⟩ := Graph.exists_shape_of_mem_parts hg (t := t) (by rw [hs]; exact hp)
    exact ih p hp u hu
  | sum l form payloads ih =>
    refine .remember hg hs rfl (Answers.map (answers_payloadLayouts fun p hp => ?_) _)
    obtain ⟨u, hu⟩ := Graph.exists_shape_of_mem_parts hg (t := t) (by rw [hs]; exact hp)
    exact ih p hp u hu
  | enum | flags | list | handle | channel => exact .remember hg hs rfl (answers_pure g _)
  | synonym l target ih =>
    refine .remember hg hs rfl (answers_layout? ?_)
    rintro p rfl
    have hp : some p ∈ (g.shapes.shape t).parts := by simp [hs, Shape.parts]
    obtain ⟨u, hu⟩ := Graph.exists_shape_of_mem_parts hg hp
    exact ih p rfl u hu
  | resource | unfinished => exact .remember hg hs rfl (answers_throw g _)

theorem answers_type (hg : g.Acyclic) (t : Option TypeRef) :
    Answers g (layout? (g.shapes.shape? t)) (optLayout (g.shapes.shape? t)) := by
  refine answers_layout? fun s hs => ?_
  obtain ⟨u, rfl⟩ := ShapeTable.exists_shape_of_shape? hs
  exact answers_shape hg u

theorem answers_of_mem (hg : g.Acyclic) {ts : List (Option TypeRef)} {s : Shape}
    (h : some s ∈ ts.map g.shapes.shape?) : Answers g (layout s) s.layout := by
  obtain ⟨t, _, ht⟩ := List.mem_map.mp h
  obtain ⟨u, rfl⟩ := ShapeTable.exists_shape_of_shape? ht
  exact answers_shape hg u

theorem answers_product (hg : g.Acyclic) (ts : List (Option TypeRef)) :
    Answers g (product (ts.map g.shapes.shape?))
      (do return .product (← CanonicalAbi.fieldLayouts (ts.map g.shapes.shape?))) :=
  (answers_fieldLayouts fun _ hs => answers_of_mem hg hs).map _

theorem answers_sum (hg : g.Acyclic) (tag : IntWidth) (ts : List (Option TypeRef)) :
    Answers g (sum tag (ts.map g.shapes.shape?))
      (do return .sum tag (← CanonicalAbi.payloadLayouts (ts.map g.shapes.shape?))) :=
  (answers_payloadLayouts fun _ hs => answers_of_mem hg hs).map _

end Calculator

end CanonicalAbi
