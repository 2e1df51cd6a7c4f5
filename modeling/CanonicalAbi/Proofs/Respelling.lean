import CanonicalAbi.Proofs.Provenance
import Mathlib.Data.List.Forall2

/-!
# Spellings are read back

What the spelling of a function is read as. For each part of a declaration there is one of the same
meaning that is written like the spelling of that meaning: it has no comma behind the last item, and
it leaves out what need not be written.
-/

namespace CanonicalAbi

open List

namespace Graph

/-- Every channel is one of a type. -/
def ChannelsTyped (g : Graph) : Prop :=
  ∀ id, g.kind? id ≠ some (.future none) ∧ g.kind? id ≠ some (.stream none)

end Graph

namespace Idl

variable {ι β : Type}

/-! ## Written texts -/

def endsType (c : Char) : Bool := !isWordChar c

/-- What may follow a name: nothing that makes an arrow of its end. -/
def endsName (c : Char) : Bool := !isWordChar c && c != '>'

/-- A text in which lexemes are written, if something permitted follows it. -/
def Written (ends : Char → Bool) (ls : List Lexeme) (s : String) : Prop :=
  ∀ ⦃rest cs⦄, Renders rest cs → (∀ c ∈ cs.head?, ends c) → Renders (ls ++ rest) (s.toList ++ cs)

/-- The lexemes are written in the text, whatever follows it. -/
abbrev Whole : List Lexeme → String → Prop := Written fun _ => true

/-- The brackets around a list. -/
inductive Brackets where
  | angles
  | braces
  | parens

namespace Brackets

def opening : Brackets → Char × String
  | angles => ('<', "<")
  | braces => ('\x7b', " \x7b ")
  | parens => ('(', "(")

def closing : Brackets → Char × String
  | angles => ('>', ">")
  | braces => ('\x7d', " \x7d")
  | parens => (')', ")")

/-- What may follow a part: a comma or what closes the brackets. -/
def ends : Brackets → Char → Bool
  | angles => endsType
  | braces | parens => endsName

end Brackets

variable {xs : List ι}

section Written

variable {ends ends' : Char → Bool} {ls ls' : List Lexeme} {s s' w : String}

theorem written_name (hw : IsWord w) : Written endsName [.word w] w :=
  fun _ _ h ends => .word hw (fun c hc => by have := ends c hc; simp_all [endsName]) h

theorem written_word (hw : IsWord w ∧ w.toList.getLast? ≠ some '-') :
    Written endsType [.word w] w :=
  fun _ _ h ends => .word hw.1 (fun c hc => ⟨by simpa [endsType] using ends c hc, fun _ => hw.2⟩) h

theorem endsType_of_endsName {c : Char} (h : endsName c) : endsType c :=
  (Bool.and_eq_true_iff.mp h).1

theorem Written.append (h : Written ends ls s) (h' : Written ends' ls' s')
    (first : (∀ c, ends c) ∨ ∃ c ∈ s'.toList.head?, ends c) :
    Written ends' (ls ++ ls') (s ++ s') := by
  intro rest cs hr after
  rw [String.toList_append, append_assoc, append_assoc]
  refine h (h' hr after) fun c hc => ?_
  obtain all | ⟨c', hc', permitted⟩ := first
  · exact all c
  · rw [head?_append, Option.mem_def.mp hc'] at hc
    cases hc
    exact permitted

theorem Written.weaken (h : Written ends ls s) (weaker : ∀ {c}, ends' c → ends c) :
    Written ends' ls s :=
  fun _ _ rest after => h rest fun c hc => weaker (after c hc)

theorem whole_colon : Whole [.mark ':'] ": " := fun _ _ h _ => .mark (by decide) (.blank h)

theorem whole_comma : Whole [.mark ','] ", " := fun _ _ h _ => .mark (by decide) (.blank h)

theorem whole_opening (b : Brackets) : Whole [.mark b.opening.1] b.opening.2 := by
  cases b with
  | angles | parens => exact fun _ _ h _ => .mark (by decide) h
  | braces => exact fun _ _ h _ => .blank (.mark (by decide) (.blank h))

theorem whole_closing (b : Brackets) : Whole [.mark b.closing.1] b.closing.2 := by
  cases b with
  | angles | parens => exact fun _ _ h _ => .mark (by decide) h
  | braces => exact fun _ _ h _ => .blank (.mark (by decide) h)

theorem whole_head (b : Brackets) (hw : IsWord w ∧ w.toList.getLast? ≠ some '-') :
    Whole [.word w, .mark b.opening.1] (w ++ b.opening.2) :=
  (written_word hw).append (whole_opening b) (.inr (by cases b <;> exact ⟨_, rfl, by decide⟩))

theorem whole_sequence (b : Brackets) {p : ι → List Lexeme} {t : β → String}
    {vs : List β} (h : Forall₂ (fun x v => Written b.ends (p x) (t v)) xs vs) :
    Whole (separated false (xs.map p) ++ [.mark b.closing.1])
      (commas (vs.map t) ++ b.closing.2) := by
  induction h with
  | nil => simpa [separated, commas] using whole_closing b
  | cons first rest ih =>
    cases rest with
    | nil =>
      have whole := first.append (whole_closing b)
        (.inr (by cases b <;> exact ⟨_, rfl, by decide⟩))
      simpa [separated, commas] using whole
    | cons =>
      have more := whole_comma.append ih (.inl fun _ => rfl)
      have whole := first.append more
        (.inr ⟨',', by rw [String.toList_append]; rfl, by cases b <;> decide⟩)
      simpa [separated, commas, String.append_assoc] using whole

theorem written_listed (b : Brackets) (hw : IsWord w ∧ w.toList.getLast? ≠ some '-')
    {p : ι → List Lexeme} {t : β → String} {vs : List β}
    (h : Forall₂ (fun x v => Written b.ends (p x) (t v)) xs vs) :
    Written endsType
      (.word w :: .mark b.opening.1 :: (separated false (xs.map p) ++ [.mark b.closing.1]))
      (w ++ b.opening.2 ++ commas (vs.map t) ++ b.closing.2) := by
  have whole := (whole_head b hw).append (whole_sequence b h) (.inl fun _ => rfl)
  rw [← String.append_assoc] at whole
  exact whole.weaken fun _ => rfl

end Written

/-! ## Types -/

/-- Whatever graph it starts from, a computation adds definitions, and what it returns has a
property once they can be spelled: in every later graph, to any depth that reaches them. -/
def Spells (m : StateM Graph β) (P : (TypeRef → String) → β → Prop) : Prop :=
  ∀ g, g.Grows (m.run g).2 ∧ ∀ {g2 fuel}, (m.run g).2.Grows g2 → g2.ChannelsTyped →
    (m.run g).2.size ≤ fuel → P (g2.spellingWithin fuel) (m.run g).1

namespace Spells

variable {m : StateM Graph β} {P : (TypeRef → String) → β → Prop}

theorem pure {v : β} (h : ∀ spell, P spell v) : Spells (pure v) P :=
  fun g => ⟨.refl g, fun _ _ _ => h _⟩

theorem bind {γ : Type} {f : β → StateM Graph γ} {Q : (TypeRef → String) → γ → Prop}
    (h : Spells m P) (h' : ∀ v, Spells (f v) fun spell w => P spell v → Q spell w) :
    Spells (m >>= f) Q := by
  intro g
  obtain ⟨grows, before⟩ := h g
  obtain ⟨grows', after⟩ := h' (m.run g).1 (m.run g).2
  exact ⟨grows.trans grows', fun hg typed size =>
    after hg typed size (before (grows'.trans hg) typed (Nat.le_trans grows'.size size))⟩

theorem mono (h : Spells m P) {Q : (TypeRef → String) → β → Prop}
    (weaker : ∀ spell v, P spell v → Q spell v) : Spells m Q :=
  fun g => ⟨(h g).1, fun hg typed size => weaker _ _ ((h g).2 hg typed size)⟩

end Spells

def TypeWritten (e : TypeExpr) (spell : TypeRef → String) (t : Option TypeRef) : Prop :=
  ∃ ref, t = some ref ∧ Written endsType e.lexemes (spell ref)

theorem Spells.define {m : StateM Graph β} {P : (TypeRef → String) → β → Prop} (h : Spells m P)
    (kind : β → Kind) {e : TypeExpr} (text : ∀ spell name v, P spell v →
      kind v ≠ .future none ∧ kind v ≠ .stream none →
      Written endsType e.lexemes ((kind v).spelling spell name)) :
    Spells (m >>= fun v => define (kind v)) (TypeWritten e) := by
  intro g
  obtain ⟨grows, spelled⟩ := h g
  have pushed := Graph.Grows.push (m.run g).2 { kind := some (kind (m.run g).1) }
  refine ⟨grows.trans pushed, fun {g2 fuel} hg typed size => ⟨.defn (m.run g).2.nextId, rfl, ?_⟩⟩
  have size : (m.run g).2.size + 1 ≤ fuel := Graph.size_push _ _ ▸ size
  obtain ⟨fuel, rfl⟩ : ∃ n, fuel = n + 1 := ⟨fuel - 1, by omega⟩
  have found : g2.get? (m.run g).2.nextId = some { kind := some (kind (m.run g).1) } :=
    hg.get_pushed
  have typed' := typed (m.run g).2.nextId
  rw [Graph.kind?, found] at typed'
  rw [Graph.spellingWithin, found]
  exact text _ _ _ (spelled (pushed.trans hg) typed (by omega))
    ⟨fun eq => typed'.1 (congrArg some eq), fun eq => typed'.2 (congrArg some eq)⟩

/-- Something of a form means the same as another, and is written as that meaning is spelled. -/
structure Respells (F : Form ι β) (W : ι → (TypeRef → String) → β → Prop) (x x' : ι) : Prop where
  valid : F.Valid [] x'
  meaning : F.meaning [] x' = F.meaning [] x
  spells : Spells (F.meaning [] x) (W x')

/-- A type, and how what it means is spelled. -/
abbrev RespellsType : TypeExpr → TypeExpr → Prop := Respells typeForm TypeWritten

theorem word_mem_separated {F : Form ι β} {x : ι} (hx : x ∈ xs) (comma : Bool)
    {w : String} (hw : .word w ∈ F.lexemes x) : .word w ∈ separated comma (xs.map F.lexemes) := by
  obtain ⟨before, behind, eq⟩ := exists_separated_eq (mem_map_of_mem (f := F.lexemes) hx) comma
  simp [eq, hw]

theorem exists_respells_items {F : Form ι β} {W : ι → (TypeRef → String) → β → Prop}
    (h : ∀ x ∈ xs, ∃ x', Respells F W x x') :
    ∃ xs', (∀ x ∈ xs', F.Valid [] x)
      ∧ Form.meanings (F.meaning []) xs' = Form.meanings (F.meaning []) xs
      ∧ Spells (Form.meanings (F.meaning []) xs)
        fun spell vs => Forall₂ (W · spell) xs' vs := by
  induction xs with
  | nil => exact ⟨[], nofun, rfl, .pure fun _ => .nil⟩
  | cons x xs ih =>
    obtain ⟨x', hx⟩ := h x mem_cons_self
    obtain ⟨xs', valid, means, spells⟩ := ih fun y hy => h y (mem_cons_of_mem _ hy)
    refine ⟨x' :: xs', forall_mem_cons.mpr ⟨hx.valid, valid⟩, ?_, ?_⟩
    · rw [Form.meanings, Form.meanings, hx.meaning, means]
    · exact hx.spells.bind fun v => spells.bind fun vs => .pure fun _ rest first => .cons first rest

variable {spell : TypeRef → String}

theorem TypeWritten.written {e : TypeExpr} {t : Option TypeRef}
    (h : TypeWritten e spell t) : Written endsType e.lexemes (orHole spell t) := by
  obtain ⟨ref, rfl, written⟩ := h
  exact written

/-- Fields, and how the members they mean are spelled. -/
abbrev RespellsFields (fs fs' : List (String × TypeExpr)) : Prop :=
  Respells paramsForm (fun p spell ms => Forall₂ (fun m f => m.name ≠ "" ∧
    Written endsName (fieldForm.lexemes f) (m.spelling spell)) ms p.1) (fs, false) (fs', false)

variable {fs : List (String × TypeExpr)}

theorem exists_respells_fields (comma : Bool)
    (words : ∀ w, .word w ∈ separated comma (fieldPieces fs) → IsWord w)
    (h : ∀ f ∈ fs, ∃ t', RespellsType f.2 t') : ∃ fs', RespellsFields fs fs' := by
  have items : ∀ f ∈ fs, ∃ f', Respells fieldForm (fun f spell m => m.name ≠ "" ∧
      Written endsName (fieldForm.lexemes f) (m.spelling spell)) f f' := by
    intro f hf
    obtain ⟨t', h⟩ := h f hf
    have same : t'.type [] = f.2.type [] := h.meaning
    have word : IsWord f.1 := words f.1 (by
      rw [fieldPieces_eq]
      exact word_mem_separated hf comma mem_cons_self)
    refine ⟨(f.1, t'), h.valid, congrArg (· >>= _) same,
      h.spells.bind fun t => .pure fun spell written => ⟨word.1, ?_⟩⟩
    have whole := (written_name word).append
      (whole_colon.append written.written (.inl fun _ => rfl))
      (.inr ⟨':', by rw [String.toList_append]; rfl, by decide⟩)
    rw [← String.append_assoc] at whole
    exact whole.weaken endsType_of_endsName
  obtain ⟨fs', valid, means, spells⟩ := exists_respells_items items
  rw [← membersOf_eq, ← membersOf_eq] at means
  rw [← membersOf_eq] at spells
  exact ⟨fs', (fieldsValid_iff _ _).mpr valid, means, spells.mono fun _ _ h => h.flip⟩

/-- A case, and how the member it means is spelled. -/
abbrev RespellsCase : String × Option TypeExpr → String × Option TypeExpr → Prop :=
  Respells caseForm fun c spell m => Written endsName (caseForm.lexemes c) (m.caseSpelling spell)

theorem exists_respells_case {c : String × Option TypeExpr} (hw : IsWord c.1)
    (h : ∀ t, c.2 = some t → ∃ t', RespellsType t t') : ∃ c', RespellsCase c c' := by
  obtain ⟨name, _ | t⟩ := c
  · exact ⟨(name, none), nofun, rfl, .pure fun _ => written_name hw⟩
  · obtain ⟨t', h⟩ := h t rfl
    have same : t'.type [] = t.type [] := h.meaning
    refine ⟨(name, some t'), fun _ eq => Option.some.inj eq ▸ h.valid,
      congrArg (· >>= _) same, ?_⟩
    refine h.spells.bind fun t => .pure fun spell written => ?_
    obtain ⟨ref, rfl, written⟩ := written
    have inner := written.append (whole_closing .parens) (.inr ⟨')', rfl, by decide⟩)
    have whole := (written_name hw).append
      ((whole_opening .parens).append inner (.inl fun _ => rfl))
      (.inr ⟨'(', by rw [String.toList_append]; rfl, by decide⟩)
    rw [← String.append_assoc, ← String.append_assoc] at whole
    exact whole.weaken fun _ => rfl

theorem exists_respells_named {name : String} (valid : (TypeExpr.named name).Valid []) :
    ∃ e', RespellsType (.named name) e' := by
  obtain ⟨t, found⟩ := Option.ne_none_iff_exists'.mp valid.2
  obtain ⟨before, after, types, _⟩ :=
    lookup_eq_some_iff.mp (show builtinTypes.lookup name = some t from found)
  -- The name by which a type is spelled may differ from the one that was read.
  let word := Graph.empty.spellingWithin 0 t
  have names : ∀ p ∈ builtinTypes, Graph.empty.spellingWithin 0 p.2 ∉ keywords
      ∧ typeNamed [] (Graph.empty.spellingWithin 0 p.2) = some p.2
      ∧ IsWord (Graph.empty.spellingWithin 0 p.2)
      ∧ (Graph.empty.spellingWithin 0 p.2).toList.getLast? ≠ some '-' := by decide
  obtain ⟨ordinary, same, hw⟩ := names (name, t) (by simp [types])
  refine ⟨.named word, ⟨ordinary, by rw [same]; nofun⟩,
    by simp only [typeForm, TypeExpr.type, same, found, word],
    fun g => ⟨.refl g, fun {g2 fuel} _ _ _ => ⟨t, found, ?_⟩⟩⟩
  have spelled : g2.spellingWithin fuel t = word := by
    cases t with
    | scalar | string => simp [Graph.spellingWithin, word]
    | defn id => cases show none = _ from same
  rw [spelled]
  exact written_word hw

theorem respells_bareResult : RespellsType .bareResult .bareResult := by
  refine ⟨trivial, rfl, ?_⟩
  exact (Spells.pure (v := ()) (P := fun _ _ => True) fun _ => trivial).define
    (fun _ => .result none none) fun _ _ _ _ _ => written_word (by decide)

theorem exists_respells_result {ok err : Option TypeExpr}
    (hok : ∀ t, ok = some t → ∃ t', RespellsType t t')
    (herr : ∀ t, err = some t → ∃ t', RespellsType t t') :
    ∃ e', RespellsType (.result ok err) e' := by
  have result : IsWord "result" ∧ "result".toList.getLast? ≠ some '-' := by decide
  have named {t : TypeExpr} (h : t.Valid []) : t ≠ .named "_" := by
    rintro rfl
    exact h.2 rfl
  cases ok with
  | none =>
    cases err with
    | none =>
      exact ⟨_, respells_bareResult.valid, rfl, respells_bareResult.spells⟩
    | some err =>
      obtain ⟨err', h⟩ := herr err rfl
      have same : err'.type [] = err.type [] := h.meaning
      refine ⟨.result none (some err'), h.valid,
        by simp only [typeForm, TypeExpr.type, type?, same],
        h.spells.define (fun e => .result none e) fun spell name v written _ => ?_⟩
      obtain ⟨ref, rfl, written⟩ := written
      have whole := written_listed (p := id) (t := id) .angles result
        (.cons (written_word (w := "_") (by decide)) (.cons written .nil))
      simpa [TypeExpr.lexemes, separated, Kind.spelling, commas, orHole, Brackets.opening,
        Brackets.closing, ← String.append_assoc] using whole
  | some ok =>
    obtain ⟨ok', hok⟩ := hok ok rfl
    have same : ok'.type [] = ok.type [] := hok.meaning
    cases err with
    | none =>
      refine ⟨.result (some ok') none, ⟨named hok.valid, hok.valid⟩,
        by simp only [typeForm, TypeExpr.type, type?, same],
        hok.spells.define (fun t => .result t none) fun spell name v written _ => ?_⟩
      obtain ⟨ref, rfl, written⟩ := written
      have whole := written_listed (p := id) (t := id) .angles result (.cons written .nil)
      simpa [TypeExpr.lexemes, separated, Kind.spelling, commas, orHole, Brackets.opening,
        Brackets.closing, ← String.append_assoc] using whole
    | some err =>
      obtain ⟨err', herr⟩ := herr err rfl
      have same' : err'.type [] = err.type [] := herr.meaning
      have both : Spells (do let ok ← ok.type []; let err ← err.type []; return (ok, err))
          fun spell p => TypeWritten ok' spell p.1 ∧ TypeWritten err' spell p.2 :=
        hok.spells.bind fun _ => herr.spells.bind fun _ => .pure fun _ right left => ⟨left, right⟩
      refine ⟨.result (some ok') (some err'), ⟨named hok.valid, hok.valid, herr.valid⟩,
        by simp only [typeForm, TypeExpr.type, type?, same, same'], ?_⟩
      have spells := both.define (e := .result (some ok') (some err')) (fun p => .result p.1 p.2)
        fun spell name v written _ => ?_
      · simpa [typeForm, TypeExpr.type, type?] using spells
      · obtain ⟨_, _⟩ := v
        obtain ⟨⟨ref, rfl, written⟩, ⟨ref', rfl, written'⟩⟩ := written
        have whole := written_listed (p := id) (t := id) .angles result
          (.cons written (.cons written' .nil))
        simpa [TypeExpr.lexemes, separated, Kind.spelling, commas, orHole, Brackets.opening,
          Brackets.closing, ← String.append_assoc] using whole

theorem exists_respells_type (e : TypeExpr) (valid : e.Valid [])
    (words : ∀ w, .word w ∈ e.lexemes → IsWord w) : ∃ e', RespellsType e e' := by
  induction e using TypeExpr.induct with | h e ih =>
  have parts : ∀ part ∈ e.parts, ∃ part', RespellsType part part' := by
    intro part mem
    obtain ⟨first, before, behind, lexemes⟩ := exists_lexemes_eq_of_mem_parts mem
    exact ih part mem (valid_of_mem_parts mem valid) fun w hw => words w (by simp [lexemes, hw])
  cases e with
  | named name => exact exists_respells_named valid
  | bareResult => exact ⟨_, respells_bareResult⟩
  | handle form resource => exact absurd rfl valid
  | result ok err =>
    refine exists_respells_result (fun t ht => parts t ?_) (fun t ht => parts t ?_)
    · simp [TypeExpr.parts, ht]
    · simp [TypeExpr.parts, ht]
  | wrapped w elem =>
    cases elem with
    | none =>
      refine ⟨.wrapped w none, valid, rfl, ?_⟩
      refine (Spells.pure (v := none) (P := fun _ t => t = none) fun _ => rfl).define (w.kind ·)
        fun spell name t missing typed => ?_
      subst missing
      cases w with
      | list | option => cases valid
      | future => exact absurd rfl typed.1
      | stream => exact absurd rfl typed.2
    | some elem =>
      obtain ⟨elem', h⟩ := parts elem (by simp [TypeExpr.parts])
      have same : elem'.type [] = elem.type [] := h.meaning
      refine ⟨.wrapped w (some elem'), h.valid, by simp only [typeForm, TypeExpr.type, type?, same],
        h.spells.define (w.kind ·) fun spell name t written _ => ?_⟩
      obtain ⟨ref, rfl, written⟩ := written
      have whole := written_listed (w := w.keyword) (p := id) (t := id) .angles
        (by cases w <;> decide) (.cons written .nil)
      cases w <;> simpa [TypeExpr.lexemes, separated, Wrapper.kind, Wrapper.keyword, Kind.spelling,
        commas, orHole, Brackets.opening, Brackets.closing] using whole
  | row form types =>
    have items : ∀ t ∈ types, ∃ t', RespellsType t t' := parts
    obtain ⟨types', valid, means, spells⟩ := exists_respells_items items
    rw [← typesOf_eq, ← typesOf_eq] at means
    rw [← typesOf_eq] at spells
    refine ⟨.row form types', (typesValid_iff _ _).mpr valid,
      by simp only [typeForm, TypeExpr.type, means],
      spells.define (form.kind ·) fun spell name ts written _ => ?_⟩
    rw [TypeExpr.lexemes, typePieces_eq]
    cases form with
    | tuple => exact written_listed .angles (by decide) (written.imp fun _ _ h => h.written)
    | union =>
      exact written_listed .braces (by decide)
        (written.imp fun _ _ h => h.written.weaken endsType_of_endsName)
  | record fields comma =>
    obtain ⟨fields', h⟩ := exists_respells_fields comma
      (fun w hw => words w (by simp [TypeExpr.lexemes, hw]))
      fun f hf => parts f.2 (mem_map_of_mem hf)
    have same : membersOf [] fields' = membersOf [] fields := h.meaning
    refine ⟨.record fields' false, h.valid, by simp only [typeForm, TypeExpr.type, same],
      h.spells.define (.record ·) fun spell name ms written _ => ?_⟩
    rw [TypeExpr.lexemes, fieldPieces_eq]
    exact written_listed .braces (by decide) ((forall₂_and_left _ _).mp written).2.flip
  | variant cases comma =>
    have items : ∀ c ∈ cases, ∃ c', RespellsCase c c' := by
      intro c hc
      have first : Lexeme.word c.1 ∈ caseForm.lexemes c := by
        obtain ⟨name, _ | t⟩ := c <;> exact mem_cons_self
      have word := word_mem_separated hc comma first
      refine exists_respells_case (words c.1 ?_) fun t ht =>
        parts t (mem_filterMap.mpr ⟨c, hc, ht⟩)
      simp [TypeExpr.lexemes, casePieces_eq, word]
    obtain ⟨cases', valid, means, spells⟩ := exists_respells_items items
    rw [← casesOf_eq, ← casesOf_eq] at means
    rw [← casesOf_eq] at spells
    refine ⟨.variant cases' false, (casesValid_iff _ _).mpr valid,
      by simp only [typeForm, TypeExpr.type, means],
      spells.define (.variant ·) fun spell name ms written _ => ?_⟩
    rw [TypeExpr.lexemes, casePieces_eq]
    exact written_listed .braces (by decide) written
  | names form names comma =>
    have written : Forall₂ (Written endsName [.word ·]) names names := by
      refine forall₂_same.mpr fun name hname => written_name (words name ?_)
      have word := word_mem_separated (F := nameForm) hname comma mem_cons_self
      exact .tail _ (.tail _ (mem_append_left _ word))
    have spells := Spells.pure (v := names) (P := fun _ ns => ns = names) fun _ => rfl
    refine ⟨.names form names false, trivial, rfl,
      spells.define (form.kind ·) fun spell name ns same _ => ?_⟩
    subst same
    have whole := written_listed (w := form.keyword) (t := id) .braces
      (by cases form <;> decide) written
    rw [map_id] at whole
    cases form with
    | enum | flags => exact whole

/-! ## Functions -/

theorem whole_arrow : Whole [.arrow] " -> " := fun _ _ h _ => .blank (.arrow (.blank h))

theorem resultsSpelling_of_named {ms : List Member} (h : ms ≠ [])
    (names : ∀ m ∈ ms, m.name ≠ "") :
    resultsSpelling spell ms = " -> (" ++ commas (ms.map (·.spelling spell)) ++ ")" := by
  unfold resultsSpelling
  split
  · exact absurd rfl h
  · exact absurd rfl (names _ mem_cons_self)
  · congr 2
    refine congrArg commas (map_congr_left fun m hm => if_neg ?_)
    simpa using names m hm

theorem exists_respells_members (valid : FieldsValid [] fs)
    (comma : Bool) (words : ∀ w, .word w ∈ separated comma (fieldPieces fs) → IsWord w) :
    ∃ fs', RespellsFields fs fs' := by
  refine exists_respells_fields comma words fun f hf => exists_respells_type f.2
    ((fieldsValid_iff _ _).mp valid f hf) fun w hw => words w ?_
  rw [fieldPieces_eq]
  exact word_mem_separated hf comma (.tail _ (.tail _ hw))

theorem exists_respells_results {r : Results} (valid : r.Valid [])
    (words : ∀ w, .word w ∈ r.lexemes → IsWord w) :
    ∃ r', Respells resultsForm
      (fun r spell ms => Written endsType r.lexemes (resultsSpelling spell ms)) r r' := by
  cases r with
  | nothing => exact ⟨.nothing, trivial, rfl, .pure fun _ _ _ h _ => h⟩
  | single t =>
    obtain ⟨t', h⟩ := exists_respells_type t valid fun w hw => words w (.tail _ hw)
    have same : t'.type [] = t.type [] := h.meaning
    refine ⟨.single t', h.valid, by simp only [resultsForm, Results.members, same],
      h.spells.bind fun v => .pure fun spell written => ?_⟩
    exact whole_arrow.append written.written (.inl fun _ => rfl)
  | several fs comma =>
    cases fs with
    | nil => exact ⟨.nothing, trivial, rfl, .pure fun _ _ _ h _ => h⟩
    | cons f fs =>
      obtain ⟨fs', h⟩ := exists_respells_members valid comma fun w hw =>
        words w (.tail _ (.tail _ (mem_append_left _ hw)))
      refine ⟨.several fs' false, h.valid, h.meaning, h.spells.mono fun spell ms written => ?_⟩
      have nonempty : ms ≠ [] := by
        rintro rfl
        cases written
        cases congrArg (fun m => (StateT.run m Graph.empty).1) h.meaning
      obtain ⟨names, written⟩ := (forall₂_and_left _ _).mp written
      have listed := (whole_opening .parens).append (whole_sequence .parens written.flip)
        (.inl fun _ => rfl)
      have whole := whole_arrow.append listed (.inl fun _ => rfl)
      rw [resultsSpelling_of_named nonempty names]
      simpa [Results.lexemes, fieldPieces_eq, Brackets.opening, Brackets.closing,
        ← String.append_assoc] using whole.weaken fun _ => rfl

theorem exists_respells_function {f : FunctionExpr} (valid : f.Valid [])
    (words : ∀ w, .word w ∈ f.lexemes → IsWord w) :
    ∃ f' : FunctionExpr, f'.Valid [] ∧ f'.function [] = f.function []
      ∧ Spells (f.function []) fun spell v => Written endsType f'.lexemes
        (v.name ++ ": func(" ++ commas (v.params.map (·.spelling spell)) ++ ")"
          ++ resultsSpelling spell v.results) := by
  obtain ⟨params', hp⟩ := exists_respells_members valid.params f.comma fun w hw =>
    words w (by simp [FunctionExpr.lexemes, hw])
  obtain ⟨results', hr⟩ := exists_respells_results valid.results fun w hw =>
    words w (by simp [FunctionExpr.lexemes, hw])
  have sameParams : membersOf [] params' = membersOf [] f.params := hp.meaning
  have sameResults : results'.members [] = f.results.members [] := hr.meaning
  refine ⟨⟨f.name, params', false, results'⟩, ⟨valid.owner, hp.valid, hr.valid⟩,
    by simp only [FunctionExpr.function, sameParams, sameResults],
    hp.spells.bind fun _ => hr.spells.bind fun _ => .pure fun spell results params => ?_⟩
  have func := (written_word (w := "func") (by decide)).append (whole_opening .parens)
    (.inr ⟨'(', rfl, by decide⟩)
  have named := ((forall₂_and_left _ _).mp params).2.flip
  have listed := (whole_sequence .parens named).append results (.inl fun _ => rfl)
  have rest := (whole_colon.append func (.inl fun _ => rfl)).append listed (.inl fun _ => rfl)
  have whole := (written_name (words f.name mem_cons_self)).append rest
    (.inr ⟨':', by simp, by decide⟩)
  simpa [FunctionExpr.lexemes, fieldPieces_eq, Brackets.opening, Brackets.closing,
    ← String.append_assoc] using whole

/-- **Spellings are read back.** If a text is read as a function in which all futures and streams
have an element type, then the spelling of that function is read as the same function over the same
definitions. So the spelling of what is read back is the same text again. -/
theorem readFunction_spelling {text : List Char} {f : Function} {g : Graph}
    (h : readFunction .empty text = .ok (f, g)) (typed : g.ChannelsTyped) :
    readFunction .empty (f.spelling g).toList = .ok (f, g) := by
  obtain ⟨ts, scanned, e, valid, lexemes, means⟩ := (readFunction_eq_ok_iff _ _ _ _).mp h
  obtain ⟨e', valid', same, spells⟩ := exists_respells_function valid fun w hw =>
    isWord_of_mem_tokens scanned (lexemes ▸ hw)
  obtain ⟨_, spelled⟩ := spells Graph.empty
  rw [show (e.function []).run Graph.empty = (f, g) from means] at spelled
  have written : Written endsType e'.lexemes (f.spelling g) :=
    spelled (.refl g) typed (Nat.le_succ _)
  have renders : Renders e'.lexemes (f.spelling g).toList := by simpa using written .nil nofun
  refine (readFunction_eq_ok_iff _ _ _ _).mpr ⟨_, renders.tokensFrom_eq 1, e', valid', ?_, ?_⟩
  · simp [Function.comp_def]
  · exact same ▸ means

theorem readFunction_spelling_digest :
    ∃ f g, readFunction .empty "f: func(a: list<float32>,) -> future<u8>".toList = .ok (f, g)
      ∧ f.spelling g = "f: func(a: list<f32>) -> future<u8>"
      ∧ readFunction .empty (f.spelling g).toList = .ok (f, g) := by
  have reads : (readFunction .empty "f: func(a: list<float32>,) -> future<u8>".toList
      |>.toOption.any fun v => v.1.spelling v.2 == "f: func(a: list<f32>) -> future<u8>"
        && v.2.defs.all fun d => d.kind != some (.future none) && d.kind != some (.stream none))
      = true := by
    decide +kernel
  cases read : readFunction .empty "f: func(a: list<float32>,) -> future<u8>".toList with
  | error =>
    rw [read] at reads
    cases reads
  | ok v =>
    rw [read] at reads
    obtain ⟨spelling, typed⟩ := Bool.and_eq_true_iff.mp reads
    refine ⟨v.1, v.2, rfl, beq_iff_eq.mp spelling, readFunction_spelling read fun id => ?_⟩
    refine ⟨fun eq => ?_, fun eq => ?_⟩
    all_goals
      obtain ⟨d, found, kind⟩ := Option.bind_eq_some_iff.mp eq
      have := Array.all_eq_true_iff_forall_mem.mp typed d (Array.mem_of_getElem? found)
      simp [kind] at this

end Idl

end CanonicalAbi
