import CanonicalAbi.Proofs.Reading

/-!
# Reading types

The routine that reads types takes exactly the types of the grammar that make sense, and returns
what they mean. One level of nesting takes at least one token, so its bound is never met.
-/

namespace CanonicalAbi.Idl

variable {text : String} {v : TypeRef}

/-! ## The forms of types and their parts -/

def typeForm : Form TypeExpr (Option TypeRef) := ⟨TypeExpr.lexemes, TypeExpr.Valid, TypeExpr.type⟩

section Forms

variable (F : Form TypeExpr (Option TypeRef))

def fieldOf : Form (String × TypeExpr) Member :=
  .word fun name => (F.bind fun t => return ⟨name, t⟩).after (.mark ':')

def caseOf : Form (String × Option TypeExpr) Member :=
  .word fun name => (((F.before (.mark ')')).bind fun t => return ⟨name, t⟩).after
    (.mark '(')).optional ⟨name, none⟩

def angleOf : Form TypeExpr (Option TypeRef) :=
  ((F.before (.mark '>')).bind fun t => return t).after (.mark '<')

def okOf : Form (Option TypeExpr) (Option TypeRef) where
  lexemes
    | none => [.word "_"]
    | some t => F.lexemes t
  Valid scope ok := ∀ t, ok = some t → (F.without (.word "_")).Valid scope t
  meaning scope
    | none => return none
    | some t => F.meaning scope t

def errOf : Form (Option TypeExpr) (Option TypeRef) :=
  ((F.after (.mark ',')).optional none).before (.mark '>')

end Forms

/-- A field of a record. -/
abbrev fieldForm : Form (String × TypeExpr) Member := fieldOf typeForm

/-- A case of a variant. -/
abbrev caseForm : Form (String × Option TypeExpr) Member := caseOf typeForm

def nameForm : Form String String where
  lexemes name := [.word name]
  Valid _ _ := True
  meaning _ name := return name

theorem wrapped_lexemes (w : Wrapper) (elem : Option TypeExpr) : (TypeExpr.wrapped w elem).lexemes
    = .word w.keyword :: ((angleOf typeForm).optional none).lexemes elem := by
  cases elem <;> rfl

theorem result_lexemes (ok err : Option TypeExpr) : (TypeExpr.result ok err).lexemes
    = .word "result" :: .mark '<' ::
      ((okOf typeForm).lexemes ok ++ (errOf typeForm).lexemes err) := by
  cases ok <;> cases err <;> rfl

section Parts

variable (scope : Scope)

theorem head_eq_underscore_iff (e : TypeExpr) :
    e.lexemes.head? = some (.word "_") ↔ e = .named "_" := by
  cases e with
  | named name => simp [TypeExpr.lexemes]
  | wrapped w elem => cases w <;> simp [wrapped_lexemes, Wrapper.keyword]
  | result ok err => simp [result_lexemes]
  | handle form => cases form <;> simp [TypeExpr.lexemes, handleKeyword]
  | row form => cases form <;> simp [TypeExpr.lexemes, Row.keyword]
  | names form => cases form <;> simp [TypeExpr.lexemes, NameSet.keyword]
  | bareResult | record | variant => simp [TypeExpr.lexemes]

theorem result_valid_iff (ok err : Option TypeExpr) : (TypeExpr.result ok err).Valid scope
    ↔ (okOf typeForm).Valid scope ok ∧ (errOf typeForm).Valid scope err := by
  cases ok <;> cases err <;> simp [TypeExpr.Valid, okOf, errOf, Form.without, Form.before,
    Form.optional, Form.after, typeForm, head_eq_underscore_iff, and_comm, and_assoc,
    and_left_comm]

theorem typePieces_eq (ts : List TypeExpr) : typePieces ts = ts.map typeForm.lexemes := by
  induction ts with
  | nil => rfl
  | cons t ts ih => exact congrArg (_ :: ·) ih

theorem fieldPieces_eq (fs : List (String × TypeExpr)) :
    fieldPieces fs = fs.map fieldForm.lexemes := by
  induction fs with
  | nil => rfl
  | cons f fs ih => exact congrArg (_ :: ·) ih

theorem casePieces_eq (cs : List (String × Option TypeExpr)) :
    casePieces cs = cs.map caseForm.lexemes := by
  induction cs with
  | nil => rfl
  | cons c cs ih =>
    obtain ⟨name, _ | t⟩ := c
    · exact congrArg (_ :: ·) ih
    · exact congrArg (_ :: ·) ih

theorem typesValid_iff (ts : List TypeExpr) :
    TypesValid scope ts ↔ ∀ t ∈ ts, typeForm.Valid scope t := by
  induction ts with
  | nil => simp [TypesValid]
  | cons t ts ih => simp [TypesValid, ih, typeForm]

theorem fieldsValid_iff (fs : List (String × TypeExpr)) :
    FieldsValid scope fs ↔ ∀ f ∈ fs, fieldForm.Valid scope f := by
  induction fs with
  | nil => simp [FieldsValid]
  | cons f fs ih =>
    rw [List.forall_mem_cons, ← ih]
    rfl

theorem casesValid_iff (cs : List (String × Option TypeExpr)) :
    CasesValid scope cs ↔ ∀ c ∈ cs, caseForm.Valid scope c := by
  induction cs with
  | nil => simp [CasesValid]
  | cons c cs ih =>
    rw [List.forall_mem_cons, ← ih]
    obtain ⟨name, _ | t⟩ := c
    · simp [CasesValid, caseOf, Form.word, Form.optional]
    · simp [CasesValid, caseOf, Form.word, Form.optional, Form.after, Form.bind, Form.before,
        typeForm]

theorem typesOf_eq (ts : List TypeExpr) :
    typesOf scope ts = Form.meanings (typeForm.meaning scope) ts := by
  induction ts with
  | nil => rfl
  | cons t ts ih =>
    rw [typesOf, ih]
    rfl

theorem membersOf_eq (fs : List (String × TypeExpr)) :
    membersOf scope fs = Form.meanings (fieldForm.meaning scope) fs := by
  induction fs with
  | nil => rfl
  | cons f fs ih =>
    rw [membersOf, ih]
    rfl

theorem casesOf_eq (cs : List (String × Option TypeExpr)) :
    casesOf scope cs = Form.meanings (caseForm.meaning scope) cs := by
  induction cs with
  | nil => rfl
  | cons c cs ih =>
    rw [casesOf, ih]
    obtain ⟨name, _ | t⟩ := c
    · rfl
    · rfl

theorem nameForm_meanings (names : List String) :
    Form.meanings (nameForm.meaning scope) names = pure names := by
  induction names with
  | nil => rfl
  | cons name names ih =>
    rw [Form.meanings, ih]
    rfl

end Parts

/-! ## Nesting -/

theorem exists_separated_eq {p : List Lexeme} {ps : List (List Lexeme)} (h : p ∈ ps)
    (comma : Bool) : ∃ before behind, separated comma ps = before ++ (p ++ behind) := by
  obtain ⟨before, behind, rfl⟩ := List.append_of_mem h
  cases before with
  | nil => exact ⟨[], _, List.append_assoc _ _ _⟩
  | cons q qs =>
    refine ⟨q ++ (qs.flatMap (.mark ',' :: ·) ++ [.mark ',']),
      behind.flatMap (.mark ',' :: ·) ++ if comma then [.mark ','] else [], ?_⟩
    simp [separated]

def TypeExpr.parts : TypeExpr → List TypeExpr
  | .named _ | .bareResult | .handle _ _ | .names _ _ _ => []
  | .wrapped _ elem => elem.toList
  | .result ok err => ok.toList ++ err.toList
  | .row _ types => types
  | .record fields _ => fields.map (·.2)
  | .variant cases _ => cases.filterMap (·.2)

variable {part e : TypeExpr}

theorem exists_lexemes_eq_of_mem_parts (h : part ∈ e.parts) :
    ∃ first before behind, e.lexemes = first :: (before ++ (part.lexemes ++ behind)) := by
  cases e with
  | named | bareResult | handle | names => cases h
  | wrapped w elem =>
    obtain rfl : elem = some part := by simpa [TypeExpr.parts] using h
    exact ⟨_, [.mark '<'], [.mark '>'], wrapped_lexemes w _⟩
  | result ok err =>
    obtain rfl | rfl : ok = some part ∨ err = some part := by simpa [TypeExpr.parts] using h
    · exact ⟨_, [.mark '<'], (errOf typeForm).lexemes err, result_lexemes _ err⟩
    · refine ⟨.word "result", .mark '<' :: ((okOf typeForm).lexemes ok ++ [.mark ',']),
        [.mark '>'], ?_⟩
      simp [result_lexemes, errOf, Form.before, Form.optional, Form.after, typeForm]
  | row form types =>
    have piece : part.lexemes ∈ types.map typeForm.lexemes := List.mem_map_of_mem h
    obtain ⟨before, behind, pieces⟩ := exists_separated_eq piece false
    refine ⟨.word form.keyword, .mark form.opening :: before, behind ++ [.mark form.closing], ?_⟩
    simp [TypeExpr.lexemes, typePieces_eq, pieces]
  | record fields comma =>
    obtain ⟨f, hf, rfl⟩ := List.mem_map.mp h
    have piece := List.mem_map_of_mem (f := fieldForm.lexemes) hf
    obtain ⟨before, behind, pieces⟩ := exists_separated_eq piece comma
    refine ⟨.word "record", .mark '\x7b' :: (before ++ [.word f.1, .mark ':']),
      behind ++ [.mark '\x7d'], ?_⟩
    rw [TypeExpr.lexemes, fieldPieces_eq, pieces]
    simp [fieldOf, Form.word, Form.after, Form.bind, typeForm]
  | variant cases comma =>
    obtain ⟨⟨name, _⟩, hc, rfl⟩ := List.mem_filterMap.mp h
    have piece := List.mem_map_of_mem (f := caseForm.lexemes) hc
    obtain ⟨before, behind, pieces⟩ := exists_separated_eq piece comma
    refine ⟨.word "variant", .mark '\x7b' :: (before ++ [.word name, .mark '(']),
      .mark ')' :: (behind ++ [.mark '\x7d']), ?_⟩
    rw [TypeExpr.lexemes, casePieces_eq, pieces]
    simp [caseOf, Form.word, Form.optional, Form.after, Form.bind, Form.before, typeForm]

theorem length_lt_of_mem_parts (h : part ∈ e.parts) :
    part.lexemes.length < e.lexemes.length := by
  obtain ⟨first, before, behind, lexemes⟩ := exists_lexemes_eq_of_mem_parts h
  simp only [lexemes, List.length_cons, List.length_append]
  omega

theorem valid_of_mem_parts {scope : Scope} (h : part ∈ e.parts)
    (valid : e.Valid scope) : part.Valid scope := by
  cases e with
  | named | bareResult | handle | names => cases h
  | wrapped w elem =>
    obtain rfl : elem = some part := by simpa [TypeExpr.parts] using h
    exact valid
  | result ok err =>
    obtain ⟨okValid, errValid⟩ := (result_valid_iff scope ok err).mp valid
    obtain eq | eq : ok = some part ∨ err = some part := by simpa [TypeExpr.parts] using h
    · exact (okValid part eq).1
    · exact errValid part eq
  | row form types => exact (typesValid_iff scope types).mp valid part h
  | record fields comma =>
    obtain ⟨f, hf, rfl⟩ := List.mem_map.mp h
    exact (fieldsValid_iff scope fields).mp valid f hf
  | variant cases comma =>
    obtain ⟨c, hc, eq⟩ := List.mem_filterMap.mp h
    exact (casesValid_iff scope cases).mp valid c hc part eq

theorem TypeExpr.induct {P : TypeExpr → Prop} (h : ∀ e, (∀ part ∈ e.parts, P part) → P e)
    (e : TypeExpr) : P e :=
  h e fun part _ => TypeExpr.induct h part
termination_by e.lexemes.length
decreasing_by exact length_lt_of_mem_parts ‹_›

def TypeExpr.Nested : Nat → TypeExpr → Prop
  | 0, _ => False
  | bound + 1, e => ∀ part ∈ e.parts, part.Nested bound

theorem nested_of_length (e : TypeExpr) (bound : Nat) (h : e.lexemes.length < bound) :
    e.Nested bound := by
  induction bound generalizing e with
  | zero => exact absurd h (Nat.not_lt_zero _)
  | succ bound ih =>
    exact fun part mem => ih part
      (Nat.lt_of_lt_of_le (length_lt_of_mem_parts mem) (Nat.le_of_lt_succ h))

/-! ## What follows the first word -/

section Names

variable {s t : Reading}

theorem builtin_ok {tok : Token} (run : (builtin tok text).run s = .ok (v, t)) :
    t = s ∧ builtinTypes.lookup text = some v := by
  rw [builtin] at run
  simp only [beq_iff_eq] at run
  split_ifs at run with unknown string float double
  · cases run
  · cases run
    exact ⟨rfl, string ▸ rfl⟩
  · cases run
    exact ⟨rfl, float ▸ rfl⟩
  · cases run
    exact ⟨rfl, double ▸ rfl⟩
  · split at run
    · next scalar found =>
      cases run
      obtain rfl : scalar.name = text := by simpa using List.find?_some found
      refine ⟨rfl, ?_⟩
      cases scalar <;> rfl
    · cases run

theorem builtin_run (h : builtinTypes.lookup text = some v) (tok : Token) (s : Reading) :
    (builtin tok text).run s = .ok (v, s) := by
  obtain ⟨before, after, e, _⟩ := List.lookup_eq_some_iff.mp h
  have mem : (text, v) ∈ builtinTypes := e ▸ by simp
  simp only [builtinTypes, List.mem_cons, Prod.mk.injEq, List.not_mem_nil, or_false] at mem
  rcases mem with ⟨rfl, rfl⟩ | ⟨rfl, rfl⟩ | ⟨rfl, rfl⟩ | ⟨rfl, rfl⟩ | ⟨rfl, rfl⟩ | ⟨rfl, rfl⟩
    | ⟨rfl, rfl⟩ | ⟨rfl, rfl⟩ | ⟨rfl, rfl⟩ | ⟨rfl, rfl⟩ | ⟨rfl, rfl⟩ | ⟨rfl, rfl⟩ | ⟨rfl, rfl⟩
    | ⟨rfl, rfl⟩ | ⟨rfl, rfl⟩ <;> rfl

theorem named_eq_ok (tok : Token) (text : String) (s : Reading) (v : TypeRef) (t : Reading) :
    (named tok text).run s = .ok (v, t) ↔ t = s ∧ typeNamed s.names text = some v := by
  rw [named, run_bind_ok (lookup_run text s), typeNamed]
  cases s.names.lookup text with
  | some id =>
    constructor
    · intro run
      cases run
      exact ⟨rfl, rfl⟩
    · rintro ⟨rfl, ⟨⟩⟩
      rfl
  | none =>
    constructor
    · exact builtin_ok
    · rintro ⟨rfl, found⟩
      exact builtin_run found tok t

end Names

section Reads

open Form

variable {F : Form TypeExpr (Option TypeRef)} {type : Read TypeRef}

theorem declaredResource_reads :
    ((Form.word fun name => (known fun scope => scope.lookup name).after (.mark '>')).after
      (.mark '<')).Reads Ends some declaredResource := by
  refine Reads.mark (Reads.word fun tok name => Reads.mark (Reads.known fun s v t => ?_) '>') '<'
  rw [run_bind_ok (lookup_run name s)]
  cases s.names.lookup name with
  | some id =>
    constructor
    · intro run
      cases run
      exact ⟨rfl, rfl⟩
    · rintro ⟨rfl, ⟨⟩⟩
      rfl
  | none => exact ⟨nofun, nofun⟩

theorem name_reads : nameForm.Reads Ends id (do return (← expectWord).2) := by
  refine Reads.congr (Reads.word fun tok name => Reads.pure (f := id) name) ?_ ?_
  · exact fun _ x _ => ⟨x.1, trivial, rfl, rfl⟩
  · exact fun _ name _ => ⟨(name, ()), trivial, rfl, rfl⟩

theorem closes_brace : Closes '}' := by simp [Closes]

theorem names_reads :
    ((nameForm.sequence '\x7d' .allowed).after (.mark '\x7b')).Reads Ends id names :=
  (listed_reads name_reads (fun _ => ⟨_, _, rfl⟩) closes_brace).mark '\x7b'

variable (h : F.Reads Ends some type)
include h

theorem member_reads : (fieldOf F).Reads Ends id (member type) := by
  refine .word fun _ _ => Reads.mark ?_ ':'
  exact h.andThen (.pure fun _ => rfl)

theorem case_reads : (caseOf F).Reads Ends id (case type) := by
  refine .word fun _ _ => Reads.optional (f := id) ?_ (fun ends => ends.paren) _
  exact h.close (ends_mark (by decide)) (.pure fun _ => rfl)

theorem angle_reads : (angleOf F).Reads Ends some (angle type) := by
  refine Reads.mark ?_ '<'
  exact h.close (ends_mark (by decide)) (.pure fun _ => rfl)

theorem angle?_reads : ((angleOf F).optional none).Reads Ends id (angle? type) := by
  refine Reads.optional (f := id) ?_ (fun ends => ends.angle) none
  exact h.close (ends_mark (by decide)) (.pure fun _ => rfl)

omit h

theorem ok_reads (h : F.Reads Ends some type) (starts : F.Starts) :
    (okOf F).Reads Ends id (okSide type) := by
  refine Reads.congr (Reads.acceptOr (.pure none) (Reads.andThen h (.pure (m := id) fun _ => rfl))
    ?_) ?_ ?_
  · intro t rest empty
    obtain ⟨text, ls, lexemes⟩ := starts t
    cases empty.symm.trans lexemes
  · rintro scope (_ | t) valid
    · exact ⟨none, fun _ eq => (nomatch eq), rfl, rfl⟩
    · exact ⟨some t, fun _ eq => Option.some.inj eq ▸ valid, rfl, rfl⟩
  · rintro scope (_ | t) valid
    · exact ⟨.inl (), trivial, rfl, rfl⟩
    · exact ⟨.inr t, valid t rfl, rfl, rfl⟩

theorem err_reads (h : F.Reads Ends some type) : (errOf F).Reads Ends id (errSide type) := by
  have more := h.close (D := Ends) (ends_mark (c := '>') (by decide)) (g := id)
    (k := fun t => pure (some t)) (.pure (m := id) fun _ => rfl)
  refine Reads.congr (Reads.accept more (Reads.mark (.pure none) '>')
    fun _ => ⟨_, _, by decide, rfl⟩) ?_ ?_
  · rintro scope (t | _) valid
    · exact ⟨some t, fun _ eq => Option.some.inj eq ▸ valid, rfl, rfl⟩
    · exact ⟨none, fun _ eq => (nomatch eq), rfl, rfl⟩
  · rintro scope (_ | t) valid
    · exact ⟨.inr (), trivial, rfl, rfl⟩
    · exact ⟨.inl t, valid t rfl, rfl, rfl⟩

end Reads

/-! ## Types -/

/-- What a routine takes behind a word makes a type with it, which is nested less deep than a
bound. -/
def Follows {κ : Type} (bound : Nat) (word : String) (read : Read TypeRef) (make : κ → TypeExpr) :
    Prop :=
  ∃ G : Form κ (Option TypeRef), G.Reads Ends some read
    ∧ ∀ x, (make x).lexemes = .word word :: G.lexemes x
      ∧ ∀ scope, (make x).type scope = G.meaning scope x
        ∧ ((make x).Valid scope ∧ (make x).Nested bound ↔ G.Valid scope x)

namespace Follows

variable {κ : Type} {bound : Nat} {word : String} {read : Read TypeRef} {make : κ → TypeExpr}
  (h : Follows bound word read make) {s t : Reading}
include h

theorem sound (first : Passed s t (.word word)) {u : Reading} (run : read.run t = .ok (v, u)) :
    ∃ e, (typeForm.within TypeExpr.Nested bound).Valid s.names e
      ∧ Took s u e.lexemes (e.type s.names) (some v) := by
  obtain ⟨G, reads, same⟩ := h
  obtain ⟨x, valid, took⟩ := reads.sound run
  obtain ⟨line, rfl⟩ := first
  obtain ⟨lexemes, same⟩ := same x
  refine ⟨make x, (same _).2.mpr valid, ?_⟩
  rw [lexemes, (same _).1]
  exact took.after ⟨line, rfl⟩

theorem takes (x : κ) (valid : (typeForm.within TypeExpr.Nested bound).Valid s.names (make x))
    {after : List Lexeme} (hs : s.lexemes = (make x).lexemes ++ after) (ends : Ends after)
    {k : Token × String → Read TypeRef}
    (same : ∀ tok, s.tokens.head? = some tok → k (tok, word) = read) :
    ∃ v u, (expectWord >>= k).run s = .ok (v, u)
      ∧ Took s u (make x).lexemes ((make x).type s.names) (some v) := by
  obtain ⟨G, reads, eq⟩ := h
  obtain ⟨lexemes, eq⟩ := eq x
  rw [lexemes] at hs ⊢
  obtain ⟨t, ⟨line, rfl⟩, ht⟩ := exists_passed hs
  obtain ⟨v, u, run, took⟩ := reads.takes (s := t) ((eq _).2.mp valid) ht ends
  refine ⟨v, u, ?_, ?_⟩
  · rw [run_bind_ok (expectWord_eq_ok.mpr ⟨⟨line, rfl⟩, rfl⟩), same _ rfl, run]
  · rw [(eq _).1]
    exact took.after ⟨line, rfl⟩

end Follows

theorem starts_type : typeForm.Starts := by
  intro e
  cases e with
  | wrapped w elem => exact ⟨_, _, wrapped_lexemes w elem⟩
  | result ok err => exact ⟨_, _, result_lexemes ok err⟩
  | _ => exact ⟨_, _, rfl⟩

section Kinds

open Form

variable {bound : Nat} {type : Read TypeRef}
  (h : (typeForm.within TypeExpr.Nested bound).Reads Ends some type)

theorem named_follows (ordinary : text ∉ keywords) (tok : Token) :
    Follows (bound + 1) text (named tok text) fun _ : Unit => .named text := by
  refine ⟨_, .known (named_eq_ok tok text), fun _ => ⟨rfl, fun scope => ⟨rfl, ?_⟩⟩⟩
  simp [TypeExpr.Valid, TypeExpr.Nested, TypeExpr.parts, known, ordinary]

theorem handle_follows (form : HandleForm) : Follows (bound + 1) (handleKeyword form) (do
      let id ← declaredResource
      allocateKind (handleKind (some id) form)) fun r : String × Unit => .handle form r.1 := by
  refine ⟨_, declaredResource_reads.andThen
    (.define (m := fun id => handleKind id form) fun _ => rfl),
    fun _ => ⟨rfl, fun scope => ⟨rfl, ?_⟩⟩⟩
  simp [TypeExpr.Valid, TypeExpr.Nested, TypeExpr.parts, Form.bind, after, word, known]

theorem names_follows (form : NameSet) : Follows (bound + 1) form.keyword (do
      let ns ← names
      allocateKind (form.kind ns)) fun x : List String × Bool => .names form x.1 x.2 := by
  refine ⟨_, names_reads.andThen (.define (m := fun ns => form.kind ns) fun _ => rfl),
    fun x => ⟨rfl, fun scope => ⟨?_, ?_⟩⟩⟩
  · exact congrArg (· >>= fun ns => define (form.kind ns)) (nameForm_meanings scope x.1).symm
  · simp [TypeExpr.Valid, TypeExpr.Nested, TypeExpr.parts, Form.bind, after, Form.sequence, tail,
      nameForm]

include h

theorem wrapped_follows (w : Wrapper) : Follows (bound + 1) w.keyword (do
      let elem ← angle type
      allocateKind (w.kind (some elem))) fun e : TypeExpr => .wrapped w (some e) := by
  refine ⟨_, (angle_reads h).andThen (.define (m := fun t => w.kind t) fun _ => rfl),
    fun e => ⟨rfl, fun scope => ⟨rfl, ?_⟩⟩⟩
  simp [TypeExpr.Valid, TypeExpr.Nested, TypeExpr.parts, Form.bind, angleOf, after, before, within,
    typeForm]

theorem wrapped?_follows (w : Wrapper) (bare : w.Bare) : Follows (bound + 1) w.keyword (do
      let elem ← angle? type
      allocateKind (w.kind elem)) fun elem => .wrapped w elem := by
  refine ⟨_, (angle?_reads h).andThen (.define (m := fun t => w.kind t) fun _ => rfl),
    fun elem => ⟨wrapped_lexemes w elem, fun scope => ?_⟩⟩
  cases elem with
  | none =>
    exact ⟨rfl, by simp [TypeExpr.Valid, TypeExpr.Nested, TypeExpr.parts, Form.bind, Form.optional,
      bare]⟩
  | some e =>
    exact ⟨rfl, by simp [TypeExpr.Valid, TypeExpr.Nested, TypeExpr.parts, Form.bind, angleOf, after,
      before, within, typeForm, Form.optional]⟩

theorem row_follows (form : Row) : Follows (bound + 1) form.keyword (do
      expectMark form.opening
      let types ← items type form.closing .refused
      allocateKind (form.kind (types.map some))) (.row form) := by
  have closes : Closes form.closing := by cases form <;> simp [Closes, Row.closing]
  have reads := (items_reads h starts_type closes .refused (E := Ends)).andThen
    (.define (m := fun ts => form.kind ts) fun _ => rfl)
  refine ⟨⟨fun ts => .mark form.opening :: (separated false (ts.map typeForm.lexemes)
      ++ [.mark form.closing]), fun scope ts => ∀ t ∈ ts, t.Valid scope ∧ t.Nested bound,
    fun scope ts => do define (form.kind (← meanings (typeForm.meaning scope) ts))⟩,
    Reads.congr (reads.mark form.opening) ?_ ?_, fun ts => ⟨?_, fun scope => ⟨?_, ?_⟩⟩⟩
  · rintro scope ⟨ts, comma⟩ valid
    obtain rfl : comma = false := Bool.eq_false_iff.mpr fun eq => nomatch valid.2 eq
    exact ⟨ts, valid.1, rfl, rfl⟩
  · exact fun scope ts valid => ⟨(ts, false), ⟨valid, nofun⟩, rfl, rfl⟩
  · rw [TypeExpr.lexemes, typePieces_eq]
  · rw [TypeExpr.type, typesOf_eq]
  · exact (and_congr_left' (typesValid_iff scope ts)).trans forall₂_and.symm

theorem record_follows : Follows (bound + 1) "record" (do
      expectMark '{'
      let fields ← items (member type) '}' .allowed
      allocateKind (.record fields)) fun x : _ × Bool => .record x.1 x.2 := by
  have fields := listed_reads (member_reads h) (fun _ => ⟨_, _, rfl⟩) closes_brace (E := Ends)
  refine ⟨_, (fields.andThen (.define fun _ => rfl)).mark '{',
    fun x => ⟨?_, fun scope => ⟨?_, ?_⟩⟩⟩
  · exact congrArg (fun ps => _ :: _ :: (separated x.2 ps ++ _)) (fieldPieces_eq x.1)
  · rw [TypeExpr.type, membersOf_eq]
    rfl
  · refine ((and_congr (fieldsValid_iff scope x.1) List.forall_mem_map).trans
      forall₂_and.symm).trans (and_iff_left fun _ => rfl).symm

theorem variant_follows : Follows (bound + 1) "variant" (do
      expectMark '{'
      let cases ← items (case type) '}' .allowed
      allocateKind (.variant cases)) fun x : _ × Bool => .variant x.1 x.2 := by
  have cases := listed_reads (case_reads h) (fun _ => ⟨_, _, rfl⟩) closes_brace (E := Ends)
  refine ⟨_, (cases.andThen (.define fun _ => rfl)).mark '{',
    fun x => ⟨?_, fun scope => ⟨?_, ?_⟩⟩⟩
  · exact congrArg (fun ps => _ :: _ :: (separated x.2 ps ++ _)) (casePieces_eq x.1)
  · rw [TypeExpr.type, casesOf_eq]
    rfl
  · constructor
    · intro both
      have valid := (casesValid_iff scope x.1).mp both.1
      refine ⟨fun c hc e he => ⟨valid c hc e he, both.2 e ?_⟩, fun _ => rfl⟩
      exact List.mem_filterMap.mpr ⟨c, hc, he⟩
    · intro both
      refine ⟨(casesValid_iff scope x.1).mpr fun c hc e he => (both.1 c hc e he).1, fun e mem => ?_⟩
      obtain ⟨c, hc, he⟩ := List.mem_filterMap.mp mem
      exact (both.1 c hc e he).2

theorem result_follows : Follows (bound + 1) "result" (do allocateKind (← resultKind type)) fun
      | none => .bareResult
      | some (ok, err) => .result ok err := by
  have sides := (ok_reads h starts_type).seq (err_reads h) (by
    rintro (_ | t) rest -
    · exact ends_mark (by decide) _
    · exact ends_mark (by decide) _) (e := id) (k := Kind.result) fun _ _ => rfl
  have reads := sides.optional (l := .mark '<') (fun ends => ends.angle) (.result none none)
  refine ⟨_, reads.andThen (.define (m := id) fun _ => rfl), fun x => ⟨?_, fun scope => ⟨?_, ?_⟩⟩⟩
  · obtain _ | ⟨ok, err⟩ := x
    · rfl
    · exact result_lexemes ok err
  · obtain _ | ⟨_ | ok, _ | err⟩ := x <;> rfl
  · obtain _ | ⟨ok, err⟩ := x
    · simp [TypeExpr.Valid, TypeExpr.Nested, TypeExpr.parts, Form.bind, Form.optional]
    · rw [result_valid_iff]
      simp [TypeExpr.Nested, TypeExpr.parts, Form.bind, Form.optional, after, Form.seq, okOf, errOf,
        within, without, before, or_imp, forall_and]
      tauto

end Kinds

theorem typeWithin_reads (bound : Nat) :
    (typeForm.within TypeExpr.Nested bound).Reads Ends some (typeWithin bound) := by
  induction bound with
  | zero => exact ⟨nofun, fun s e _ valid => absurd valid.2 id⟩
  | succ bound ih =>
    constructor
    · intro s t v run
      obtain ⟨⟨tok, text⟩, s1, first, run⟩ := run_bind_eq_ok.mp run
      have passed := (expectWord_eq_ok.mp first).1
      dsimp only at run
      split at run
      · exact (wrapped_follows ih .list).sound passed run
      · exact (wrapped_follows ih .option).sound passed run
      · exact (wrapped?_follows ih .future trivial).sound passed run
      · exact (wrapped?_follows ih .stream trivial).sound passed run
      · exact (result_follows ih).sound passed run
      · exact (row_follows ih .tuple).sound passed run
      · exact (handle_follows .own).sound passed run
      · exact (handle_follows .borrow).sound passed run
      · exact (record_follows ih).sound passed run
      · exact (variant_follows ih).sound passed run
      · exact (row_follows ih .union).sound passed run
      · exact (names_follows .enum).sound passed run
      · exact (names_follows .flags).sound passed run
      · have ordinary : text ∉ keywords := by simp_all [keywords]
        exact (named_follows ordinary tok).sound passed run
    · intro s e after valid hs ends
      cases e with
      | named name =>
        have ordinary := valid.1.1
        have first := hs
        obtain ⟨t, ⟨line, rfl⟩, _⟩ := exists_passed first
        refine (named_follows ordinary ⟨.word name, line⟩).takes () valid hs ends fun tok head => ?_
        cases head
        dsimp only
        split
        case h_14 => rfl
        -- In the other cases the name is a keyword.
        all_goals exact absurd ordinary (by decide)
      | wrapped w elem =>
        cases w with
        | list =>
          cases elem with
          | none => exact absurd valid.1 id
          | some e => exact (wrapped_follows ih .list).takes e valid hs ends fun _ _ => rfl
        | option =>
          cases elem with
          | none => exact absurd valid.1 id
          | some e => exact (wrapped_follows ih .option).takes e valid hs ends fun _ _ => rfl
        | future =>
          exact (wrapped?_follows ih .future trivial).takes elem valid hs ends fun _ _ => rfl
        | stream =>
          exact (wrapped?_follows ih .stream trivial).takes elem valid hs ends fun _ _ => rfl
      | bareResult => exact (result_follows ih).takes none valid hs ends fun _ _ => rfl
      | result ok err =>
        exact (result_follows ih).takes (some (ok, err)) valid hs ends fun _ _ => rfl
      | handle form r =>
        cases form with
        | own => exact (handle_follows .own).takes (r, ()) valid hs ends fun _ _ => rfl
        | borrow => exact (handle_follows .borrow).takes (r, ()) valid hs ends fun _ _ => rfl
      | row form ts =>
        cases form with
        | tuple => exact (row_follows ih .tuple).takes ts valid hs ends fun _ _ => rfl
        | union => exact (row_follows ih .union).takes ts valid hs ends fun _ _ => rfl
      | record fs comma => exact (record_follows ih).takes (fs, comma) valid hs ends fun _ _ => rfl
      | variant cs comma =>
        exact (variant_follows ih).takes (cs, comma) valid hs ends fun _ _ => rfl
      | names form ns comma =>
        cases form with
        | enum => exact (names_follows .enum).takes (ns, comma) valid hs ends fun _ _ => rfl
        | flags => exact (names_follows .flags).takes (ns, comma) valid hs ends fun _ _ => rfl

theorem type_reads : typeForm.Reads Ends some type := .bounded typeWithin_reads nested_of_length

end CanonicalAbi.Idl
