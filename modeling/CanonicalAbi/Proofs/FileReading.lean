import CanonicalAbi.Proofs.TypeReading

/-!
# Reading files

A file is read if and only if it follows the grammar, and what is read is what the grammar says it
declares. An entry takes at least one token, so the bound on the number of entries is never met.
-/

namespace CanonicalAbi.Idl

open List

variable {s t : Reading} {after : List Lexeme}

/-! ## Functions -/

def paramsForm : Form (List (String × TypeExpr) × Bool) (List Member) where
  lexemes p := separated p.2 (fieldPieces p.1) ++ [.mark ')']
  Valid scope p := FieldsValid scope p.1
  meaning scope p := membersOf scope p.1

def resultsForm : Form Results (List Member) := ⟨Results.lexemes, Results.Valid, Results.members⟩

def functionForm : Form FunctionExpr Function :=
  ⟨FunctionExpr.lexemes, FunctionExpr.Valid, FunctionExpr.function⟩

/-- What may follow an entry. -/
structure EndsEntry (after : List Lexeme) : Prop extends Ends after where
  arrow : after.head? ≠ some .arrow

theorem params_reads {E : List Lexeme → Prop} :
    paramsForm.Reads E id (items (member type) ')' .allowed) := by
  refine Form.Reads.congr (Form.listed_reads (member_reads type_reads) (fun _ => ⟨_, _, rfl⟩)
    (by simp [Form.Closes])) ?_ ?_
  · exact fun scope p valid => ⟨p, (fieldsValid_iff _ _).mpr valid.1,
      congrArg (separated p.2 · ++ _) (fieldPieces_eq p.1), membersOf_eq scope p.1⟩
  · exact fun scope p valid => ⟨p, ⟨(fieldsValid_iff _ _).mp valid, fun _ => rfl⟩,
      congrArg (separated p.2 · ++ _) (fieldPieces_eq p.1).symm, (membersOf_eq scope p.1).symm⟩

theorem results_reads : resultsForm.Reads EndsEntry id results := by
  have single : (typeForm.bind fun t => pure [Member.mk "" t]).Reads EndsEntry id
      (do return [⟨"", some (← type)⟩]) := by
    refine Form.Reads.andThen ?_ (.pure fun _ => rfl)
    exact ⟨type_reads.sound, fun _ _ _ valid hs ends => type_reads.takes valid hs ends.toEnds⟩
  have reads := ((params_reads (E := EndsEntry)).accept single (l := .mark '(') fun t => by
    obtain ⟨text, ls, lexemes⟩ := starts_type t
    exact ⟨.word text, ls, nofun, lexemes⟩).optional (fun ends => ends.arrow) []
  refine Form.Reads.congr reads ?_ ?_
  · rintro scope (_ | p | t) valid
    · exact ⟨.nothing, trivial, rfl, rfl⟩
    · exact ⟨.several p.1 p.2, valid _ rfl, rfl, rfl⟩
    · exact ⟨.single t, valid _ rfl, rfl, rfl⟩
  · rintro scope (_ | t | ⟨ms, comma⟩) valid
    · exact ⟨none, nofun, rfl, rfl⟩
    · exact ⟨some (.inr t), fun _ eq => Option.some.inj eq ▸ valid, rfl, rfl⟩
    · exact ⟨some (.inl (ms, comma)), fun _ eq => Option.some.inj eq ▸ valid, rfl, rfl⟩

theorem takeWhile_resource {resource rest : List Char} (h : '.' ∉ resource)
    (bound : rest = [] ∨ rest.head? = some '.') :
    (resource ++ rest).takeWhile (· != '.') = resource := by
  have all : ∀ c ∈ resource, (c != '.') = true := by
    intro c hc
    simpa using fun e : c = '.' => h (e ▸ hc)
  rw [takeWhile_append_of_pos all]
  obtain rfl | head := bound
  · simp
  · obtain ⟨tail, rfl⟩ := head?_eq_some_iff.mp head
    simp

theorem affiliation_eq_some_iff {name : String} {kind : FunctionKind} {resource : String} :
    affiliation name = some (kind, resource) ↔ Belongs name kind resource := by
  constructor
  · intro h
    obtain ⟨⟨mark, kind'⟩, mem, found⟩ := exists_of_findSome?_eq_some h
    dsimp only at found
    split at found
    · next marked =>
      obtain ⟨behind, e⟩ := isPrefixOf_iff_prefix.mp marked
      rw [← e, drop_left] at found
      cases found
      refine ⟨mark, behind.dropWhile (· != '.'), mem, ?_, ?_, ?_⟩
      · rw [← e, String.toList_ofList, takeWhile_append_dropWhile]
      · rw [String.toList_ofList]
        intro dot
        simpa using all_eq_true.mp all_takeWhile _ dot
      · have stop := head?_dropWhile_not (· != '.') behind
        cases head : (behind.dropWhile (· != '.')).head? with
        | none => exact .inl (head?_eq_none_iff.mp head)
        | some c =>
          rw [head] at stop
          obtain rfl : c = '.' := by simpa using stop
          exact .inr rfl
    · cases found
  · rintro ⟨mark, rest, mem, e, noDot, ends⟩
    have owner := takeWhile_resource noDot ends
    simp only [memberMarks, mem_cons, Prod.mk.injEq, not_mem_nil, or_false] at mem
    rcases mem with ⟨rfl, rfl⟩ | ⟨rfl, rfl⟩ | ⟨rfl, rfl⟩
    · simp [affiliation, memberMarks, e, owner]
    · simp [affiliation, memberMarks, e, owner]
    · simp [affiliation, memberMarks, e, owner]

theorem affiliated_eq_ok {name : String} {p : FunctionKind × Option DefId} :
    (affiliated name).run s = .ok (p, t)
      ↔ (∀ kind resource, Belongs name kind resource → s.names.lookup resource ≠ none)
        ∧ p = membership s.names name ∧ t = s := by
  rw [affiliated, membership]
  cases owner : affiliation name with
  | none =>
    have alone : ∀ kind resource, ¬Belongs name kind resource := by
      intro kind resource belongs
      cases owner.symm.trans (affiliation_eq_some_iff.mpr belongs)
    constructor
    · intro run
      cases run
      exact ⟨fun kind resource belongs => absurd belongs (alone kind resource), rfl, rfl⟩
    · rintro ⟨_, rfl, rfl⟩
      rfl
  | some p =>
    obtain ⟨kind, resource⟩ := p
    dsimp only
    rw [run_bind_ok (lookup_run _ _)]
    cases found : s.names.lookup resource with
    | none =>
      exact ⟨nofun, fun h => absurd found (h.1 kind resource (affiliation_eq_some_iff.mp owner))⟩
    | some id =>
      constructor
      · intro run
        cases run
        refine ⟨fun kind' resource' belongs => ?_, rfl, rfl⟩
        cases owner.symm.trans (affiliation_eq_some_iff.mpr belongs)
        rw [found]
        nofun
      · rintro ⟨_, rfl, rfl⟩
        rfl

def signatureForm (name : String) (p : FunctionKind × Option DefId) :
    Form ((List (String × TypeExpr) × Bool) × Results) Function :=
  (paramsForm.seq resultsForm fun params results =>
    ⟨name, params, results, p.1, p.2⟩).after (.mark '(')

theorem signature_reads (name : String) (kind : FunctionKind) (resource : Option DefId) :
    (signatureForm name (kind, resource)).Reads EndsEntry id (do
      expectMark '('
      let params ← items (member type) ')' .allowed
      let results ← results
      return { name, params, results, kind, resource }) := by
  refine Form.Reads.mark ?_ '('
  exact (params_reads (E := fun _ => True)).seq results_reads (fun _ _ _ => trivial) fun _ _ => rfl

theorem FunctionExpr.lexemes_eq (f : FunctionExpr) (p : FunctionKind × Option DefId) : f.lexemes
    = .word f.name :: .mark ':' :: .word "func" ::
      (signatureForm f.name p).lexemes ((f.params, f.comma), f.results) := by
  simp [lexemes, signatureForm, Form.after, Form.seq, paramsForm, resultsForm]

theorem function_reads : functionForm.Reads EndsEntry id function where
  sound s t v run := by
    obtain ⟨⟨tok, name⟩, s1, word, run1⟩ := run_bind_eq_ok.mp run
    obtain ⟨_, s2, colon, run2⟩ := run_bind_eq_ok.mp run1
    obtain ⟨_, s3, keyword, run3⟩ := run_bind_eq_ok.mp run2
    obtain ⟨⟨kind, resource⟩, s4, owner, run4⟩ := run_bind_eq_ok.mp run3
    obtain ⟨owned, same, rfl⟩ := affiliated_eq_ok.mp owner
    obtain ⟨⟨⟨ps, comma⟩, r⟩, valid, took⟩ := (signature_reads name kind resource).sound run4
    have whole := ((took.after ((expectKeyword_eq_ok _ _ _).mp keyword)).after
      ((expectMark_eq_ok _ _ _).mp colon)).after (expectWord_eq_ok.mp word).1
    have names : s4.names = s.names := took.names.symm.trans whole.names
    rw [← FunctionExpr.lexemes_eq ⟨name, ps, comma, r⟩, same, names] at whole
    rw [names] at owned valid
    exact ⟨⟨name, ps, comma, r⟩, ⟨owned, valid.1, valid.2⟩, whole⟩
  takes s f after valid hs ends := by
    obtain ⟨owned, params, results⟩ := valid
    have lexemes : s.lexemes = f.lexemes ++ after := hs
    rw [f.lexemes_eq (membership s.names f.name)] at lexemes
    obtain ⟨s1, ⟨line1, rfl⟩, hs1⟩ := exists_passed lexemes
    obtain ⟨s2, ⟨line2, rfl⟩, hs2⟩ := exists_passed hs1
    obtain ⟨s3, ⟨line3, rfl⟩, hs3⟩ := exists_passed hs2
    let owner := membership s3.names f.name
    obtain ⟨v, t, run, took⟩ := (signature_reads f.name owner.1 owner.2).takes (s := s3)
      (x := ((f.params, f.comma), f.results)) ⟨params, results⟩ hs3 ends
    refine ⟨v, t, ?_, ?_⟩
    · refine (run_bind_ok (expectWord_eq_ok.mpr ⟨⟨line1, rfl⟩, rfl⟩)).trans ?_
      refine (run_bind_ok ((expectMark_eq_ok _ _ _).mpr ⟨line2, rfl⟩)).trans ?_
      refine (run_bind_ok ((expectKeyword_eq_ok _ _ _).mpr ⟨line3, rfl⟩)).trans ?_
      exact (run_bind_ok ((affiliated_eq_ok (s := s3)).mpr ⟨owned, rfl, rfl⟩)).trans run
    · have whole := Took.after (l := .word "func") took ⟨line3, rfl⟩
      have lexemes : functionForm.lexemes f = _ := f.lexemes_eq owner
      rw [lexemes]
      exact (whole.after ⟨line2, rfl⟩).after ⟨line1, rfl⟩

/-! ## Entries -/

theorem get_run (s : Reading) : (get : Read Reading).run s = .ok (s, s) := rfl

theorem nameType_run (name : String) (ref : TypeRef) (s : Reading) : (nameType name ref).run s
    = .ok (((defineNamed name (some ref)).run s.graph).map id fun g => { s with graph := g }) := by
  cases ref with
  | defn id =>
    change (if (s.graph.name id).isEmpty then _ else _ : Read DefId).run s = .ok
      (((if (s.graph.name id).isEmpty then _ else _ : StateM Graph DefId).run s.graph).map _ _)
    split
    · rfl
    · rfl
  | _ => rfl

theorem typed_reads (name : String) :
    ((typeForm.bind (defineNamed name)).after (.mark '=')).Reads Ends id (typed name) :=
  Form.Reads.mark
    (type_reads.andThen fun ref s => ⟨_, _, nameType_run name ref s, rfl, rfl, rfl⟩) '='

/-- Reading took the tokens of an entry, and declared what it says. -/
structure TookEntry (e : Entry) (before : List Function) (s : Reading) (functions : List Function)
    (t : Reading) : Prop where
  lexemes : s.lexemes = e.lexemes ++ t.lexemes
  declares : e.declare ⟨s.graph, s.names, before⟩ = ⟨t.graph, t.names, functions⟩

section Entries

variable {before functions : List Function} {name : String}

theorem declared_eq_ok {x : Read DefId} : (do
      let id ← x
      declare name id
      return before : Read (List Function)).run s = .ok (functions, t)
    ↔ ∃ id u, x.run s = .ok (id, u) ∧ u.names.lookup name = none ∧ functions = before
      ∧ t = { u with names := u.names ++ [(name, id)] } := by
  rw [run_bind_eq_ok]
  refine exists_congr fun id => exists_congr fun u => and_congr_right fun _ => ?_
  rw [declare, bind_assoc, run_bind_ok (lookup_run _ _)]
  cases u.names.lookup name with
  | none =>
    constructor
    · intro run
      cases run
      exact ⟨rfl, rfl, rfl⟩
    · rintro ⟨_, rfl, rfl⟩
      rfl
  | some id' => exact ⟨nofun, nofun⟩

theorem added_eq_ok {tok : Token} : (do
      let f ← function
      if before.any (·.name == f.name) then
        throw (misplaced tok ("duplicate function " ++ Text.quoted f.name))
      return before ++ [f] : Read (List Function)).run s = .ok (functions, t)
    ↔ ∃ f, function.run s = .ok (f, t) ∧ before.find? (·.name == f.name) = none
      ∧ functions = before ++ [f] := by
  rw [run_bind_eq_ok]
  have missing : ∀ f : Function, before.any (·.name == f.name) = false
      ↔ before.find? (·.name == f.name) = none := by
    intro f
    rw [any_eq_false, find?_eq_none]
  constructor
  · rintro ⟨f, s1, read, run⟩
    by_cases known : before.any (·.name == f.name)
    · rw [if_pos known] at run
      cases run
    · rw [if_neg known] at run
      cases run
      exact ⟨f, read, (missing f).mp (Bool.eq_false_iff.mpr known), rfl⟩
  · rintro ⟨f, read, fresh, rfl⟩
    refine ⟨f, t, read, ?_⟩
    rw [(missing f).mpr fresh]
    rfl

theorem declaration_sound (run : (declaration before).run s = .ok (functions, t))
    (h : s.tokens ≠ []) :
    ∃ e : Entry, e.Valid ⟨s.graph, s.names, before⟩ ∧ TookEntry e before s functions t := by
  obtain ⟨semicolon, s1, first, others⟩ := run_bind_eq_ok.mp run
  obtain ⟨rfl, line, rfl⟩ | ⟨rfl, rfl, -⟩ := accept_eq_ok.mp first
  · cases others
    exact ⟨.semicolon, trivial, rfl, rfl⟩
  · rw [if_neg Bool.false_ne_true, run_bind_ok (get_run s1)] at others
    obtain ⟨tokens, graph, names⟩ := s1
    dsimp only at others
    split at others
    · obtain ⟨_, s3, skipped, last⟩ := run_bind_eq_ok.mp others
      cases skipped
      obtain ⟨id, u, made, fresh, rfl, rfl⟩ := declared_eq_ok.mp last
      cases made
      exact ⟨.resource _, fresh, rfl, rfl⟩
    · next name _ rest =>
      obtain ⟨_, s3, skipped, last⟩ := run_bind_eq_ok.mp others
      cases skipped
      obtain ⟨id, u, made, fresh, rfl, rfl⟩ := declared_eq_ok.mp last
      obtain ⟨e, valid, took⟩ := (typed_reads name).sound made
      refine ⟨.type name e, ⟨valid, took.names ▸ fresh⟩, ?_, ?_⟩
      · exact congrArg (Lexeme.word "type" :: .word name :: ·) took.lexemes
      · have means : (e.type names >>= defineNamed name).run graph = (id, u.graph) := took.means
        rw [took.names, Entry.declare, means]
    · exact absurd rfl h
    · obtain ⟨f, read, fresh, rfl⟩ := added_eq_ok.mp others
      obtain ⟨e, valid, took⟩ := function_reads.sound read
      have name : f.name = e.name := congrArg (fun p => p.1.name) took.means.symm
      refine ⟨.function e, ⟨valid, name ▸ fresh⟩, took.lexemes, ?_⟩
      have means : (e.function names).run graph = (f, t.graph) := took.means
      rw [took.names, Entry.declare, means]

theorem tokens_of_words {text name : String} (h : s.lexemes = .word text :: .word name :: after) :
    ∃ line line' rest, s.tokens = ⟨.word text, line⟩ :: ⟨.word name, line'⟩ :: rest
      ∧ rest.map (·.lexeme) = after := by
  obtain ⟨⟨_, line⟩, _, tokens, rfl, behind⟩ := map_eq_cons_iff.mp h
  obtain ⟨⟨_, line'⟩, rest, rfl, rfl, last⟩ := map_eq_cons_iff.mp behind
  exact ⟨line, line', rest, tokens, last⟩

theorem declaration_takes {e : Entry} (valid : e.Valid ⟨s.graph, s.names, before⟩)
    (hs : s.lexemes = e.lexemes ++ after) (ends : EndsEntry after) :
    ∃ functions t, (declaration before).run s = .ok (functions, t)
      ∧ TookEntry e before s functions t := by
  cases e with
  | semicolon =>
    obtain ⟨t, ⟨line, rfl⟩, _⟩ := exists_passed hs
    refine ⟨before, t, ?_, rfl, rfl⟩
    rfl
  | resource name =>
    have word : s.lexemes.head? ≠ some (.mark ';') := by simp [hs, Entry.lexemes]
    obtain ⟨line, line', rest, tokens, _⟩ := tokens_of_words hs
    obtain ⟨_, graph, names⟩ := s
    subst tokens
    refine ⟨before, ⟨rest, graph.push { name, kind := some .resource },
      names ++ [(name, graph.nextId)]⟩, ?_, rfl, rfl⟩
    refine (run_bind_ok (accept_eq_ok.mpr (.inr ⟨rfl, rfl, word⟩))).trans ?_
    exact (declared_eq_ok (x := allocate { name, kind := some .resource })
      (s := ⟨rest, graph, names⟩)).mpr ⟨_, _, rfl, valid, rfl, rfl⟩
  | type name e =>
    have word : s.lexemes.head? ≠ some (.mark ';') := by simp [hs, Entry.lexemes]
    obtain ⟨line, line', rest, tokens, hrest⟩ := tokens_of_words hs
    obtain ⟨_, graph, names⟩ := s
    subst tokens
    obtain ⟨id, u, run, took⟩ :=
      (typed_reads name).takes (s := ⟨rest, graph, names⟩) valid.1 hrest ends.toEnds
    refine ⟨before, { u with names := u.names ++ [(name, id)] }, ?_,
      congrArg (Lexeme.word "type" :: .word name :: ·) took.lexemes, ?_⟩
    · refine (run_bind_ok (accept_eq_ok.mpr (.inr ⟨rfl, rfl, word⟩))).trans ?_
      have declared := declared_eq_ok.mpr ⟨id, u, run, took.names ▸ valid.2,
        (rfl : before = before), rfl⟩
      exact declared
    · have means : (e.type names >>= defineNamed name).run graph = (id, u.graph) := took.means
      rw [took.names, Entry.declare, means]
  | function f =>
    have word : s.lexemes.head? ≠ some (.mark ';') := by
      simp [hs, Entry.lexemes, FunctionExpr.lexemes]
    obtain ⟨v, t, read, took⟩ := function_reads.takes valid.1 hs ends
    have name : v.name = f.name := congrArg (fun p => p.1.name) took.means.symm
    refine ⟨before ++ [v], t, ?_, took.lexemes, ?_⟩
    · rw [declaration, run_bind_ok (accept_eq_ok.mpr (.inr ⟨rfl, rfl, word⟩)),
        if_neg Bool.false_ne_true, run_bind_ok (get_run s)]
      -- A mark follows the name, so it is no keyword.
      have colon : s.lexemes[1]? = some (.mark ':') := by rw [hs]; rfl
      split
      · next tokens => simp [Reading.lexemes, tokens] at colon
      · next tokens => simp [Reading.lexemes, tokens] at colon
      · next tokens => simp [Reading.lexemes, tokens] at colon
      · exact added_eq_ok.mpr ⟨v, read, name ▸ valid.2, rfl⟩
    · have means : (f.function s.names).run s.graph = (v, t.graph) := took.means
      rw [took.names, Entry.declare, means]

end Entries

/-! ## Files -/

theorem Entry.lexemes_ne_nil (e : Entry) : e.lexemes ≠ [] := by
  cases e <;> simp [Entry.lexemes, FunctionExpr.lexemes]

theorem TookEntry.length_lt {e : Entry} {before functions : List Function}
    (h : TookEntry e before s functions t) : t.tokens.length < s.tokens.length := by
  have length := congrArg length h.lexemes
  have positive := length_pos_iff.mpr e.lexemes_ne_nil
  simp only [Reading.lexemes, length_map, length_append] at length
  omega

theorem ends_file (file : List Entry) : EndsEntry (file.flatMap Entry.lexemes) := by
  cases file with
  | nil => exact ⟨⟨nofun, nofun⟩, nofun⟩
  | cons e es =>
    cases e <;> refine ⟨⟨?_, ?_⟩, ?_⟩ <;> simp [Entry.lexemes, FunctionExpr.lexemes]

theorem declarations_sound {s : Reading} (bound : Nat) {before functions : List Function}
    (enough : s.tokens.length ≤ bound)
    (run : (declarations before bound).run s = .ok (functions, t)) :
    ∃ file : List Entry, FileValid ⟨s.graph, s.names, before⟩ file
      ∧ s.lexemes = file.flatMap Entry.lexemes
      ∧ file.foldl Entry.declare ⟨s.graph, s.names, before⟩ = ⟨t.graph, t.names, functions⟩ := by
  induction bound generalizing s before with
  | zero =>
    have empty : s.tokens = [] := length_eq_zero_iff.mp (Nat.le_zero.mp enough)
    cases run
    exact ⟨[], trivial, by simp [Reading.lexemes, empty], rfl⟩
  | succ bound ih =>
    rw [declarations, run_bind_ok (get_run s)] at run
    by_cases empty : s.tokens = []
    · rw [empty] at run
      cases run
      exact ⟨[], trivial, by simp [Reading.lexemes, empty], rfl⟩
    · rw [if_neg (by simpa using empty)] at run
      obtain ⟨middle, s2, first, others⟩ := run_bind_eq_ok.mp run
      obtain ⟨e, valid, took⟩ := declaration_sound first empty
      have fewer : s2.tokens.length ≤ bound :=
        Nat.le_of_lt_succ (Nat.lt_of_lt_of_le took.length_lt enough)
      obtain ⟨file, fileValid, lexemes, declares⟩ := ih fewer others
      rw [← took.declares] at fileValid declares
      refine ⟨e :: file, ⟨valid, fileValid⟩, ?_, declares⟩
      rw [took.lexemes, lexemes, flatMap_cons]

theorem declarations_takes {s : Reading} (bound : Nat) {before : List Function} {file : List Entry}
    (enough : s.tokens.length ≤ bound) (valid : FileValid ⟨s.graph, s.names, before⟩ file)
    (hs : s.lexemes = file.flatMap Entry.lexemes) :
    ∃ functions t, (declarations before bound).run s = .ok (functions, t)
      ∧ file.foldl Entry.declare ⟨s.graph, s.names, before⟩ = ⟨t.graph, t.names, functions⟩ := by
  induction file generalizing s before bound with
  | nil =>
    have empty : s.tokens = [] := map_eq_nil_iff.mp hs
    refine ⟨before, s, ?_, rfl⟩
    cases bound with
    | zero => rfl
    | succ bound =>
      obtain ⟨_, graph, names⟩ := s
      subst empty
      rfl
  | cons e file ih =>
    obtain ⟨valid, fileValid⟩ := valid
    obtain ⟨middle, s1, first, took⟩ := declaration_takes valid hs (ends_file file)
    have fewer := took.length_lt
    rw [took.declares] at fileValid
    obtain _ | bound := bound
    · omega
    obtain ⟨functions, t, others, declares⟩ := ih bound (by omega) fileValid
      (append_cancel_left (took.lexemes.symm.trans hs))
    refine ⟨functions, t, ?_, ?_⟩
    · have more : ¬s.tokens.isEmpty := by
        rw [isEmpty_iff_length_eq_zero]
        omega
      rw [declarations, run_bind_ok (get_run s), if_neg more, run_bind_ok first, others]
    · rw [foldl_cons, took.declares, declares]

theorem readTokens_eq_ok {tokens : List Token} {d : Declarations} : readTokens tokens = .ok d
    ↔ ∃ functions s, (declarations [] tokens.length).run ⟨tokens, Graph.empty, []⟩
      = .ok (functions, s) ∧ ⟨s.graph, s.names, functions⟩ = d := by
  rw [readTokens]
  cases (declarations [] tokens.length).run ⟨tokens, Graph.empty, []⟩ with
  | error e => simp [bind, Except.bind]
  | ok p =>
    obtain ⟨functions, s⟩ := p
    constructor
    · intro run
      cases run
      exact ⟨functions, s, rfl, rfl⟩
    · rintro ⟨_, _, ⟨⟩, rfl⟩
      rfl

theorem readTokens_eq_ok_iff (tokens : List Token) (d : Declarations) :
    readTokens tokens = .ok d ↔ Derives (tokens.map (·.lexeme)) d := by
  rw [readTokens_eq_ok]
  constructor
  · rintro ⟨functions, s, run, rfl⟩
    exact declarations_sound tokens.length (Nat.le_refl _) run
  · rintro ⟨file, valid, lexemes, rfl⟩
    obtain ⟨functions, s, run, declares⟩ := declarations_takes tokens.length
      (s := ⟨tokens, Graph.empty, []⟩) (Nat.le_refl _) valid lexemes
    exact ⟨functions, s, run, declares.symm⟩

theorem read_eq_ok_iff {α : Type} {text : List Char} (read : List Token → Except Failure α)
    {context : Failure → Failure} {v : α} :
    (tokens text >>= read).mapError context = .ok v
      ↔ ∃ ts, tokens text = .ok ts ∧ read ts = .ok v := by
  cases tokens text with
  | error e => simp [bind, Except.bind, Except.mapError]
  | ok ts => cases run : read ts <;> simp [bind, Except.bind, Except.mapError, run]

theorem onlyFunction_eq_ok {v : Function} :
    onlyFunction.run s = .ok (v, t) ↔ function.run s = .ok (v, t) ∧ t.tokens = [] := by
  constructor
  · intro run
    obtain ⟨w, u, first, run⟩ := run_bind_eq_ok.mp run
    obtain ⟨tokens, graph, names⟩ := u
    cases tokens with
    | nil =>
      cases run
      exact ⟨first, rfl⟩
    | cons tok rest => cases run
  · rintro ⟨run, last⟩
    obtain ⟨tokens, graph, names⟩ := t
    cases last
    rw [onlyFunction, run_bind_ok run]
    rfl

theorem readFunction_eq_ok_iff (d : Declarations) (text : List Char) (v : Function) (g : Graph) :
    readFunction d text = .ok (v, g)
      ↔ ∃ ts, tokens text = .ok ts ∧ ∃ f : FunctionExpr, f.Valid d.types
        ∧ ts.map (·.lexeme) = f.lexemes ∧ (f.function d.types).run d.graph = (v, g) := by
  refine (read_eq_ok_iff fun ts =>
    (onlyFunction.run ⟨ts, d.graph, d.types⟩).map fun p => (p.1, p.2.graph)).trans
    (exists_congr fun ts => and_congr_right fun _ => ?_)
  constructor
  · intro run
    cases read : onlyFunction.run ⟨ts, d.graph, d.types⟩ with
    | error e => cases read ▸ run
    | ok p =>
      obtain ⟨w, t⟩ := p
      cases read ▸ run
      obtain ⟨first, last⟩ := onlyFunction_eq_ok.mp read
      obtain ⟨f, valid, took⟩ := function_reads.sound first
      have lexemes : _ = f.lexemes ++ _ := took.lexemes
      rw [Reading.lexemes, Reading.lexemes, last, map_nil, append_nil] at lexemes
      exact ⟨f, valid, lexemes, took.means⟩
  · rintro ⟨f, valid, lexemes, means⟩
    have whole : Reading.lexemes ⟨ts, d.graph, d.types⟩ = f.lexemes ++ [] := by
      rw [append_nil, ← lexemes]
      rfl
    obtain ⟨w, t, run, took⟩ := function_reads.takes
      (s := ⟨ts, d.graph, d.types⟩) valid whole ⟨⟨by simp, by simp⟩, by simp⟩
    have last : t.tokens = [] := map_eq_nil_iff.mp (took.rest whole)
    rw [onlyFunction_eq_ok.mpr ⟨run, last⟩]
    exact congrArg Except.ok (took.means.symm.trans means)

/-- **Reading accepts exactly the grammar.** Tokens are read if and only if they are those of a file
that makes sense, and then what is read is what that file declares. So two files with the same
tokens declare the same. A text is read if and only if it splits into such tokens. -/
theorem reading_accepts_grammar :
    (∀ (tokens : List Token) (d : Declarations),
      readTokens tokens = .ok d ↔ Derives (tokens.map (·.lexeme)) d)
    ∧ ∀ (text : List Char) (d : Declarations),
      readDeclarations text = .ok d
        ↔ ∃ ts, tokens text = .ok ts ∧ Derives (ts.map (·.lexeme)) d := by
  refine ⟨readTokens_eq_ok_iff, fun text d => ?_⟩
  rw [readDeclarations, read_eq_ok_iff]
  exact exists_congr fun ts => and_congr_right fun _ => readTokens_eq_ok_iff ts d

end CanonicalAbi.Idl
