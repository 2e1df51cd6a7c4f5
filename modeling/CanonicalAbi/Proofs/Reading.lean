import CanonicalAbi.Proofs.Grammar
import Mathlib.Data.List.Basic

/-!
# Reading follows the grammar

Each routine of the reader belongs to a form of the grammar. Where it succeeds, it has taken the
lexemes of something of that form which makes sense, and returns what that means.
-/

namespace CanonicalAbi.Idl

open List

variable {α β γ δ ι κ : Type} {g : δ → γ} {l : Lexeme} {x : Read α}

/-! ## Runs -/

theorem run_bind_eq_ok {f : α → Read β} {s s' : Reading} {b : β} :
    (x >>= f).run s = .ok (b, s') ↔ ∃ a t, x.run s = .ok (a, t) ∧ (f a).run t = .ok (b, s') := by
  rw [StateT.run_bind]
  cases x.run s with
  | error e => simp [bind, Except.bind]
  | ok p =>
    obtain ⟨a, t⟩ := p
    constructor
    · exact fun h => ⟨a, t, rfl, h⟩
    · rintro ⟨_, _, ⟨⟩, h⟩
      exact h

theorem run_bind_ok {f : α → Read β} {s t : Reading} {a : α} (h : x.run s = .ok (a, t)) :
    (x >>= f).run s = (f a).run t := by
  rw [StateT.run_bind, h]
  rfl

def Reading.lexemes (s : Reading) : List Lexeme := s.tokens.map (·.lexeme)

/-- Between two states a token was taken and nothing else changed. -/
def Passed (s t : Reading) (l : Lexeme) : Prop :=
  ∃ line, s = { t with tokens := ⟨l, line⟩ :: t.tokens }

/-- Between two states some lexemes were taken, the declared names stayed, and the definitions grew
as a meaning says. -/
structure Took (s t : Reading) (ls : List Lexeme) (m : StateM Graph β) (v : β) : Prop where
  lexemes : s.lexemes = ls ++ t.lexemes
  names : t.names = s.names
  means : m.run s.graph = (v, t.graph)

namespace Took

variable {s t u : Reading} {ls ls' : List Lexeme} {m : StateM Graph β} {v : β} {l : Lexeme}

theorem refl (s : Reading) (v : β) : Took s s [] (pure v) v := ⟨rfl, rfl, rfl⟩

theorem bind (h : Took s t ls m v) {f : β → StateM Graph γ} {w : γ} (h' : Took t u ls' (f v) w) :
    Took s u (ls ++ ls') (m >>= f) w where
  lexemes := by rw [h.lexemes, h'.lexemes, append_assoc]
  names := h'.names.trans h.names
  means := by
    rw [StateT.run_bind, h.means]
    exact h'.means

theorem andThen (h : Took s t ls m v) {f : β → StateM Graph γ} {w : γ} (h' : Took t u [] (f v) w) :
    Took s u ls (m >>= f) w := by
  have both := h.bind h'
  rwa [append_nil] at both

theorem after (h' : Took t u ls m v) (h : Passed s t l) : Took s u (l :: ls) m v := by
  obtain ⟨line, rfl⟩ := h
  exact ⟨congrArg (l :: ·) h'.lexemes, h'.names, h'.means⟩

theorem before (h : Took s t ls m v) (h' : Passed t u l) : Took s u (ls ++ [l]) m v := by
  obtain ⟨line, rfl⟩ := h'
  exact ⟨h.lexemes.trans (append_assoc ls [l] _).symm, h.names, h.means⟩

theorem rest (h : Took s t ls m v) {after : List Lexeme} (hs : s.lexemes = ls ++ after) :
    t.lexemes = after :=
  append_cancel_left (h.lexemes.symm.trans hs)

end Took

/-! ## Single tokens -/

section Tokens

variable {s t : Reading} {l : Lexeme}

theorem exists_passed {after : List Lexeme} (h : s.lexemes = l :: after) :
    ∃ t, Passed s t l ∧ t.lexemes = after := by
  obtain ⟨⟨_, line⟩, rest, tokens, rfl, behind⟩ := map_eq_cons_iff.mp h
  exact ⟨{ s with tokens := rest }, ⟨line, by rw [← tokens]⟩, behind⟩

theorem accept_eq_ok {b : Bool} : (accept l).run s = .ok (b, t)
    ↔ b = true ∧ Passed s t l ∨ b = false ∧ t = s ∧ s.lexemes.head? ≠ some l := by
  obtain ⟨_ | ⟨⟨l', line⟩, rest⟩, graph, names⟩ := s
  · constructor
    · intro h
      cases h
      exact .inr ⟨rfl, rfl, nofun⟩
    · rintro (⟨_, _, ⟨⟩⟩ | ⟨rfl, rfl, _⟩)
      rfl
  · change (if l' == l then _ else _ : Read Bool).run _ = _ ↔ _
    by_cases same : l' = l
    · subst same
      rw [beq_self_eq_true, if_pos rfl]
      constructor
      · intro h
        cases h
        exact .inl ⟨rfl, line, rfl⟩
      · rintro (⟨rfl, _, ⟨⟩⟩ | ⟨_, _, other⟩)
        · rfl
        · exact absurd rfl other
    · rw [beq_false_of_ne same, if_neg Bool.false_ne_true]
      constructor
      · intro h
        cases h
        exact .inr ⟨rfl, rfl, fun eq => same (Option.some.inj eq)⟩
      · rintro (⟨_, _, ⟨⟩⟩ | ⟨rfl, rfl, _⟩)
        · exact absurd rfl same
        · rfl

theorem expectMark_eq_ok (c : Char) (s t : Reading) :
    (expectMark c).run s = .ok ((), t) ↔ Passed s t (.mark c) := by
  constructor
  · obtain ⟨_ | ⟨⟨l, line⟩, rest⟩, graph, names⟩ := s
    · exact nofun
    · intro h
      change (if l == .mark c then _ else _ : Read Unit).run _ = _ at h
      split at h
      · next same =>
        cases h
        exact ⟨line, by rw [beq_iff_eq.mp same]⟩
      · cases h
  · rintro ⟨line, rfl⟩
    change (if (Lexeme.mark c) == .mark c then _ else _ : Read Unit).run _ = _
    rw [beq_self_eq_true]
    rfl

theorem expectWord_eq_ok {tok : Token} {text : String} : expectWord.run s = .ok ((tok, text), t)
    ↔ Passed s t (.word text) ∧ s.tokens.head? = some tok := by
  constructor
  · obtain ⟨_ | ⟨⟨l, line⟩, rest⟩, graph, names⟩ := s
    · exact nofun
    · intro h
      cases l with
      | word text' =>
        cases h
        exact ⟨⟨line, rfl⟩, rfl⟩
      | mark | arrow => cases h
  · rintro ⟨⟨line, rfl⟩, ⟨⟩⟩
    rfl

theorem expectKeyword_eq_ok (keyword : String) (s t : Reading) :
    (expectKeyword keyword).run s = .ok ((), t) ↔ Passed s t (.word keyword) := by
  rw [expectKeyword, run_bind_eq_ok]
  constructor
  · rintro ⟨⟨tok, text⟩, s1, word, rest⟩
    dsimp only at rest
    by_cases same : text = keyword
    · subst same
      rw [beq_self_eq_true] at rest
      cases rest
      exact (expectWord_eq_ok.mp word).1
    · rw [beq_false_of_ne same] at rest
      cases rest
  · intro passed
    obtain ⟨line, rfl⟩ := passed
    refine ⟨_, t, expectWord_eq_ok.mpr ⟨⟨line, rfl⟩, rfl⟩, ?_⟩
    dsimp only
    rw [beq_self_eq_true]
    rfl

theorem lookup_run (name : String) (s : Reading) :
    (lookup name).run s = .ok (s.names.lookup name, s) := rfl

end Tokens

/-! ## Forms -/

/-- A form of the grammar: the lexemes of each thing of that form, when it makes sense in a scope,
and what it means there. -/
structure Form (ι β : Type) where
  lexemes : ι → List Lexeme
  Valid : Scope → ι → Prop
  meaning : Scope → ι → StateM Graph β

/-- What may follow a type. -/
structure Ends (after : List Lexeme) : Prop where
  angle : after.head? ≠ some (.mark '<')
  paren : after.head? ≠ some (.mark '(')

theorem ends_mark {c : Char} (h : c ≠ '<' ∧ c ≠ '(') (after : List Lexeme) :
    Ends (.mark c :: after) where
  angle := by simpa using h.1
  paren := by simpa using h.2

namespace Form

/-- A routine takes exactly the things of a form that make sense, and returns what they mean. What
follows them has to end them. -/
structure Reads (F : Form ι β) (E : List Lexeme → Prop) (f : α → β) (read : Read α) : Prop where
  sound : ∀ ⦃s t : Reading⦄ ⦃v : α⦄, read.run s = .ok (v, t) →
    ∃ x, F.Valid s.names x ∧ Took s t (F.lexemes x) (F.meaning s.names x) (f v)
  takes : ∀ ⦃s : Reading⦄ ⦃x : ι⦄ ⦃after : List Lexeme⦄, F.Valid s.names x →
    s.lexemes = F.lexemes x ++ after → E after →
    ∃ v t, read.run s = .ok (v, t) ∧ Took s t (F.lexemes x) (F.meaning s.names x) (f v)

def Covers (F : Form ι β) (G : Form κ β) : Prop := ∀ scope y, G.Valid scope y →
  ∃ x, F.Valid scope x ∧ F.lexemes x = G.lexemes y ∧ F.meaning scope x = G.meaning scope y

def done (b : β) : Form Unit β := ⟨fun _ => [], fun _ _ => True, fun _ _ => pure b⟩

def known (value : Scope → Option β) : Form Unit (Option β) :=
  ⟨fun _ => [], fun scope _ => value scope ≠ none, fun scope _ => pure (value scope)⟩

def after (l : Lexeme) (F : Form ι β) : Form ι β := { F with lexemes x := l :: F.lexemes x }

def before (F : Form ι β) (l : Lexeme) : Form ι β := { F with lexemes x := F.lexemes x ++ [l] }

def bind (F : Form ι β) (m : β → StateM Graph γ) : Form ι γ :=
  { F with meaning scope x := F.meaning scope x >>= m }

def or (F : Form ι β) (G : Form κ β) : Form (ι ⊕ κ) β where
  lexemes := Sum.elim F.lexemes G.lexemes
  Valid scope := Sum.elim (F.Valid scope) (G.Valid scope)
  meaning scope := Sum.elim (F.meaning scope) (G.meaning scope)

def without (F : Form ι β) (l : Lexeme) : Form ι β :=
  { F with Valid scope x := F.Valid scope x ∧ (F.lexemes x).head? ≠ some l }

def optional (F : Form ι β) (b : β) : Form (Option ι) β where
  lexemes
    | none => []
    | some x => F.lexemes x
  Valid scope x := ∀ y, x = some y → F.Valid scope y
  meaning scope
    | none => pure b
    | some x => F.meaning scope x

def word (F : String → Form ι β) : Form (String × ι) β where
  lexemes x := .word x.1 :: (F x.1).lexemes x.2
  Valid scope x := (F x.1).Valid scope x.2
  meaning scope x := (F x.1).meaning scope x.2

def seq (F : Form ι β) (G : Form κ γ) (both : β → γ → δ) : Form (ι × κ) δ where
  lexemes x := F.lexemes x.1 ++ G.lexemes x.2
  Valid scope x := F.Valid scope x.1 ∧ G.Valid scope x.2
  meaning scope x := do
    let b ← F.meaning scope x.1
    let c ← G.meaning scope x.2
    return both b c

def within (F : Form ι β) (Fits : Nat → ι → Prop) (bound : Nat) : Form ι β :=
  { F with Valid scope x := F.Valid scope x ∧ Fits bound x }

def Quiet (f : α → β) (m : β → StateM Graph γ) (g : δ → γ) (k : α → Read δ) : Prop :=
  ∀ a s, ∃ w t, (k a).run s = .ok (w, t) ∧ Took s t [] (m (f a)) (g w)

theorem Quiet.pure {f : α → β} {m : β → γ} {k : α → δ} (h : ∀ a, g (k a) = m (f a)) :
    Quiet f (fun b => pure (m b)) g (fun a => pure (k a)) :=
  fun a s => ⟨k a, s, rfl, h a ▸ .refl _ _⟩

theorem Quiet.define {f : α → β} {m : β → Kind} {k : α → Kind} (h : ∀ a, k a = m (f a)) :
    Quiet f (fun b => Idl.define (m b)) some (fun a => allocateKind (k a)) :=
  fun a _ => ⟨_, _, rfl, h a ▸ ⟨rfl, rfl, rfl⟩⟩

namespace Reads

variable {F : Form ι β} {E D : List Lexeme → Prop} {f : α → β} {x : Read α}

theorem congr (h : F.Reads E f x) {G : Form κ β} (sub : G.Covers F) (sup : F.Covers G) :
    G.Reads E f x where
  sound s t v run := by
    obtain ⟨y, valid, took⟩ := h.sound run
    obtain ⟨z, valid, lexemes, meaning⟩ := sub _ y valid
    exact ⟨z, valid, by rwa [lexemes, meaning]⟩
  takes s z rest valid hs ends := by
    obtain ⟨y, valid, lexemes, meaning⟩ := sup _ z valid
    rw [← lexemes] at hs ⊢
    rw [← meaning]
    exact h.takes valid hs ends

theorem pure (v : α) : (done (f v)).Reads E f (pure v) where
  sound s t w run := by
    cases run
    exact ⟨(), trivial, .refl _ _⟩
  takes s _ _ _ _ _ := ⟨v, s, rfl, .refl _ _⟩

theorem known {value : Scope → Option α}
    (h : ∀ s v t, x.run s = .ok (v, t) ↔ t = s ∧ value s.names = some v) :
    (known value).Reads E some x where
  sound s t v run := by
    obtain ⟨rfl, eq⟩ := (h s v t).mp run
    exact ⟨(), by simp [Form.known, eq], rfl, rfl, congrArg (Prod.mk · _) eq⟩
  takes s _ _ valid _ _ := by
    obtain ⟨v, eq⟩ := Option.ne_none_iff_exists'.mp valid
    exact ⟨v, s, (h s v s).mpr ⟨rfl, eq⟩, rfl, rfl, congrArg (Prod.mk · _) eq⟩

theorem expect {r : Read Unit} (hr : ∀ s t, r.run s = .ok ((), t) ↔ Passed s t l)
    (h : F.Reads E f x) : (F.after l).Reads E f (r >>= fun _ => x) where
  sound s t v run := by
    obtain ⟨_, s1, first, later⟩ := run_bind_eq_ok.mp run
    obtain ⟨line, rfl⟩ := (hr _ _).mp first
    obtain ⟨y, valid, took⟩ := h.sound later
    exact ⟨y, valid, took.after ⟨line, rfl⟩⟩
  takes s y rest valid hs ends := by
    obtain ⟨t, ⟨line, rfl⟩, ht⟩ := exists_passed hs
    obtain ⟨v, u, run, took⟩ := h.takes (s := t) valid ht ends
    exact ⟨v, u, by rw [run_bind_ok ((hr _ _).mpr ⟨line, rfl⟩), run], took.after ⟨line, rfl⟩⟩

theorem mark (h : F.Reads E f x) (c : Char) :
    (F.after (.mark c)).Reads E f (expectMark c >>= fun _ => x) :=
  h.expect (expectMark_eq_ok c)

theorem word {F : String → Form ι β} {k : Token × String → Read α}
    (h : ∀ tok text, (F text).Reads E f (k (tok, text))) :
    (Form.word F).Reads E f (expectWord >>= k) where
  sound s t v run := by
    obtain ⟨⟨tok, text⟩, s1, first, later⟩ := run_bind_eq_ok.mp run
    obtain ⟨⟨line, rfl⟩, _⟩ := expectWord_eq_ok.mp first
    obtain ⟨y, valid, took⟩ := (h tok text).sound later
    exact ⟨(text, y), valid, took.after ⟨line, rfl⟩⟩
  takes s y rest valid hs ends := by
    obtain ⟨t, ⟨line, rfl⟩, ht⟩ := exists_passed hs
    obtain ⟨v, u, run, took⟩ := (h _ y.1).takes (s := t) valid ht ends
    refine ⟨v, u, ?_, took.after ⟨line, rfl⟩⟩
    rw [run_bind_ok (expectWord_eq_ok.mpr ⟨⟨line, rfl⟩, rfl⟩), run]

theorem acceptOr {G : Form κ β} {y : Read α} (yes : F.Reads E f x) (no : G.Reads E f y)
    (stop : ∀ z {rest}, G.lexemes z = [] → E rest → rest.head? ≠ some l) :
    ((F.after l).or (G.without l)).Reads E f (Idl.accept l >>= fun b => if b then x else y) where
  sound s t v run := by
    obtain ⟨b, s1, first, later⟩ := run_bind_eq_ok.mp run
    obtain ⟨rfl, line, rfl⟩ | ⟨rfl, rfl, other⟩ := accept_eq_ok.mp first
    · obtain ⟨z, valid, took⟩ := yes.sound later
      exact ⟨.inl z, valid, took.after ⟨line, rfl⟩⟩
    · obtain ⟨z, valid, took⟩ := no.sound later
      refine ⟨.inr z, ⟨valid, fun head => other ?_⟩, took⟩
      rw [took.lexemes, head?_append, head, Option.some_or]
  takes s z rest valid hs ends := by
    cases z with
    | inl z =>
      obtain ⟨t, ⟨line, rfl⟩, ht⟩ := exists_passed hs
      obtain ⟨v, u, run, took⟩ := yes.takes (s := t) valid ht ends
      refine ⟨v, u, ?_, took.after ⟨line, rfl⟩⟩
      rw [run_bind_ok (accept_eq_ok.mpr (.inl ⟨rfl, line, rfl⟩)), if_pos rfl, run]
    | inr z =>
      obtain ⟨v, u, run, took⟩ := no.takes valid.1 hs ends
      refine ⟨v, u, ?_, took⟩
      have whole : s.lexemes = G.lexemes z ++ rest := hs
      have other : s.lexemes.head? ≠ some l := by
        rw [whole]
        cases first : G.lexemes z with
        | nil => exact stop z first ends
        | cons l' ls =>
          have head : (G.lexemes z).head? ≠ some l := valid.2
          rwa [first] at head
      rw [run_bind_ok (accept_eq_ok.mpr (.inr ⟨rfl, rfl, other⟩)), if_neg Bool.false_ne_true, run]

theorem accept {G : Form κ β} {y : Read α} (yes : F.Reads E f x) (no : G.Reads E f y)
    (other : ∀ z, ∃ l' ls, l' ≠ l ∧ G.lexemes z = l' :: ls) :
    ((F.after l).or G).Reads E f (Idl.accept l >>= fun b => if b then x else y) := by
  refine congr (yes.acceptOr no fun z rest empty => ?_) ?_ ?_
  · obtain ⟨l', ls, _, lexemes⟩ := other z
    cases empty.symm.trans lexemes
  · rintro scope (z | z) valid
    · exact ⟨.inl z, valid, rfl, rfl⟩
    · exact ⟨.inr z, valid.1, rfl, rfl⟩
  · rintro scope (z | z) valid
    · exact ⟨.inl z, valid, rfl, rfl⟩
    · obtain ⟨l', ls, ne, lexemes⟩ := other z
      exact ⟨.inr z, ⟨valid, by simp [lexemes, ne]⟩, rfl, rfl⟩

theorem optional (yes : F.Reads E f x) (stop : ∀ {rest}, E rest → rest.head? ≠ some l) (v : α) :
    ((F.after l).optional (f v)).Reads E f
      (Idl.accept l >>= fun b => if b then x else Pure.pure v) := by
  refine congr (yes.acceptOr (.pure v) fun _ _ _ => stop) ?_ ?_
  · rintro scope (z | z) valid
    · exact ⟨some z, fun _ eq => Option.some.inj eq ▸ valid, rfl, rfl⟩
    · exact ⟨none, nofun, rfl, rfl⟩
  · rintro scope (_ | z) valid
    · exact ⟨.inr (), ⟨trivial, nofun⟩, rfl, rfl⟩
    · exact ⟨.inl z, valid z rfl, rfl, rfl⟩

theorem andThen (h : F.Reads E f x) {m : β → StateM Graph γ} {k : α → Read δ} (hk : Quiet f m g k) :
    (F.bind m).Reads E g (x >>= k) where
  sound s t w run := by
    obtain ⟨v, s1, first, run⟩ := run_bind_eq_ok.mp run
    obtain ⟨y, valid, took⟩ := h.sound first
    obtain ⟨w', t', run', took'⟩ := hk v s1
    cases run'.symm.trans run
    exact ⟨y, valid, took.andThen took'⟩
  takes s y rest valid hs ends := by
    obtain ⟨v, t, run, took⟩ := h.takes valid hs ends
    obtain ⟨w, u, run', took'⟩ := hk v t
    exact ⟨w, u, by rw [run_bind_ok run, run'], took.andThen took'⟩

theorem close (h : F.Reads E f x) {c : Char} (hc : ∀ rest, E (.mark c :: rest))
    {m : β → StateM Graph γ} {k : α → Read δ} (hk : Quiet f m g k) :
    ((F.before (.mark c)).bind m).Reads D g (x >>= fun v => expectMark c >>= fun _ => k v) where
  sound s t w run := by
    obtain ⟨v, s1, first, run⟩ := run_bind_eq_ok.mp run
    obtain ⟨_, s2, closed, run⟩ := run_bind_eq_ok.mp run
    obtain ⟨y, valid, took⟩ := h.sound first
    obtain ⟨w', t', run', took'⟩ := hk v s2
    cases run'.symm.trans run
    exact ⟨y, valid, (took.before ((expectMark_eq_ok c _ _).mp closed)).andThen took'⟩
  takes s y rest valid hs ends := by
    have whole : s.lexemes = F.lexemes y ++ (.mark c :: rest) := hs.trans (append_assoc _ _ _)
    obtain ⟨v, t, run, took⟩ := h.takes valid whole (hc rest)
    obtain ⟨u, passed, _⟩ := exists_passed (took.rest whole)
    obtain ⟨w, u', run', took'⟩ := hk v u
    refine ⟨w, u', ?_, (took.before passed).andThen took'⟩
    rw [run_bind_ok run, run_bind_ok ((expectMark_eq_ok c _ _).mpr passed), run']

theorem seq (h : F.Reads E f x) {ε ζ : Type} {G : Form κ γ} {y : Read δ} (h' : G.Reads D g y)
    (ends : ∀ z {rest}, D rest → E (G.lexemes z ++ rest)) {both : β → γ → ε} {k : α → δ → ζ}
    {e : ζ → ε} (hk : ∀ a b, e (k a b) = both (f a) (g b)) :
    (F.seq G both).Reads D e (x >>= fun a => y >>= fun b => Pure.pure (k a b)) where
  sound s t w run := by
    obtain ⟨a, s1, first, run⟩ := run_bind_eq_ok.mp run
    obtain ⟨b, s2, second, run⟩ := run_bind_eq_ok.mp run
    cases run
    obtain ⟨y, valid, took⟩ := h.sound first
    obtain ⟨z, valid', took'⟩ := h'.sound second
    rw [took.names] at valid' took'
    exact ⟨(y, z), ⟨valid, valid'⟩, hk a b ▸ took.bind (took'.andThen (.refl _ _))⟩
  takes s z rest valid hs stop := by
    have whole := hs.trans (append_assoc _ _ _)
    obtain ⟨a, t, run, took⟩ := h.takes valid.1 whole (ends z.2 stop)
    obtain ⟨b, u, run', took'⟩ := h'.takes (took.names ▸ valid.2) (took.rest whole) stop
    rw [took.names] at took'
    refine ⟨k a b, u, ?_, hk a b ▸ took.bind (took'.andThen (.refl _ _))⟩
    rw [run_bind_ok run, run_bind_ok run']
    rfl

theorem bounded {Fits : Nat → ι → Prop} {read : Nat → Read α}
    (h : ∀ bound, (F.within Fits bound).Reads E f (read bound))
    (fits : ∀ y bound, (F.lexemes y).length < bound → Fits bound y) :
    F.Reads E f (do read ((← get).tokens.length + 1)) where
  sound s t v run := by
    obtain ⟨y, valid, took⟩ := (h _).sound run
    exact ⟨y, valid.1, took⟩
  takes s y rest valid hs ends := by
    refine (h (s.tokens.length + 1)).takes ⟨valid, fits y _ ?_⟩ hs ends
    have length := congrArg length hs
    simp only [Reading.lexemes, length_map, length_append] at length
    omega

end Reads

/-! ### Sequences -/

def meanings (meaning : ι → StateM Graph β) : List ι → StateM Graph (List β)
  | [] => return []
  | x :: xs => do
    let first ← meaning x
    let rest ← meanings meaning xs
    return first :: rest

/-- The items of a sequence after its first, up to its closing mark. -/
def tail (F : Form ι β) (close : Char) (last : LastComma) : Form (List ι × Bool) (List β) where
  lexemes p := (p.1.map F.lexemes).flatMap (.mark ',' :: ·)
    ++ ((if p.2 then [.mark ','] else []) ++ [.mark close])
  Valid scope p := (∀ x ∈ p.1, F.Valid scope x) ∧ (p.2 = true → last = .allowed)
  meaning scope p := meanings (F.meaning scope) p.1

def sequence (F : Form ι β) (close : Char) (last : LastComma) : Form (List ι × Bool) (List β) :=
  { F.tail close last with lexemes p := separated p.2 (p.1.map F.lexemes) ++ [.mark close] }

def Starts (F : Form ι β) : Prop := ∀ x, ∃ text ls, F.lexemes x = .word text :: ls

theorem Starts.seq {F : Form ι β} (starts : F.Starts) (G : Form κ γ) (both : β → γ → δ) (c : Char)
    (z : ι × κ) : ∃ l ls, l ≠ .mark c ∧ (F.seq G both).lexemes z = l :: ls := by
  obtain ⟨text, ls, lexemes⟩ := starts z.1
  exact ⟨.word text, ls ++ G.lexemes z.2, nofun, by simp [Form.seq, lexemes]⟩

def Closes (close : Char) : Prop := close ≠ ',' ∧ close ≠ '<' ∧ close ≠ '('

section Items

variable {F : Form ι β} {E : List Lexeme → Prop} {f : α → β} {item : Read α}
  (h : F.Reads Ends f item) (starts : F.Starts) {close : Char} (hclose : Closes close)
  (last : LastComma)

include hclose in
theorem ends_tail (p : List ι × Bool) {after : List Lexeme} :
    Ends ((F.tail close last).lexemes p ++ after) := by
  obtain ⟨_ | ⟨x, xs⟩, _ | _⟩ := p
  · exact ends_mark hclose.2 _
  · exact ends_mark (by decide) _
  · exact ends_mark (by decide) _
  · exact ends_mark (by decide) _

include h starts hclose

theorem itemsAfter_reads (bound : Nat) :
    ((F.tail close last).within (fun bound p => p.1.length < bound) bound).Reads E (List.map f)
      (itemsAfter item close last bound) := by
  induction bound with
  | zero => exact ⟨nofun, fun s p _ valid => absurd valid.2 (Nat.not_lt_zero _)⟩
  | succ bound ih =>
    have next := h.seq ih (fun p _ _ => ends_tail hclose last p) (k := cons)
      (e := List.map f) (fun _ _ => map_cons)
    have stop := Reads.pure (E := E) (f := List.map f) []
    have comma : Lexeme.mark ',' ≠ .mark close := fun eq => hclose.1 (Lexeme.mark.inj eq).symm
    cases last with
    | allowed =>
      refine Reads.congr (stop.accept ((stop.accept next (starts.seq _ _ close)).mark ',')
        fun _ => ⟨_, _, comma, rfl⟩) ?_ ?_
      · rintro scope (_ | _ | ⟨x, xs, comma⟩) valid
        · exact ⟨([], false), ⟨⟨nofun, nofun⟩, Nat.succ_pos _⟩, rfl, rfl⟩
        · exact ⟨([], true), ⟨⟨nofun, fun _ => rfl⟩, Nat.succ_pos _⟩, rfl, rfl⟩
        · exact ⟨(x :: xs, comma), by simpa [within, tail, or, after, seq, and_assoc] using valid,
            by simp [within, tail, or, after, seq], rfl⟩
      · rintro scope ⟨_ | ⟨x, xs⟩, comma⟩ valid
        · cases comma with
          | false => exact ⟨.inl (), trivial, rfl, rfl⟩
          | true => exact ⟨.inr (.inl ()), trivial, rfl, rfl⟩
        · exact ⟨.inr (.inr (x, xs, comma)),
            by simpa [within, tail, or, after, seq, and_assoc] using valid,
            by simp [within, tail, or, after, seq], rfl⟩
    | refused =>
      refine Reads.congr (stop.accept (next.mark ',') fun _ => ⟨_, _, comma, rfl⟩) ?_ ?_
      · rintro scope (_ | ⟨x, xs, comma⟩) valid
        · exact ⟨([], false), ⟨⟨nofun, nofun⟩, Nat.succ_pos _⟩, rfl, rfl⟩
        · exact ⟨(x :: xs, comma), by simpa [within, tail, or, after, seq, and_assoc] using valid,
            by simp [within, tail, or, after, seq], rfl⟩
      · rintro scope ⟨_ | ⟨x, xs⟩, comma⟩ valid
        · cases comma with
          | false => exact ⟨.inl (), trivial, rfl, rfl⟩
          | true => cases valid.1.2 rfl
        · exact ⟨.inr (x, xs, comma),
            by simpa [within, tail, or, after, seq, and_assoc] using valid,
            by simp [within, tail, or, after, seq], rfl⟩

theorem items_reads : (F.sequence close last).Reads E (List.map f) (items item close last) := by
  have count : ∀ xs comma, xs.length ≤ ((F.tail close last).lexemes (xs, comma)).length := by
    intro xs comma
    induction xs with
    | nil => exact Nat.zero_le _
    | cons x xs ih =>
      simp [tail] at ih ⊢
      omega
  have rest := Reads.bounded (E := E) (itemsAfter_reads h starts hclose last) fun p _ short =>
    Nat.lt_of_le_of_lt (count p.1 p.2) short
  have next := h.seq rest (fun p _ _ => ends_tail hclose last p) (k := cons)
    (e := List.map f) (fun _ _ => map_cons)
  refine Reads.congr (Reads.accept (Reads.pure (E := E) (f := List.map f) []) next
    (starts.seq _ _ close)) ?_ ?_
  · rintro scope (_ | ⟨x, xs, comma⟩) valid
    · exact ⟨([], false), ⟨nofun, nofun⟩, rfl, rfl⟩
    · exact ⟨(x :: xs, comma), by simpa [sequence, tail, or, seq, and_assoc] using valid,
        by simp [sequence, tail, or, seq, separated], rfl⟩
  · rintro scope ⟨_ | ⟨x, xs⟩, comma⟩ valid
    · exact ⟨.inl (), trivial, rfl, rfl⟩
    · exact ⟨.inr (x, xs, comma), by simpa [sequence, tail, or, seq, and_assoc] using valid,
        by simp [sequence, tail, or, seq, separated], rfl⟩

end Items

theorem listed_reads {F : Form ι β} {item : Read β} (h : F.Reads Ends id item) (starts : F.Starts)
    {close : Char} (hclose : Closes close) {E : List Lexeme → Prop} :
    (F.sequence close .allowed).Reads E id (items item close .allowed) := by
  have reads := items_reads h starts hclose .allowed (E := E)
  rwa [map_id_fun] at reads

end Form

end CanonicalAbi.Idl
