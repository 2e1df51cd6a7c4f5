import CanonicalAbi.Proofs.Scanning

/-!
# Texts and their tokens

The tokens of a text are its characters outside blanks and comments, in order. Which of them belong
together can be seen from each character and its two neighbours.
-/

namespace CanonicalAbi.Idl

open List

variable {cs : List Char} {c : Char} {line : Nat} {before : Option Char} {l : Lexeme} {t : Token}

/-- A character of a text, on a line. It goes on with the token of the character right before it, or
begins a token. -/
structure Glyph where
  char : Char
  line : Nat
  goesOn : Bool

/-- Whether a character goes on with a token: the bracket of an arrow does, and a word character
behind another one that begins no arrow. -/
def goesOn (before : Option Char) (c : Char) (behind : Option Char) : Bool :=
  before == some '-' && c == '>'
    || before.any isWordChar && isWordChar c && !(c == '-' && behind == some '>')

/-- The characters outside blanks and comments. The text begins on a line behind a character,
perhaps in a comment. -/
def glyphs (hidden : Bool) (line : Nat) (before : Option Char) : List Char → List Glyph
  | [] => []
  | c :: cs =>
    if c == '\n' then glyphs false (line + 1) (some c) cs
    else if hidden || c == '/' && cs.head? == some '/' then glyphs true line (some c) cs
    else if Text.isBlank c then glyphs false line (some c) cs
    else ⟨c, line, goesOn before c cs.head?⟩ :: glyphs false line (some c) cs

def Token.glyphs (t : Token) : List Glyph :=
  match t.lexeme.text.toList with
  | [] => []
  | c :: cs => ⟨c, t.line, false⟩ :: cs.map (⟨·, t.line, true⟩)

def Lexeme.Proper : Lexeme → Prop
  | word w => IsWord w
  | mark c => isMark c = true
  | arrow => True

/-- Whether a character is of no token. -/
def Stray (c : Char) : Prop := isMark c = false ∧ isWordChar c = false

/-! ## Characters -/

theorem mem_of_contains {r : Text.Intervals} {n : Nat} (h : r.contains n = true) :
    n ∈ r.flatMap fun i => range' i.1 (i.2 + 1 - i.1) := by
  induction r with
  | nil => cases h
  | cons i r ih =>
    rw [Text.Intervals.contains] at h
    rw [flatMap_cons, mem_append, mem_range'_1]
    by_cases le : n ≤ i.2
    · rw [if_pos le, decide_eq_true_eq] at h
      omega
    · rw [if_neg le] at h
      exact .inr (ih h)

theorem isWordChar_of_isBlank (h : Text.isBlank c = true) : isWordChar c = false := by
  have all : ∀ n ∈ Text.blankIntervals.flatMap fun i => range' i.1 (i.2 + 1 - i.1),
      isWordChar (Char.ofNat n) = false := by decide +kernel
  have other := all _ (mem_of_contains h)
  rwa [Char.ofNat_toNat] at other

theorem of_isWordChar (h : isWordChar c = true) :
    c ≠ '\n' ∧ Text.isBlank c = false ∧ c ≠ '/' := by
  refine ⟨?_, ?_, ?_⟩
  · rintro rfl
    exact absurd h (by decide)
  · rw [Bool.eq_false_iff]
    intro blank
    rw [isWordChar_of_isBlank blank] at h
    cases h
  · rintro rfl
    exact absurd h (by decide)

theorem map_char_glyphs (t : Token) : t.glyphs.map (·.char) = t.lexeme.text.toList := by
  rw [Token.glyphs]
  split <;> simp_all [Function.comp_def]

theorem Lexeme.Proper.not_stray (h : l.Proper) (hc : c ∈ l.text.toList) : ¬ Stray c := by
  rintro ⟨mark, word⟩
  cases l with
  | word w => simp [h.2.2 c hc] at word
  | mark m =>
    obtain rfl : c = m := by simpa [Lexeme.text] using hc
    exact absurd h (by simp [Lexeme.Proper, mark])
  | arrow =>
    have arrow : c = '-' ∨ c = '>' := by simpa [Lexeme.text] using hc
    rcases arrow with rfl | rfl
    · exact absurd word (by decide)
    · exact absurd mark (by decide)

/-! ## Where tokens begin -/

def Begins (before : Option Char) (cs : List Char) : Prop :=
  ∀ c ∈ cs.head?, goesOn before c cs.tail.head? = false

theorem Begins.head (h : Begins before (c :: cs)) : goesOn before c cs.head? = false := h c rfl

theorem begins_behind (word : isWordChar c = false) (dash : c ≠ '-') (cs : List Char) :
    Begins (some c) cs := by
  intro d _
  simp [goesOn, word, dash]

theorem glyphs_of_char (newline : c ≠ '\n') (slash : c ≠ '/') (blank : Text.isBlank c = false) :
    glyphs false line before (c :: cs)
      = ⟨c, line, goesOn before c cs.head?⟩ :: glyphs false line (some c) cs := by
  simp [glyphs, newline, slash, blank]

theorem glyphs_comment (cs : List Char) (line : Nat) (before : Option Char) :
    glyphs true line before cs = glyphs false (line + 1) (some '\n') (afterComment cs) := by
  induction cs generalizing before with
  | nil => rfl
  | cons c cs ih =>
    by_cases newline : c = '\n'
    · simp [glyphs, afterComment, newline]
    · simp [glyphs, afterComment, newline, ih]

theorem glyphs_word (line : Nat) (word : isWordChar c = true)
    (single : (c == '-' && cs.head? == some '>') = false) :
    ∃ last, Begins (some last) (splitWord cs).2 ∧ glyphs false line (some c) cs
      = (splitWord cs).1.map (⟨·, line, true⟩)
        ++ glyphs false line (some last) (splitWord cs).2 := by
  induction cs generalizing c with
  | nil => exact ⟨c, nofun, rfl⟩
  | cons d cs ih =>
    rw [splitWord]
    by_cases arrow : (d == '-' && cs.head? == some '>') = true
    · rw [if_pos arrow]
      refine ⟨c, ?_, rfl⟩
      rintro _ ⟨⟩
      simp_all [goesOn]
    · rw [if_neg arrow]
      by_cases hd : isWordChar d = true
      · rw [if_pos hd]
        obtain ⟨newline, blank, slash⟩ := of_isWordChar hd
        obtain ⟨last, begins, rest⟩ := ih hd (by simpa using arrow)
        refine ⟨last, begins, ?_⟩
        have on : goesOn (some c) d cs.head? = true := by
          simp [goesOn, word, hd, Bool.eq_false_iff.mpr arrow]
        rw [glyphs_of_char newline slash blank, rest, on]
        rfl
      · rw [if_neg hd]
        refine ⟨c, ?_, rfl⟩
        rintro _ ⟨⟩
        simp_all [goesOn]

/-! ## Scanning -/

/-- What the scan of a text with some glyphs owes. -/
def Accounts (gs : List Glyph) : Except Failure (List Token) → Prop
  | .ok ts => ts.flatMap Token.glyphs = gs ∧ ∀ t ∈ ts, t.lexeme.Proper
  | .error _ => ∃ g ∈ gs, Stray g.char

theorem Accounts.token {gs gs' : List Glyph} {answer : Except Failure (List Token)}
    (h : Accounts gs answer) (proper : t.lexeme.Proper) (ht : gs' = t.glyphs ++ gs) :
    Accounts gs' (answer.map (t :: ·)) := by
  subst ht
  cases answer with
  | ok ts => exact ⟨by rw [flatMap_cons, h.1], forall_mem_cons.mpr ⟨proper, h.2⟩⟩
  | error e =>
    obtain ⟨g, hg, stray⟩ := h
    exact ⟨g, mem_append_right _ hg, stray⟩

theorem tokensFrom_accounts (begins : Begins before cs) :
    Accounts (glyphs false line before cs) (tokensFrom line cs) := by
  fun_induction tokensFrom line cs generalizing before with
  | case1 => exact ⟨rfl, nofun⟩
  | case2 line c cs newline ih =>
    rw [glyphs, if_pos newline]
    obtain rfl : c = '\n' := by simpa using newline
    exact ih (begins_behind (by decide) (by decide) cs)
  | case3 line c cs newline blank ih =>
    have slash : c ≠ '/' := by
      rintro rfl
      exact absurd blank (by decide)
    have dash : c ≠ '-' := by
      rintro rfl
      exact absurd blank (by decide)
    have same : glyphs false line before (c :: cs) = glyphs false line (some c) cs := by
      simp_all [glyphs]
    exact same ▸ ih (begins_behind (isWordChar_of_isBlank blank) dash cs)
  | case4 line c cs newline blank comment ih =>
    rw [glyphs, if_neg newline, if_pos (by simpa using comment), glyphs_comment]
    exact ih (begins_behind (by decide) (by decide) _)
  | case5 line c cs newline blank comment arrow ih =>
    obtain ⟨rfl, second⟩ : c = '-' ∧ cs.head? = some '>' := by simpa using arrow
    obtain ⟨rest, rfl⟩ : ∃ rest, cs = '>' :: rest := by cases cs <;> simp_all
    refine (ih (begins_behind (c := '>') (by decide) (by decide) rest)).token (t := ⟨.arrow, line⟩)
      trivial ?_
    rw [glyphs_of_char (by decide) (by decide) (by decide),
      glyphs_of_char (by decide) (by decide) (by decide)]
    simp [goesOn, Token.glyphs, Lexeme.text]
  | case6 line c cs newline blank comment arrow mark ih =>
    obtain ⟨newline, blank, slash, dash, word⟩ := of_isMark mark
    refine (ih (begins_behind word dash cs)).token (t := ⟨.mark c, line⟩) mark ?_
    rw [glyphs_of_char newline slash blank, begins.head]
    simp [Token.glyphs, Lexeme.text]
  | case7 line c cs newline blank comment arrow mark word ih =>
    obtain ⟨newline', blank', slash⟩ := of_isWordChar word
    obtain ⟨last, begins', rest⟩ := glyphs_word line word (by simpa using arrow)
    refine (ih begins').token (t := ⟨.word _, line⟩) ⟨by simp [String.ext_iff], ?_, ?_⟩ ?_
    · simpa using And.intro newline (And.intro blank mark)
    · rw [String.toList_ofList]
      exact forall_mem_cons.mpr ⟨word, isWordChar_of_mem_splitWord cs⟩
    · rw [glyphs_of_char newline' slash blank', begins.head, rest]
      simp [Token.glyphs, Lexeme.text]
  | case8 line c cs newline blank comment arrow mark word =>
    refine ⟨⟨c, line, goesOn before c cs.head?⟩, ?_, by simpa using mark, by simpa using word⟩
    rw [glyphs, if_neg newline, if_neg (by simpa using comment), if_neg blank]
    exact mem_cons_self

theorem tokens_accounts (text : List Char) : Accounts (glyphs false 1 none text) (tokens text) :=
  tokensFrom_accounts fun _ _ => rfl

theorem isWord_of_mem_tokens {text : List Char} {ts : List Token} {w : String}
    (h : tokens text = .ok ts) (hw : .word w ∈ ts.map (·.lexeme)) : IsWord w := by
  have accounts := tokens_accounts text
  rw [h] at accounts
  obtain ⟨t, ht, word⟩ := mem_map.mp hw
  have proper := accounts.2 t ht
  rwa [word] at proper

/-! ## Tokens written anew -/

theorem Renders.cons {ls : List Lexeme} (proper : l.Proper) (apart : ∀ c ∈ cs.head?, c = ' ')
    (h : Renders ls cs) : Renders (l :: ls) (l.text.toList ++ cs) := by
  cases l with
  | word w =>
    refine .word proper (fun c hc => ?_) h
    obtain rfl := apart c hc
    exact ⟨by decide, fun e => absurd e (by decide)⟩
  | mark c => simpa [Lexeme.text] using h.mark proper
  | arrow => exact h.arrow

theorem renders_spaced {ls : List Lexeme} (proper : ∀ l ∈ ls, l.Proper) :
    Renders ls ([' '].intercalate (ls.map (·.text.toList))) := by
  induction ls with
  | nil => exact .nil
  | cons l ls ih =>
    obtain ⟨hl, hls⟩ := forall_mem_cons.mp proper
    cases ls with
    | nil => simpa using Renders.cons hl (by simp) .nil
    | cons l' ls => simpa using Renders.cons hl (by simp) (.blank (ih hls))

/-- **Tokens account for their text.** A scan fails if and only if some character outside blanks and
comments is of no token. Otherwise the tokens consist of all these characters in order, each token
on the line of its characters. A token is a word, a mark or an arrow, and begins where a character
does not go on with the one before: words are as long as they can be, and no arrow is split or part
of a word. Tokens that are written with single blanks between them are scanned as they were. -/
theorem tokens_account_for_text (text : List Char) :
    let gs := glyphs false 1 none text
    ((∃ e, tokens text = .error e) ↔ ∃ g ∈ gs, Stray g.char)
    ∧ ∀ ts, tokens text = .ok ts →
      ts.flatMap (·.lexeme.text.toList) = gs.map (·.char)
      ∧ ts.flatMap Token.glyphs = gs ∧ (∀ t ∈ ts, t.lexeme.Proper)
      ∧ ∃ ts', tokens ([' '].intercalate (ts.map (·.lexeme.text.toList))) = .ok ts'
        ∧ ts'.map (·.lexeme) = ts.map (·.lexeme) := by
  intro gs
  have accounts : Accounts gs (tokens text) := tokens_accounts text
  revert accounts
  cases tokens text with
  | error e => exact fun stray => ⟨⟨fun _ => stray, fun _ => ⟨e, rfl⟩⟩, nofun⟩
  | ok ts =>
    rintro ⟨same, proper⟩
    refine ⟨⟨nofun, ?_⟩, ?_⟩
    · rintro ⟨g, hg, stray⟩
      rw [← same, mem_flatMap] at hg
      obtain ⟨t, ht, hg⟩ := hg
      refine absurd stray ((proper t ht).not_stray ?_)
      rw [← map_char_glyphs]
      exact mem_map_of_mem hg
    · rintro _ ⟨⟩
      refine ⟨?_, same, proper, ts.map (⟨·.lexeme, 1⟩), ?_, ?_⟩
      · simp only [← same, map_flatMap, map_char_glyphs]
      · have spaced : Renders (ts.map (·.lexeme)) _ := renders_spaced (by simpa using proper)
        have scanned := spaced.tokensFrom_eq 1
        rwa [map_map, map_map] at scanned
      · simp

end CanonicalAbi.Idl
