import CanonicalAbi.Idl.Token

/-!
# Words and written lexemes

The words of a text are runs of word characters. Lexemes that are written one after another are
scanned as they were written, as long as no word runs into what follows it.
-/

namespace CanonicalAbi.Idl

/-- A word: word characters, of which the first begins no other token. -/
def IsWord (w : String) : Prop :=
  w ≠ "" ∧ (∀ c ∈ w.toList.head?, c ≠ '\n' ∧ Text.isBlank c = false ∧ isMark c = false)
    ∧ ∀ x ∈ w.toList, isWordChar x = true

instance (w : String) : Decidable (IsWord w) :=
  haveI := List.decidableBAll (isWordChar · = true) w.toList
  haveI := Option.decidableForallMem (o := w.toList.head?)
    (p := fun c => c ≠ '\n' ∧ Text.isBlank c = false ∧ isMark c = false)
  inferInstanceAs (Decidable (_ ∧ _))

/-- What follows some word characters does not continue the word, and is no bracket that makes an
arrow of its end. -/
def Apart (u cs : List Char) : Prop :=
  ∀ c ∈ cs.head?, isWordChar c = false ∧ (c = '>' → u.getLast? ≠ some '-')

theorem isWordChar_of_mem_splitWord (cs : List Char) :
    ∀ x ∈ (splitWord cs).1, isWordChar x = true := by
  induction cs with
  | nil => simp [splitWord]
  | cons c cs ih =>
    unfold splitWord
    split
    · simp
    · split
      · next word =>
        rintro x (_ | ⟨_, hx⟩)
        · exact word
        · exact ih x hx
      · simp

variable {cs : List Char}

theorem Apart.noArrow {x : Char} {u : List Char} (apart : Apart (x :: u) cs)
    (word : ∀ y ∈ u, isWordChar y = true) :
    (x == '-' && (u ++ cs).head? == some '>') = false := by
  rw [Bool.and_eq_false_imp, beq_iff_eq, beq_eq_false_iff_ne]
  rintro rfl bracket
  cases u with
  | nil => exact (apart '>' bracket).2 rfl rfl
  | cons y u =>
    obtain rfl : y = '>' := by simpa using bracket
    exact absurd (word '>' (by simp)) (by decide)

theorem splitWord_append_of_apart {u : List Char} (word : ∀ x ∈ u, isWordChar x = true)
    (apart : Apart u cs) : splitWord (u ++ cs) = (u, cs) := by
  induction u with
  | nil =>
    cases cs with
    | nil => rfl
    | cons c cs =>
      obtain ⟨stop, _⟩ := apart c rfl
      simp [splitWord, stop]
  | cons x u ih =>
    obtain ⟨hx, hu⟩ := List.forall_mem_cons.mp word
    have rest : Apart u cs := by
      intro c hc
      refine ⟨(apart c hc).1, fun bracket last => (apart c hc).2 bracket ?_⟩
      cases u with
      | nil => cases last
      | cons y u => exact last
    rw [List.cons_append, splitWord, apart.noArrow hu, ih hu rest, hx]
    rfl

theorem of_isMark {c : Char} (h : isMark c = true) : c ≠ '\n' ∧ Text.isBlank c = false ∧ c ≠ '/'
    ∧ c ≠ '-' ∧ isWordChar c = false := by
  have all : ∀ c ∈ [':', ',', '(', ')', '<', '>', '\x7b', '\x7d', '=', ';'],
      c ≠ '\n' ∧ Text.isBlank c = false ∧ c ≠ '/' ∧ c ≠ '-' ∧ isWordChar c = false := by
    simp only [List.forall_mem_cons, List.not_mem_nil, false_implies, implies_true, and_true]
    and_intros <;> decide
  exact all c (by simpa [isMark] using h)

/-! ## Written lexemes -/

/-- A text in which lexemes are written one after another, with blanks where they are wanted. -/
inductive Renders : List Lexeme → List Char → Prop where
  | nil : Renders [] []
  | blank {ls : List Lexeme} {cs : List Char} (h : Renders ls cs) : Renders ls (' ' :: cs)
  | mark {ls : List Lexeme} {cs : List Char} {c : Char} (hc : isMark c = true)
      (h : Renders ls cs) : Renders (.mark c :: ls) (c :: cs)
  | arrow {ls : List Lexeme} {cs : List Char} (h : Renders ls cs) :
      Renders (.arrow :: ls) ('-' :: '>' :: cs)
  | word {ls : List Lexeme} {cs : List Char} {w : String} (hw : IsWord w)
      (apart : Apart w.toList cs) (h : Renders ls cs) : Renders (.word w :: ls) (w.toList ++ cs)

theorem Renders.tokensFrom_eq {ls : List Lexeme} (h : Renders ls cs) (line : Nat) :
    tokensFrom line cs = .ok (ls.map (⟨·, line⟩)) := by
  induction h with
  | nil => simp [tokensFrom]
  | blank _ ih =>
    rw [tokensFrom, ih]
    rfl
  | @mark ls cs c hc _ ih =>
    obtain ⟨newline, blank, slash, dash, _⟩ := of_isMark hc
    simp [tokensFrom, newline, blank, slash, dash, hc, ih, Except.map]
  | arrow _ ih =>
    have blank : Text.isBlank '-' = false := by decide
    simp [tokensFrom, blank, ih, Except.map]
  | @word ls cs w hw apart _ ih =>
    obtain ⟨nonempty, first, word⟩ := hw
    obtain ⟨c, u, chars⟩ := List.exists_cons_of_ne_nil (mt String.toList_eq_nil_iff.mp nonempty)
    rw [chars] at apart first word ⊢
    obtain ⟨newline, blank, mark⟩ := first c rfl
    obtain ⟨hc, hu⟩ := List.forall_mem_cons.mp word
    have slash : c ≠ '/' := by
      rintro rfl
      exact absurd hc (by decide)
    have rest := splitWord_append_of_apart word apart
    rw [List.cons_append, splitWord, apart.noArrow hu, hc] at rest
    obtain ⟨first, behind⟩ := Prod.mk.inj rest
    have text : String.ofList (c :: (splitWord (u ++ cs)).1) = w := by
      rw [first, ← chars, String.ofList_toList]
    rw [List.cons_append, tokensFrom, apart.noArrow hu, text, behind, ih]
    simp [newline, blank, mark, hc, slash, Except.map]

end CanonicalAbi.Idl
