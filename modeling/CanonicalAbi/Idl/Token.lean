import CanonicalAbi.Failure
import CanonicalAbi.Text.Blank
import CanonicalAbi.Text.Digit
import CanonicalAbi.Text.Letter

/-!
# Tokens of declarations

A declaration text consists of words, single marks and arrows, with blanks and comments between
them.
-/

namespace CanonicalAbi.Idl

/-- What a token says. -/
inductive Lexeme where
  | word (text : String)
  | mark (c : Char)
  | arrow
  deriving DecidableEq, Repr

def Lexeme.text : Lexeme → String
  | word text => text
  | mark c => c.toString
  | arrow => "->"

/-- A lexeme and the line that it is on. -/
structure Token where
  lexeme : Lexeme
  line : Nat
  deriving DecidableEq, Repr

def isMark (c : Char) : Bool :=
  [':', ',', '(', ')', '<', '>', '\x7b', '\x7d', '=', ';'].contains c

def isWordChar (c : Char) : Bool :=
  Text.isLetter c || Text.isDigit c || ['-', '_', '.', '[', ']', '%'].contains c

def splitWord : List Char → List Char × List Char
  | [] => ([], [])
  | c :: cs =>
    if c == '-' && cs.head? == some '>' then ([], c :: cs)
    else if isWordChar c then
      let (w, rest) := splitWord cs
      (c :: w, rest)
    else ([], c :: cs)

theorem splitWord_append (cs : List Char) : (splitWord cs).1 ++ (splitWord cs).2 = cs := by
  induction cs with
  | nil => rfl
  | cons c cs ih =>
    unfold splitWord
    split
    · rfl
    · split
      · simpa using ih
      · rfl

theorem length_splitWord_le (cs : List Char) : (splitWord cs).2.length ≤ cs.length := by
  have h := congrArg List.length (splitWord_append cs)
  simp only [List.length_append] at h
  omega

def afterComment (cs : List Char) : List Char := (cs.dropWhile (· != '\n')).drop 1

theorem length_afterComment_le (cs : List Char) : (afterComment cs).length ≤ cs.length := by
  have h := (List.dropWhile_sublist (· != '\n') (l := cs)).length_le
  simp only [afterComment, List.length_drop]
  omega

def unexpectedCharacter (line : Nat) (c : Char) : Failure :=
  .plain ("line " ++ toString line ++ ": unexpected character " ++ Text.quotedChar c)

def tokensFrom (line : Nat) : List Char → Except Failure (List Token)
  | [] => .ok []
  | c :: cs =>
    if c == '\n' then tokensFrom (line + 1) cs
    else if Text.isBlank c then tokensFrom line cs
    else if c == '/' && cs.head? == some '/' then tokensFrom (line + 1) (afterComment cs)
    else if c == '-' && cs.head? == some '>' then
      (tokensFrom line (cs.drop 1)).map (⟨.arrow, line⟩ :: ·)
    else if isMark c then (tokensFrom line cs).map (⟨.mark c, line⟩ :: ·)
    else if isWordChar c then
      (tokensFrom line (splitWord cs).2).map
        (⟨.word (String.ofList (c :: (splitWord cs).1)), line⟩ :: ·)
    else .error (unexpectedCharacter line c)
termination_by cs => cs.length
decreasing_by
  · simp
  · simp
  · have := length_afterComment_le cs
    simp only [List.length_cons]
    omega
  · simp only [List.length_cons, List.length_drop]
    omega
  · simp
  · have := length_splitWord_le cs
    simp only [List.length_cons]
    omega

def tokens (text : List Char) : Except Failure (List Token) := tokensFrom 1 text

end CanonicalAbi.Idl
