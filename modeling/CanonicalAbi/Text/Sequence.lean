import CanonicalAbi.Text.Cell

/-!
# Whole control sequences

A text that is set anew, in lines of another length, is taken in whole sequences: none may be torn
apart, and what a sequence switches on has to be known before the next line begins.
-/

namespace CanonicalAbi.Text

def escapeChar : Char := '\x1b'

def isBetween (low high : Nat) (c : Char) : Bool := low ≤ c.toNat && c.toNat ≤ high

def isIntermediate (c : Char) : Bool := isBetween 0x20 0x2f c

def isParameter (c : Char) : Bool := isBetween 0x30 0x3b c

def runLength (p : Char → Bool) (cs : List Char) : Nat := (cs.takeWhile p).length

def stringLength (bell : Bool) : List Char → Nat
  | [] => 0
  | c :: cs =>
    if c = escapeChar then if cs.head? = some '\\' then 2 else 0
    else if c.toNat = 0x18 || c.toNat = 0x1a then 0
    else if (bell && c.toNat = 0x07) || (String.utf8EncodeChar c).contains 0x9c then 1
    else stringLength bell cs + 1

/-- The length of the rest of a control function: a mark of private use, parameters, intermediate
characters and a final one. -/
def functionLength (isString : Bool) (cs : List Char) : Nat :=
  let marks := runLength (isBetween 0x3c 0x3f) cs
  let parameters := runLength isParameter (cs.drop marks)
  let head := marks + parameters
  let head := head + runLength isIntermediate (cs.drop head)
  match cs.drop head with
  | c :: cs =>
    if isBetween 0x40 0x7e c then head + 1 + (if isString then stringLength false cs else 0)
    else head
  | [] => head

def sequenceLength (cs : List Char) : Nat :=
  let head := runLength isIntermediate cs
  match cs.drop head with
  | [] => head
  | c :: cs =>
    if c = '[' then head + 1 + functionLength false cs
    else if c = 'P' then head + 1 + functionLength (head == 0) cs
    else if c = ']' then head + 1 + stringLength (head == 0) cs
    else if c = 'X' || c = '^' || c = '_' then head + 1 + stringLength false cs
    else if isBetween 0x30 0x7e c then head + 1
    else head

def sequences : List Char → List Cell
  | [] => []
  | c :: cs =>
    let rest :=
      if c = escapeChar then sequenceLength cs
      else if c.toNat < 0x80 then 0
      else clusterLength c cs
    ⟨c :: cs.take rest, c == escapeChar⟩ :: sequences (cs.drop rest)
termination_by cs => cs.length
decreasing_by simp only [List.length_drop, List.length_cons]; omega

end CanonicalAbi.Text
