/-!
# Classes of characters

A property of characters that a standard fixes by enumeration is kept as a list of code point
intervals in increasing order. Long lists are written as texts: the lengths of the gaps and of the
intervals, by turns, each a number in base 26 of which only the last digit is a small letter.
-/

namespace CanonicalAbi.Text

/-- The first and last characters of some intervals. -/
abbrev Intervals := List (Nat × Nat)

/-- The intervals between gaps, from a code point on. The runs are by turns the length of a gap and
that of the interval behind it. -/
def Intervals.ofRunsFrom (start : Nat) : List Nat → Intervals
  | gap :: length :: runs =>
    (start + gap, start + gap + length - 1) :: ofRunsFrom (start + gap + length) runs
  | _ => []

/-- The numbers that letters spell, if `high` has been read of the first one. -/
def numbers (high : Nat) : List Char → List Nat
  | [] => []
  | c :: rest =>
    if c.isUpper then numbers (26 * (high + (c.toNat - 'A'.toNat))) rest
    else (high + (c.toNat - 'a'.toNat)) :: numbers 0 rest

def Intervals.ofTexts (texts : List String) : Intervals :=
  ofRunsFrom 0 (numbers 0 (texts.flatMap String.toList))

def Intervals.contains : Intervals → Nat → Bool
  | [], _ => false
  | (lo, hi) :: rest, n => if n ≤ hi then decide (lo ≤ n) else Intervals.contains rest n

def Intervals.containsChar (r : Intervals) (c : Char) : Bool := r.contains c.toNat

end CanonicalAbi.Text
