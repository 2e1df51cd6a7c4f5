import CanonicalAbi.Text.Cluster
import CanonicalAbi.Text.Escape

/-!
# Cells

A terminal takes a text cell by cell: characters of ASCII one by one, clusters of all others, and
the characters of control sequences, which take no columns.
-/

namespace CanonicalAbi.Text

/-- Characters that are shown in one place, or none of which is shown. -/
structure Cell where
  text : List Char
  hidden : Bool
  deriving DecidableEq, Repr

def Cell.columns (cell : Cell) : Nat := if cell.hidden then 0 else clusterColumns cell.text

def cellLength (isText : Bool) (c : Char) (cs : List Char) : Nat :=
  if isText && 0x80 ≤ c.toNat then clusterLength c cs else 0

def cellsFrom (s : Reading) : List Char → List Cell
  | [] => []
  | c :: cs =>
    let (isText, s) := s.next c
    let rest := cellLength isText c cs
    ⟨c :: cs.take rest, !isText⟩ :: cellsFrom s (cs.drop rest)
termination_by cs => cs.length
decreasing_by simp only [List.length_drop, List.length_cons]; omega

def cells (cs : List Char) : List Cell := cellsFrom .ground cs

def cellColumns (cs : List Char) : Nat := (cells cs).foldl (fun n cell => n + cell.columns) 0

def hiddenFrom (s : Reading) : List Char → List Char
  | [] => []
  | c :: cs =>
    let (isText, next) := s.next c
    if isText then hiddenFrom s (cs.drop (cellLength isText c cs)) else c :: hiddenFrom next cs
termination_by cs => cs.length
decreasing_by all_goals simp only [List.length_drop, List.length_cons]; omega

/-- The text as far as it fits into the columns up to `limit` when `used` of them are taken. -/
def fitting (limit used : Nat) (s : Reading) : List Char → List Char
  | [] => []
  | c :: cs =>
    let (isText, next) := s.next c
    let rest := cellLength isText c cs
    let cell : Cell := ⟨c :: cs.take rest, !isText⟩
    let used := used + cell.columns
    if limit < used then hiddenFrom s (cs.drop rest)
    else cell.text ++ fitting limit used next (cs.drop rest)
termination_by cs => cs.length
decreasing_by simp only [List.length_drop, List.length_cons]; omega

def truncate (limit : Nat) (cs : List Char) : List Char :=
  if cellColumns cs ≤ limit then cs else fitting limit 0 .ground cs

end CanonicalAbi.Text
