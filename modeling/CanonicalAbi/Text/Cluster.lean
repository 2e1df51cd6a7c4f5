import CanonicalAbi.Text.BreakClass
import CanonicalAbi.Text.Wide

/-!
# Clusters and their columns

A text falls into clusters, the smallest pieces that are shown as a unit.
-/

namespace CanonicalAbi.Text

/-- What the end of a cluster says about the character behind it. -/
inductive ClusterEnd where
  | plain
  | carriageReturn
  | control
  | leading
  | vowel
  | trailing
  | prepended
  | pictograph
  | joined
  | regional
  deriving DecidableEq, Repr

namespace ClusterEnd

def ofClass : BreakClass → ClusterEnd
  | .carriageReturn => carriageReturn
  | .lineFeed | .control => control
  | .leading => leading
  | .vowel | .openSyllable => vowel
  | .trailing | .closedSyllable => trailing
  | .prepended => prepended
  | .pictograph => pictograph
  | .regional => regional
  | .other | .extend | .joiner | .spacing => plain

def join? : ClusterEnd → BreakClass → Option ClusterEnd
  | carriageReturn, .lineFeed => some control
  | carriageReturn, _ | control, _ => none
  | _, .carriageReturn | _, .lineFeed | _, .control => none
  | pictograph, .extend => some pictograph
  | pictograph, .joiner => some joined
  | _, .extend | _, .joiner | _, .spacing => some plain
  | prepended, b => some (ofClass b)
  | leading, .leading => some leading
  | leading, .vowel | leading, .openSyllable | vowel, .vowel => some vowel
  | leading, .closedSyllable | vowel, .trailing | trailing, .trailing => some trailing
  | joined, .pictograph => some pictograph
  | regional, .regional => some plain
  | _, _ => none

end ClusterEnd

def joiningLength (e : ClusterEnd) : List Char → Nat
  | [] => 0
  | c :: cs =>
    match e.join? (breakClass c) with
    | some e => joiningLength e cs + 1
    | none => 0

def clusterLength (c : Char) (cs : List Char) : Nat := joiningLength (.ofClass (breakClass c)) cs

def clusters : List Char → List (List Char)
  | [] => []
  | c :: cs =>
    let rest := clusterLength c cs
    (c :: cs.take rest) :: clusters (cs.drop rest)
termination_by cs => cs.length
decreasing_by simp only [List.length_drop, List.length_cons]; omega

/-! ## Columns -/

def narrowPictographs : Intervals := [
  (0x3030, 0x3030), (0x303d, 0x303d), (0x3297, 0x3297), (0x3299, 0x3299), (0x1f202, 0x1f202),
  (0x1f237, 0x1f237), (0x1f260, 0x1f265)]

/-- The columns that a character adds to a cluster. Dashes of two and three em are longer than other
characters. -/
def memberColumns (c : Char) : Nat :=
  match breakClass c with
  | .control | .carriageReturn | .lineFeed | .extend | .joiner => 0
  | .regional => 2
  | .pictograph => if isWide c && !narrowPictographs.containsChar c then 2 else 1
  | _ =>
    if c.toNat = 0x2e3a then 3
    else if c.toNat = 0x2e3b then 4
    else if isWide c then 2
    else 1

/-- The columns of a cluster with `columns` so far and further characters, by the class of its first
character. -/
def columnsWith (first : BreakClass) (columns : Nat) : List Char → Nat
  | [] => columns
  | c :: cs =>
    columnsWith first
      (match first with
        | .pictograph =>
          if c.toNat = 0xfe0e then 1 else if c.toNat = 0xfe0f then 2 else columns
        | .regional | .leading => columns
        | _ => columns + memberColumns c)
      cs

def clusterColumns : List Char → Nat
  | [] => 0
  | c :: cs => columnsWith (breakClass c) (memberColumns c) cs

def columns (cs : List Char) : Nat :=
  (clusters cs).foldl (fun n cluster => n + clusterColumns cluster) 0

end CanonicalAbi.Text
