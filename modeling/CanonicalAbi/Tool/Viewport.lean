import CanonicalAbi.Tool.Wrap

/-!
# A window on a text

A viewport shows a stretch of the lines of a text. Its first line stays within the text, and paging
stops where the last line comes into view.
-/

namespace CanonicalAbi.Tool

def plainLineEnds : List Char → List Char
  | '\r' :: '\n' :: cs => '\n' :: plainLineEnds cs
  | c :: cs => c :: plainLineEnds cs
  | [] => []

def spreadTabs (cs : List Char) : List Char :=
  cs.flatMap fun c => if c = '\t' then List.replicate 4 ' ' else [c]

def linesOf (cs : List Char) : List String := (String.ofList cs).splitOn "\n"

/-- A window on lines of text. -/
structure Viewport where
  width : Int := 80
  height : Nat := 20
  top : Nat := 0
  lines : List String := []
  deriving DecidableEq, Repr

namespace Viewport

def maxTop (v : Viewport) : Nat := v.lines.length - v.height

def goto (v : Viewport) (line : Nat) : Viewport := { v with top := min v.maxTop line }

def setContent (v : Viewport) (text : String) : Viewport :=
  let v := { v with lines := linesOf (plainLineEnds text.toList) }
  if v.lines.length - 1 < v.top then v.goto v.maxTop else v

def scrollDown (v : Viewport) (n : Nat) : Viewport :=
  if v.maxTop ≤ v.top then v else v.goto (v.top + n)

def scrollUp (v : Viewport) (n : Nat) : Viewport :=
  if v.top = 0 then v else v.goto (v.top - n)

def cut (v : Viewport) (line : String) : String :=
  if v.width = 0 then line
  else if v.width < 0 then ""
  else String.ofList (Text.truncate v.width.toNat line.toList)

def fit (v : Viewport) (text : List Char) : List String :=
  let text := plainLineEnds (spreadTabs text)
  linesOf (if v.width ≤ 0 then text else wrap v.width.toNat text)

def shown (v : Viewport) : List String :=
  let visible := ((v.lines.drop v.top).take v.height).map v.cut
  let fitted := v.fit ("\n".intercalate visible).toList
  (fitted ++ List.replicate (v.height - fitted.length) "").take v.height |>.map v.cut

end Viewport

end CanonicalAbi.Tool
