import CanonicalAbi.Text.Pen
import CanonicalAbi.Text.Sequence

/-!
# Wrapping

Lines that are too long for a number of columns are broken between words, after hyphens, and inside
a word that is longer than a line.
-/

namespace CanonicalAbi.Tool

/-- Text that is being wrapped: what is settled, and the last word with the blanks before it. -/
structure Wrapping where
  settled : List (List Char) := []
  column : Nat := 0
  blanks : Nat := 0
  word : List (List Char) := []
  wordColumns : Nat := 0
  settledPen : Text.Pen := {}
  pen : Text.Pen := {}
  deriving DecidableEq, Repr

namespace Wrapping

def addBlanks (w : Wrapping) : Wrapping :=
  { w with settled := List.replicate w.blanks ' ' :: w.settled
           column := w.column + w.blanks
           blanks := 0 }

def addWord (w : Wrapping) : Wrapping :=
  if w.word.isEmpty then w
  else
    let w := w.addBlanks
    { w with settled := w.word ++ w.settled
             column := w.column + w.wordColumns
             word := []
             wordColumns := 0
             settledPen := w.pen }

def newLine (w : Wrapping) : Wrapping :=
  { w with settled := w.settledPen.resume :: ['\n'] :: w.settledPen.lift :: w.settled
           column := 0
           blanks := 0 }

def endBlanks (limit : Nat) (w : Wrapping) : Wrapping :=
  if w.wordColumns ≠ 0 then w
  else if limit < w.column + w.blanks then { w with column := 0, blanks := 0 }
  else { w with settled := List.replicate w.blanks ' ' :: w.settled, blanks := 0 }

def extendWord (limit : Nat) (piece : List Char) (columns : Nat) (w : Wrapping) : Wrapping :=
  let w := if limit < w.wordColumns + columns then w.addWord else w
  let w := { w with word := piece :: w.word, wordColumns := w.wordColumns + columns }
  if limit < w.column + w.wordColumns + w.blanks then w.newLine else w

def addHyphen (limit : Nat) (w : Wrapping) : Wrapping :=
  let w := w.addBlanks
  if w.column + w.wordColumns + 1 ≤ limit then
    let w := w.addWord
    { w with settled := ['-'] :: w.settled, column := w.column + 1 }
  else w.extendWord limit ['-'] 1

/-- Adds a cell of the text. A control sequence belongs to the word at which it stands, and blanks
end a word whatever they look like. -/
def add (limit : Nat) (w : Wrapping) (cell : Text.Cell) : Wrapping :=
  let piece := cell.text
  if cell.hidden then { w with word := piece :: w.word, pen := w.pen.read piece }
  else if piece = ['\n'] then ((w.endBlanks limit).addWord).newLine
  else if piece = [' '] then
    let w := w.addWord
    { w with blanks := w.blanks + 1 }
  else if cell.columns = 0 then { w with word := piece :: w.word }
  else if piece = ['-'] then w.addHyphen limit
  else w.extendWord limit piece cell.columns

def text (limit : Nat) (w : Wrapping) : List Char :=
  let w := (w.endBlanks limit).addWord
  w.settled.reverse.flatten ++ w.settledPen.finish

end Wrapping

def wrap (limit : Nat) (cs : List Char) : List Char :=
  ((Text.sequences cs).foldl (Wrapping.add limit) {}).text limit

end CanonicalAbi.Tool
