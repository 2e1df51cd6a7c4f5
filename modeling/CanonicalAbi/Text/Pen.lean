import CanonicalAbi.Text.Rendition

/-!
# Pens

Control sequences set how the text behind them looks and the link under it. What they have set so
far is a pen.
-/

namespace CanonicalAbi.Text

/-- What characters link to. -/
structure Link where
  target : List Char := []
  details : List Char := []
  deriving DecidableEq, Repr

def partsAt (c : Char) : List Char → List (List Char)
  | [] => [[]]
  | d :: cs =>
    if d = c then [] :: partsAt c cs
    else
      match partsAt c cs with
      | part :: parts => (d :: part) :: parts
      | [] => [[d]]

def Link.start (link : Link) : List Char :=
  "\x1b]8;".toList ++ link.details ++ [';'] ++ link.target ++ ['\x07']

/-- How the next character is drawn. -/
structure Pen where
  rendition : Rendition := {}
  link : Link := {}
  deriving DecidableEq, Repr

namespace Pen

/-- The pen after a string in front of its terminator, which sets a link if its number is eight. -/
def readString (p : Pen) (data : List Char) : Pen :=
  let digits := data.takeWhile fun c => '0' ≤ c && c ≤ '9'
  let number := digits.foldl Parameter.addDigit Parameter.absent
  match partsAt ';' data with
  | [_, details, target] => if number = 8 then { p with link := ⟨target, details⟩ } else p
  | _ => p

def withoutTerminator (cs : List Char) : List Char :=
  match cs.reverse with
  | '\\' :: '\x1b' :: rest => rest.reverse
  | c :: rest => if c = '\x07' then rest.reverse else cs
  | [] => []

def read (p : Pen) : List Char → Pen
  | '\x1b' :: '[' :: cs =>
    let parameters := cs.takeWhile fun c => '0' ≤ c && c ≤ ';'
    if cs.drop parameters.length = ['m'] then
      { p with rendition := p.rendition.apply (Parameter.read parameters) }
    else p
  | '\x1b' :: ']' :: cs => p.readString (withoutTerminator cs)
  | _ => p

def endRendition (p : Pen) : List Char := if p.rendition = {} then [] else "\x1b[m".toList

def endLink (p : Pen) : List Char := if p.link = {} then [] else Link.start {}

def lift (p : Pen) : List Char := p.endRendition ++ p.endLink

def finish (p : Pen) : List Char := p.endLink ++ p.endRendition

def resume (p : Pen) : List Char :=
  (if p.link = {} then [] else p.link.start)
    ++ (if p.rendition = {} then []
        else "\x1b[".toList ++ (";".intercalate p.rendition.codes).toList ++ ['m'])

end Pen

end CanonicalAbi.Text
