import CanonicalAbi.Text.Cluster

/-!
# A line of input

A prompt holds a text and a cursor in it. It shows as many characters of the text as fit, and the
part that is shown follows the cursor.
-/

namespace CanonicalAbi.Tool

/-- A line of input, its cursor, and the part of it that is shown. -/
structure Prompt where
  value : List Char := []
  cursor : Nat := 0
  left : Nat := 0
  right : Nat := 0
  deriving DecidableEq, Repr

namespace Prompt

def width : Nat := 60

def label : String := "sig: "

def placeholder : String := "greet: func(name: string) -> string"

def sanitize? (c : Char) : Option Char :=
  if c = '\n' ∨ c = '\r' ∨ c = '\t' then some ' '
  else if c.toNat < 0x20 ∨ (0x7f ≤ c.toNat ∧ c.toNat < 0xa0) ∨ c.toNat = 0xfffd then none
  else some c

/-- How many characters can be shown from the cursor on, when `used` columns are taken. One column
more than the prompt has is filled. -/
def fitAfter (used : Nat) : List Char → Nat
  | [] => 0
  | c :: cs =>
    let used' := used + Text.charColumns c
    if width < used ∨ width + 1 < used' then 0 else fitAfter used' cs + 1

/-- How many characters can be shown before the cursor, given those before it with the nearest
first, when `used` columns are taken. -/
def fitBefore (used : Nat) : List Char → Nat
  | [] => 0
  | c :: cs =>
    let used' := used + Text.charColumns c
    if width ≤ used ∨ width < used' then 0 else fitBefore used' cs + 1

def follow (p : Prompt) : Prompt :=
  if Text.columns p.value ≤ width then { p with left := 0, right := p.value.length }
  else
    let right := min p.right p.value.length
    if p.cursor < p.left then
      { p with left := p.cursor, right := p.cursor + fitAfter 0 (p.value.drop p.cursor) }
    else if right ≤ p.cursor then
      let before := ((p.value.take p.cursor).drop 1).reverse
      { p with left := p.cursor - fitBefore 0 before, right := p.cursor }
    else { p with right }

def moveTo (p : Prompt) (n : Nat) : Prompt := follow { p with cursor := min n p.value.length }

/-- Replaces the text. The cursor goes to the end if it was in an empty text or is beyond the end
now. -/
def replace (p : Prompt) (value : List Char) : Prompt :=
  let jumps := (p.cursor = 0 ∧ p.value = []) ∨ value.length < p.cursor
  let p := { p with value }
  if jumps then (p.moveTo value.length).follow else p.follow

def setText (p : Prompt) (text : List Char) : Prompt := p.replace (text.filterMap sanitize?)

def insert (p : Prompt) (cs : List Char) : Prompt :=
  let cs := cs.filterMap sanitize?
  { p with cursor := p.cursor + cs.length }.replace
    (p.value.take p.cursor ++ cs ++ p.value.drop p.cursor)

def type (p : Prompt) (cs : List Char) : Prompt := (p.insert cs).follow

def backspace (p : Prompt) : Prompt :=
  if p.cursor = 0 then p.follow
  else
    let value := p.value.take (p.cursor - 1) ++ p.value.drop p.cursor
    ({ p with value }.moveTo (p.cursor - 1)).follow

def back (p : Prompt) : Prompt :=
  if p.cursor = 0 then p.follow else (p.moveTo (p.cursor - 1)).follow

def forward (p : Prompt) : Prompt :=
  if p.cursor < p.value.length then (p.moveTo (p.cursor + 1)).follow else p.follow

def text (p : Prompt) : String := String.ofList p.value

def shown (p : Prompt) : String :=
  label ++ (if p.value = [] then placeholder
    else String.ofList ((p.value.take p.right).drop p.left))

end Prompt

end CanonicalAbi.Tool
