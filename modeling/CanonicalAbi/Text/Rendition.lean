import CanonicalAbi.Text.Color

/-!
# Renditions

How a text looks: its weight, its slant, the line under it, its colours.
-/

namespace CanonicalAbi.Text

/-- The kinds of underlines. -/
inductive Underline where
  | single
  | double
  | curly
  | dotted
  | dashed
  deriving DecidableEq, Repr

def Underline.ofNumber? : Nat → Option Underline
  | 1 => some single
  | 2 => some double
  | 3 => some curly
  | 4 => some dotted
  | 5 => some dashed
  | _ => none

def Underline.code : Underline → String
  | single => "4"
  | double => "4:2"
  | curly => "4:3"
  | dotted => "4:4"
  | dashed => "4:5"

/-- The graphic rendition of characters. -/
structure Rendition where
  bold : Bool := false
  faint : Bool := false
  italic : Bool := false
  slowBlink : Bool := false
  rapidBlink : Bool := false
  reverse : Bool := false
  conceal : Bool := false
  strike : Bool := false
  underline : Option Underline := none
  foreground : Option Color := none
  background : Option Color := none
  underlineColor : Option Color := none
  deriving DecidableEq, Repr

namespace Rendition

/-- The rendition after a parameter that may take some of those behind it, and how many it
takes. -/
def withParameter (r : Rendition) (p : Parameter) (ps : List Parameter) : Rendition × Nat :=
  let n := p.number
  let withColor (f : Option Color → Rendition) :=
    match Color.read? p ps with
    | some (color, used) => (f color, used)
    | none => (r, 0)
  match n with
  | 0 => ({}, 0)
  | 1 => ({ r with bold := true }, 0)
  | 2 => ({ r with faint := true }, 0)
  | 3 => ({ r with italic := true }, 0)
  | 4 =>
    match p.continued, ps with
    | true, q :: _ =>
      if q.number ≤ 5 then ({ r with underline := Underline.ofNumber? q.number }, 1) else (r, 0)
    | _, _ => ({ r with underline := some .single }, 0)
  | 5 => ({ r with slowBlink := true }, 0)
  | 6 => ({ r with rapidBlink := true }, 0)
  | 7 => ({ r with reverse := true }, 0)
  | 8 => ({ r with conceal := true }, 0)
  | 9 => ({ r with strike := true }, 0)
  | 22 => ({ r with bold := false, faint := false }, 0)
  | 23 => ({ r with italic := false }, 0)
  | 24 => ({ r with underline := none }, 0)
  | 25 => ({ r with slowBlink := false, rapidBlink := false }, 0)
  | 27 => ({ r with reverse := false }, 0)
  | 28 => ({ r with conceal := false }, 0)
  | 29 => ({ r with strike := false }, 0)
  | 38 => withColor fun c => { r with foreground := c }
  | 39 => ({ r with foreground := none }, 0)
  | 48 => withColor fun c => { r with background := c }
  | 49 => ({ r with background := none }, 0)
  | 58 => withColor fun c => { r with underlineColor := c }
  | 59 => ({ r with underlineColor := none }, 0)
  | n =>
    if 30 ≤ n && n ≤ 37 then ({ r with foreground := some (.basic (n - 30)) }, 0)
    else if 40 ≤ n && n ≤ 47 then ({ r with background := some (.basic (n - 40)) }, 0)
    else if 90 ≤ n && n ≤ 97 then ({ r with foreground := some (.bright (n - 90)) }, 0)
    else if 100 ≤ n && n ≤ 107 then ({ r with background := some (.bright (n - 100)) }, 0)
    else (r, 0)

/-- The rendition after some parameters, the first `used` of which are taken already. -/
def withParameters (used : Nat) (r : Rendition) : List Parameter → Rendition
  | [] => r
  | p :: ps =>
    match used with
    | used + 1 => withParameters used r ps
    | 0 =>
      let (r, used) := r.withParameter p ps
      withParameters used r ps

/-- The rendition after a control function with the given parameters. Without any it is plain. -/
def apply (r : Rendition) (ps : List Parameter) : Rendition :=
  if ps.isEmpty then {} else r.withParameters 0 ps

def codes (r : Rendition) : List String :=
  let flag (b : Bool) (code : String) := if b then [code] else []
  let color (c : Option Color) (f : Color → List Nat) :=
    match c with
    | some c => (f c).map Nat.repr
    | none => []
  flag r.bold "1" ++ flag r.faint "2" ++ flag r.italic "3" ++ flag r.slowBlink "5"
    ++ flag r.rapidBlink "6" ++ flag r.reverse "7" ++ flag r.conceal "8" ++ flag r.strike "9"
    ++ (r.underline.map Underline.code).toList
    ++ color r.foreground (·.codes 30 90 38)
    ++ color r.background (·.codes 40 100 48)
    ++ color r.underlineColor Color.underlineCodes

end Rendition

end CanonicalAbi.Text
