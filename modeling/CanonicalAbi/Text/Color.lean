/-!
# Colours

A control function that sets a colour has the numbers of the colour among its parameters.
-/

namespace CanonicalAbi.Text

/-- A parameter of a control sequence. If it is continued, the next one belongs to it. -/
structure Parameter where
  number? : Option Nat
  continued : Bool
  deriving DecidableEq, Repr

namespace Parameter

def number (p : Parameter) : Nat := p.number?.getD 0

def absent : UInt64 := 0x7fffffff

def addDigit (word : UInt64) (digit : Char) : UInt64 :=
  (if word = absent then 0 else word) * 10 + (digit.toNat - '0'.toNat).toUInt64

/-- The parameter of a word. The lower 31 bits are its number, and a bit above them joins the next
parameter to it as a colon does. -/
def ofWord (word : UInt64) (colon : Bool) : Parameter :=
  let low := word &&& absent
  ⟨if low = absent then none else some low.toNat, colon || low != word⟩

/-- The parameters of a text, of the first of which a word is read already. A colon joins a
parameter to the one before. -/
def readFrom (word : UInt64) : List Char → List Parameter
  | [] => [ofWord word false]
  | c :: cs =>
    if c = ':' then ofWord word true :: readFrom absent cs
    else if c = ';' then ofWord word false :: readFrom absent cs
    else readFrom (addDigit word c) cs

def room : Nat := 32

def read (cs : List Char) : List Parameter :=
  let ps := if cs.isEmpty then [] else readFrom absent cs
  if ps.length < room then ps else ps.dropLast

end Parameter

/-- The colours of characters. -/
inductive Color where
  | basic (n : Nat)
  | bright (n : Nat)
  | indexed (n : Nat)
  | mixed (red green blue : Nat)
  deriving DecidableEq, Repr

namespace Color

/-- The numbers of a colour behind the two parameters that begin it, and how many parameters they
take. -/
def numbers? (joined : Bool) (kind : Nat) (ps : List Parameter) : Option (List Nat × Nat) :=
  let run := (ps.takeWhile (·.continued)).length
  let values (i n : Nat) := ((ps.drop i).take n).map fun p => p.number % 256
  if joined && ps.length > 6 && run ≥ 6 then some (values 1 4, 7)
  else if joined && ps.length > 5 && run ≥ 5 then some (values 1 4, 6)
  else if joined && ps.length > 4 && run ≥ 4 then some (values 1 4, 5)
  else if joined && ps.length > 3 && run == 3 then some (values 1 3, 4)
  else if kind == 2 && ps.length > 2
      && (if joined then run == 2 else (ps.take 3).all (!·.continued)) then some (values 0 3, 3)
  else none

/-- A component of light from the shares of a colour and of black in a print, all of them out of
256. -/
def printed (share black : Nat) : Nat :=
  let light := (0xffff - share * 0x101) * (0xffff - black * 0x101) / 0xffff
  if light > 0xff then light / 0x100 else light

def read? (first : Parameter) : List Parameter → Option (Option Color × Nat)
  | [] => none
  | second :: ps =>
    let kind := second.number
    let numbers := numbers? first.continued kind ps
    let joined := first.continued == second.continued
    match kind with
    | 0 => some (none, 1)
    | 1 => some (some (mixed 0 0 0), 1)
    | 2 =>
      match joined, numbers with
      | true, some (r :: g :: b :: _, n) => some (some (mixed r g b), n + 1)
      | _, _ => none
    | 3 =>
      match joined, numbers with
      | true, some (c :: m :: y :: _, n) =>
        some (some (mixed (printed c 0) (printed m 0) (printed y 0)), n + 1)
      | _, _ => none
    | 4 =>
      match joined, numbers with
      | true, some (c :: m :: y :: k :: _, n) =>
        some (some (mixed (printed c k) (printed m k) (printed y k)), n + 1)
      | _, _ => none
    | 5 =>
      match joined, ps with
      | true, p :: _ => if p.continued then none else some (some (indexed (p.number % 256)), 2)
      | _, _ => none
    | 6 =>
      match joined, numbers with
      | true, some (r :: g :: b :: _ :: _, n) => some (some (mixed r g b), n + 1)
      | _, _ => none
    | _ => none

/-- The parameters that set a colour, by the number for a basic one, for a bright one and for all
others. -/
def codes (basicCode brightCode otherCode : Nat) : Color → List Nat
  | basic n => [basicCode + n]
  | bright n => [brightCode + n]
  | indexed n => [otherCode, 5, n]
  | mixed r g b => [otherCode, 2, r, g, b]

def underlineCodes : Color → List Nat
  | basic n => [58, 5, n]
  | bright n => [58, 5, n + 8]
  | c => c.codes 0 0 58

end Color

end CanonicalAbi.Text
