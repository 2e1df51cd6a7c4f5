/-!
# Control sequences

A terminal reads a stream in which control sequences stand between the characters that it shows.
-/

namespace CanonicalAbi.Text

/-- Where in a control sequence the next character is read. -/
inductive Reading where
  | ground
  | escape
  | escapeIntermediate
  | function
  | functionIntermediate
  | device
  | deviceParameters
  | deviceIntermediate
  | deviceData
  | command
  | message
  deriving DecidableEq, Repr

namespace Reading

def isPassive (b : Nat) : Bool := b < 0x20 && b != 0x18 && b != 0x1a && b != 0x1b

def restart (b : Nat) : Reading :=
  if b = 0x1b then escape
  else if b = 0x90 then device
  else if b = 0x9b then function
  else if b = 0x9d then command
  else if b = 0x98 || b = 0x9e || b = 0x9f then message
  else ground

def afterEscape (b : Nat) : Reading :=
  if b = 0x50 then device
  else if b = 0x5b then function
  else if b = 0x5d then command
  else if b = 0x58 || b = 0x5e || b = 0x5f then message
  else ground

def after (s : Reading) (b : Nat) : Reading :=
  match s with
  | ground => restart b
  | escape =>
    if isPassive b || b = 0x7f then escape
    else if b < 0x20 || 0x80 ≤ b then restart b
    else if b < 0x30 then escapeIntermediate
    else afterEscape b
  | escapeIntermediate =>
    if isPassive b || b = 0x7f || (0x20 ≤ b && b < 0x30) then escapeIntermediate else restart b
  | function =>
    if isPassive b || b = 0x7f || (0x30 ≤ b && b < 0x40) then function
    else if 0x20 ≤ b && b < 0x30 then functionIntermediate
    else restart b
  | functionIntermediate =>
    if isPassive b || b = 0x7f || (0x20 ≤ b && b < 0x30) then functionIntermediate else restart b
  | device =>
    if b = 0x1b || (0x08 ≤ b && b ≤ 0x0d) || (0x40 ≤ b && b < 0x7f) then deviceData
    else if isPassive b || b = 0x7f then device
    else if 0x20 ≤ b && b < 0x30 then deviceIntermediate
    else if 0x30 ≤ b && b < 0x40 then deviceParameters
    else restart b
  | deviceParameters =>
    if 0x40 ≤ b && b < 0x7f then deviceData
    else if isPassive b || b = 0x7f || (0x30 ≤ b && b < 0x40) then deviceParameters
    else if 0x20 ≤ b && b < 0x30 then deviceIntermediate
    else restart b
  | deviceIntermediate =>
    if 0x30 ≤ b && b < 0x7f then deviceData
    else if isPassive b || b = 0x7f || (0x20 ≤ b && b < 0x30) then deviceIntermediate
    else restart b
  | deviceData =>
    if b = 0x1b then escape
    else if b = 0x18 || b = 0x1a || b = 0x9c then ground
    else deviceData
  | command =>
    if b = 0x1b then escape
    else if b = 0x07 || b = 0x18 || b = 0x1a || b = 0x9c then ground
    else command
  | message =>
    if isPassive b || (0x20 ≤ b && b < 0x80) then message else restart b

def isText (s : Reading) (b : Nat) : Bool :=
  match s with
  | ground => b != 0x1b
  | escape | escapeIntermediate | function | functionIntermediate => b < 0x20 && b != 0x1b
  | device | deviceParameters | deviceIntermediate => b = 0x18 || b = 0x1a
  | deviceData | command | message => false

def next (s : Reading) (c : Char) : Bool × Reading :=
  if c.toNat < 0x80 then (s.isText c.toNat, s.after c.toNat)
  else if s = .deviceData || s = .command then
    (false, (String.utf8EncodeChar c).foldl (fun s b => s.after b.toNat) s)
  else (true, ground)

end Reading

end CanonicalAbi.Text
