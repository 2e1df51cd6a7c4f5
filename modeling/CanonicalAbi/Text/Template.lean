import CanonicalAbi.Text.Quoted

/-!
# Message templates

The detail of a failure may be given as a template with holes: `%d` takes a number, `%s` a text,
`%q` shows its argument in quotes, `%v` takes either, and `%%` is a percent sign.
-/

namespace CanonicalAbi.Text

/-- A value that is put into a template. -/
inductive Argument where
  | number (n : Int)
  | text (s : String)

namespace Argument

def plain : Argument → String
  | number n => toString n
  | text s => s

def typed : Argument → String
  | number n => "int64=" ++ toString n
  | text s => "string=" ++ s

def charOf (n : Int) : Char :=
  if n < 0 then '�'
  else if h : n.toNat.isValidChar then Char.ofNatAux n.toNat h else '�'

def fill (verb : Char) : Argument → String
  | number n =>
    if verb == 'd' || verb == 'v' then toString n
    else if verb == 'q' then quotedChar (charOf n)
    else "%!" ++ verb.toString ++ "(" ++ typed (number n) ++ ")"
  | text s =>
    if verb == 's' || verb == 'v' then s
    else if verb == 'q' then quoted s
    else "%!" ++ verb.toString ++ "(" ++ typed (text s) ++ ")"

end Argument

def fillTemplate : List Char → List Argument → String
  | [], [] => ""
  | [], rest@(_ :: _) => "%!(EXTRA " ++ ", ".intercalate (rest.map Argument.typed) ++ ")"
  | ['%'], args => "%!(NOVERB)" ++ fillTemplate [] args
  | '%' :: '%' :: cs, args => "%" ++ fillTemplate cs args
  | '%' :: verb :: cs, [] => "%!" ++ verb.toString ++ "(MISSING)" ++ fillTemplate cs []
  | '%' :: verb :: cs, arg :: args => arg.fill verb ++ fillTemplate cs args
  | c :: cs, args => c.toString ++ fillTemplate cs args

def template (pattern : String) : List Argument → String
  | [] => pattern
  | args => fillTemplate pattern.toList args

end CanonicalAbi.Text
