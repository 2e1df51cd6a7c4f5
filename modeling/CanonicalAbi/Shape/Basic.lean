import CanonicalAbi.Interface.Function

/-!
# Shapes

The shape of a type is what passing its values depends on: which scalars it consists of and how they
are put together, without the names of fields and cases.
-/

namespace CanonicalAbi

/-- Which definition a shape comes from. -/
structure Label where
  id : DefId
  /-- How it is spelled. The spelling of an anonymous type can be far longer than its description,
  so it is worked out only when it is shown. -/
  spelling : Thunk String

/-- The types whose values have all of several parts. -/
inductive ProductForm where
  | record
  | tuple
  deriving DecidableEq, Repr

/-- The types whose values are one of several cases. -/
inductive SumForm where
  | variant
  | union
  | option
  | result
  deriving DecidableEq, Repr

/-- Whether a handle is handed over or lent. -/
inductive HandleForm where
  | own
  | borrow
  deriving DecidableEq, Repr

/-- The types of values that arrive later. -/
inductive ChannelForm where
  | future
  | stream
  deriving DecidableEq, Repr

/-- The structure of a type as far as passing its values depends on it. -/
inductive Shape where
  | scalar (s : Scalar)
  | string
  | product (label : Label) (form : ProductForm) (fields : List (Option Shape))
  | sum (label : Label) (form : SumForm) (payloads : List (Option Shape))
  | enum (label : Label) (cases : Nat)
  | flags (label : Label) (count : Nat)
  | list (label : Label) (elem : Option Shape)
  | handle (label : Label) (form : HandleForm) (resource : Option Label)
  | channel (label : Label) (form : ChannelForm)
  | resource (label : Label)
  | synonym (label : Label) (target : Option Shape)
  | unfinished (label : Label)

/-- The types of several parts of a value, in order. -/
abbrev Parts := List (Option Shape)

/-- Which lists are moved as raw bytes, told by the type of their elements. -/
abbrev RawRule := Option Shape → Bool

namespace Shape

def label? : Shape → Option Label
  | scalar _ | string => none
  | product l _ _ | sum l _ _ | enum l _ | flags l _ | list l _ | handle l _ _ | channel l _
  | resource l | synonym l _ | unfinished l => some l

def spelling : Shape → String
  | scalar s => s.name
  | string => "string"
  | product l _ _ | sum l _ _ | enum l _ | flags l _ | list l _ | handle l _ _ | channel l _
  | resource l | synonym l _ | unfinished l => l.spelling.get

mutual

/-- The shape behind synonyms. A synonym of a scalar, of `string` or of nothing stands for itself.
-/
def resolve : Shape → Shape
  | synonym l t => resolveTarget (synonym l t) t
  | s => s

def resolveTarget (self : Shape) : Option Shape → Shape
  | none => self
  | some (scalar _) | some string => self
  | some s => s.resolve

end

def fieldCount (form : ProductForm) (s : Shape) : Nat :=
  match s.resolve with
  | product _ f fields => if f = form then fields.length else 0
  | _ => 0

def caseCount (s : Shape) : Nat :=
  match s.resolve with
  | sum _ _ payloads => payloads.length
  | enum _ cases => cases
  | _ => 0

def flagCount (s : Shape) : Nat :=
  match s.resolve with
  | flags _ count => count
  | _ => 0

end Shape

/-- A function with the shapes of its types. -/
structure FunctionShape where
  name : String
  params : Parts
  results : Parts

end CanonicalAbi
