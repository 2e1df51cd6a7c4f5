import CanonicalAbi.Interface.Graph

/-!
# Resolved WIT documents

The definitions of a WIT document after its names were resolved.
-/

namespace CanonicalAbi.Wit

/-- A type where it is used: a built-in one, or an entry of the document. -/
inductive TypeUse where
  | scalar (s : Scalar)
  | string
  | errorContext
  | entry (id : Nat)
  deriving DecidableEq, Repr

/-- A field of a record or a case of a variant, which need not have a type. -/
structure Part where
  name : String
  type : Option TypeUse
  deriving DecidableEq, Repr

/-- What an entry defines. Pointers are refused, and `same` is another name for a type. -/
inductive Body where
  | record (fields : List Part)
  | variant (cases : List Part)
  | enum (cases : List String)
  | flags (names : List String)
  | tuple (types : List (Option TypeUse))
  | option (type : Option TypeUse)
  | result (ok err : Option TypeUse)
  | list (type : Option TypeUse)
  | own (resource : Option Nat)
  | borrow (resource : Option Nat)
  | resource
  | future (type : Option TypeUse)
  | stream (type : Option TypeUse)
  | pointer (type : Option TypeUse)
  | same (type : TypeUse)
  deriving DecidableEq, Repr

/-- A definition of a document. Without a body it is unfinished. -/
structure Entry where
  name : String := ""
  body : Option Body
  deriving DecidableEq, Repr

/-- The definitions of a document by number. A number that is not among them refers to nothing. -/
structure Document where
  entries : Array Entry := #[]
  deriving DecidableEq, Repr

end CanonicalAbi.Wit
