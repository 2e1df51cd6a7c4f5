/-!
# Interface types

The types of an interface form a graph.
-/

namespace CanonicalAbi

/-- The types of single numbers, truth values and characters. -/
inductive Scalar where
  | bool
  | s8
  | u8
  | s16
  | u16
  | s32
  | u32
  | s64
  | u64
  | f32
  | f64
  | char
  deriving DecidableEq, Repr

namespace Scalar

def name : Scalar → String
  | bool => "bool"
  | s8 => "s8"
  | u8 => "u8"
  | s16 => "s16"
  | u16 => "u16"
  | s32 => "s32"
  | u32 => "u32"
  | s64 => "s64"
  | u64 => "u64"
  | f32 => "f32"
  | f64 => "f64"
  | char => "char"

def all : List Scalar := [bool, s8, u8, s16, u16, s32, u32, s64, u64, f32, f64, char]

def ofName? (s : String) : Option Scalar := all.find? (·.name == s)

end Scalar

/-- The identity of a definition: its number in the graph. -/
abbrev DefId := Nat

/-- A type where it is used. -/
inductive TypeRef where
  | scalar (s : Scalar)
  | string
  | defn (id : DefId)
  deriving DecidableEq, Repr

/-- A name with a type: a field of a record, a case of a variant, a parameter or a result. A case
without a payload has no type. -/
structure Member where
  name : String
  type : Option TypeRef
  deriving DecidableEq, Repr

/-- What a definition defines. A type that is missing is left out. -/
inductive Kind where
  | record (fields : List Member)
  | variant (cases : List Member)
  | enum (cases : List String)
  | flags (names : List String)
  | union (cases : List (Option TypeRef))
  | option (type : Option TypeRef)
  | result (ok err : Option TypeRef)
  | tuple (types : List (Option TypeRef))
  | list (type : Option TypeRef)
  | own (resource : Option DefId)
  | borrow (resource : Option DefId)
  | resource
  | future (type : Option TypeRef)
  | stream (type : Option TypeRef)
  | synonym (type : Option TypeRef)
  deriving DecidableEq, Repr

/-- A definition, which is anonymous if its name is empty and unfinished without a kind. -/
structure Definition where
  name : String := ""
  kind : Option Kind
  deriving DecidableEq, Repr

/-- The definitions of an interface, which refer to each other by number. -/
structure Graph where
  defs : Array Definition := #[]
  deriving DecidableEq, Repr

namespace Graph

def empty : Graph := {}

def size (g : Graph) : Nat := g.defs.size

def get? (g : Graph) (id : DefId) : Option Definition := g.defs[id]?

/-- The kind of a definition that exists and has one. -/
def kind? (g : Graph) (id : DefId) : Option Kind := (g.get? id).bind (·.kind)

def name (g : Graph) (id : DefId) : String := ((g.get? id).map (·.name)).getD ""

def nextId (g : Graph) : DefId := g.defs.size

def push (g : Graph) (d : Definition) : Graph := { defs := g.defs.push d }

def set (g : Graph) (id : DefId) (d : Definition) : Graph := { defs := g.defs.setIfInBounds id d }

def rename (g : Graph) (id : DefId) (name : String) : Graph :=
  { defs := g.defs.modify id fun d => { d with name } }

/-- Follows synonyms from a kind, at most `fuel` of them. A synonym of anything but a definition is
the end of the way. -/
def followSynonyms (g : Graph) : Nat → Option Kind → Option Kind
  | fuel + 1, some (.synonym (some (.defn id))) => g.followSynonyms fuel (g.kind? id)
  | _, kind => kind

def resolve (g : Graph) (id : DefId) : Option Kind := g.followSynonyms g.size (g.kind? id)

end Graph

end CanonicalAbi
