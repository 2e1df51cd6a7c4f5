import CanonicalAbi.Failure
import CanonicalAbi.Wit.Document

/-!
# From WIT documents to interface types

A converter adds the definitions of a document to a graph, each of them once: it remembers under
which number it added a definition, and it remembers that before it converts the body, so a
definition may refer to itself.
-/

namespace CanonicalAbi.Wit

/-- The definitions made so far, and for which entries of the document they are. -/
structure Converter where
  graph : Graph := .empty
  known : List (Nat × DefId) := []

/-- A conversion, which makes definitions and may fail. -/
abbrev Conversion := ExceptT Failure (StateM Converter)

namespace Converter

def empty : Converter := {}

def fresh (c : Converter) : Converter := { c with known := [] }

def enter (c : Converter) (id : Nat) (name : String) : Converter :=
  { graph := c.graph.push ⟨name, none⟩, known := (id, c.graph.nextId) :: c.known }

def forget (c : Converter) (id : Nat) : Converter :=
  { c with known := c.known.filter (·.1 != id) }

end Converter

namespace Conversion

def missing : Failure := .invalidInput .parse "nil WIT type definition"

def unknownType : Failure := .unsupported .parse [] "" "unknown WIT type"

def unknownBody : Failure := .unsupported .parse [] "" "unknown WIT definition kind"

def bodyFailed (name : String) (cause : Failure) : Failure :=
  .report { phase := .parse, kind := .invalidInput, type := name,
            detail := "convert WIT definition" } (some cause)

def add (d : Definition) : Conversion DefId :=
  modifyGet fun c => (c.graph.nextId, { c with graph := c.graph.push d })

def outcome {α : Type} (c : Conversion α) : Conversion (Except Failure α) := ExceptT.lift c.run

variable (definition : Nat → Conversion DefId)

def type : Option TypeUse → Conversion (Option TypeRef)
  | none => return none
  | some (.scalar s) => return some (.scalar s)
  | some .string => return some .string
  | some .errorContext => throw unknownType
  | some (.entry id) => return some (.defn (← definition id))

def part (p : Part) : Conversion Member := do
  return ⟨p.name, ← type definition p.type⟩

/-- Converts the resource of a handle. One that is not resolved becomes a resource of its own. -/
def resource : Option Nat → Conversion DefId
  | none => add ⟨"", some .resource⟩
  | some id => definition id

def kind : Option Body → Conversion Kind
  | some (.record fields) => return .record (← fields.mapM (part definition))
  | some (.variant cases) => return .variant (← cases.mapM (part definition))
  | some (.enum cases) => return .enum cases
  | some (.flags names) => return .flags names
  | some (.tuple types) => return .tuple (← types.mapM (type definition))
  | some (.option t) => return .option (← type definition t)
  | some (.result ok err) => return .result (← type definition ok) (← type definition err)
  | some (.list t) => return .list (← type definition t)
  | some (.own r) => return .own (some (← resource definition r))
  | some (.borrow r) => return .borrow (some (← resource definition r))
  | some .resource => return .resource
  | some (.future t) => return .future (← type definition t)
  | some (.stream _) => return .stream none
  | some (.same t) => return .synonym (← type definition (some t))
  | some (.pointer _) => throw unknownBody
  | none => throw unknownBody

def entry (id : Nat) (e : Entry) : Conversion DefId := do
  let new := (← get).graph.nextId
  modify (·.enter id e.name)
  match ← outcome (kind definition e.body) with
  | .ok k =>
    modify fun c => { c with graph := c.graph.set new ⟨e.name, some k⟩ }
    return new
  | .error cause =>
    modify (·.forget id)
    throw (bodyFailed e.name cause)

end Conversion

namespace Document

/-- Converts a definition through at most `depth` definitions inside each other. -/
def convertEntry (d : Document) : (depth : Nat) → Nat → Conversion DefId
  | 0, _ => throw Conversion.missing
  | depth + 1, id => do
    match d.entries[id]?, (← get).known.lookup id with
    | none, _ => throw Conversion.missing
    | some _, some known => return known
    | some e, none => Conversion.entry (d.convertEntry depth) id e

/-- Converts a type. The definitions on the way from the type inwards are known and different, so
one more than their number is deep enough. -/
def convert (d : Document) (t : Option TypeUse) : Conversion (Option TypeRef) :=
  Conversion.type (d.convertEntry (d.entries.size + 1)) t

end Document

end CanonicalAbi.Wit
