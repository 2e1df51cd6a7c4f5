import CanonicalAbi.Interface.Function

/-!
# Spellings

How types and functions are written. A named definition is written by its name, an anonymous one by
its structure, and a type that is left out by an underscore.
-/

namespace CanonicalAbi

def commas (parts : List String) : String := ", ".intercalate parts

/-- A type that may be left out, given the spelling of types: a hole is written as an underscore. -/
def orHole (spell : TypeRef → String) : Option TypeRef → String
  | none => "_"
  | some t => spell t

def Member.caseSpelling (spell : TypeRef → String) (m : Member) : String :=
  match m.type with
  | none => m.name
  | some t => m.name ++ "(" ++ spell t ++ ")"

def Member.spelling (spell : TypeRef → String) (m : Member) : String :=
  m.name ++ ": " ++ orHole spell m.type

def handleSpelling (resourceName : DefId → String) : Option DefId → String
  | none => "resource"
  | some id => if (resourceName id).isEmpty then "resource" else resourceName id

/-- The spelling of a kind, given the spellings of the types in it and the names of resources. -/
def Kind.spelling (spell : TypeRef → String) (resourceName : DefId → String) : Kind → String
  | record fields => "record \x7b " ++ commas (fields.map (·.spelling spell)) ++ " \x7d"
  | variant cases => "variant \x7b " ++ commas (cases.map (·.caseSpelling spell)) ++ " \x7d"
  | enum cases => "enum \x7b " ++ commas cases ++ " \x7d"
  | flags names => "flags \x7b " ++ commas names ++ " \x7d"
  | union cases => "union \x7b " ++ commas (cases.map (orHole spell)) ++ " \x7d"
  | option t => "option<" ++ orHole spell t ++ ">"
  | result none none => "result"
  | result (some t) none => "result<" ++ spell t ++ ">"
  | result ok (some e) => "result<" ++ orHole spell ok ++ ", " ++ spell e ++ ">"
  | tuple ts => "tuple<" ++ commas (ts.map (orHole spell)) ++ ">"
  | list t => "list<" ++ orHole spell t ++ ">"
  | own r => "own<" ++ handleSpelling resourceName r ++ ">"
  | borrow r => "borrow<" ++ handleSpelling resourceName r ++ ">"
  | resource => "resource"
  | future t => "future<" ++ orHole spell t ++ ">"
  | stream t => "stream<" ++ orHole spell t ++ ">"
  | synonym t => orHole spell t

namespace Graph

/-- The spelling of a type, expanding at most `fuel` anonymous definitions inside one another. -/
def spellingWithin (g : Graph) : Nat → TypeRef → String
  | _, .scalar s => s.name
  | _, .string => "string"
  | 0, .defn _ => "..."
  | fuel + 1, .defn id =>
    match g.get? id with
    | none => "<nil>"
    | some d =>
      if d.name.isEmpty then
        match d.kind with
        | none => "<unknown>"
        | some k => k.spelling (g.spellingWithin fuel) g.name
      else d.name

/-- The spelling of a type. In a graph without cycles through anonymous definitions, definitions are
expanded in full, since no chain of them is longer than the graph. -/
def spelling (g : Graph) (t : TypeRef) : String := g.spellingWithin (g.size + 1) t

def kindSpelling (g : Graph) (k : Kind) : String := k.spelling g.spelling g.name

end Graph

def resultsSpelling (spell : TypeRef → String) : List Member → String
  | [] => ""
  | [⟨"", t⟩] => " -> " ++ orHole spell t
  | ms => " -> (" ++ commas (ms.map fun m =>
      if m.name.isEmpty then orHole spell m.type else m.spelling spell) ++ ")"

def Function.spelling (g : Graph) (f : Function) : String :=
  f.name ++ ": func(" ++ commas (f.params.map (·.spelling g.spelling)) ++ ")"
    ++ resultsSpelling g.spelling f.results

end CanonicalAbi
