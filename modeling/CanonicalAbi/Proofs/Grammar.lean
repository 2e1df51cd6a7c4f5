import CanonicalAbi.Idl.Reader
import CanonicalAbi.Shape.Basic

/-!
# The grammar of declarations

The syntax trees of declarations, with the lexemes that each is written with, the conditions under
which it makes sense after earlier declarations, and what it then declares.
-/

namespace CanonicalAbi.Idl

/-- The names that are declared. -/
abbrev Scope := List (String × DefId)

/-! ## Types -/

/-- The types of one other type. -/
inductive Wrapper where
  | list
  | option
  | future
  | stream

namespace Wrapper

def keyword : Wrapper → String
  | list => "list"
  | option => "option"
  | future => "future"
  | stream => "stream"

def kind (t : Option TypeRef) : Wrapper → Kind
  | list => .list t
  | option => .option t
  | future => .future t
  | stream => .stream t

def Bare : Wrapper → Prop
  | list | option => False
  | future | stream => True

end Wrapper

/-- The types of several other types. -/
inductive Row where
  | tuple
  | union

namespace Row

def keyword : Row → String
  | tuple => "tuple"
  | union => "union"

def opening : Row → Char
  | tuple => '<'
  | union => '\x7b'

def closing : Row → Char
  | tuple => '>'
  | union => '\x7d'

def kind (types : List (Option TypeRef)) : Row → Kind
  | tuple => .tuple types
  | union => .union types

end Row

/-- The types that are lists of names. -/
inductive NameSet where
  | enum
  | flags

namespace NameSet

def keyword : NameSet → String
  | enum => "enum"
  | flags => "flags"

def kind (names : List String) : NameSet → Kind
  | enum => .enum names
  | flags => .flags names

end NameSet

def handleKeyword : HandleForm → String
  | .own => "own"
  | .borrow => "borrow"

def handleKind (resource : Option DefId) : HandleForm → Kind
  | .own => .own resource
  | .borrow => .borrow resource

def keywords : List String :=
  ["list", "option", "future", "stream", "result", "tuple", "own", "borrow", "record", "variant",
    "union", "enum", "flags"]

/-- The types that WIT names itself, floats by their older names too. -/
def builtinTypes : List (String × TypeRef) :=
  [("bool", .scalar .bool), ("s8", .scalar .s8), ("u8", .scalar .u8), ("s16", .scalar .s16),
    ("u16", .scalar .u16), ("s32", .scalar .s32), ("u32", .scalar .u32), ("s64", .scalar .s64),
    ("u64", .scalar .u64), ("f32", .scalar .f32), ("f64", .scalar .f64), ("char", .scalar .char),
    ("string", .string), ("float32", .scalar .f32), ("float64", .scalar .f64)]

/-- The type of a name. A declared name hides one that need not be declared. -/
def typeNamed (scope : Scope) (name : String) : Option TypeRef :=
  match scope.lookup name with
  | some id => some (.defn id)
  | none => builtinTypes.lookup name

/-- A type as it is written; `comma` says whether one is behind the last item. -/
inductive TypeExpr where
  | named (name : String)
  | wrapped (w : Wrapper) (elem : Option TypeExpr)
  | bareResult
  | result (ok err : Option TypeExpr)
  | handle (form : HandleForm) (resource : String)
  | row (form : Row) (types : List TypeExpr)
  | record (fields : List (String × TypeExpr)) (comma : Bool)
  | variant (cases : List (String × Option TypeExpr)) (comma : Bool)
  | names (form : NameSet) (names : List String) (comma : Bool)

/-- Pieces with commas between them, and maybe behind the last one. -/
def separated (comma : Bool) : List (List Lexeme) → List Lexeme
  | [] => []
  | p :: ps => p ++ ps.flatMap (.mark ',' :: ·) ++ if comma then [.mark ','] else []

mutual

def TypeExpr.lexemes : TypeExpr → List Lexeme
  | .named name => [.word name]
  | .wrapped w none => [.word w.keyword]
  | .wrapped w (some elem) => .word w.keyword :: .mark '<' :: (elem.lexemes ++ [.mark '>'])
  | .bareResult => [.word "result"]
  | .result none none => [.word "result", .mark '<', .word "_", .mark '>']
  | .result none (some err) =>
    .word "result" :: .mark '<' :: .word "_" :: .mark ',' :: (err.lexemes ++ [.mark '>'])
  | .result (some ok) none => .word "result" :: .mark '<' :: (ok.lexemes ++ [.mark '>'])
  | .result (some ok) (some err) =>
    .word "result" :: .mark '<' :: (ok.lexemes ++ .mark ',' :: (err.lexemes ++ [.mark '>']))
  | .handle form resource =>
    [.word (handleKeyword form), .mark '<', .word resource, .mark '>']
  | .row form types =>
    .word form.keyword :: .mark form.opening ::
      (separated false (typePieces types) ++ [.mark form.closing])
  | .record fields comma =>
    .word "record" :: .mark '\x7b' :: (separated comma (fieldPieces fields) ++ [.mark '\x7d'])
  | .variant cases comma =>
    .word "variant" :: .mark '\x7b' :: (separated comma (casePieces cases) ++ [.mark '\x7d'])
  | .names form names comma =>
    .word form.keyword :: .mark '\x7b' ::
      (separated comma (names.map fun name => [.word name]) ++ [.mark '\x7d'])

def typePieces : List TypeExpr → List (List Lexeme)
  | [] => []
  | t :: ts => t.lexemes :: typePieces ts

def fieldPieces : List (String × TypeExpr) → List (List Lexeme)
  | [] => []
  | (name, t) :: fs => (.word name :: .mark ':' :: t.lexemes) :: fieldPieces fs

def casePieces : List (String × Option TypeExpr) → List (List Lexeme)
  | [] => []
  | (name, none) :: cs => [.word name] :: casePieces cs
  | (name, some t) :: cs => (.word name :: .mark '(' :: (t.lexemes ++ [.mark ')'])) :: casePieces cs

end

section Scope

variable (scope : Scope)

mutual

def TypeExpr.Valid : TypeExpr → Prop
  | .named name => name ∉ keywords ∧ typeNamed scope name ≠ none
  | .wrapped w none => w.Bare
  | .wrapped _ (some elem) => elem.Valid
  | .bareResult | .result none none => True
  | .result none (some err) => err.Valid
  -- An underscore in the first place stands for a side that is left out, even if it is a name.
  | .result (some ok) none => ok ≠ .named "_" ∧ ok.Valid
  | .result (some ok) (some err) => ok ≠ .named "_" ∧ ok.Valid ∧ err.Valid
  | .handle _ resource => scope.lookup resource ≠ none
  | .row _ types => TypesValid types
  | .record fields _ => FieldsValid fields
  | .variant cases _ => CasesValid cases
  | .names _ _ _ => True

def TypesValid : List TypeExpr → Prop
  | [] => True
  | t :: ts => t.Valid ∧ TypesValid ts

def FieldsValid : List (String × TypeExpr) → Prop
  | [] => True
  | (_, t) :: fs => t.Valid ∧ FieldsValid fs

def CasesValid : List (String × Option TypeExpr) → Prop
  | [] => True
  | (_, none) :: cs => CasesValid cs
  | (_, some t) :: cs => t.Valid ∧ CasesValid cs

end

def define (k : Kind) : StateM Graph (Option TypeRef) := do
  let g ← get
  set (g.push { kind := some k })
  return some (.defn g.nextId)

mutual

/-- The type that is written, after its parts have been defined in the order of the text. -/
def TypeExpr.type : TypeExpr → StateM Graph (Option TypeRef)
  | .named name => return typeNamed scope name
  | .wrapped w elem => do define (w.kind (← type? elem))
  | .bareResult => define (.result none none)
  | .result ok err => do
    let ok ← type? ok
    let err ← type? err
    define (.result ok err)
  | .handle form resource => define (handleKind (scope.lookup resource) form)
  | .row form types => do define (form.kind (← typesOf types))
  | .record fields _ => do define (.record (← membersOf fields))
  | .variant cases _ => do define (.variant (← casesOf cases))
  | .names form names _ => define (form.kind names)

def type? : Option TypeExpr → StateM Graph (Option TypeRef)
  | none => return none
  | some t => t.type

def typesOf : List TypeExpr → StateM Graph (List (Option TypeRef))
  | [] => return []
  | t :: ts => do
    let first ← t.type
    let rest ← typesOf ts
    return first :: rest

def membersOf : List (String × TypeExpr) → StateM Graph (List Member)
  | [] => return []
  | (name, t) :: fs => do
    let first ← t.type
    let rest ← membersOf fs
    return ⟨name, first⟩ :: rest

def casesOf : List (String × Option TypeExpr) → StateM Graph (List Member)
  | [] => return []
  | (name, t) :: cs => do
    let first ← type? t
    let rest ← casesOf cs
    return ⟨name, first⟩ :: rest

end

end Scope

/-! ## Declarations -/

/-- The results of a function as they are written. -/
inductive Results where
  | nothing
  | single (type : TypeExpr)
  | several (members : List (String × TypeExpr)) (comma : Bool)

namespace Results

def lexemes : Results → List Lexeme
  | nothing => []
  | single t => .arrow :: t.lexemes
  | several members comma =>
    .arrow :: .mark '(' :: (separated comma (fieldPieces members) ++ [.mark ')'])

def Valid (scope : Scope) : Results → Prop
  | nothing => True
  | single t => t.Valid scope
  | several members _ => FieldsValid scope members

def members (scope : Scope) : Results → StateM Graph (List Member)
  | nothing => return []
  | single t => do return [⟨"", ← t.type scope⟩]
  | several members _ => membersOf scope members

end Results

/-- A function of this name belongs to a resource: a mark, then the name of the resource, then
nothing or a dot and more. -/
def Belongs (name : String) (kind : FunctionKind) (resource : String) : Prop :=
  ∃ mark rest, (mark, kind) ∈ memberMarks ∧ name.toList = mark.toList ++ (resource.toList ++ rest)
    ∧ '.' ∉ resource.toList ∧ (rest = [] ∨ rest.head? = some '.')

def membership (scope : Scope) (name : String) : FunctionKind × Option DefId :=
  match affiliation name with
  | none => (.freestanding, none)
  | some (kind, resource) => (kind, scope.lookup resource)

/-- A function as it is written. -/
structure FunctionExpr where
  name : String
  params : List (String × TypeExpr)
  comma : Bool
  results : Results

namespace FunctionExpr

def lexemes (f : FunctionExpr) : List Lexeme :=
  .word f.name :: .mark ':' :: .word "func" :: .mark '(' ::
    (separated f.comma (fieldPieces f.params) ++ .mark ')' :: f.results.lexemes)

/-- All names are known. -/
structure Valid (scope : Scope) (f : FunctionExpr) : Prop where
  owner : ∀ kind resource, Belongs f.name kind resource → scope.lookup resource ≠ none
  params : FieldsValid scope f.params
  results : f.results.Valid scope

def function (scope : Scope) (f : FunctionExpr) : StateM Graph Function := do
  let params ← membersOf scope f.params
  let results ← f.results.members scope
  let (kind, resource) := membership scope f.name
  return { name := f.name, params, results, kind, resource }

end FunctionExpr

/-- An entry of a file. -/
inductive Entry where
  | semicolon
  | resource (name : String)
  | type (name : String) (type : TypeExpr)
  | function (f : FunctionExpr)

/-- The definition of a declared type. An anonymous definition takes the name, and any other type
gets a synonym. -/
def defineNamed (name : String) (t : Option TypeRef) : StateM Graph DefId := do
  let g ← get
  match t with
  | some (.defn id) =>
    if (g.name id).isEmpty then
      set (g.rename id name)
      return id
    else
      set (g.push { name, kind := some (.synonym t) })
      return g.nextId
  | _ =>
    set (g.push { name, kind := some (.synonym t) })
    return g.nextId

namespace Entry

def lexemes : Entry → List Lexeme
  | semicolon => [.mark ';']
  | resource name => [.word "resource", .word name]
  | type name t => .word "type" :: .word name :: .mark '=' :: t.lexemes
  | function f => f.lexemes

def Valid (d : Declarations) : Entry → Prop
  | semicolon => True
  | resource name => d.type? name = none
  | type name t => t.Valid d.types ∧ d.type? name = none
  | function f => f.Valid d.types ∧ d.function? f.name = none

def declare (d : Declarations) : Entry → Declarations
  | semicolon => d
  | resource name =>
    { d with
      graph := d.graph.push { name, kind := some .resource }
      types := d.types ++ [(name, d.graph.nextId)] }
  | type name t =>
    let (id, graph) := (t.type d.types >>= defineNamed name).run d.graph
    { d with graph, types := d.types ++ [(name, id)] }
  | function f =>
    let (f, graph) := (f.function d.types).run d.graph
    { d with graph, functions := d.functions ++ [f] }

end Entry

/-- Whether each entry of a file makes sense after those before it. -/
def FileValid (d : Declarations) : List Entry → Prop
  | [] => True
  | e :: es => e.Valid d ∧ FileValid (e.declare d) es

/-- Some lexemes are those of a file that makes sense, and these are its declarations. -/
def Derives (ls : List Lexeme) (d : Declarations) : Prop :=
  ∃ file : List Entry, FileValid .empty file ∧ ls = file.flatMap Entry.lexemes
    ∧ file.foldl Entry.declare .empty = d

end CanonicalAbi.Idl
