import CanonicalAbi.Idl.Token
import CanonicalAbi.Interface.Function

/-!
# Reading declarations

A file declares resources, types and functions; a name has to be declared before it is used.

    resource file
    type point = record { x: f32, y: f32 }
    move: func(p: point, dx: f32) -> point
    [method]file.read: func(self: borrow<file>, n: u32) -> list<u8>

Every type that is written out becomes a definition of its own, allocated when its last part has
been read.
-/

namespace CanonicalAbi.Idl

/-- The tokens that are left, and the types that were read so far. -/
structure Reading where
  tokens : List Token
  graph : Graph
  names : List (String × DefId)

/-- Reading of some tokens, which may fail. -/
abbrev Read := StateT Reading (Except Failure)

/-! ## Single tokens -/

def misplaced (t : Token) (why : String) : Failure :=
  .plain ("line " ++ toString t.line ++ ": " ++ why)

def unexpectedEnd (expected : String) : Failure :=
  .plain ("unexpected end of input, expected " ++ expected)

def unexpectedToken (t : Token) (expected : String) : Failure :=
  misplaced t ("expected " ++ expected ++ ", got " ++ Text.quoted t.lexeme.text)

def peek : Read (Option Token) := do return (← get).tokens.head?

def advance : Read (Option Token) := do
  let s ← get
  match s.tokens with
  | [] => return none
  | t :: rest =>
    set { s with tokens := rest }
    return some t

def accept (l : Lexeme) : Read Bool := do
  match ← peek with
  | some t =>
    if t.lexeme == l then
      let _ ← advance
      return true
    else return false
  | none => return false

def expectMark (c : Char) : Read Unit := do
  match ← advance with
  | none => throw (unexpectedEnd (Text.quoted c.toString))
  | some t =>
    unless t.lexeme == .mark c do throw (unexpectedToken t (Text.quoted c.toString))

def expectWord : Read (Token × String) := do
  match ← advance with
  | none => throw (unexpectedEnd "identifier")
  | some t =>
    match t.lexeme with
    | .word text => return (t, text)
    | _ => throw (unexpectedToken t "identifier")

def expectKeyword (keyword : String) : Read Unit := do
  let (t, text) ← expectWord
  unless text == keyword do throw (unexpectedToken t (Text.quoted keyword))

/-! ## Names and definitions -/

def lookup (name : String) : Read (Option DefId) := do return (← get).names.lookup name

def allocate (d : Definition) : Read DefId := do
  let s ← get
  set { s with graph := s.graph.push d }
  return s.graph.nextId

def allocateKind (k : Kind) : Read TypeRef := do return .defn (← allocate { kind := some k })

def declare (name : String) (id : DefId) : Read Unit := do
  if (← lookup name).isSome then
    throw (.plain ("type " ++ Text.quoted name ++ " declared twice"))
  modify fun s => { s with names := s.names ++ [(name, id)] }

/-- The type that a name stands for which the file does not declare. The names are those of the WIT
language, as its own library reads them: `float32` and `float64` are older names of `f32` and `f64`,
and `error-context` is a type of WIT that there are no values of here. -/
def builtin (t : Token) (text : String) : Read TypeRef :=
  if text == "error-context" then throw (.unsupported .parse [] "" "unknown WIT type")
  else if text == "string" then return .string
  else if text == "float32" then return .scalar .f32
  else if text == "float64" then return .scalar .f64
  else match Scalar.ofName? text with
    | some s => return .scalar s
    | none => throw (misplaced t ("unknown type " ++ Text.quoted text))

def named (t : Token) (text : String) : Read TypeRef := do
  match ← lookup text with
  | some id => return .defn id
  | none => builtin t text

/-! ## Sequences -/

/-- Whether there may be a comma behind the last item. -/
inductive LastComma where
  | allowed
  | refused
  deriving DecidableEq, Repr

def itemsAfter {α : Type} (item : Read α) (close : Char) (last : LastComma) : Nat → Read (List α)
  | 0 => throw (unexpectedEnd (Text.quoted close.toString))
  | bound + 1 => do
    if ← accept (.mark close) then return []
    expectMark ','
    if last == .allowed then
      if ← accept (.mark close) then return []
    let a ← item
    return a :: (← itemsAfter item close last bound)

def items {α : Type} (item : Read α) (close : Char) (last : LastComma) : Read (List α) := do
  if ← accept (.mark close) then return []
  let a ← item
  return a :: (← itemsAfter item close last ((← get).tokens.length + 1))

def member (type : Read TypeRef) : Read Member := do
  let (_, name) ← expectWord
  expectMark ':'
  return ⟨name, some (← type)⟩

def case (type : Read TypeRef) : Read Member := do
  let (_, name) ← expectWord
  if ← accept (.mark '(') then
    let t ← type
    expectMark ')'
    return ⟨name, some t⟩
  else return ⟨name, none⟩

def names : Read (List String) := do
  expectMark '\x7b'
  items (do return (← expectWord).2) '\x7d' .allowed

/-! ## Types -/

def angle (type : Read TypeRef) : Read TypeRef := do
  expectMark '<'
  let t ← type
  expectMark '>'
  return t

def angle? (type : Read TypeRef) : Read (Option TypeRef) := do
  if ← accept (.mark '<') then
    let t ← type
    expectMark '>'
    return some t
  else return none

def okSide (type : Read TypeRef) : Read (Option TypeRef) := do
  if ← accept (.word "_") then return none else return some (← type)

/-- The second side and the bracket that closes. -/
def errSide (type : Read TypeRef) : Read (Option TypeRef) := do
  if ← accept (.mark ',') then
    let t ← type
    expectMark '>'
    return some t
  else
    expectMark '>'
    return none

/-- What follows the word `result`: nothing, or the two sides in angle brackets, of which an
underscore or the absence of the second leaves one out. -/
def resultKind (type : Read TypeRef) : Read Kind := do
  if ← accept (.mark '<') then
    let ok ← okSide type
    let err ← errSide type
    return .result ok err
  else return .result none none

def declaredResource : Read DefId := do
  expectMark '<'
  let (t, name) ← expectWord
  expectMark '>'
  match ← lookup name with
  | some id => return id
  | none => throw (misplaced t ("unknown resource " ++ Text.quoted name))

/-- A type. Each level of nesting takes at least one token, so the number of tokens bounds the
depth. -/
def typeWithin : Nat → Read TypeRef
  | 0 => throw (unexpectedEnd "identifier")
  | bound + 1 => do
    let type := typeWithin bound
    let (t, text) ← expectWord
    match text with
    | "list" => allocateKind (.list (← angle type))
    | "option" => allocateKind (.option (← angle type))
    | "future" => allocateKind (.future (← angle? type))
    | "stream" => allocateKind (.stream (← angle? type))
    | "result" => allocateKind (← resultKind type)
    | "tuple" =>
      expectMark '<'
      allocateKind (.tuple ((← items type '>' .refused).map some))
    | "own" => allocateKind (.own (← declaredResource))
    | "borrow" => allocateKind (.borrow (← declaredResource))
    | "record" =>
      expectMark '\x7b'
      allocateKind (.record (← items (member type) '\x7d' .allowed))
    | "variant" =>
      expectMark '\x7b'
      allocateKind (.variant (← items (case type) '\x7d' .allowed))
    | "union" =>
      expectMark '\x7b'
      allocateKind (.union ((← items type '\x7d' .refused).map some))
    | "enum" => allocateKind (.enum (← names))
    | "flags" => allocateKind (.flags (← names))
    | _ => named t text

def type : Read TypeRef := do typeWithin ((← get).tokens.length + 1)

/-! ## Functions -/

def memberMarks : List (String × FunctionKind) :=
  [("[method]", .method), ("[static]", .static), ("[constructor]", .constructor)]

/-- The kind of a function by its name, and the name of the resource it belongs to: what stands
between the mark and the first dot. -/
def affiliation (name : String) : Option (FunctionKind × String) :=
  memberMarks.findSome? fun (mark, kind) =>
    if mark.toList.isPrefixOf name.toList then
      some (kind, String.ofList ((name.toList.drop mark.toList.length).takeWhile (· != '.')))
    else none

def affiliated (name : String) : Read (FunctionKind × Option DefId) := do
  match affiliation name with
  | none => return (.freestanding, none)
  | some (kind, resource) =>
    match ← lookup resource with
    | some id => return (kind, some id)
    | none => throw (.plain ("function " ++ Text.quoted name ++ " refers to unknown resource "
        ++ Text.quoted resource))

/-- What follows the parameters of a function: an arrow with one type or with members in
parentheses, or nothing. -/
def results : Read (List Member) := do
  if ← accept .arrow then
    if ← accept (.mark '(') then items (member type) ')' .allowed
    else return [⟨"", some (← type)⟩]
  else return []

def function : Read Function := do
  let (_, name) ← expectWord
  expectMark ':'
  expectKeyword "func"
  let (kind, resource) ← affiliated name
  expectMark '('
  let params ← items (member type) ')' .allowed
  let results ← results
  return { name, params, results, kind, resource }

/-! ## Files -/

/-- What a file declares. -/
structure Declarations where
  graph : Graph
  types : List (String × DefId)
  functions : List Function

namespace Declarations

def empty : Declarations := ⟨Graph.empty, [], []⟩

def function? (d : Declarations) (name : String) : Option Function :=
  d.functions.find? (·.name == name)

def type? (d : Declarations) (name : String) : Option DefId := d.types.lookup name

end Declarations

/-- The definition that `type name = t` declares. -/
def nameType (name : String) (t : TypeRef) : Read DefId := do
  match t with
  | .defn id =>
    if ((← get).graph.name id).isEmpty then
      modify fun s => { s with graph := s.graph.rename id name }
      return id
    else allocate { name, kind := some (.synonym t) }
  | _ => allocate { name, kind := some (.synonym t) }

def typed (name : String) : Read DefId := do
  expectMark '='
  let t ← type
  nameType name t

/-- One declaration, after the functions `before`; returns the functions so far. -/
def declaration (before : List Function) : Read (List Function) := do
  if ← accept (.mark ';') then return before
  match (← get).tokens with
  | ⟨.word "resource", _⟩ :: ⟨.word name, _⟩ :: rest =>
    modify fun s => { s with tokens := rest }
    let id ← allocate { name, kind := some .resource }
    declare name id
    return before
  | ⟨.word "type", _⟩ :: ⟨.word name, _⟩ :: rest =>
    modify fun s => { s with tokens := rest }
    let id ← typed name
    declare name id
    return before
  | [] => return before
  | t :: _ =>
    let f ← function
    if before.any (·.name == f.name) then
      throw (misplaced t ("duplicate function " ++ Text.quoted f.name))
    return before ++ [f]

/-- Declarations up to the end. Each takes at least one token, so the number of tokens bounds their
number. -/
def declarations (before : List Function) : Nat → Read (List Function)
  | 0 => return before
  | bound + 1 => do
    if (← get).tokens.isEmpty then return before
    let after ← declaration before
    declarations after bound

def readTokens (tokens : List Token) : Except Failure Declarations := do
  let (functions, s) ← (declarations [] tokens.length).run ⟨tokens, Graph.empty, []⟩
  return ⟨s.graph, s.names, functions⟩

def readDeclarations (text : List Char) : Except Failure Declarations :=
  (tokens text >>= readTokens).mapError fun f => .parseFailed "file" (some f)

def onlyFunction : Read Function := do
  let f ← function
  match ← peek with
  | none => return f
  | some t => throw (misplaced t ("trailing input " ++ Text.quoted t.lexeme.text))

/-- Reads one function declaration, in which the names that `d` declares may be used. -/
def readFunction (d : Declarations) (text : List Char) : Except Failure (Function × Graph) :=
  let read : Except Failure (Function × Graph) := do
    let (f, s) ← onlyFunction.run ⟨← tokens text, d.graph, d.types⟩
    return (f, s.graph)
  read.mapError fun f => .parseFailed "signature" (some f)

end CanonicalAbi.Idl
