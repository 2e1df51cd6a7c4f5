import CanonicalAbi.Machine.Program
import CanonicalAbi.Stream.Listing

/-!
# Dumps of functions

A dump shows functions with their core signatures and their listings.
-/

namespace CanonicalAbi.Tool

/-- A function to be shown, with its types. -/
structure Listed where
  graph : Graph
  shapes : ShapeTable
  function : Function

namespace Listed

def ofGraph (g : Graph) (functions : List Function) : List Listed :=
  let shapes := g.shapes
  functions.map fun function => ⟨g, shapes, function⟩

def subject (l : Listed) : Subject := ⟨l.graph, l.shapes, some l.function⟩

def spelling (l : Listed) : String := l.function.spelling l.graph

def invalid? (l : Listed) : Option Failure := validationFailure l.graph (some l.function)

def signature (l : Listed) (dir : Direction) : Except Failure CoreSignature :=
  (l.shapes.function l.function).signature dir

def listing (l : Listed) (realloc : String) (dir : Direction) (mode : Mode) :
    Except Failure String × List LogEntry :=
  render { dir, mode, realloc } isRaw? l.subject

def postReturnListing (l : Listed) (realloc : String) : Except Failure String × List LogEntry :=
  renderPostReturn realloc isRaw? l.subject

end Listed

/-- Which of the four adapters of a function is dumped. -/
structure Target where
  dir : Direction
  mode : Mode
  deriving DecidableEq, Repr

/-- What is dumped of each function. -/
structure DumpOptions where
  targets : List Target
  postReturn : Bool := false
  signatureOnly : Bool := false
  check : Bool := false
  realloc : String := ""

/-- A dumped text, with the failures and the log of making it. -/
structure Page where
  text : String := ""
  failures : List Failure := []
  log : List LogEntry := []

namespace Page

def append (p q : Page) : Page := ⟨p.text ++ q.text, p.failures ++ q.failures, p.log ++ q.log⟩

instance : Append Page := ⟨append⟩

def concat : List Page → Page
  | [] => {}
  | p :: ps => p ++ concat ps

def separated (sep : String) : List Page → Page
  | [] => {}
  | [p] => p
  | p :: ps => p ++ { text := sep } ++ separated sep ps

def line (s : String) : Page := { text := s ++ "\n" }

def failed (note : String) (f : Failure) : Page :=
  { text := "  " ++ note ++ f.message ++ "\n", failures := [f] }

end Page

def indent (text : String) : String :=
  let lines := text.splitOn "\n"
  let last := lines.getLast?.getD ""
  String.join (lines.dropLast.map fun l => "  " ++ l ++ "\n")
    ++ (if last.isEmpty then "" else "  " ++ last)

namespace Listed

def checkPage (l : Listed) (t : Target) : Page :=
  match Program.compile t.dir t.mode Program.isByte l.subject with
  | (.ok p, log) =>
    { text := "  interpreter: " ++ toString p.stepCount ++ " steps\n", log := log.reverse }
  | (.error f, log) => Page.failed "interpreter: " f ++ { log := log.reverse }

def targetPage (l : Listed) (o : DumpOptions) (t : Target) : Page :=
  match l.signature t.dir with
  | .error f => .failed "" f
  | .ok signature =>
    let head := Page.line
      ("\n" ++ t.dir.name ++ " " ++ t.mode.name ++ ": " ++ signature.description)
    if o.signatureOnly then head
    else match l.listing o.realloc t.dir t.mode with
      | (.error f, log) => head ++ .failed "" f ++ { log := log.reverse }
      | (.ok text, log) =>
        head ++ { text := indent text, log := log.reverse }
          ++ (if o.check then l.checkPage t else {})

def postReturnPage (l : Listed) (o : DumpOptions) : Page :=
  if o.postReturn && !o.signatureOnly then
    match l.postReturnListing o.realloc with
    | (.error f, log) => ⟨"\npost-return:\n", [f], log.reverse⟩
    | (.ok text, log) => ⟨"\npost-return:\n" ++ indent text, [], log.reverse⟩
  else {}

/-- A function with everything that the options ask for, or with the reasons why it is not valid. -/
def page (l : Listed) (o : DumpOptions) : Page :=
  .line l.spelling ++ match l.invalid? with
    | some f => .concat (f.parts.map (Page.failed ""))
    | none => .concat (o.targets.map (l.targetPage o)) ++ l.postReturnPage o

end Listed

def dump (o : DumpOptions) (functions : List Listed) : Page :=
  .separated "\n" (functions.map (·.page o))

end CanonicalAbi.Tool
