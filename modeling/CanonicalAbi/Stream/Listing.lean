import CanonicalAbi.Stream.Checked

/-!
# Listings

The backend that writes a stream as text, an instruction a line. Operands are value names, numbered
in the order in which they appear.
-/

namespace CanonicalAbi

def sizeAlign (size align : UInt32) : String :=
  "size=" ++ toString size ++ " align=" ++ toString align

namespace Instr

def typeAttribute (l : Label) : String := "type=" ++ l.spelling.get

def reallocAttribute (realloc : String) : List String :=
  if realloc.isEmpty then [] else ["realloc=" ++ realloc]

def attributes : Instr → List String
  | getArg index => ["nth=" ++ toString index]
  | i32Const value => [toString value]
  | constZero types => [showTypes types]
  | bitcasts casts => [bracketed (casts.map Bitcast.name)]
  | load _ offset | store _ offset => ["offset=" ++ toString offset]
  | callCore name signature => [name ++ " " ++ signature.text]
  | callInterface function => [function.name]
  | ret count => ["amt=" ++ toString count]
  | allocate realloc size align => sizeAlign size align :: reallocAttribute realloc
  | free size align => [sizeAlign size align]
  | lowerString realloc => reallocAttribute realloc
  | lowerBytes l _ realloc | lowerList l _ realloc => typeAttribute l :: reallocAttribute realloc
  | lowerSum _ l _ results =>
    typeAttribute l :: if results.isEmpty then [] else ["-> " ++ showTypes results]
  | iterElem (some elem) => ["elem=" ++ elem.spelling]
  | lowerHandle _ l _ | liftHandle _ l _ | liftBytes l _ | liftList l _ | lowerProduct _ l _
  | liftProduct _ l _ | lowerFlags l _ | liftFlags l _ | liftSum _ l _ | lowerEnum l _
  | liftEnum l _ | freeList l _ | freeSum l _ => [typeAttribute l]
  | iterElem none | iterBase | payload | lowerScalar _ | liftScalar _ | liftString
  | freeString => []

end Instr

/-- A listing so far: its lines, the last one first, and the number of the next value. -/
structure Listing where
  lines : List String := []
  depth : Nat := 0
  next : Nat := 0
  deriving DecidableEq, Repr

namespace Listing

def empty : Listing := {}

def text (l : Listing) : String := String.join (l.lines.reverse.map (· ++ "\n"))

def valueNames (next n : Nat) : List String :=
  (List.range n).map fun i => "v" ++ toString (next + i)

def line (l : Listing) (s : String) : Listing :=
  { l with lines := (String.join (List.replicate l.depth "  ") ++ s) :: l.lines }

/-- The line of an instruction. A blank separates its name from its attributes, if these have any
text. -/
def instrLine (i : Instr) (results operands : List String) : String :=
  let attributes := " ".intercalate i.attributes
  (if results.isEmpty then "" else commas results ++ " = ")
    ++ i.name ++ (if attributes.isEmpty then "" else " " ++ attributes)
    ++ (if operands.isEmpty then "" else " (" ++ commas operands ++ ")")

def emit (i : Instr) (operands : List String) (l : Listing) : List String × Listing :=
  let results := valueNames l.next i.results
  (results, { l.line (instrLine i results operands) with next := l.next + i.results })

def openBlock (l : Listing) : Listing := { l.line "block \x7b" with depth := l.depth + 1 }

def closeBlock (operands : List String) (l : Listing) : Listing :=
  let l := if operands.isEmpty then l else l.line ("yield " ++ commas operands)
  { l with depth := l.depth - 1 }.line "\x7d"

def returnPointer (size align : UInt32) (l : Listing) : String × Listing :=
  let name := "v" ++ toString l.next
  (name, { l.line (name ++ " = return_pointer " ++ sizeAlign size align) with
    next := l.next + 1 })

def backend (movesRaw : RawRule) : Backend Listing String where
  emit i operands l :=
    let (results, l) := l.emit i operands
    (.ok results, l)
  openBlock := openBlock
  closeBlock := closeBlock
  returnPointer := returnPointer
  movesRaw := movesRaw

end Listing

/-- The listing of a call. -/
def render (g : Generator) (movesRaw : RawRule) (s : Subject) :
    Except Failure String × List LogEntry :=
  let t := g.checked (Listing.backend movesRaw) s Listing.empty
  (t.result.map fun _ => t.backend.text, t.log)

def renderPostReturn (realloc : String) (movesRaw : RawRule) (s : Subject) :
    Except Failure String × List LogEntry :=
  let t := Generator.checkedPostReturn (Listing.backend movesRaw) realloc s Listing.empty
  (t.result.map fun _ => t.backend.text, t.log)

end CanonicalAbi
