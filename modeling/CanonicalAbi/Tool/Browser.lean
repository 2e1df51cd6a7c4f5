import CanonicalAbi.Idl.Reader
import CanonicalAbi.Tool.Dump
import CanonicalAbi.Tool.Prompt
import CanonicalAbi.Tool.Viewport

/-!
# The browser

The browser shows a list of functions and, in a viewport, the listing of the selected one.
-/

namespace CanonicalAbi.Tool

/-- The keys that a browser knows. -/
inductive Key where
  | enter
  | escape
  | up
  | down
  | left
  | right
  | pageUp
  | pageDown
  | backspace
  | interrupt
  | char (c : Char)
  deriving DecidableEq, Repr

def Key.ofName? : String → Option Key
  | "enter" => some .enter
  | "esc" => some .escape
  | "up" => some .up
  | "down" => some .down
  | "left" => some .left
  | "right" => some .right
  | "pgup" => some .pageUp
  | "pgdown" => some .pageDown
  | "backspace" => some .backspace
  | "ctrl+c" => some .interrupt
  | s => match s.toList with
    | [c] => some (.char c)
    | _ => none

/-- The state of the interactive tool. -/
structure Browser where
  functions : List Listed
  realloc : String := ""
  selected : Nat := 0
  dir : Direction := .imported
  mode : Mode := .lowerArgs
  postReturn : Bool := false
  typing : Bool := false
  failure : Option Failure := none
  prompt : Prompt := {}
  viewport : Viewport := {}

namespace Browser

def current? (b : Browser) : Option Listed := b.functions[b.selected]?

def listing (b : Browser) (l : Listed) : String :=
  let outcome := if b.postReturn then l.postReturnListing b.realloc
    else l.listing b.realloc b.dir b.mode
  match outcome.1 with
  | .ok text => text
  | .error f => f.message

def refresh (b : Browser) : Browser :=
  match b.current? with
  | none => { b with viewport := b.viewport.setContent "" }
  | some l => { b with viewport := (b.viewport.setContent (b.listing l)).goto 0 }

def ofFunctions (functions : List Listed) (realloc : String) : Browser :=
  refresh { functions, realloc, typing := functions.isEmpty }

def selectPrevious (b : Browser) : Browser :=
  if b.selected = 0 then b else refresh { b with selected := b.selected - 1 }

def selectNext (b : Browser) : Browser :=
  if b.selected + 1 < b.functions.length then refresh { b with selected := b.selected + 1 } else b

def flipDirection (b : Browser) : Browser :=
  refresh { b with dir := match b.dir with
    | .imported => .exported
    | .exported => .imported }

def flipMode (b : Browser) : Browser :=
  refresh { b with mode := match b.mode with
    | .lowerArgs => .liftArgs
    | .liftArgs => .lowerArgs
    | .neither => .neither }

def openPrompt (b : Browser) : Browser := { b with typing := true, prompt := b.prompt.setText [] }

def scroll (b : Browser) (move : Viewport → Viewport) : Browser :=
  { b with viewport := move b.viewport }

def pageDown (b : Browser) : Browser := b.scroll fun v => v.scrollDown v.height

def pageUp (b : Browser) : Browser := b.scroll fun v => v.scrollUp v.height

def halfPageUp (b : Browser) : Browser := b.scroll fun v => v.scrollUp (v.height / 2)

def browse (b : Browser) : Key → Browser × Bool
  | .interrupt => (b, true)
  | .up => (b.selectPrevious, false)
  | .down => (b.selectNext, false)
  | .pageUp => (b.pageUp, false)
  | .pageDown => (b.pageDown, false)
  | .char 'q' => (b, true)
  | .char 'k' => (b.selectPrevious, false)
  | .char 'j' => (b.selectNext, false)
  | .char 'd' => (b.flipDirection, false)
  | .char 'm' => (b.flipMode, false)
  | .char 'p' => (refresh { b with postReturn := !b.postReturn }, false)
  | .char '/' => (b.openPrompt, false)
  | .char 'n' => (b.openPrompt, false)
  | .char 'f' => (b.pageDown, false)
  | .char ' ' => (b.pageDown, false)
  | .char 'b' => (b.pageUp, false)
  | .char 'u' => (b.halfPageUp, false)
  | _ => (b, false)

def submit (b : Browser) : Browser :=
  match Idl.readFunction .empty b.prompt.value with
  | .error f => { b with failure := some f }
  | .ok (f, g) =>
    refresh { b with
      functions := b.functions ++ Listed.ofGraph g [f]
      selected := b.functions.length
      typing := false
      failure := none }

def edit (b : Browser) : Key → Browser × Bool
  | .interrupt => (b, true)
  | .escape =>
    (if b.functions.isEmpty then b else { b with typing := false, failure := none }, false)
  | .enter => (b.submit, false)
  | .backspace => ({ b with prompt := b.prompt.backspace }, false)
  | .left => ({ b with prompt := b.prompt.back }, false)
  | .right => ({ b with prompt := b.prompt.forward }, false)
  | .up | .down => ({ b with prompt := b.prompt.follow }, false)
  | .pageUp | .pageDown => ({ b with prompt := b.prompt.type [] }, false)
  | .char c => ({ b with prompt := b.prompt.type [c] }, false)

def press (b : Browser) (k : Key) : Browser × Bool := if b.typing then b.edit k else b.browse k

def frameHeight : Nat := 10

/-- Fits the browser into a terminal of the given size. The viewport keeps at least three lines. -/
def resize (b : Browser) (width height : Int) : Browser :=
  let height := max (height.toNat - frameHeight - b.functions.length) 3
  refresh { b with viewport := { b.viewport with width, height } }

def setPrompt (b : Browser) (text : String) : Browser :=
  { b with prompt := b.prompt.setText text.toList }

def functionLines (selected : Nat) : Nat → List Listed → List String
  | _, [] => []
  | index, l :: ls =>
    ((if index = selected then "> " else "  ") ++ l.spelling)
      :: functionLines selected (index + 1) ls

def promptLines (b : Browser) : List String :=
  [b.prompt.shown]
    ++ (match b.failure with
        | some f => ["Error: " ++ f.message]
        | none => [])
    ++ ["", "enter add • esc back • ctrl+c quit"]

/-- What is shown of a function: the name of the listing, and the core signature if it has one. -/
def heading (b : Browser) (l : Listed) : String :=
  let (what, dir) := if b.postReturn then ("post-return", .exported)
    else (b.dir.name ++ " " ++ b.mode.name, b.dir)
  match l.invalid?, l.signature dir with
  | none, .ok signature => what ++ " " ++ signature.description
  | _, _ => what

def listingLines (b : Browser) : List String :=
  (match b.current? with
    | some l => [b.heading l, ""] ++ b.viewport.shown ++ [""]
    | none => [])
    ++ ["↑/↓ select • d direction • m mode • p post-return • / new signature • q quit"]

def view (b : Browser) : List String :=
  [" ABI Dump", ""] ++ functionLines b.selected 0 b.functions ++ [""]
    ++ (if b.typing then b.promptLines else b.listingLines)

end Browser

end CanonicalAbi.Tool
