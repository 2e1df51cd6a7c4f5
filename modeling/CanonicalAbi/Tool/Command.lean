import CanonicalAbi.Idl.Reader
import CanonicalAbi.Tool.Dump
import CanonicalAbi.Tool.Flags
import CanonicalAbi.Tool.Folder

/-!
# The command

The command reads functions from a file of declarations, from the command line or from both, and
dumps them.
-/

namespace CanonicalAbi.Tool

/-- What a command leaves behind: its exit code and what it wrote. -/
structure Outcome where
  exitCode : UInt8 := 0
  out : String := ""
  err : String := ""
  deriving DecidableEq, Repr

namespace Outcome

def failed (message : String) : Outcome := { exitCode := 1, err := "Error: " ++ message ++ "\n" }

def usage : Outcome :=
  { exitCode := 1
    err := "Usage: abidump -sig '<name>: func(...) -> T' [-dir import|export|all] "
      ++ "[-mode lower|lift|all]\n"
      ++ "       abidump -file <decls.wit> [-func name] [-post-return]\n"
      ++ "       abidump [-file <decls.wit>] -i  (interactive mode)\n" }

end Outcome

namespace Options

def isIdle (o : Options) : Bool := o.signature.isEmpty && o.file.isEmpty && !o.interactive

/-- The functions of a file: all of them, or the one that is asked for. A file that cannot be read
comes with the reason. -/
def fileFunctions (o : Options) (contents : Except ReadFailure (List Char)) :
    Except String (List Listed) :=
  match contents with
  | .error reason => .error ("read file: " ++ reason.message o.file)
  | .ok text =>
    match Idl.readDeclarations text with
    | .error f => .error ("parse " ++ o.file ++ ": " ++ f.message)
    | .ok d =>
      if o.function.isEmpty then .ok (Listed.ofGraph d.graph d.functions)
      else match d.function? o.function with
        | some f => .ok (Listed.ofGraph d.graph [f])
        | none => .error ("function " ++ Text.quoted o.function ++ " not found in " ++ o.file)

def signatureFunctions (o : Options) : Except String (List Listed) :=
  if o.signature.isEmpty then .ok []
  else match Idl.readFunction .empty o.signature.toList with
    | .ok (f, g) => .ok (Listed.ofGraph g [f])
    | .error f => .error f.message

/-- The functions to show. The function on the command line does not count when one function of a
file is asked for. -/
def functions (o : Options) (files : String → Except ReadFailure (List Char)) :
    Except String (List Listed) := do
  if o.file.isEmpty then o.signatureFunctions
  else
    let declared ← o.fileFunctions (files o.file)
    if o.function.isEmpty then return declared ++ (← o.signatureFunctions) else return declared

def directions (o : Options) : Except String (List Direction) :=
  match o.direction with
  | "import" => .ok [.imported]
  | "export" => .ok [.exported]
  | "all" => .ok [.imported, .exported]
  | "" => .ok [.imported, .exported]
  | other => .error ("unknown direction " ++ Text.quoted other)

def modes (o : Options) : Except String (List Mode) :=
  match o.mode with
  | "lower" => .ok [.lowerArgs]
  | "lift" => .ok [.liftArgs]
  | "all" => .ok [.lowerArgs, .liftArgs]
  | "" => .ok [.lowerArgs, .liftArgs]
  | other => .error ("unknown mode " ++ Text.quoted other)

def targets (o : Options) : Except String (List Target) := do
  let dirs ← o.directions
  let modes ← o.modes
  return dirs.flatMap fun dir => modes.map fun mode => ⟨dir, mode⟩

def outcome (o : Options) (files : String → Except ReadFailure (List Char)) : Outcome :=
  if o.isIdle then .usage
  else
    let work : Except String Page := do
      let functions ← o.functions files
      return dump { targets := ← o.targets, postReturn := o.postReturn,
                    signatureOnly := o.signatureOnly, check := o.check, realloc := o.realloc }
        functions
    match work with
    | .error message => .failed message
    | .ok page =>
      let log := if o.verbose then String.join (page.log.map fun e => e.line ++ "\n") else ""
      match Failure.ofList page.failures with
      | none => { out := page.text, err := log }
      | some f => { exitCode := 1, out := page.text, err := log ++ "Error: " ++ f.message ++ "\n" }

end Options

def command (args : List String) (files : String → Except ReadFailure (List Char)) : Outcome :=
  match Options.ofArguments args with
  | .ok o => o.outcome files
  | .error f => { exitCode := f.exitCode, err := f.message }

end CanonicalAbi.Tool
