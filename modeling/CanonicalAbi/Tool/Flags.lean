import CanonicalAbi.Text.Quoted

/-!
# The flags of the command line

A flag is written `-name` or `--name`. A switch may be followed by `=` and a truth value, and a text
flag takes its value after `=` or from the next argument.
-/

namespace CanonicalAbi.Tool

/-- What the flags of a command say. -/
structure Options where
  signature : String := ""
  file : String := ""
  function : String := ""
  direction : String := "all"
  mode : String := "all"
  postReturn : Bool := false
  signatureOnly : Bool := false
  realloc : String := ""
  interactive : Bool := false
  check : Bool := false
  verbose : Bool := false
  deriving DecidableEq, Repr

/-- What a flag sets. -/
inductive Setting where
  | switch (set : Bool → Options → Options)
  | text (preset : String) (set : String → Options → Options)

/-- A flag and its help text. -/
structure Flag where
  name : String
  setting : Setting
  help : String

def flags : List Flag :=
  [⟨"check", .switch fun b o => { o with check := b },
      "Also compile each listing for the interpreter"⟩,
    ⟨"dir", .text "all" fun s o => { o with direction := s }, "Direction: import, export or all"⟩,
    ⟨"file", .text "" fun s o => { o with file := s },
      "Path to a file of type and function declarations"⟩,
    ⟨"func", .text "" fun s o => { o with function := s }, "Only dump this function from -file"⟩,
    ⟨"i", .switch fun b o => { o with interactive := b }, "Interactive mode with TUI"⟩,
    ⟨"mode", .text "all" fun s o => { o with mode := s },
      "Mode: lower (lower args, lift results), lift (lift args, lower results) or all"⟩,
    ⟨"post-return", .switch fun b o => { o with postReturn := b },
      "Also dump export post-return functions"⟩,
    ⟨"realloc", .text "" fun s o => { o with realloc := s },
      "Name of the guest allocator (default cabi_realloc)"⟩,
    ⟨"sig", .text "" fun s o => { o with signature := s },
      "Function signature, e.g. 'greet: func(name: string) -> string'"⟩,
    ⟨"sig-only", .switch fun b o => { o with signatureOnly := b },
      "Print core wasm signatures without instructions"⟩,
    ⟨"v", .switch fun b o => { o with verbose := b },
      "Log generator and interpreter activity to stderr"⟩]

def Flag.usage (f : Flag) : String :=
  let head := match f.setting with
    | .switch _ => "  -" ++ f.name
    | .text _ _ => "  -" ++ f.name ++ " string"
  let gap := if head.length ≤ 4 then "\t" else "\n    \t"
  let preset := match f.setting with
    | .text preset _ => if preset.isEmpty then "" else " (default " ++ Text.quoted preset ++ ")"
    | .switch _ => ""
  head ++ gap ++ f.help ++ preset ++ "\n"

def flagUsage : String := "Usage of abidump:\n" ++ String.join (flags.map Flag.usage)

/-- Why the flags of a command are not taken. -/
inductive FlagFailure where
  | help
  | malformed (arg : String)
  | undefined (name : String)
  | noArgument (name : String)
  | notBoolean (name value : String)
  deriving DecidableEq, Repr

def FlagFailure.message : FlagFailure → String
  | help => flagUsage
  | malformed arg => "bad flag syntax: " ++ arg ++ "\n" ++ flagUsage
  | undefined name => "flag provided but not defined: -" ++ name ++ "\n" ++ flagUsage
  | noArgument name => "flag needs an argument: -" ++ name ++ "\n" ++ flagUsage
  | notBoolean name value =>
    "invalid boolean value " ++ Text.quoted value ++ " for -" ++ name ++ ": parse error\n"
      ++ flagUsage

def FlagFailure.exitCode : FlagFailure → UInt8
  | help => 0
  | _ => 2

def truthValue? (s : String) : Option Bool :=
  if s ∈ ["1", "t", "T", "true", "TRUE", "True"] then some true
  else if s ∈ ["0", "f", "F", "false", "FALSE", "False"] then some false
  else none

/-- An argument as the flags are read. -/
inductive Argument where
  | other
  | malformed
  | flag (name : String) (value : Option String)
  deriving DecidableEq, Repr

/-- Splits the text after the dashes of a flag. The name has at least one character, so a `=` can
only come after it. -/
def Argument.ofText : List Char → Argument
  | [] => .malformed
  | c :: cs =>
    if c = '-' ∨ c = '=' then .malformed
    else
      let name := String.ofList (c :: cs.takeWhile (· ≠ '='))
      match cs.dropWhile (· ≠ '=') with
      | [] => .flag name none
      | _ :: value => .flag name (some (String.ofList value))

def Argument.ofChars : List Char → Argument
  | ['-'] => .other
  | ['-', '-'] => .other
  | '-' :: '-' :: cs => .ofText cs
  | '-' :: cs => .ofText cs
  | _ => .other

def readFlags (o : Options) : List String → Except FlagFailure Options
  | [] => .ok o
  | arg :: args =>
    match Argument.ofChars arg.toList with
    | .other => .ok o
    | .malformed => .error (.malformed arg)
    | .flag name value =>
      match flags.find? (·.name == name) with
      | none => .error (if name = "help" ∨ name = "h" then .help else .undefined name)
      | some f =>
        match f.setting, value, args with
        | .switch set, value, args =>
          match truthValue? (value.getD "true") with
          | some b => readFlags (set b o) args
          | none => .error (.notBoolean name (value.getD "true"))
        | .text _ set, some value, args => readFlags (set value o) args
        | .text _ set, none, value :: args => readFlags (set value o) args
        | .text _ _, none, [] => .error (.noArgument name)

def Options.ofArguments (args : List String) : Except FlagFailure Options := readFlags {} args

end CanonicalAbi.Tool
