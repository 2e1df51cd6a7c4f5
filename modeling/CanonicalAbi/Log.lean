import CanonicalAbi.Core.Signature

/-!
# The activity log

What generating and running report about their progress, in the order in which it happens.
-/

namespace CanonicalAbi

/-- What generators and programs write into the log. -/
inductive LogEntry where
  | generating (function : String) (dir : Direction) (mode : Mode)
  | pushBlock (depth : Nat)
  | finishBlock (depth results : Nat)
  | generated (function : String)
  | compile (function : String) (dir : Direction) (mode : Mode) (steps registers : Nat)
  | run (function : String) (dir : Direction) (mode : Mode) (args : Nat)
  | runFailed (function : String) (failure : Failure)
  | borrowKept (handle : UInt32) (failure : Failure)
  | callCore (function : String) (params : List UInt64)
  | callInterface (function : String) (args : Nat)

/-- A value of an attribute of a log entry. -/
inductive LogValue where
  | number (n : Nat)
  | text (s : String)
  | flat (values : List UInt64)
  deriving DecidableEq, Repr

def LogValue.show : LogValue → String
  | number n => toString n
  | text s => s
  | flat values => "[" ++ String.intercalate ", " (values.map toString) ++ "]"

namespace LogEntry

def message : LogEntry → String
  | generating _ _ _ => "translate"
  | pushBlock _ => "push block"
  | finishBlock _ _ => "finish block"
  | generated _ => "translated"
  | compile _ _ _ _ _ => "compile"
  | run _ _ _ _ => "run"
  | runFailed _ _ => "run failed"
  | borrowKept _ _ => "release borrow"
  | callCore _ _ => "call wasm"
  | callInterface _ _ => "call interface"

def halfFields (function : String) (dir : Direction) (mode : Mode) : List (String × LogValue) :=
  [("func", .text function), ("direction", .text dir.name), ("mode", .text mode.name)]

def fields : LogEntry → List (String × LogValue)
  | generating f dir mode => halfFields f dir mode
  | pushBlock depth => [("depth", .number depth)]
  | finishBlock depth results => [("depth", .number depth), ("results", .number results)]
  | generated f => [("func", .text f)]
  | compile f dir mode steps registers =>
    halfFields f dir mode ++ [("steps", .number steps), ("registers", .number registers)]
  | run f dir mode args => halfFields f dir mode ++ [("args", .number args)]
  | runFailed f failure => [("func", .text f), ("error", .text failure.message)]
  | borrowKept h failure => [("handle", .number h.toNat), ("error", .text failure.message)]
  | callCore f params => [("func", .text f), ("params", .flat params)]
  | callInterface f args => [("func", .text f), ("args", .number args)]

def line (e : LogEntry) : String :=
  e.message ++ String.join (e.fields.map fun (name, value) => " " ++ name ++ "=" ++ value.show)

end LogEntry

end CanonicalAbi
