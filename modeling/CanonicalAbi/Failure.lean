import CanonicalAbi.Text.Quoted

/-!
# Failures

Every operation of the library that can fail says at which phase, of which kind, where and why.
-/

namespace CanonicalAbi

/-- What was being done when something failed. -/
inductive Phase where
  | layout
  | signature
  | generate
  | validate
  | parse
  | eval
  | other (name : String)
  deriving DecidableEq, Repr

namespace Phase

def name : Phase → String
  | layout => "layout"
  | signature => "signature"
  | generate => "generate"
  | validate => "validate"
  | parse => "parse"
  | eval => "eval"
  | other name => name

def ofName (s : String) : Phase :=
  ([layout, signature, generate, validate, parse, eval].find? (·.name == s)).getD (other s)

end Phase

/-- What went wrong. -/
inductive FailureKind where
  | unsupported
  | notImplemented
  | stackMismatch
  | unbalancedBlock
  | typeMismatch
  | outOfBounds
  | invalidData
  | invalidInput
  | invalidVariant
  | allocation
  | notFound
  | other (name : String)
  deriving DecidableEq, Repr

namespace FailureKind

def name : FailureKind → String
  | unsupported => "unsupported"
  | notImplemented => "not_implemented"
  | stackMismatch => "stack_mismatch"
  | unbalancedBlock => "unbalanced_block"
  | typeMismatch => "type_mismatch"
  | outOfBounds => "out_of_bounds"
  | invalidData => "invalid_data"
  | invalidInput => "invalid_input"
  | invalidVariant => "invalid_variant"
  | allocation => "allocation"
  | notFound => "not_found"
  | other name => name

def ofName (s : String) : FailureKind :=
  ([unsupported, notImplemented, stackMismatch, unbalancedBlock, typeMismatch, outOfBounds,
    invalidData, invalidInput, invalidVariant, allocation, notFound].find?
      (·.name == s)).getD (other s)

end FailureKind

/-- A failure at a place in a type, the path to which is given. -/
structure Report where
  phase : Phase
  kind : FailureKind
  path : List String := []
  type : String := ""
  detail : String := ""
  deriving DecidableEq, Repr

def Report.message (r : Report) : String :=
  "[" ++ r.phase.name ++ "] " ++ r.kind.name
    ++ (if r.path.isEmpty then "" else " at " ++ ".".intercalate r.path)
    ++ (if r.type.isEmpty then "" else ": type " ++ r.type)
    ++ (if r.detail.isEmpty then ""
        else (if r.type.isEmpty then ": " else " - ") ++ r.detail)

/-- A failure: a report, perhaps with its cause, a mere text, or several failures at once. -/
inductive Failure where
  | report (r : Report) (cause : Option Failure)
  | plain (text : String)
  | many (parts : List Failure)

namespace Failure

mutual

/-- The failure as text: the report followed by its cause, several failures joined by semicolons. -/
def message : Failure → String
  | report r cause => r.message ++ causeMessage cause
  | plain text => text
  | many parts => "; ".intercalate (messages parts)

def causeMessage : Option Failure → String
  | none => ""
  | some f => " (caused by: " ++ f.message ++ ")"

def messages : List Failure → List String
  | [] => []
  | f :: fs => f.message :: messages fs

end

def chain : Failure → List Failure
  | report r none => [report r none]
  | report r (some f) => report r (some f) :: f.chain
  | plain text => [plain text]
  | many parts => [many parts]

def cause? : Failure → Option Failure
  | report _ cause => cause
  | _ => none

def report? : Failure → Option Report
  | report r _ => some r
  | _ => none

def firstReport? (f : Failure) : Option Report := f.chain.findSome? report?

/-- Whether `f` or one of its causes is a report of the given phase and kind. -/
def hasReport (f : Failure) (phase : Phase) (kind : FailureKind) : Bool :=
  f.chain.any fun g => g.report?.any fun r => r.phase == phase && r.kind == kind

def ofList : List Failure → Option Failure
  | [] => none
  | [f] => some f
  | fs => some (many fs)

def parts : Failure → List Failure
  | many parts => parts
  | f => [f]

/-! ## Causes that occur in several phases -/

def of (phase : Phase) (kind : FailureKind) (detail : String) : Failure :=
  report { phase, kind, detail } none

def unsupported (phase : Phase) (path : List String) (type detail : String) : Failure :=
  report { phase, kind := .unsupported, path, type, detail } none

def notImplemented (phase : Phase) (detail : String) : Failure := of phase .notImplemented detail

def stackMismatch (phase : Phase) (what : String) (want have' : Int) : Failure :=
  of phase .stackMismatch
    (what ++ ": want " ++ toString want ++ " operands, have " ++ toString have')

def unbalancedBlock (phase : Phase) (detail : String) : Failure := of phase .unbalancedBlock detail

def typeMismatch (phase : Phase) (path : List String) (want got : String) : Failure :=
  report { phase, kind := .typeMismatch, path, type := want, detail := "got " ++ got } none

def invalidDiscriminant (phase : Phase) (path : List String) (disc largest : UInt32) : Failure :=
  report { phase, kind := .invalidVariant, path, detail :=
    "discriminant " ++ toString disc ++ " out of range (max " ++ toString largest ++ ")" } none

def outOfBounds (phase : Phase) (path : List String) (offset length : UInt32) : Failure :=
  report { phase, kind := .outOfBounds, path, detail :=
    "access of " ++ toString length ++ " bytes at offset " ++ toString offset
      ++ " out of bounds" } none

def allocationFailed (phase : Phase) (size align : UInt32) : Failure :=
  of phase .allocation
    ("failed to allocate " ++ toString size ++ " bytes (align " ++ toString align ++ ")")

def invalidInput (phase : Phase) (detail : String) : Failure := of phase .invalidInput detail

def notFound (phase : Phase) (what name : String) : Failure :=
  of phase .notFound (what ++ " " ++ Text.quoted name ++ " not found")

def wrap (phase : Phase) (kind : FailureKind) (cause : Option Failure) (detail : String) :
    Failure :=
  report { phase, kind, detail } cause

def parseFailed (what : String) (cause : Option Failure) : Failure :=
  wrap .parse .invalidInput cause ("parse " ++ what)

end Failure

end CanonicalAbi
