import CanonicalAbi.Core.Flatten

/-!
# Core signatures

How a function of an interface looks from the core side. Up to sixteen core parameters are passed by
value and more than that behind one pointer.
-/

namespace CanonicalAbi

/-- On which side of the boundary a function is implemented. -/
inductive Direction where
  | imported
  | exported
  deriving DecidableEq, Repr

namespace Direction

def name : Direction → String
  | imported => "import"
  | exported => "export"

def ofNumber : Nat → Direction
  | 1 => exported
  | _ => imported

end Direction

/-- Which half of a call an adapter is: that of the caller or that of the callee. -/
inductive Mode where
  | lowerArgs
  | liftArgs
  | neither
  deriving DecidableEq, Repr

namespace Mode

def name : Mode → String
  | liftArgs => "lift-args-lower-results"
  | lowerArgs | neither => "lower-args-lift-results"

def ofNumber : Nat → Mode
  | 0 => lowerArgs
  | 1 => liftArgs
  | _ => neither

end Mode

/-- The largest number of core parameters that are passed by value. -/
def maxFlatParams : Nat := 16

def maxFlatResults : Nat := 1

/-- The types of a core function, and whether parameters and results are passed in memory. -/
structure CoreSignature where
  params : List CoreType
  results : List CoreType
  returnPointer : Option (List CoreType) := none
  indirectParams : Bool := false
  deriving DecidableEq, Repr

def CoreSignature.text (s : CoreSignature) : String :=
  showTypes s.params ++ " -> " ++ showTypes s.results

def CoreSignature.description (s : CoreSignature) : String :=
  s.text ++ (if s.indirectParams then " (params by pointer)" else "")
    ++ (match s.returnPointer with
        | some types => " (results by pointer: " ++ showTypes types ++ ")"
        | none => "")

/-- The signature for the core types of the parameters and of the results. Parameters that are too
many are passed by pointer, and so are results. -/
def CoreSignature.ofFlat (dir : Direction) (flatParams results : List CoreType) : CoreSignature :=
  let indirectParams := decide (maxFlatParams < flatParams.length)
  let params := if indirectParams then [CoreType.i32] else flatParams
  if results.length ≤ maxFlatResults then { params, results, indirectParams }
  else match dir with
    | .imported => { params := params ++ [.i32], results := [],
                     returnPointer := some results, indirectParams }
    | .exported => { params, results := [.i32], returnPointer := some results, indirectParams }

def FunctionShape.signature (dir : Direction) (f : FunctionShape) :
    Except Failure CoreSignature := do
  return .ofFlat dir (← flatFields f.params) (← flatFields f.results)

end CanonicalAbi
