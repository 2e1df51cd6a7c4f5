import CanonicalAbi.Interface.Graph

/-!
# Functions of an interface

A function has a name, named parameters and results, and for members of a resource the resource they
belong to. A single result may be unnamed.
-/

namespace CanonicalAbi

/-- How a function belongs to a resource, if it does. -/
inductive FunctionKind where
  | freestanding
  | method
  | static
  | constructor
  deriving DecidableEq, Repr

namespace FunctionKind

def name : FunctionKind → String
  | freestanding => "freestanding"
  | method => "method"
  | static => "static"
  | constructor => "constructor"

def all : List FunctionKind := [freestanding, method, static, constructor]

def nameOfNumber (n : Nat) : String := (all[n]?.map name).getD "unknown"

end FunctionKind

/-- A function of an interface. -/
structure Function where
  name : String
  params : List Member
  results : List Member
  kind : FunctionKind := .freestanding
  resource : Option DefId := none
  deriving DecidableEq, Repr

namespace Function

def paramTypes (f : Function) : List (Option TypeRef) := f.params.map (·.type)

def resultTypes (f : Function) : List (Option TypeRef) := f.results.map (·.type)

end Function

end CanonicalAbi
