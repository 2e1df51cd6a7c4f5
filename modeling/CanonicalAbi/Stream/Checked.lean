import CanonicalAbi.Interface.Validate
import CanonicalAbi.Shape.OfGraph
import CanonicalAbi.Stream.Call

/-!
# Checked generation

A function of an interface is validated before its adapter is generated. Whatever stops the
generator becomes a failure.
-/

namespace CanonicalAbi

/-- A function of an interface with all it refers to. -/
structure Subject where
  graph : Graph
  shapes : ShapeTable
  function : Option Function

def Subject.ofGraph (g : Graph) (f : Option Function) : Subject := ⟨g, g.shapes, f⟩

/-- How a validated translation ended. -/
structure Checked (σ : Type) where
  result : Except Failure Unit
  backend : σ
  log : List LogEntry

namespace Checked

variable {σ ω : Type}

def ofWork (s : Subject) (work : FunctionShape → Generated σ) (backend : σ) : Checked σ :=
  match validationFailure s.graph s.function, s.function with
  | some failure, _ => ⟨.error failure, backend, []⟩
  | none, none => ⟨.ok (), backend, []⟩
  | none, some f =>
    let g := work (s.shapes.function f)
    ⟨g.result.mapError Abort.toFailure, g.backend, g.log⟩

end Checked

namespace Generator

variable {σ ω : Type}

/-- Validates, and then generates a call. -/
def checked (g : Generator) (b : Backend σ ω) (s : Subject) (backend : σ) : Checked σ :=
  .ofWork s (g.call b · backend) backend

def checkedPostReturn (b : Backend σ ω) (realloc : String) (s : Subject) (backend : σ) :
    Checked σ :=
  .ofWork s (postReturn { dir := .exported, mode := .liftArgs, realloc } b · backend) backend

end Generator

end CanonicalAbi
