import CanonicalAbi.Machine.Run

/-!
# Whole calls

A call runs the two halves of a function against each other: the caller's half lowers the arguments
and calls the core function, which is the callee's half, and that calls the function of the
interface.
-/

namespace CanonicalAbi

variable {α : Type}

/-- What implements the functions of an interface, if anything does. -/
abbrev Implementation (α : Type) := Option (FunctionShape → List Value → Action α (List Value))

/-- The core function that a program which lifts its arguments amounts to. What it returns is kept.
-/
def Program.asCore [Allocator α] (p : Program) (impl : Implementation α) (_name : String)
    (params : List UInt64) : Action α (List UInt64) := do
  let results ← Action.ofExcept
    (Value.toCore (← p.run { interface := impl } (Value.ofCore params)))
  modify fun w => { w with crossing := { w.crossing with returned := some results } }
  return results

/-- Calls a function from one side of the boundary to the other and back. -/
def callThrough [Allocator α] (dir : Direction) (movesRaw : RawRule)
    (s : Subject) (impl : Implementation α) (args : List Value) : Action α (List Value) := do
  let lower ← Action.ofLogged (Program.compile dir .lowerArgs movesRaw s)
  let lift ← Action.ofLogged (Program.compile dir .liftArgs movesRaw s)
  lower.run { core := some (lift.asCore impl) } args

def freeResults [Allocator α] (movesRaw : RawRule) (s : Subject)
    (flat : List UInt64) : Action α (List Value) := do
  let p ← Action.ofLogged (Program.compilePostReturn movesRaw s)
  p.run {} (Value.ofCore flat)

def callExport [Allocator α] (movesRaw : RawRule) (s : Subject)
    (impl : Implementation α) (post : Bool) (args : List Value) : Action α (List Value) := do
  let results ← callThrough .exported movesRaw s impl args
  if post then
    let _ ← freeResults movesRaw s ((← get).crossing.returned.getD [])
  return results

def runHalf [Allocator α] (dir : Direction) (mode : Mode) (movesRaw : RawRule)
    (s : Subject) (host : Host α) (args : List Value) : Action α (List Value) := do
  let p ← Action.ofLogged (Program.compile dir mode movesRaw s)
  p.run host args

end CanonicalAbi
