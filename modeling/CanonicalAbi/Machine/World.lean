import CanonicalAbi.Log
import CanonicalAbi.Machine.Allocator
import CanonicalAbi.Machine.Handles
import CanonicalAbi.Machine.Memory
import CanonicalAbi.Machine.Value

/-!
# Worlds

What a program runs in: a linear memory, an allocator and a handle table, of which the last two may
be absent, and the functions outside that it calls.
-/

namespace CanonicalAbi

/-- What last passed between a core function and the interface. -/
structure Crossing where
  called : Option (String × List UInt64) := none
  returned : Option (List UInt64) := none
  seen : Option (List Value) := none

/-- What a program finds when it runs and leaves behind. -/
structure World (α : Type) where
  memory : Memory
  allocator : Option α
  table : Option HandleTable
  log : List LogEntry := []
  crossing : Crossing := {}

/-- An action in a world, which changes the world also when it fails. -/
abbrev Action (α : Type) (β : Type) := ExceptT Failure (StateM (World α)) β

/-- The functions outside a program, if there are any. -/
structure Host (α : Type) where
  core : Option (String → List UInt64 → Action α (List UInt64)) := none
  interface : Option (FunctionShape → List Value → Action α (List Value)) := none

namespace Action

variable {α : Type}

def note (entry : LogEntry) : Action α Unit := modify fun w => { w with log := entry :: w.log }

def notes (entries : List LogEntry) : Action α Unit :=
  modify fun w => { w with log := entries ++ w.log }

def ofExcept {β : Type} : Except Failure β → Action α β
  | .ok b => pure b
  | .error f => throw f

def ofLogged {β : Type} (r : Except Failure β × List LogEntry) : Action α β := do
  notes r.2
  ofExcept r.1

def alloc [Allocator α] (size align : UInt32) : Action α UInt32 := do
  match (← get).allocator with
  | none => throw (.invalidInput .eval "no allocator")
  | some a =>
    let (result, a) := Allocator.alloc a size align
    modify fun w => { w with allocator := some a }
    ofExcept result

def free [Allocator α] (ptr size align : UInt32) : Action α Unit :=
  modify fun w => { w with allocator := w.allocator.map (Allocator.free · ptr size align) }

def freeAll [Allocator α] (blocks : AllocationList) : Action α Unit :=
  modify fun w => { w with allocator := w.allocator.map blocks.free }

def read (offset length : UInt32) : Action α (List UInt8) := do
  ofExcept ((← get).memory.read offset length)

def write (offset : UInt32) (data : List UInt8) : Action α Unit := do
  let memory ← ofExcept ((← get).memory.write offset data)
  modify fun w => { w with memory }

def load (width : IntWidth) (offset : UInt32) : Action α UInt64 := do
  ofExcept ((← get).memory.load width offset)

def store (width : IntWidth) (offset : UInt32) (value : UInt64) : Action α Unit := do
  let memory ← ofExcept ((← get).memory.store width offset value)
  modify fun w => { w with memory }

def onTable {β : Type} (op : TableOp β) : Action α β := do
  match (← get).table with
  | none => throw (.invalidInput .eval "no handle table")
  | some t =>
    let (result, t) := op.run.run t
    modify fun w => { w with table := some t }
    ofExcept result

end Action

end CanonicalAbi
