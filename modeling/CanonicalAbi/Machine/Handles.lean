import CanonicalAbi.Failure
import CanonicalAbi.Shape.Basic

/-!
# Handle tables

Resources cross the boundary as handles, which are numbers of entries in a table. An entry is owned
or borrowed.
-/

namespace CanonicalAbi

/-- The number of an entry of a handle table, from one on. -/
abbrev Handle := UInt32

/-- A resource that a table holds: `owned`, or on loan from the entry `lender`. -/
structure HandleEntry where
  resource : Option Label
  rep : UInt32
  owned : Bool
  loans : Nat := 0
  lender : Handle := 0

/-- How a table changes. -/
inductive HandleEventKind where
  | created
  | dropped
  | borrowed
  | borrowReturned
  deriving DecidableEq, Repr

namespace HandleEventKind

def name : HandleEventKind → String
  | created => "created"
  | dropped => "dropped"
  | borrowed => "borrowed"
  | borrowReturned => "borrow-returned"

def all : List HandleEventKind := [created, dropped, borrowed, borrowReturned]

def nameOfNumber (n : Nat) : String := (all[n]?.map name).getD "unknown"

end HandleEventKind

/-- A change of the table that observers are told of. -/
structure HandleEvent where
  kind : HandleEventKind
  handle : Handle
  resource : Option Label
  rep : UInt32

/-- The name under which an observer subscribes. -/
abbrev Observer := String

/-- Entries by number, the numbers of freed ones for reuse, and what observers were told. -/
structure HandleTable where
  entries : Array (Option HandleEntry) := #[]
  freed : List Handle := []
  observers : List Observer := []
  closed : Bool := false
  told : List (Observer × HandleEvent) := []

/-- An operation on a handle table, which may fail. -/
abbrev TableOp := ExceptT Failure (StateM HandleTable)

namespace HandleTable

def empty : HandleTable := {}

def get? (t : HandleTable) (h : Handle) : Option HandleEntry :=
  if h = 0 then none else (t.entries[h.toNat - 1]?).join

def put (t : HandleTable) (h : Handle) (e : Option HandleEntry) : HandleTable :=
  { t with entries := t.entries.setIfInBounds (h.toNat - 1) e }

def count (t : HandleTable) : Nat := t.entries.foldl (fun n e => if e.isSome then n + 1 else n) 0

def notify (t : HandleTable) (e : HandleEvent) : HandleTable :=
  { t with told := (t.observers.map (·, e)).reverse ++ t.told }

def subscribe (t : HandleTable) (o : Observer) : HandleTable :=
  { t with observers := t.observers ++ [o] }

def unsubscribe (t : HandleTable) (o : Observer) : HandleTable :=
  { t with observers := t.observers.erase o }

def close (t : HandleTable) : HandleTable :=
  { t with entries := #[], freed := [], closed := true }

/-- Removes an entry, which counts as given back to its lender, and says what the observers are to
be told. -/
def release (t : HandleTable) (h : Handle) (e : HandleEntry) (kind : HandleEventKind) :
    HandleEvent × HandleTable :=
  let t :=
    match t.get? e.lender with
    | some l => if l.loans > 0 then t.put e.lender (some { l with loans := l.loans - 1 }) else t
    | none => t
  (⟨kind, h, e.resource, e.rep⟩, { t.put h none with freed := h :: t.freed })

end HandleTable

namespace TableOp

open HandleTable

/-- The entry of a handle, which must exist. If a resource type is given and the entry has one, they
must be the same. -/
def lookup (h : Handle) (resource : Option Label) : TableOp HandleEntry := do
  match (← get).get? h with
  | none => throw (.of .eval .notFound ("invalid handle " ++ toString h))
  | some e =>
    match resource, e.resource with
    | some r, some r' =>
      if r.id = r'.id then return e
      else throw (.typeMismatch .eval [] r.spelling.get "*types.TypeDef")
    | _, _ => return e

def insert (e : HandleEntry) (kind : HandleEventKind) : TableOp Handle := do
  let t ← get
  if t.closed then throw (.invalidInput .eval "handle table closed")
  let (h, t) :=
    match t.freed with
    | h :: freed => (h, { t.put h (some e) with freed })
    | [] => (UInt32.ofNat (t.entries.size + 1), { t with entries := t.entries.push (some e) })
  set (t.notify ⟨kind, h, e.resource, e.rep⟩)
  return h

def addOwned (resource : Option Label) (rep : UInt32) : TableOp Handle :=
  insert { resource, rep, owned := true } .created

def addBorrowed (resource : Option Label) (rep : UInt32) : TableOp Handle :=
  insert { resource, rep, owned := false } .borrowed

/-- Makes a borrow of an owned handle. -/
def lend (owner : Handle) (resource : Option Label) : TableOp Handle := do
  let e ← lookup owner resource
  unless e.owned do throw (.invalidInput .eval "cannot lend a borrowed handle")
  modify (·.put owner (some { e with loans := e.loans + 1 }))
  insert { resource := e.resource, rep := e.rep, owned := false, lender := owner } .borrowed

def rep (h : Handle) (resource : Option Label) : TableOp UInt32 := do
  return (← lookup h resource).rep

def refuseLent (h : Handle) (e : HandleEntry) : TableOp Unit := do
  if e.loans > 0 then
    throw (.invalidInput .eval ("handle " ++ toString h ++ " has " ++ toString e.loans
      ++ " outstanding borrows"))

def remove (h : Handle) (e : HandleEntry) (kind : HandleEventKind) : TableOp Unit := do
  let (event, t) := (← get).release h e kind
  set (t.notify event)

/-- Takes an owned handle out of the table, for its resource to move. -/
def take (h : Handle) (resource : Option Label) : TableOp UInt32 := do
  let e ← lookup h resource
  unless e.owned do throw (.invalidInput .eval "borrowed handle passed as owned")
  refuseLent h e
  remove h e .dropped
  return e.rep

/-- Drops a handle, unless it is lent. -/
def drop (h : Handle) : TableOp Unit := do
  let e ← lookup h none
  refuseLent h e
  remove h e .dropped

def endBorrow (h : Handle) : TableOp Unit := do
  let e ← lookup h none
  if e.owned then throw (.invalidInput .eval "owned handle released as a borrow")
  remove h e .borrowReturned

end TableOp

namespace HandleTable

/-- Gives back the borrowed entries among the `count` handles from `h` on, and returns the events in
order. -/
def releaseFrom (t : HandleTable) (h : Handle) : Nat → List HandleEvent × HandleTable
  | 0 => ([], t)
  | count + 1 =>
    match t.get? h with
    | some e =>
      if e.owned then t.releaseFrom (h + 1) count
      else
        let (event, t) := t.release h e .borrowReturned
        let (events, t) := t.releaseFrom (h + 1) count
        (event :: events, t)
    | none => t.releaseFrom (h + 1) count

def endBorrows (t : HandleTable) : Nat × HandleTable :=
  let (events, t) := t.releaseFrom 1 t.entries.size
  (events.length, events.foldl notify t)

end HandleTable

end CanonicalAbi
