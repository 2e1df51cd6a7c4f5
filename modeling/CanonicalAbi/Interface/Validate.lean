import CanonicalAbi.Failure
import CanonicalAbi.Interface.Spelling

/-!
# Validating functions

Before anything is generated for a function its types are inspected, and every position is reported
at which something stands that cannot be passed: a type that is left out, a definition without a
kind, a handle without a resource, a borrowed handle that would be returned, a value that arrives
later, or a resource outside a handle.
-/

namespace CanonicalAbi

def Kind.reportName : Kind → String
  | record _ => "*types.Record"
  | variant _ => "*types.Variant"
  | enum _ => "*types.Enum"
  | flags _ => "*types.Flags"
  | union _ => "*types.Union"
  | option _ => "*types.Option"
  | result _ _ => "*types.Result"
  | tuple _ => "*types.Tuple"
  | list _ => "*types.List"
  | own _ => "*types.Own"
  | borrow _ => "*types.Borrow"
  | resource => "*types.Resource"
  | future _ => "*types.Future"
  | stream _ => "*types.Stream"
  | synonym _ => "*types.Alias"

/-- What was entered and what was found, the last one first. -/
structure Inspection where
  seen : List DefId := []
  found : List Report := []

/-- An inspection of types. -/
abbrev Inspect := StateM Inspection

namespace Inspect

def report (r : Report) : Inspect Unit := modify fun s => { s with found := r :: s.found }

def invalid (path : List String) (type detail : String) : Inspect Unit :=
  report { phase := .validate, kind := .invalidInput, path, type, detail }

def unsupported (path : List String) (type detail : String) : Inspect Unit :=
  report { phase := .validate, kind := .unsupported, path, type, detail }

/-- Does `work` for a definition that was not inspected yet. -/
def once (id : DefId) (work : Inspect Unit) : Inspect Unit := do
  if (← get).seen.contains id then return
  modify fun s => { s with seen := id :: s.seen }
  work

/-- Inspects the resource of a handle: there must be one, and behind synonyms it must be a resource.
-/
def handle (g : Graph) (spelling : String) (resource : Option DefId) (path : List String) :
    Inspect Unit :=
  match resource with
  | none => invalid path spelling "handle without a resource"
  | some id =>
    if g.resolve id = some .resource then pure ()
    else report { phase := .validate, kind := .typeMismatch, path, type := "resource",
                  detail := "got " ++ ((g.kind? id).map Kind.reportName).getD "<nil>" }

/-- Types that have numbers for names. -/
def numbered (types : List (Option TypeRef)) : List Member :=
  types.mapIdx fun index t => ⟨toString index, t⟩

/-- The name of a position among the parameters or results. -/
def position (role name : String) : String := if name.isEmpty then role else role ++ " " ++ name

/-- The parameters of a function, named for their positions. -/
def params (f : Function) : List Member :=
  f.params.map fun m => ⟨position "param" m.name, m.type⟩

/-- The results of a function, named for their positions. One without a name is called by its
number. -/
def results (f : Function) : List Member :=
  f.results.mapIdx fun index m =>
    ⟨position "result" (if m.name.isEmpty then toString index else m.name), m.type⟩

section Walk

variable {m : Type → Type} [Monad m] (check : Option TypeRef → List String → m Unit)

/-- Inspects the types of members, each at a position of its own. -/
def members (path : List String) : List Member → m Unit
  | [] => pure ()
  | m :: ms => do
    check m.type (path ++ [m.name])
    members path ms

variable [MonadLiftT Inspect m] (g : Graph) (once : DefId → m Unit → m Unit)

/-- Inspects a definition of a kind. The bodies of products and sums are entered through `once`. -/
def kind (result : Bool) (id : DefId) (path : List String) (k : Kind) : m Unit :=
  match k with
  | .synonym t => check t path
  | .record fields => once id (members check path fields)
  | .tuple types => once id (members check path (numbered types))
  | .variant cases => once id (members check path (cases.filter (·.type.isSome)))
  | .union cases => once id (members check path (numbered cases))
  | .option t => check t (path ++ ["some"])
  | .result ok err => do
    if ok.isSome then check ok (path ++ ["ok"])
    if err.isSome then check err (path ++ ["err"])
  | .list t => check t (path ++ ["elem"])
  | .own r => handle g (g.spelling (.defn id)) r path
  | .borrow r => do
    handle g (g.spelling (.defn id)) r path
    if result then
      unsupported path (g.spelling (.defn id)) "borrowed handles cannot be returned"
  | .future _ | .stream _ =>
    unsupported path (g.spelling (.defn id)) "async values have no canonical lowering"
  | .resource =>
    unsupported path (g.spelling (.defn id)) "resources are only passed through handles"
  | .enum _ | .flags _ => pure ()

/-- Inspects a type at a position, to a depth of at most `fuel` definitions. `result` says whether
the position is in the results. -/
def type (result : Bool) : Nat → Option TypeRef → List String → m Unit
  | _, none, path => invalid path "" "missing type"
  | fuel + 1, some (.defn id), path =>
    match g.kind? id with
    | none => invalid path (g.spelling (.defn id)) "definition without a kind"
    | some k => kind (type result fuel) g once result id path k
  | _, some _, _ => pure ()

/-- A depth that no inspection exceeds unless it goes round a cycle for ever: no product or sum is
entered twice, and between two of them stands at most every other definition once. -/
def maxDepth (g : Graph) : Nat := (g.size + 1) * (g.size + 1)

/-- Inspects a function. -/
def functionVia (f : Function) : m Unit := do
  members (type g once false (maxDepth g)) [f.name] (params f)
  members (type g once true (maxDepth g)) [f.name] (results f)
  if f.kind ≠ .freestanding ∧ f.resource.isNone then
    invalid [f.name] "" (f.kind.name ++ " function without a resource")

end Walk

/-- Inspects a function, and the body of each product and sum once. -/
def function (g : Graph) (f : Function) : Inspect Unit := functionVia g once f

end Inspect

/-- The reports about a function; a function without any can be adapted. -/
def validate (g : Graph) : Option Function → List Report
  | none => [{ phase := .validate, kind := .invalidInput, detail := "nil function" }]
  | some f => ((Inspect.function g f).run {}).2.found.reverse

def validationFailure (g : Graph) (f : Option Function) : Option Failure :=
  Failure.ofList ((validate g f).map (.report · none))

end CanonicalAbi
