import CanonicalAbi.Interface.Spelling
import CanonicalAbi.Shape.Basic

/-!
# Shapes of the types in a graph

All definitions are unfolded together, level by level: at depth zero each one is unfinished, and at
the next depth each one is built from what the types in it are at this depth.
-/

namespace CanonicalAbi

/-- The shapes of the definitions of a graph. -/
abbrev ShapeTable := Array Shape

namespace ShapeTable

def shape (table : ShapeTable) : TypeRef → Shape
  | .scalar s => .scalar s
  | .string => .string
  | .defn id => table.getD id (.unfinished ⟨id, "<nil>"⟩)

def shape? (table : ShapeTable) (t : Option TypeRef) : Option Shape := t.map table.shape

def function (table : ShapeTable) (f : Function) : FunctionShape :=
  ⟨f.name, f.paramTypes.map table.shape?, f.resultTypes.map table.shape?⟩

end ShapeTable

namespace Graph

def label (g : Graph) (id : DefId) : Label := ⟨id, Thunk.mk fun _ => g.spelling (.defn id)⟩

def unfoldKind (g : Graph) (table : ShapeTable) (l : Label) : Option Kind → Shape
  | none => .unfinished l
  | some kind =>
    match kind with
    | .record fields => .product l .record (fields.map fun m => table.shape? m.type)
    | .variant cases => .sum l .variant (cases.map fun m => table.shape? m.type)
    | .enum cases => .enum l cases.length
    | .flags names => .flags l names.length
    | .union cases => .sum l .union (cases.map table.shape?)
    | .option t => .sum l .option [none, table.shape? t]
    | .result ok err => .sum l .result [table.shape? ok, table.shape? err]
    | .tuple types => .product l .tuple (types.map table.shape?)
    | .list t => .list l (table.shape? t)
    | .own r => .handle l .own (r.map g.label)
    | .borrow r => .handle l .borrow (r.map g.label)
    | .resource => .resource l
    | .future _ => .channel l .future
    | .stream _ => .channel l .stream
    | .synonym t => .synonym l (table.shape? t)

/-- The shapes of all definitions, unfolded to a depth. -/
def unfold (g : Graph) : Nat → ShapeTable
  | 0 => g.defs.mapIdx fun id _ => .unfinished (g.label id)
  | depth + 1 =>
    let table := g.unfold depth
    g.defs.mapIdx fun id d => g.unfoldKind table (g.label id) d.kind

/-- The shapes of all definitions. The depth is enough for a graph without cycles. -/
def shapes (g : Graph) : ShapeTable := g.unfold g.size

end Graph

end CanonicalAbi
