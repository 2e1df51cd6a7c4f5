import CanonicalAbi.Layout.Basic
import Std.Data.HashMap

/-!
# Remembered layouts

Types share definitions, and a definition may occur in a type far more often than the type has
definitions.
-/

namespace CanonicalAbi

/-- The layouts that were calculated so far. -/
structure Calculator where
  known : Std.HashMap DefId Layout := {}

/-- A calculation that remembers layouts and may fail. -/
abbrev Calculation := ExceptT Failure (StateM Calculator)

namespace Calculator

def empty : Calculator := {}

/-- The layout of a definition: the one that is known, or a new one, which is then remembered. -/
def remember (l : Label) (work : Calculation Layout) : Calculation Layout := do
  match (← get).known[l.id]? with
  | some layout => return layout
  | none =>
    let layout ← work
    modify fun c => { known := c.known.insert l.id layout }
    return layout

mutual

def layout : Shape → Calculation Layout
  | .scalar s => return .scalar s
  | .string => return .pointerPair
  | .product l _ fields => remember l do return .product (← fieldLayouts fields)
  | .sum l _ payloads =>
    remember l do return .sum (tagWidth payloads.length) (← payloadLayouts payloads)
  | .enum l cases => remember l do return .enum cases
  | .flags l count => remember l do return .flags count
  | .list l _ => remember l do return .pointerPair
  | .handle l _ _ | .channel l _ => remember l do return .handle
  | .synonym l target => remember l (layout? target)
  | .resource l => remember l (throw (.bareResource .layout l.spelling.get))
  | .unfinished l => remember l (throw (.unknownKind .layout l.spelling.get))

def layout? : Option Shape → Calculation Layout
  | none => throw .noLayout
  | some s => layout s

def fieldLayouts : Parts → Calculation (List Layout)
  | [] => return []
  | f :: fs => do return (← layout? f) :: (← fieldLayouts fs)

def payloadLayouts : Parts → Calculation (List Layout)
  | [] => return []
  | none :: ps => payloadLayouts ps
  | some p :: ps => do return (← layout p) :: (← payloadLayouts ps)

end

def product (fields : Parts) : Calculation Layout := do
  return .product (← fieldLayouts fields)

def sum (tag : IntWidth) (payloads : Parts) : Calculation Layout := do
  return .sum tag (← payloadLayouts payloads)

end Calculator

end CanonicalAbi
