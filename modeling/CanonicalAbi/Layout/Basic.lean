import CanonicalAbi.Failure
import CanonicalAbi.Layout.Align
import CanonicalAbi.Shape.Basic

/-!
# Layouts

The place of a value in linear memory. The fields of a product follow one another, each at the next
offset that suits it.
-/

namespace CanonicalAbi

/-- The size and alignment of values, the offsets of fields, and the width of a case number and the
offset of payloads behind it. -/
structure Layout where
  size : UInt32
  align : UInt32
  offsets : List UInt32 := []
  payload : UInt32 := 0
  tag : IntWidth := .u8
  deriving DecidableEq, Repr

namespace Layout

/-- The offsets of fields that follow one another from `offset` on, and the offset after the last.
-/
def placeFields (offset : UInt32) : List Layout → List UInt32 × UInt32
  | [] => ([], offset)
  | f :: fs =>
    let start := alignUp offset f.align
    let (offsets, stop) := placeFields (start + f.size) fs
    (start :: offsets, stop)

def maxAlign (least : UInt32) (parts : List Layout) : UInt32 :=
  parts.foldl (fun a f => if f.align > a then f.align else a) least

def maxSize (parts : List Layout) : UInt32 :=
  parts.foldl (fun a f => if f.size > a then f.size else a) 0

def product (fields : List Layout) : Layout :=
  let (offsets, stop) := placeFields 0 fields
  let align := maxAlign 1 fields
  { size := alignUp stop align, align, offsets }

def sum (tag : IntWidth) (payloads : List Layout) : Layout :=
  let align := maxAlign tag.align payloads
  let payload := alignUp tag.size align
  { size := alignUp (payload + maxSize payloads) align, align, payload, tag }

def pointerPair : Layout := { size := 8, align := 4 }

def handle : Layout := { size := 4, align := 4 }

def scalar : Scalar → Layout
  | .bool | .s8 | .u8 => { size := 1, align := 1 }
  | .s16 | .u16 => { size := 2, align := 2 }
  | .s32 | .u32 | .f32 | .char => { size := 4, align := 4 }
  | .s64 | .u64 | .f64 => { size := 8, align := 8 }

def enum (cases : Nat) : Layout := sum (tagWidth cases) []

def flags (count : Nat) : Layout :=
  let storage := FlagsStorage.ofCount count
  { size := storage.size, align := storage.align }

end Layout

namespace Failure

def noLayout : Failure := of .layout .invalidInput "no layout for <nil>"

def bareResource (phase : Phase) (spelling : String) : Failure :=
  unsupported phase [] spelling "resources are only passed through handles"

def unknownKind (phase : Phase) (spelling : String) : Failure :=
  report { phase, kind := .invalidInput, type := spelling,
           detail := "unknown definition kind <nil>" } none

end Failure

mutual

/-- How a value is stored. -/
def Shape.layout : Shape → Except Failure Layout
  | .scalar s => .ok (.scalar s)
  | .string | .list _ _ => .ok .pointerPair
  | .product _ _ fields => do return .product (← fieldLayouts fields)
  | .sum _ _ payloads => do
    return .sum (tagWidth payloads.length) (← payloadLayouts payloads)
  | .enum _ cases => .ok (.enum cases)
  | .flags _ count => .ok (.flags count)
  | .handle _ _ _ | .channel _ _ => .ok .handle
  | .synonym _ target => optLayout target
  | .resource l => .error (.bareResource .layout l.spelling.get)
  | .unfinished l => .error (.unknownKind .layout l.spelling.get)

def optLayout : Option Shape → Except Failure Layout
  | none => .error .noLayout
  | some s => s.layout

def fieldLayouts : Parts → Except Failure (List Layout)
  | [] => .ok []
  | f :: fs => do return (← optLayout f) :: (← fieldLayouts fs)

def payloadLayouts : Parts → Except Failure (List Layout)
  | [] => .ok []
  | none :: ps => payloadLayouts ps
  | some p :: ps => do return (← p.layout) :: (← payloadLayouts ps)

end

end CanonicalAbi
