import CanonicalAbi.Stream.Instr

/-!
# The instruction set by numbers

Instructions are numbered in a fixed order.
-/

namespace CanonicalAbi

/-- All that the instructions of the catalogue can be about. -/
structure Attributes where
  shape : Option Shape := none
  casts : List Bitcast := []
  types : List CoreType := []
  results : List CoreType := []
  signature : CoreSignature := { params := [], results := [] }
  function : FunctionShape := ⟨"", [], []⟩
  count : Nat := 0

namespace Attributes

def ofShape (a : Attributes) (f : Shape → Nat) : Nat := (a.shape.map f).getD 0

def label (a : Attributes) : Label := (a.shape.bind Shape.label?).getD ⟨0, ""⟩

/-- The number of blocks of an instruction on sums: both cases of options and results, and as many
as the type has for the other forms. -/
def cases (a : Attributes) : SumForm → Nat
  | .option | .result => 2
  | .variant | .union => a.ofShape Shape.caseCount

end Attributes

namespace Instr

def loads : List Instr :=
  [load .i32 0, load .i32From8U 0, load .i32From8S 0, load .i32From16U 0, load .i32From16S 0,
   load .i64 0, load .f32 0, load .f64 0]

def stores : List Instr :=
  [store .i32 0, store .i32To8 0, store .i32To16 0, store .i64 0, store .f32 0, store .f64 0]

def scalars : List Scalar :=
  [.bool, .char, .u8, .s8, .u16, .s16, .u32, .s32, .u64, .s64, .f32, .f64]

def references (l : Label) : List Instr :=
  [lowerHandle .own l none, lowerHandle .borrow l none, liftHandle .own l none,
   liftHandle .borrow l none, lowerString "", liftString, lowerBytes l none "", liftBytes l none,
   lowerList l none "", liftList l none, iterElem none, iterBase]

def products (a : Attributes) (form : ProductForm) : List Instr :=
  [lowerProduct form a.label (a.ofShape (·.fieldCount form)),
   liftProduct form a.label (a.ofShape (·.fieldCount form))]

def sums (a : Attributes) (form : SumForm) : List Instr :=
  [lowerSum form a.label (a.cases form) a.results, liftSum form a.label (a.cases form)]

def flagSets (a : Attributes) : List Instr :=
  [lowerFlags a.label (a.ofShape Shape.flagCount), liftFlags a.label (a.ofShape Shape.flagCount),
   payload]

/-- The instructions on calls and on memory that is handed out, in the order of their numbers. -/
def calls (a : Attributes) : List Instr :=
  [callCore "" a.signature, callInterface a.function, ret a.count, allocate "" 0 0, free 0 0,
   freeString, freeList a.label none, freeSum a.label (a.ofShape Shape.caseCount)]

def catalogue (a : Attributes) : List Instr :=
  List.flatten
    [[getArg 0, i32Const 0, constZero a.types, bitcasts a.casts], loads, stores,
     scalars.map lowerScalar, scalars.map liftScalar, references a.label, products a .record,
     products a .tuple, flagSets a, sums a .variant, sums a .union,
     [lowerEnum a.label 0, liftEnum a.label 0], sums a .option, sums a .result, calls a]

end Instr

/-- What is known of an instruction by its number. -/
structure InstrInfo where
  name : String
  isLoad : Bool := false
  isStore : Bool := false
  operands : Nat := 1
  results : Nat := 1
  blocks : Nat := 0
  deriving DecidableEq, Repr

def Instr.info (i : Instr) : InstrInfo :=
  { name := i.name, isLoad := i.isLoad, isStore := i.isStore, operands := i.operands,
    results := i.results, blocks := i.blocks }

def InstrInfo.ofNumber (a : Attributes) : Nat → InstrInfo
  | 0 => { name := "invalid" }
  | n + 1 => ((Instr.catalogue a)[n]?.map Instr.info).getD { name := "unknown" }

end CanonicalAbi
