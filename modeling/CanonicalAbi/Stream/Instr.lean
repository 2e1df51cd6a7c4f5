import CanonicalAbi.Core.Signature

/-!
# Instructions

An adapter is a stream of primitive steps on a stack of operands.
-/

namespace CanonicalAbi

/-- The ways to load a core value from memory. -/
inductive LoadOp where
  | i32
  | i32From8U
  | i32From8S
  | i32From16U
  | i32From16S
  | i64
  | f32
  | f64
  deriving DecidableEq, Repr

def LoadOp.name : LoadOp → String
  | i32 => "i32.load"
  | i32From8U => "i32.load8_u"
  | i32From8S => "i32.load8_s"
  | i32From16U => "i32.load16_u"
  | i32From16S => "i32.load16_s"
  | i64 => "i64.load"
  | f32 => "f32.load"
  | f64 => "f64.load"

/-- The ways to store a core value in memory. -/
inductive StoreOp where
  | i32
  | i32To8
  | i32To16
  | i64
  | f32
  | f64
  deriving DecidableEq, Repr

def StoreOp.name : StoreOp → String
  | i32 => "i32.store"
  | i32To8 => "i32.store8"
  | i32To16 => "i32.store16"
  | i64 => "i64.store"
  | f32 => "f32.store"
  | f64 => "f64.store"

/-- The steps of adapters, with all that their meaning depends on. Blocks and operands are not part
of an instruction. -/
inductive Instr where
  | getArg (index : Nat)
  | i32Const (value : Int32)
  | constZero (types : List CoreType)
  | bitcasts (casts : List Bitcast)
  | load (op : LoadOp) (offset : UInt32)
  | store (op : StoreOp) (offset : UInt32)
  | lowerScalar (s : Scalar)
  | liftScalar (s : Scalar)
  | lowerHandle (form : HandleForm) (label : Label) (resource : Option Label)
  | liftHandle (form : HandleForm) (label : Label) (resource : Option Label)
  | lowerString (realloc : String)
  | liftString
  | lowerBytes (label : Label) (elem : Option Shape) (realloc : String)
  | liftBytes (label : Label) (elem : Option Shape)
  | lowerList (label : Label) (elem : Option Shape) (realloc : String)
  | liftList (label : Label) (elem : Option Shape)
  | iterElem (elem : Option Shape)
  | iterBase
  | lowerProduct (form : ProductForm) (label : Label) (fields : Nat)
  | liftProduct (form : ProductForm) (label : Label) (fields : Nat)
  | lowerFlags (label : Label) (count : Nat)
  | liftFlags (label : Label) (count : Nat)
  | payload
  | lowerSum (form : SumForm) (label : Label) (cases : Nat) (results : List CoreType)
  | liftSum (form : SumForm) (label : Label) (cases : Nat)
  | lowerEnum (label : Label) (cases : Nat)
  | liftEnum (label : Label) (cases : Nat)
  | callCore (name : String) (signature : CoreSignature)
  | callInterface (function : FunctionShape)
  | ret (count : Nat)
  | allocate (realloc : String) (size align : UInt32)
  | free (size align : UInt32)
  | freeString
  | freeList (label : Label) (elem : Option Shape)
  | freeSum (label : Label) (cases : Nat)

namespace Instr

def lowerName : Scalar → String
  | .bool => "i32_from_bool"
  | .char => "i32_from_char"
  | .u8 => "i32_from_u8"
  | .s8 => "i32_from_s8"
  | .u16 => "i32_from_u16"
  | .s16 => "i32_from_s16"
  | .u32 => "i32_from_u32"
  | .s32 => "i32_from_s32"
  | .u64 => "i64_from_u64"
  | .s64 => "i64_from_s64"
  | .f32 => "f32_from_float32"
  | .f64 => "f64_from_float64"

def liftName : Scalar → String
  | .bool => "bool_from_i32"
  | .char => "char_from_i32"
  | .u8 => "u8_from_i32"
  | .s8 => "s8_from_i32"
  | .u16 => "u16_from_i32"
  | .s16 => "s16_from_i32"
  | .u32 => "u32_from_i32"
  | .s32 => "s32_from_i32"
  | .u64 => "u64_from_i64"
  | .s64 => "s64_from_i64"
  | .f32 => "float32_from_f32"
  | .f64 => "float64_from_f64"

def name : Instr → String
  | getArg _ => "get_arg"
  | i32Const _ => "i32.const"
  | constZero _ => "const_zero"
  | bitcasts _ => "bitcasts"
  | load op _ => op.name
  | store op _ => op.name
  | lowerScalar s => lowerName s
  | liftScalar s => liftName s
  | lowerHandle .own _ _ => "i32_from_own_handle"
  | lowerHandle .borrow _ _ => "i32_from_borrow_handle"
  | liftHandle .own _ _ => "own_handle_from_i32"
  | liftHandle .borrow _ _ => "borrow_handle_from_i32"
  | lowerString _ => "string_lower"
  | liftString => "string_lift"
  | lowerBytes _ _ _ => "list_canon_lower"
  | liftBytes _ _ => "list_canon_lift"
  | lowerList _ _ _ => "list_lower"
  | liftList _ _ => "list_lift"
  | iterElem _ => "iter_elem"
  | iterBase => "iter_base_pointer"
  | lowerProduct .record _ _ => "record_lower"
  | liftProduct .record _ _ => "record_lift"
  | lowerProduct .tuple _ _ => "tuple_lower"
  | liftProduct .tuple _ _ => "tuple_lift"
  | lowerFlags _ _ => "flags_lower"
  | liftFlags _ _ => "flags_lift"
  | payload => "variant_payload_name"
  | lowerSum .variant _ _ _ => "variant_lower"
  | liftSum .variant _ _ => "variant_lift"
  | lowerSum .union _ _ _ => "union_lower"
  | liftSum .union _ _ => "union_lift"
  | lowerEnum _ _ => "enum_lower"
  | liftEnum _ _ => "enum_lift"
  | lowerSum .option _ _ _ => "option_lower"
  | liftSum .option _ _ => "option_lift"
  | lowerSum .result _ _ _ => "result_lower"
  | liftSum .result _ _ => "result_lift"
  | callCore _ _ => "call_wasm"
  | callInterface _ => "call_interface"
  | ret _ => "return"
  | allocate _ _ _ => "malloc"
  | free _ _ => "guest_deallocate"
  | freeString => "guest_deallocate_string"
  | freeList _ _ => "guest_deallocate_list"
  | freeSum _ _ => "guest_deallocate_variant"

def operands : Instr → Nat
  | getArg _ | i32Const _ | constZero _ | payload | iterElem _ | iterBase | allocate _ _ _ => 0
  | bitcasts casts => casts.length
  | store _ _ | liftString | liftBytes _ _ | liftList _ _ | freeString | freeList _ _ => 2
  | liftProduct _ _ fields => fields
  | liftFlags _ count => (FlagsStorage.ofCount count).lanes
  | callCore _ signature => signature.params.length
  | callInterface function => function.params.length
  | ret count => count
  | load _ _ | lowerScalar _ | liftScalar _ | lowerHandle _ _ _ | liftHandle _ _ _
  | lowerString _ | lowerBytes _ _ _ | lowerList _ _ _ | lowerProduct _ _ _ | lowerFlags _ _
  | lowerSum _ _ _ _ | liftSum _ _ _ | lowerEnum _ _ | liftEnum _ _ | free _ _ | freeSum _ _ => 1

def results : Instr → Nat
  | store _ _ | ret _ | free _ _ | freeString | freeList _ _ | freeSum _ _ => 0
  | constZero types => types.length
  | bitcasts casts => casts.length
  | lowerString _ | lowerBytes _ _ _ | lowerList _ _ _ => 2
  | lowerProduct _ _ fields => fields
  | lowerFlags _ count => (FlagsStorage.ofCount count).lanes
  | lowerSum _ _ _ results => results.length
  | callCore _ signature => signature.results.length
  | callInterface function => function.results.length
  | getArg _ | i32Const _ | payload | iterElem _ | iterBase | allocate _ _ _ | load _ _
  | lowerScalar _ | liftScalar _ | lowerHandle _ _ _ | liftHandle _ _ _ | liftString
  | liftBytes _ _ | liftList _ _ | liftProduct _ _ _ | liftFlags _ _ | liftSum _ _ _
  | lowerEnum _ _ | liftEnum _ _ => 1

/-- The number of finished blocks that an instruction consumes. They are finished right before it,
in the order of the cases. -/
def blocks : Instr → Nat
  | lowerList _ _ _ | liftList _ _ | freeList _ _ => 1
  | lowerSum _ _ cases _ | liftSum _ _ cases | freeSum _ cases => cases
  | _ => 0

def isLoad : Instr → Bool
  | load _ _ => true
  | _ => false

def isStore : Instr → Bool
  | store _ _ => true
  | _ => false

end Instr

end CanonicalAbi
