import CanonicalAbi.Proofs.Replay

/-!
# Types of operands

Every operand of a stream has a type: the type of a value of the interface, or a core type. The
judgement here says when recorded steps respect these types.
-/

namespace CanonicalAbi

mutual

def Shape.exposed : Shape → Option Shape
  | .synonym _ target => exposed? target
  | s => some s

def exposed? : Option Shape → Option Shape
  | none => none
  | some s => s.exposed

end

/-- The type of a register: a value of the interface or a core value. -/
inductive OperandType where
  | source (type : Option Shape)
  | core (type : CoreType)

/-- The type of the values of a part of a shape. A synonym is no type of its own. -/
def OperandType.of (part : Option Shape) : OperandType := .source (exposed? part)

namespace Bitcast

/-- A cast takes a core type to another. -/
inductive Converts : Bitcast → CoreType → CoreType → Prop where
  | none (t : CoreType) : Converts .none t t
  | i32ToF32 : Converts .i32ToF32 .i32 .f32
  | f32ToI32 : Converts .f32ToI32 .f32 .i32
  | i32ToI64 : Converts .i32ToI64 .i32 .i64
  | i64ToI32 : Converts .i64ToI32 .i64 .i32
  | f32ToI64 : Converts .f32ToI64 .f32 .i64
  | i64ToF32 : Converts .i64ToF32 .i64 .f32
  | f64ToI64 : Converts .f64ToI64 .f64 .i64
  | i64ToF64 : Converts .i64ToF64 .i64 .f64

/-- Casts take core types to others, one by one. -/
inductive ConvertsAll : List Bitcast → List CoreType → List CoreType → Prop where
  | nil : ConvertsAll [] [] []
  | cons {cast : Bitcast} {a b : CoreType} {casts : List Bitcast} {as bs : List CoreType}
      (first : Converts cast a b) (rest : ConvertsAll casts as bs) :
      ConvertsAll (cast :: casts) (a :: as) (b :: bs)

end Bitcast

def LoadOp.coreType : LoadOp → CoreType
  | i32 | i32From8U | i32From8S | i32From16U | i32From16S => .i32
  | i64 => .i64
  | f32 => .f32
  | f64 => .f64

def StoreOp.coreType : StoreOp → CoreType
  | i32 | i32To8 | i32To16 => .i32
  | i64 => .i64
  | f32 => .f32
  | f64 => .f64

/-- What a block finds when it begins. -/
inductive Item where
  | nothing
  | payload (part : Option Shape)
  | element (part : Option Shape)
  | address

/-- What a block finds, and what it results in. -/
structure BlockType where
  item : Item
  results : List OperandType

/-- The types of the calls that a program makes and answers. -/
structure Contract where
  args : List OperandType
  returns : List OperandType
  function : FunctionShape
  signature : CoreSignature

/-- The contract of one half of a call to a function with a core side. -/
def FunctionShape.contract (f : FunctionShape) (signature : CoreSignature) (mode : Mode) :
    Contract where
  function := f
  signature := signature
  args := match mode with
    | .lowerArgs => f.params.map .of
    | .liftArgs => signature.params.map .core
    | .neither => []
  returns := match mode with
    | .lowerArgs => f.results.map .of
    | .liftArgs => signature.results.map .core
    | .neither => []

/-- The contract of the function that frees the results of an export. It is given what the export
returned. -/
def FunctionShape.postContract (f : FunctionShape) (signature : CoreSignature) : Contract where
  function := f
  signature := signature
  args := signature.results.map .core
  returns := []

open OperandType in
/-- The types of the operands that an instruction takes, of the blocks that it owns and of the
operands that it makes, in a block that is run for `item`. -/
inductive Instr.HasType (c : Contract) (item : Item) :
    Instr → List OperandType → List BlockType → List OperandType → Prop where
  | getArg {index : Nat} {t : OperandType} (h : c.args[index]? = some t) :
      HasType c item (.getArg index) [] [] [t]
  | i32Const (value : Int32) : HasType c item (.i32Const value) [] [] [core .i32]
  | constZero (types : List CoreType) : HasType c item (.constZero types) [] [] (types.map core)
  | bitcasts {casts : List Bitcast} {own slots : List CoreType}
      (h : Bitcast.ConvertsAll casts own slots) :
      HasType c item (.bitcasts casts) (own.map core) [] (slots.map core)
  | load (op : LoadOp) (offset : UInt32) :
      HasType c item (.load op offset) [core .i32] [] [core op.coreType]
  | store (op : StoreOp) (offset : UInt32) :
      HasType c item (.store op offset) [core op.coreType, core .i32] [] []
  | lowerScalar (s : Scalar) :
      HasType c item (.lowerScalar s) [source (some (.scalar s))] [] [core s.coreType]
  | liftScalar (s : Scalar) :
      HasType c item (.liftScalar s) [core s.coreType] [] [source (some (.scalar s))]
  | lowerHandle (form : HandleForm) (l : Label) (resource : Option Label) :
      HasType c item (.lowerHandle form l resource) [source (some (.handle l form resource))] []
        [core .i32]
  | liftHandle (form : HandleForm) (l : Label) (resource : Option Label) :
      HasType c item (.liftHandle form l resource) [core .i32] []
        [source (some (.handle l form resource))]
  | lowerString (realloc : String) :
      HasType c item (.lowerString realloc) [source (some .string)] [] [core .i32, core .i32]
  | liftString : HasType c item .liftString [core .i32, core .i32] [] [source (some .string)]
  | lowerBytes (l : Label) (elem : Option Shape) (realloc : String) :
      HasType c item (.lowerBytes l elem realloc) [source (some (.list l elem))] []
        [core .i32, core .i32]
  | liftBytes (l : Label) (elem : Option Shape) :
      HasType c item (.liftBytes l elem) [core .i32, core .i32] [] [source (some (.list l elem))]
  | lowerList (l : Label) (elem : Option Shape) (realloc : String) :
      HasType c item (.lowerList l elem realloc) [source (some (.list l elem))]
        [⟨.element elem, []⟩] [core .i32, core .i32]
  | liftList (l : Label) (elem : Option Shape) :
      HasType c item (.liftList l elem) [core .i32, core .i32] [⟨.address, [.of elem]⟩]
        [source (some (.list l elem))]
  | iterElem {elem : Option Shape} (h : item = .element elem) :
      HasType c item (.iterElem elem) [] [] [.of elem]
  | iterBase (h : item = .address ∨ ∃ elem, item = .element elem) :
      HasType c item .iterBase [] [] [core .i32]
  | lowerProduct (form : ProductForm) (l : Label) (fields : Parts) :
      HasType c item (.lowerProduct form l fields.length) [source (some (.product l form fields))]
        [] (fields.map .of)
  | liftProduct (form : ProductForm) (l : Label) (fields : Parts) :
      HasType c item (.liftProduct form l fields.length) (fields.map .of) []
        [source (some (.product l form fields))]
  | lowerFlags (l : Label) (count : Nat) :
      HasType c item (.lowerFlags l count) [source (some (.flags l count))] []
        (List.replicate (FlagsStorage.ofCount count).lanes (core .i32))
  | liftFlags (l : Label) (count : Nat) :
      HasType c item (.liftFlags l count)
        (List.replicate (FlagsStorage.ofCount count).lanes (core .i32)) []
        [source (some (.flags l count))]
  | payload {part : Option Shape} (h : item = .payload part) :
      HasType c item .payload [] [] [.of part]
  | lowerSum (form : SumForm) (l : Label) (payloads : Parts)
      (results : List CoreType) :
      HasType c item (.lowerSum form l payloads.length results)
        [source (some (.sum l form payloads))]
        (payloads.map fun p => ⟨.payload p, results.map core⟩) (results.map core)
  | liftSum (form : SumForm) (l : Label) (payloads : Parts) :
      HasType c item (.liftSum form l payloads.length) [core .i32]
        (payloads.map fun p => ⟨.nothing, p.toList.map fun s => .of (some s)⟩)
        [source (some (.sum l form payloads))]
  | lowerEnum (l : Label) (cases : Nat) :
      HasType c item (.lowerEnum l cases) [source (some (.enum l cases))] [] [core .i32]
  | liftEnum (l : Label) (cases : Nat) :
      HasType c item (.liftEnum l cases) [core .i32] [] [source (some (.enum l cases))]
  | callCore :
      HasType c item (.callCore c.function.name c.signature) (c.signature.params.map core) []
        (c.signature.results.map core)
  | callInterface :
      HasType c item (.callInterface c.function) (c.function.params.map .of) []
        (c.function.results.map .of)
  | ret {count : Nat} (h : c.returns.length = count) : HasType c item (.ret count) c.returns [] []
  | allocate (realloc : String) (size align : UInt32) :
      HasType c item (.allocate realloc size align) [] [] [core .i32]
  | free (size align : UInt32) : HasType c item (.free size align) [core .i32] [] []
  | freeString : HasType c item .freeString [core .i32, core .i32] [] []
  | freeList (l : Label) (elem : Option Shape) :
      HasType c item (.freeList l elem) [core .i32, core .i32] [⟨.address, []⟩] []
  | freeSum (l : Label) (cases : Nat) :
      HasType c item (.freeSum l cases) [core .i32] (List.replicate cases ⟨.nothing, []⟩) []

/-- The types of registers; those of blocks that ended have none. -/
abbrev RegTypes := List (Option OperandType)

def Typed (Γ : RegTypes) (regs : List Reg) (types : List OperandType) : Prop :=
  Named Γ regs (types.map some)

theorem Typed.lt_length {Γ : RegTypes} {regs : List Reg} {types : List OperandType}
    (h : Typed Γ regs types) : ∀ r ∈ regs, r < Γ.length := by
  induction types generalizing regs with
  | nil =>
    obtain rfl := List.forall₂_nil_right_iff.mp h
    simp
  | cons t types ih =>
    obtain ⟨r, rest, hr, hrest, rfl⟩ := List.forall₂_cons_right_iff.mp h
    intro r' hr'
    rcases List.mem_cons.mp hr' with rfl | hr'
    · exact (List.getElem?_eq_some_iff.mp hr).1
    · exact ih hrest r' hr'

mutual

/-- Steps that respect types, from the types of the registers before them to those after. -/
inductive TypedSteps (c : Contract) : Item → RegTypes → List Step → RegTypes → Prop where
  | nil (item : Item) (Γ : RegTypes) : TypedSteps c item Γ [] Γ
  | exec {item : Item} {Γ Γ1 Γ' : RegTypes} {i : Instr} {args : List Reg} {blocks : List Block}
      {steps : List Step} {ins outs : List OperandType} {types : List BlockType}
      (hblocks : TypedBlocks c Γ blocks types Γ1) (hi : i.HasType c item ins types outs)
      (hargs : Typed Γ1 args ins)
      (hrest : TypedSteps c item (Γ1 ++ outs.map some) steps Γ') :
      TypedSteps c item Γ
        (.exec i args (List.range' Γ1.length outs.length) blocks :: steps) Γ'
  | scratch {item : Item} {Γ Γ' : RegTypes} (size align : UInt32) {steps : List Step}
      (hrest : TypedSteps c item (Γ ++ [some (.core .i32)]) steps Γ') :
      TypedSteps c item Γ (.scratch size align Γ.length :: steps) Γ'

/-- Each block has its type, and its registers are not used behind it. -/
inductive TypedBlocks (c : Contract) : RegTypes → List Block → List BlockType → RegTypes →
    Prop where
  | nil (Γ : RegTypes) : TypedBlocks c Γ [] [] Γ
  | cons {Γ made Γ' : RegTypes} {steps : List Step} {results : List Reg} {blocks : List Block}
      {type : BlockType} {types : List BlockType}
      (hsteps : TypedSteps c type.item Γ steps (Γ ++ made))
      (hresults : Typed (Γ ++ made) results type.results)
      (hrest : TypedBlocks c (Γ ++ List.replicate made.length none) blocks types Γ') :
      TypedBlocks c Γ (.mk steps results :: blocks) (type :: types) Γ'

end

/-! ## What the judgement entails -/

theorem Bitcast.ConvertsAll.length_eq {casts : List Bitcast} {own slots : List CoreType}
    (h : ConvertsAll casts own slots) :
    own.length = casts.length ∧ slots.length = casts.length := by
  induction h with
  | nil => exact ⟨rfl, rfl⟩
  | cons _ _ ih => exact ⟨congrArg (· + 1) ih.1, congrArg (· + 1) ih.2⟩

theorem Bitcast.ConvertsAll.eq_of_none {casts : List Bitcast} {own slots : List CoreType}
    (h : ConvertsAll casts own slots) (hnone : ∀ cast ∈ casts, cast = .none) : own = slots := by
  induction h with
  | nil => rfl
  | cons first _ ih =>
    obtain rfl := hnone _ List.mem_cons_self
    cases first
    rw [ih fun cast hc => hnone cast (List.mem_cons_of_mem _ hc)]

theorem Bitcast.converts_up {a b : CoreType} (h : a.join b = b) :
    Converts (Bitcast.total a b) a b := by
  cases a <;> cases b <;> first | constructor | exact absurd h (by decide)

theorem Bitcast.converts_down {a b : CoreType} (h : a.join b = b) :
    Converts (Bitcast.total b a) b a := by
  cases a <;> cases b <;> first | constructor | exact absurd h (by decide)

theorem Bitcast.convertsAll_up : {own slots : List CoreType} → FitSlots own slots →
    ConvertsAll (castsBetween own slots) own (slots.take own.length)
  | [], _, _ => .nil
  | _ :: _, _ :: _, h => .cons (converts_up h.1) (convertsAll_up h.2)

theorem Bitcast.convertsAll_down : {own slots : List CoreType} → FitSlots own slots →
    ConvertsAll (castsBetween (slots.take own.length) own) (slots.take own.length) own
  | [], _, _ => .nil
  | _ :: _, _ :: _, h => .cons (converts_down h.1) (convertsAll_down h.2)

namespace Instr

variable {c : Contract} {item : Item} {i : Instr} {ins outs : List OperandType}
  {types : List BlockType}

theorem HasType.length_operands (h : i.HasType c item ins types outs) :
    ins.length = i.operands := by
  cases h with
  | bitcasts h => simp [operands, h.length_eq.1]
  | ret h => exact h
  | _ => simp [operands]

theorem HasType.length_results (h : i.HasType c item ins types outs) :
    outs.length = i.results := by
  cases h with
  | bitcasts h => simp [results, h.length_eq.2]
  | _ => simp [results]

theorem HasType.length_blocks (h : i.HasType c item ins types outs) :
    types.length = i.blocks := by
  cases h with
  | _ => simp [blocks]

end Instr

mutual

theorem TypedSteps.extends {c : Contract} {item : Item} {Γ Γ' : RegTypes} {steps : List Step} :
    TypedSteps c item Γ steps Γ' → Γ <+: Γ'
  | .nil _ _ => List.prefix_refl _
  | .exec hblocks _ _ hrest =>
    hblocks.extends.trans ((List.prefix_append _ _).trans hrest.extends)
  | .scratch _ _ hrest => (List.prefix_append _ _).trans hrest.extends

theorem TypedBlocks.extends {c : Contract} {Γ Γ' : RegTypes} {blocks : List Block}
    {types : List BlockType} : TypedBlocks c Γ blocks types Γ' → Γ <+: Γ'
  | .nil _ => List.prefix_refl _
  | .cons _ _ hrest => (List.prefix_append _ _).trans hrest.extends

end

theorem TypedBlocks.length_eq {c : Contract} {Γ Γ' : RegTypes} {blocks : List Block}
    {types : List BlockType} : TypedBlocks c Γ blocks types Γ' → blocks.length = types.length
  | .nil _ => rfl
  | .cons _ _ hrest => congrArg (· + 1) hrest.length_eq

theorem TypedSteps.append {c : Contract} {item : Item} {Γ Γ1 Γ2 : RegTypes} {ss ts : List Step} :
    TypedSteps c item Γ ss Γ1 → TypedSteps c item Γ1 ts Γ2 → TypedSteps c item Γ (ss ++ ts) Γ2
  | .nil _ _, ht => ht
  | .exec hblocks hi hargs hrest, ht => .exec hblocks hi hargs (hrest.append ht)
  | .scratch size align hrest, ht => .scratch size align (hrest.append ht)

end CanonicalAbi
