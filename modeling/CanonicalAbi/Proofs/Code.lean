import CanonicalAbi.Machine.Program
import CanonicalAbi.Proofs.Joins

/-!
# Streams as code

What a generator makes does not depend on the backend: the operands only name each other. If they
are numbered in the order in which they are made, the stream becomes a piece of code over registers,
and it is a function of the shape alone.
-/

namespace CanonicalAbi

theorem range_append_range' (m n : Nat) :
    List.range m ++ List.range' m n = List.range (m + n) := by
  rw [List.range_eq_range', List.range_eq_range', ← List.range'_append_1, Nat.zero_add]

/-- What code writes: its steps, its result and the next free register. -/
structure Written (β : Type) where
  steps : List Step
  value : β
  next : Reg

/-- Code that is written from any free register on. -/
structure Code (β : Type) where
  run : Reg → Written β
  grows : ∀ k, k ≤ (run k).next

namespace Code

instance : Monad Code where
  pure a := ⟨fun k => ⟨[], a, k⟩, Nat.le_refl⟩
  bind x f := ⟨fun k =>
    ⟨(x.run k).steps ++ ((f (x.run k).value).run (x.run k).next).steps,
      ((f (x.run k).value).run (x.run k).next).value,
      ((f (x.run k).value).run (x.run k).next).next⟩,
    fun k => Nat.le_trans (x.grows k) ((f _).grows _)⟩

variable {β γ : Type}

@[simp] theorem run_pure (a : β) (k : Reg) : (pure a : Code β).run k = ⟨[], a, k⟩ := rfl

@[simp] theorem bind_steps (x : Code β) (f : β → Code γ) (k : Reg) :
    ((x >>= f).run k).steps
      = (x.run k).steps ++ ((f (x.run k).value).run (x.run k).next).steps := rfl

@[simp] theorem bind_value (x : Code β) (f : β → Code γ) (k : Reg) :
    ((x >>= f).run k).value = ((f (x.run k).value).run (x.run k).next).value := rfl

@[simp] theorem bind_next (x : Code β) (f : β → Code γ) (k : Reg) :
    ((x >>= f).run k).next = ((f (x.run k).value).run (x.run k).next).next := rfl

theorem ext_run {x y : Code β} (h : ∀ k, x.run k = y.run k) : x = y := by
  cases x
  cases y
  congr
  exact funext h

instance : LawfulMonad Code := LawfulMonad.mk' Code
  (fun x => ext_run fun k => by
    change (⟨(x.run k).steps ++ [], (x.run k).value, (x.run k).next⟩ : Written _) = x.run k
    rw [List.append_nil])
  (fun _ _ => rfl)
  (fun x f g => ext_run fun k => by
    change (⟨_, _, _⟩ : Written _) = ⟨_, _, _⟩
    simp only [bind_steps, bind_value, bind_next, List.append_assoc])

/-! ## Single steps -/

def own (i : Instr) (args : List Reg) (blocks : List Block) : Code (List Reg) := ⟨fun k =>
  ⟨[.exec i args (List.range' k i.results) blocks], List.range' k i.results, k + i.results⟩,
  fun _ => Nat.le_add_right _ _⟩

def emit (i : Instr) (args : List Reg) : Code (List Reg) := own i args []

def emitOne (i : Instr) (args : List Reg) : Code Reg := do return (← emit i args).headD 0

def emitNone (i : Instr) (args : List Reg) : Code Unit := do
  let _ ← emit i args

def scratch (size align : UInt32) : Code Reg :=
  ⟨fun k => ⟨[.scratch size align k], k, k + 1⟩, fun _ => Nat.le_add_right _ _⟩

def block (body : Code (List Reg)) : Code Block := ⟨fun k =>
  ⟨[], .mk (body.run k).steps (body.run k).value, (body.run k).next⟩, body.grows⟩

def store (op : StoreOp) (value addr : Reg) (offset : UInt32) : Code Unit :=
  emitNone (.store op offset) [value, addr]

def load (op : LoadOp) (addr : Reg) (offset : UInt32) : Code Reg :=
  emitOne (.load op offset) [addr]

def storePair (pair : List Reg) (addr : Reg) (offset : UInt32) : Code Unit := do
  store .i32 (pair.getD 1 0) addr (offset + 4)
  store .i32 (pair.getD 0 0) addr offset

def loadPair (addr : Reg) (offset : UInt32) : Code (List Reg) := do
  let ptr ← load .i32 addr offset
  let length ← load .i32 addr (offset + 4)
  return [ptr, length]

def castSlots (source target : List CoreType) (regs : List Reg) : Code (List Reg) :=
  if (castsBetween source target).any (· ≠ .none) then
    emit (.bitcasts (castsBetween source target)) regs
  else return regs

/-! ## Lowering -/

section Lower

variable (raw : RawRule) (realloc : String)

/-- A list lowered, whose elements `write` stores. -/
def lowerList (l : Label) (elem : Option Shape) (write : Reg → Reg → Code Unit) (r : Reg) :
    Code (List Reg) :=
  if raw elem then emit (.lowerBytes l elem realloc) [r]
  else do
    let body ← block do
      let value ← emitOne (.iterElem elem) []
      let addr ← emitOne .iterBase []
      write value addr
      return []
    own (.lowerList l elem realloc) [r] [body]

def padZeros (types : List CoreType) : Code (List Reg) :=
  if types.isEmpty then return [] else emit (.constZero types) []

def storeLanes (addr : Reg) (offset : UInt32) : List Reg → Code Unit
  | [] => return
  | lane :: lanes => do
    store .i32 lane addr offset
    storeLanes addr (offset + 4) lanes

def storeFlags (count : Nat) (regs : List Reg) (addr : Reg) (offset : UInt32) : Code Unit :=
  if (FlagsStorage.ofCount count).unit = .u32 then storeLanes addr offset regs
  else store (FlagsStorage.ofCount count).unit.storeOp (regs.headD 0) addr offset

mutual

def lower : Shape → Reg → Code (List Reg)
  | .scalar s, r => emit (.lowerScalar s) [r]
  | .string, r => emit (.lowerString realloc) [r]
  | .product l form fields, r => do
    let values ← emit (.lowerProduct form l fields.length) [r]
    lowerFields fields values
  | .sum l form payloads, r => do
    let blocks ← lowerCases (flatSum (payloadSlots payloads)).tail 0 payloads
    own (.lowerSum form l payloads.length (flatSum (payloadSlots payloads))) [r] blocks
  | .enum l cases, r => emit (.lowerEnum l cases) [r]
  | .flags l count, r => emit (.lowerFlags l count) [r]
  | .list l elem, r => lowerList raw realloc l elem (fun value addr => write? elem value addr 0) r
  | .handle l form resource, r => emit (.lowerHandle form l resource) [r]
  | .synonym _ target, r => lower? target r
  | .channel _ _, _ | .resource _, _ | .unfinished _, _ => return []

def lower? : Option Shape → Reg → Code (List Reg)
  | none, _ => return []
  | some s, r => lower s r

def lowerFields : Parts → List Reg → Code (List Reg)
  | s :: shapes, r :: rs => do
    let first ← lower? s r
    let rest ← lowerFields shapes rs
    return first ++ rest
  | _, _ => return []

/-- The case of number `index`, for the shared slots `slots`. -/
def lowerCase (slots : List CoreType) (index : Nat) : Option Shape → Code (List Reg)
  | none => do
    let _ ← emitOne .payload []
    let tag ← emitOne (.i32Const (.ofNat index)) []
    let zeros ← padZeros slots
    return tag :: zeros
  | some p => do
    let value ← emitOne .payload []
    let tag ← emitOne (.i32Const (.ofNat index)) []
    let flat ← lower p value
    let cast ← castSlots p.slots slots flat
    let zeros ← padZeros (slots.drop p.slots.length)
    return tag :: (cast ++ zeros)

/-- The blocks of the cases from number `index` on. -/
def lowerCases (slots : List CoreType) (index : Nat) : Parts → Code (List Block)
  | [] => return []
  | p :: payloads => do
    let first ← block (lowerCase slots index p)
    let rest ← lowerCases slots (index + 1) payloads
    return first :: rest

def write : Shape → Reg → Reg → UInt32 → Code Unit
  | .scalar s, r, addr, offset => do
    let value ← emitOne (.lowerScalar s) [r]
    store s.storeOp value addr offset
  | .string, r, addr, offset => do
    let pair ← emit (.lowerString realloc) [r]
    storePair pair addr offset
  | .product l form fields, r, addr, offset => do
    let values ← emit (.lowerProduct form l fields.length) [r]
    writeFields fields values (placedOffsets fields) addr offset
  | .sum l form payloads, r, addr, offset => do
    let blocks ← writeCases (tagWidth payloads.length) addr offset
      (offset + placedPayload payloads) 0 payloads
    let _ ← own (.lowerSum form l payloads.length []) [r] blocks
  | .enum l cases, r, addr, offset => do
    let value ← emitOne (.lowerEnum l cases) [r]
    store (tagWidth cases).storeOp value addr offset
  | .flags l count, r, addr, offset => do
    let lanes ← emit (.lowerFlags l count) [r]
    storeFlags count lanes addr offset
  | .list l elem, r, addr, offset => do
    let pair ← lowerList raw realloc l elem (fun value addr => write? elem value addr 0) r
    storePair pair addr offset
  | .handle l form resource, r, addr, offset => do
    let value ← emitOne (.lowerHandle form l resource) [r]
    store .i32 value addr offset
  | .synonym _ target, r, addr, offset => write? target r addr offset
  | .channel _ _, _, _, _ | .resource _, _, _, _ | .unfinished _, _, _, _ => return

def write? : Option Shape → Reg → Reg → UInt32 → Code Unit
  | none, _, _, _ => return
  | some s, r, addr, offset => write s r addr offset

/-- Values of several types, each stored at its own offset from `offset`. -/
def writeFields : Parts → List Reg → List UInt32 → Reg → UInt32 → Code Unit
  | s :: shapes, r :: rs, o :: offsets, addr, offset => do
    write? s r addr (offset + o)
    writeFields shapes rs offsets addr offset
  | _, _, _, _, _ => return

/-- The case of number `index`, its payload stored at `start`. -/
def writeCase (tag : IntWidth) (addr : Reg) (offset start : UInt32) (index : Nat) :
    Option Shape → Code (List Reg)
  | none => do
    let _ ← emitOne .payload []
    let number ← emitOne (.i32Const (.ofNat index)) []
    store tag.storeOp number addr offset
    return []
  | some p => do
    let value ← emitOne .payload []
    let number ← emitOne (.i32Const (.ofNat index)) []
    store tag.storeOp number addr offset
    write p value addr start
    return []

/-- The blocks of the cases from number `index` on. -/
def writeCases (tag : IntWidth) (addr : Reg) (offset start : UInt32) (index : Nat) :
    Parts → Code (List Block)
  | [] => return []
  | p :: payloads => do
    let first ← block (writeCase tag addr offset start index p)
    let rest ← writeCases tag addr offset start (index + 1) payloads
    return first :: rest

end

end Lower

/-! ## Lifting -/

section Lift

variable (raw : RawRule)

/-- A list lifted, whose elements `read` makes. -/
def liftList (l : Label) (elem : Option Shape) (read : Reg → Code Reg) (pair : List Reg) :
    Code Reg :=
  if raw elem then emitOne (.liftBytes l elem) pair
  else do
    let body ← block do
      let addr ← emitOne .iterBase []
      let value ← read addr
      return [value]
    let outs ← own (.liftList l elem) pair [body]
    return outs.headD 0

def loadLanes (addr : Reg) (offset : UInt32) : Nat → Code (List Reg)
  | 0 => return []
  | lanes + 1 => do
    let lane ← load .i32 addr offset
    let rest ← loadLanes addr (offset + 4) lanes
    return lane :: rest

def loadFlags (count : Nat) (addr : Reg) (offset : UInt32) : Code (List Reg) :=
  if (FlagsStorage.ofCount count).unit = .u32 then
    loadLanes addr offset (FlagsStorage.ofCount count).lanes
  else do
    let lane ← load (FlagsStorage.ofCount count).unit.loadOp addr offset
    return [lane]

mutual

def lift : Shape → List Reg → Code Reg
  | .scalar s, rs => emitOne (.liftScalar s) rs
  | .string, rs => emitOne .liftString rs
  | .product l form fields, rs => do
    let values ← liftFields fields rs
    emitOne (.liftProduct form l fields.length) values
  | .sum l form payloads, rs => do
    let blocks ← liftCases (flatSum (payloadSlots payloads)).tail rs.tail payloads
    let outs ← own (.liftSum form l payloads.length) [rs.headD 0] blocks
    return outs.headD 0
  | .enum l cases, rs => emitOne (.liftEnum l cases) rs
  | .flags l count, rs => emitOne (.liftFlags l count) rs
  | .list l elem, rs => liftList raw l elem (fun addr => read? elem addr 0) rs
  | .handle l form resource, rs => emitOne (.liftHandle form l resource) rs
  | .synonym _ target, rs => lift? target rs
  | .channel _ _, _ | .resource _, _ | .unfinished _, _ => return 0

def lift? : Option Shape → List Reg → Code Reg
  | none, _ => return 0
  | some s, rs => lift s rs

/-- Values of several types, each lifted from its own core values. -/
def liftFields : Parts → List Reg → Code (List Reg)
  | [], _ => return []
  | s :: shapes, rs => do
    let first ← lift? s (rs.take (slots? s).length)
    let rest ← liftFields shapes (rs.drop (slots? s).length)
    return first :: rest

/-- A case, for the shared slots `slots` in some registers. -/
def liftCase (slots : List CoreType) (rs : List Reg) : Option Shape → Code (List Reg)
  | none => return []
  | some p => do
    let flat ← castSlots (slots.take p.slots.length) p.slots (rs.take p.slots.length)
    let value ← lift p flat
    return [value]

def liftCases (slots : List CoreType) (rs : List Reg) : Parts → Code (List Block)
  | [] => return []
  | p :: payloads => do
    let first ← block (liftCase slots rs p)
    let rest ← liftCases slots rs payloads
    return first :: rest

def read : Shape → Reg → UInt32 → Code Reg
  | .scalar s, addr, offset => do
    let flat ← load s.loadOp addr offset
    emitOne (.liftScalar s) [flat]
  | .string, addr, offset => do
    let pair ← loadPair addr offset
    emitOne .liftString pair
  | .product l form fields, addr, offset => do
    let values ← readFields fields (placedOffsets fields) addr offset
    emitOne (.liftProduct form l fields.length) values
  | .sum l form payloads, addr, offset => do
    let tag ← load (tagWidth payloads.length).loadOp addr offset
    let blocks ← readCases addr (offset + placedPayload payloads) payloads
    let outs ← own (.liftSum form l payloads.length) [tag] blocks
    return outs.headD 0
  | .enum l cases, addr, offset => do
    let flat ← load (tagWidth cases).loadOp addr offset
    emitOne (.liftEnum l cases) [flat]
  | .flags l count, addr, offset => do
    let lanes ← loadFlags count addr offset
    emitOne (.liftFlags l count) lanes
  | .list l elem, addr, offset => do
    let pair ← loadPair addr offset
    liftList raw l elem (fun addr => read? elem addr 0) pair
  | .handle l form resource, addr, offset => do
    let flat ← load .i32 addr offset
    emitOne (.liftHandle form l resource) [flat]
  | .synonym _ target, addr, offset => read? target addr offset
  | .channel _ _, _, _ | .resource _, _, _ | .unfinished _, _, _ => return 0

def read? : Option Shape → Reg → UInt32 → Code Reg
  | none, _, _ => return 0
  | some s, addr, offset => read s addr offset

/-- Stored values of several types, each at its own offset from `offset`. -/
def readFields : Parts → List UInt32 → Reg → UInt32 → Code (List Reg)
  | s :: shapes, o :: offsets, addr, offset => do
    let first ← read? s addr (offset + o)
    let rest ← readFields shapes offsets addr offset
    return first :: rest
  | _, _, _, _ => return []

/-- A case, whose payload is stored at `start`. -/
def readCase (addr : Reg) (start : UInt32) : Option Shape → Code (List Reg)
  | none => return []
  | some p => do
    let value ← read p addr start
    return [value]

def readCases (addr : Reg) (start : UInt32) : Parts → Code (List Block)
  | [] => return []
  | p :: payloads => do
    let first ← block (readCase addr start p)
    let rest ← readCases addr start payloads
    return first :: rest

end

end Lift

/-! ## Freeing -/

mutual

def free : Shape → Reg → UInt32 → Code Unit
  | .string, addr, offset => do
    let pair ← loadPair addr offset
    emitNone .freeString pair
  | .list l elem, addr, offset => do
    let pair ← loadPair addr offset
    let body ← block do
      if ownsMemory? elem then
        let base ← emitOne .iterBase []
        free? elem base 0
      return []
    let _ ← own (.freeList l elem) pair [body]
  | .product _ _ fields, addr, offset => freeFields fields (placedOffsets fields) addr offset
  | .sum l _ payloads, addr, offset =>
    if anyOwnsMemory payloads then do
      let tag ← load (tagWidth payloads.length).loadOp addr offset
      let blocks ← freeCases addr (offset + placedPayload payloads) payloads
      let _ ← own (.freeSum l payloads.length) [tag] blocks
    else return
  | .synonym _ target, addr, offset => free? target addr offset
  | .scalar _, _, _ | .enum _ _, _, _ | .flags _ _, _, _ | .handle _ _ _, _, _
  | .channel _ _, _, _ | .resource _, _, _ | .unfinished _, _, _ => return

def free? : Option Shape → Reg → UInt32 → Code Unit
  | none, _, _ => return
  | some s, addr, offset => free s addr offset

def freeFields : Parts → List UInt32 → Reg → UInt32 → Code Unit
  | s :: shapes, o :: offsets, addr, offset => do
    if ownsMemory? s then free? s addr (offset + o)
    freeFields shapes offsets addr offset
  | _, _, _, _ => return

/-- The blocks of the cases, whose payloads are stored at `start`. -/
def freeCases (addr : Reg) (start : UInt32) : Parts → Code (List Block)
  | [] => return []
  | p :: payloads => do
    let first ← block do
      if ownsMemory? p then free? p addr start
      return []
    let rest ← freeCases addr start payloads
    return first :: rest

end

end Code

/-! ## Calls -/

def FunctionShape.coreSignature (dir : Direction) (f : FunctionShape) : CoreSignature :=
  .ofFlat dir (fieldSlots f.params) (fieldSlots f.results)

/-- The layout of the area that a passable function's parameters take in memory. -/
def FunctionShape.paramArea (f : FunctionShape) : Layout := .product (fieldPlaces f.params)

/-- The layout of the area that a passable function's results take in memory. -/
def FunctionShape.resultArea (f : FunctionShape) : Layout := .product (fieldPlaces f.results)

namespace Code

section Call

variable (raw : RawRule) (g : Generator)

/-- Arguments from number `index` on, lowered one after another. -/
def lowerParams (index : Nat) : Parts → Code (List Reg)
  | [] => return []
  | s :: shapes => do
    let arg ← emitOne (.getArg index) []
    let first ← lower? raw g.loweringAllocator s arg
    let rest ← lowerParams (index + 1) shapes
    return first ++ rest

/-- Arguments from number `index` on, stored at their offsets from an address. -/
def writeParams (addr : Reg) (index : Nat) : Parts → List UInt32 → Code Unit
  | s :: shapes, o :: offsets => do
    let arg ← emitOne (.getArg index) []
    write? raw g.loweringAllocator s arg addr o
    writeParams addr (index + 1) shapes offsets
  | _, _ => return

def paramPointer (f : FunctionShape) : Code Reg :=
  match g.dir with
  | .imported => scratch f.paramArea.size f.paramArea.align
  | .exported => emitOne (.allocate g.allocator f.paramArea.size f.paramArea.align) []

def lowerArgValues (f : FunctionShape) : Code (List Reg) :=
  if (f.coreSignature g.dir).indirectParams then do
    let addr ← paramPointer g f
    writeParams raw g addr 0 f.params f.paramArea.offsets
    return [addr]
  else lowerParams raw g 0 f.params

/-- The core values of the parameters and, if the caller provides it, the pointer for results. -/
def lowerArgs (f : FunctionShape) : Code (List Reg × Option Reg) := do
  let flat ← lowerArgValues raw g f
  if (f.coreSignature g.dir).returnPointer.isSome && g.dir = .imported then
    let addr ← scratch f.resultArea.size f.resultArea.align
    return (flat ++ [addr], some addr)
  else return (flat, none)

/-- The results, lifted from memory or from what the core function returned. -/
def liftResults (f : FunctionShape) (provided : Option Reg) (returned : List Reg) : Code Unit := do
  let values ←
    if (f.coreSignature g.dir).returnPointer.isSome then
      readFields raw f.results (placedOffsets f.results) (provided.getD (returned.headD 0)) 0
    else liftFields raw f.results returned
  emitNone (.ret f.results.length) values

/-- Core arguments, `count` of them from number `index` on. -/
def getArgs (index : Nat) : Nat → Code (List Reg)
  | 0 => return []
  | count + 1 => do
    let first ← emitOne (.getArg index) []
    let rest ← getArgs (index + 1) count
    return first :: rest

/-- Parameters lifted one after another from the core arguments from number `index` on. -/
def liftParams (index : Nat) : Parts → Code (List Reg)
  | [] => return []
  | s :: shapes => do
    let flat ← getArgs index (slots? s).length
    let first ← lift? raw s flat
    let rest ← liftParams (index + (slots? s).length) shapes
    return first :: rest

/-- The arguments, lifted from memory or from the core arguments. -/
def liftArgs (f : FunctionShape) : Code (List Reg) :=
  if (f.coreSignature g.dir).indirectParams then do
    let addr ← emitOne (.getArg 0) []
    let values ← readFields raw f.params f.paramArea.offsets addr 0
    if g.dir = .exported then
      emitNone (.free f.paramArea.size f.paramArea.align) [addr]
    return values
  else liftParams raw 0 f.params

def lowerResults (f : FunctionShape) (values : List Reg) : Code Unit :=
  if (f.coreSignature g.dir).returnPointer.isSome then
    match g.dir with
    | .imported => do
      let addr ← emitOne (.getArg ((f.coreSignature g.dir).params.length - 1)) []
      writeFields raw g.loweringAllocator f.results values f.resultArea.offsets addr 0
      emitNone (.ret 0) []
    | .exported => do
      let addr ← scratch f.resultArea.size f.resultArea.align
      writeFields raw g.loweringAllocator f.results values f.resultArea.offsets addr 0
      emitNone (.ret 1) [addr]
  else do
    let flat ← lowerFields raw g.loweringAllocator f.results values
    emitNone (.ret (f.coreSignature g.dir).results.length) flat

def call (f : FunctionShape) : Code Unit :=
  match g.mode with
  | .lowerArgs => do
    let args ← lowerArgs raw g f
    let returned ← emit (.callCore f.name (f.coreSignature g.dir)) args.1
    liftResults raw g f args.2 returned
  | .liftArgs => do
    let args ← liftArgs raw g f
    let values ← emit (.callInterface f) args
    lowerResults raw g f values
  | .neither => return

def postReturn (f : FunctionShape) : Code Unit := do
  if (f.coreSignature .exported).returnPointer.isSome then
    let addr ← emitOne (.getArg 0) []
    freeFields f.results (placedOffsets f.results) addr 0
  emitNone (.ret 0) []

end Call

end Code

theorem FunctionShape.signature_eq {f : FunctionShape} (dir : Direction)
    (hp : FieldsPassable f.params) (hr : FieldsPassable f.results) :
    f.signature dir = .ok (f.coreSignature dir) := by
  rw [signature, flatFields_eq hp, flatFields_eq hr]
  rfl

/-- The core types of the parameters as they are passed, without a pointer for results. -/
def FunctionShape.passedParams (f : FunctionShape) (dir : Direction) : List CoreType :=
  if (f.coreSignature dir).indirectParams then [.i32] else fieldSlots f.params

theorem FunctionShape.coreSignature_params (f : FunctionShape) (dir : Direction) :
    (f.coreSignature dir).params = f.passedParams dir
      ++ if (f.coreSignature dir).returnPointer.isSome && dir = .imported then [.i32] else [] := by
  simp only [passedParams, coreSignature, CoreSignature.ofFlat]
  split
  · simp
  · cases dir <;> simp

theorem FunctionShape.coreSignature_results (f : FunctionShape) (dir : Direction) :
    (f.coreSignature dir).results =
      if (f.coreSignature dir).returnPointer.isSome then
        if dir = .imported then [] else [.i32]
      else fieldSlots f.results := by
  simp only [coreSignature, CoreSignature.ofFlat]
  split
  · simp
  · cases dir <;> simp

end CanonicalAbi
