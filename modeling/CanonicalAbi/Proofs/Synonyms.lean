import CanonicalAbi.Proofs.Passage

/-!
# Synonyms make no difference

Every recursion on types passes through synonyms. What it makes of a type is therefore what it makes
of the type without them.
-/

namespace CanonicalAbi

/-! ## Recorded streams -/

namespace Program

variable (raw : RawRule) (g : Generator) {f : FunctionShape}

/-- What is recorded of one half of a call. -/
def ofCall (f : FunctionShape) : Except Failure Program :=
  record f g.dir g.mode (Gen.call (Recording.backend raw) g f)

/-- What is recorded of the function that frees results. -/
def ofPostReturn (f : FunctionShape) : Except Failure Program :=
  record f g.dir g.mode (Gen.postReturn (Recording.backend raw) g f)

theorem ofPostReturn_refused (hg : g.dir ≠ .exported) :
    ofPostReturn raw g f
      = .error (.invalidInput .generate "post-return only exists for exports") := by
  rw [ofPostReturn, Gen.postReturn, Gen.freeResults, if_pos hg]
  rfl

variable (hf : f.Passable)

include hf

theorem ofCall_eq : ofCall raw g f = .ok ((Code.call raw g f).program f g.dir g.mode) :=
  ofWork_eq raw _ (Gen.half_scans g hf).1 _ _

theorem ofPostReturn_eq (hg : g.dir = .exported) :
    ofPostReturn raw g f = .ok ((Code.postReturn f).program f g.dir g.mode) :=
  ofWork_eq raw _ (Gen.freeResults_writes g hg hf) _ _

end Program

/-! ## Types without synonyms -/

theorem toOption_bind {ε α β : Type} (x : Except ε α) (f : α → Except ε β) :
    (x >>= f).toOption = x.toOption.bind fun a => (f a).toOption := by
  cases x <;> rfl

theorem toOption_map {ε α β : Type} (x : Except ε α) (f : α → β) :
    (f <$> x).toOption = x.toOption.map f := by
  cases x <;> rfl

/-- How a type is labelled once the synonyms in it are gone, by which it may have been spelled. -/
class Relabels where
  relabel : Label → Label

section Bare

variable [Relabels]

open Relabels

mutual

/-- The shape in which each synonym, at any depth, is replaced by its target. -/
def Shape.bare : Shape → Shape
  | .product l form fields => .product (relabel l) form (bareParts fields)
  | .sum l form payloads => .sum (relabel l) form (bareParts payloads)
  | .list l elem => .list (relabel l) (bare? elem)
  | .synonym l target => (bare? target).getD (.unfinished (relabel l))
  | .scalar s => .scalar s
  | .string => .string
  | .enum l cases => .enum (relabel l) cases
  | .flags l count => .flags (relabel l) count
  | .handle l form resource => .handle (relabel l) form (resource.map relabel)
  | .channel l form => .channel (relabel l) form
  | .resource l => .resource (relabel l)
  | .unfinished l => .unfinished (relabel l)

def bare? : Option Shape → Option Shape
  | none => none
  | some s => some s.bare

def bareParts : Parts → Parts
  | [] => []
  | s :: ss => bare? s :: bareParts ss

end

/-- The function without synonyms. -/
def FunctionShape.bare (f : FunctionShape) : FunctionShape :=
  ⟨f.name, bareParts f.params, bareParts f.results⟩

/-- All that is asked about a shape has the same answer. -/
structure Shape.Alike (s s' : Shape) : Prop where
  slots : s.slots = s'.slots
  place : s.place = s'.place
  owns : s.ownsMemory = s'.ownsMemory
  raw : s.isRaw = s'.isRaw
  flat : s.flat.toOption = s'.flat.toOption
  layout : s.layout.toOption = s'.layout.toOption
  passable : s.Passable = s'.Passable

/-- Parts that differ in nothing that generation asks for. -/
structure PartsAlike (ss ss' : Parts) : Prop where
  length : ss.length = ss'.length
  fieldSlots : fieldSlots ss = fieldSlots ss'
  payloadSlots : payloadSlots ss = payloadSlots ss'
  fieldPlaces : fieldPlaces ss = fieldPlaces ss'
  payloadPlaces : payloadPlaces ss = payloadPlaces ss'
  owns : anyOwnsMemory ss = anyOwnsMemory ss'
  raw : areRaw ss = areRaw ss'
  flatFields : (flatFields ss).toOption = (flatFields ss').toOption
  flatPayloads : (flatPayloads ss).toOption = (flatPayloads ss').toOption
  fieldLayouts : (fieldLayouts ss).toOption = (fieldLayouts ss').toOption
  payloadLayouts : (payloadLayouts ss).toOption = (payloadLayouts ss').toOption
  fields : FieldsPassable ss = FieldsPassable ss'
  payloads : PayloadsPassable ss = PayloadsPassable ss'

mutual

theorem Shape.bare_alike : ∀ s : Shape, s.bare.Alike s
  | .product _ _ fields => by
    cases bareParts_alike fields
    constructor <;> simp [Shape.bare, Shape.slots, Shape.place, Shape.ownsMemory, Shape.isRaw,
      Shape.flat, Shape.layout, Shape.Passable, toOption_map, *]
  | .sum _ _ payloads => by
    cases bareParts_alike payloads
    constructor <;> simp [Shape.bare, Shape.slots, Shape.place, Shape.ownsMemory, Shape.isRaw,
      Shape.flat, Shape.layout, Shape.Passable, toOption_map, *]
  | .synonym _ (some t) =>
    let h := t.bare_alike
    ⟨h.slots, h.place, h.owns, h.raw, h.flat, h.layout, h.passable⟩
  | .list _ (some t) => ⟨rfl, rfl, rfl, rfl, rfl, rfl, t.bare_alike.passable⟩
  | .list _ none | .synonym _ none | .scalar _ | .string | .enum _ _ | .flags _ _ | .handle _ _ _
  | .channel _ _ | .resource _ | .unfinished _ => ⟨rfl, rfl, rfl, rfl, rfl, rfl, rfl⟩

theorem bareParts_alike : ∀ ss, PartsAlike (bareParts ss) ss
  | [] => ⟨rfl, rfl, rfl, rfl, rfl, rfl, rfl, rfl, rfl, rfl, rfl, rfl, rfl⟩
  | none :: ss => by
    cases bareParts_alike ss
    constructor <;> simp [bareParts, bare?, fieldSlots, payloadSlots, fieldPlaces, payloadPlaces,
      anyOwnsMemory, areRaw, flatFields, flatPayloads, fieldLayouts, payloadLayouts,
      FieldsPassable, PayloadsPassable, toOption_bind, toOption_map, *]
  | some s :: ss => by
    cases bareParts_alike ss
    cases s.bare_alike
    constructor <;> simp [bareParts, bare?, fieldSlots, payloadSlots, fieldPlaces, payloadPlaces,
      anyOwnsMemory, areRaw, flatFields, flatPayloads, fieldLayouts, payloadLayouts,
      FieldsPassable, PayloadsPassable, toOption_bind, toOption_map, slots?, place?, ownsMemory?,
      isRaw?, flat?, optLayout, Passable?, *]

end

theorem slots?_bare : ∀ s, slots? (bare? s) = slots? s
  | none => rfl
  | some s => s.bare_alike.slots

theorem isRaw?_bare : ∀ s, isRaw? (bare? s) = isRaw? s
  | none => rfl
  | some s => s.bare_alike.raw

theorem ownsMemory?_bare : ∀ s, ownsMemory? (bare? s) = ownsMemory? s
  | none => rfl
  | some s => s.bare_alike.owns

/-! ## Code without synonyms -/

/-- The same instruction on types without synonyms. -/
def Instr.bare : Instr → Instr
  | lowerHandle form l resource => lowerHandle form (relabel l) (resource.map relabel)
  | liftHandle form l resource => liftHandle form (relabel l) (resource.map relabel)
  | lowerBytes l elem realloc => lowerBytes (relabel l) (bare? elem) realloc
  | liftBytes l elem => liftBytes (relabel l) (bare? elem)
  | lowerList l elem realloc => lowerList (relabel l) (bare? elem) realloc
  | liftList l elem => liftList (relabel l) (bare? elem)
  | iterElem elem => iterElem (bare? elem)
  | lowerProduct form l fields => lowerProduct form (relabel l) fields
  | liftProduct form l fields => liftProduct form (relabel l) fields
  | lowerFlags l count => lowerFlags (relabel l) count
  | liftFlags l count => liftFlags (relabel l) count
  | lowerSum form l cases results => lowerSum form (relabel l) cases results
  | liftSum form l cases => liftSum form (relabel l) cases
  | lowerEnum l cases => lowerEnum (relabel l) cases
  | liftEnum l cases => liftEnum (relabel l) cases
  | callInterface f => callInterface f.bare
  | freeList l elem => freeList (relabel l) (bare? elem)
  | freeSum l cases => freeSum (relabel l) cases
  | i => i

@[simp] theorem Instr.results_bare (i : Instr) : i.bare.results = i.results := by
  cases i <;> simp [bare, results, FunctionShape.bare, (bareParts_alike _).length]

mutual

/-- The same step on the same registers, its instruction and blocks without synonyms. -/
def Step.bare : Step → Step
  | .exec i args outs blocks => .exec i.bare args outs (bareBlocks blocks)
  | .scratch size align out => .scratch size align out

def Block.bare : Block → Block
  | .mk steps results => .mk (bareSteps steps) results

def bareSteps : List Step → List Step
  | [] => []
  | s :: ss => s.bare :: bareSteps ss

def bareBlocks : List Block → List Block
  | [] => []
  | b :: bs => b.bare :: bareBlocks bs

end

theorem bareSteps_append (ss ss' : List Step) :
    bareSteps (ss ++ ss') = bareSteps ss ++ bareSteps ss' := by
  induction ss with
  | nil => rfl
  | cons s ss ih => simp [bareSteps, ih]

namespace Code

variable {β γ : Type}

/-- The same code without synonyms. -/
def bare (x : Code β) : Code β :=
  ⟨fun k => ⟨bareSteps (x.run k).steps, (x.run k).value, (x.run k).next⟩, x.grows⟩

@[simp] theorem bare_pure (a : β) : (pure a : Code β).bare = pure a := rfl

@[simp] theorem bare_bind (x : Code β) (f : β → Code γ) :
    (x >>= f).bare = x.bare >>= fun a => (f a).bare := by
  refine ext_run fun k => ?_
  change (⟨_, _, _⟩ : Written _) = ⟨_, _, _⟩
  simp only [bind_steps, bind_value, bind_next, bareSteps_append]
  rfl

theorem bare_after {x x' : Code β} {f f' : β → Code γ} (hx : x.bare = x')
    (hf : ∀ a, (f a).bare = f' a) : (x >>= f).bare = x' >>= f' := by
  rw [bare_bind, hx]
  exact congrArg _ (funext hf)

@[simp] theorem bare_map (x : Code β) (f : β → γ) : (f <$> x).bare = f <$> x.bare := by
  rw [map_eq_pure_bind, map_eq_pure_bind, bare_bind]
  rfl

@[simp] theorem bare_own (i : Instr) (args : List Reg) (blocks : List Block) :
    (own i args blocks).bare = own i.bare args (bareBlocks blocks) := by
  simp [own, bare, bareSteps, Step.bare]

@[simp] theorem bare_emit (i : Instr) (args : List Reg) : (emit i args).bare = emit i.bare args :=
  bare_own i args []

@[simp] theorem bare_emitOne (i : Instr) (args : List Reg) :
    (emitOne i args).bare = emitOne i.bare args := by
  simp [emitOne]

@[simp] theorem bare_emitNone (i : Instr) (args : List Reg) :
    (emitNone i args).bare = emitNone i.bare args := by
  simp [emitNone]

@[simp] theorem bare_scratch (size align : UInt32) :
    (scratch size align).bare = scratch size align := rfl

@[simp] theorem bare_store (op : StoreOp) (value addr : Reg) (offset : UInt32) :
    (store op value addr offset).bare = store op value addr offset := bare_emitNone _ _

@[simp] theorem bare_load (op : LoadOp) (addr : Reg) (offset : UInt32) :
    (load op addr offset).bare = load op addr offset := bare_emitOne _ _

@[simp] theorem bare_ite (p : Prop) [Decidable p] (x y : Code β) :
    (if p then x else y).bare = if p then x.bare else y.bare := by
  split <;> rfl

/-- A block without synonyms is the block of the code without them. -/
theorem block_bare (body : Code (List Reg)) : Block.bare <$> block body = block body.bare := by
  rfl

@[simp] theorem bare_block (body : Code (List Reg)) : (block body).bare = block body := rfl

theorem bare_ownBlocks {blocks blocks' : Code (List Block)}
    (h : bareBlocks <$> blocks.bare = blocks') (i : Instr) (args : List Reg)
    {f f' : List Reg → Code γ} (hf : ∀ outs, (f outs).bare = f' outs) :
    (blocks >>= fun bs => own i args bs >>= f).bare
      = blocks' >>= fun bs => own i.bare args bs >>= f' := by
  simp [← h, hf]

theorem bare_ownBlock {body body' : Code (List Reg)} (h : body.bare = body') (i : Instr)
    (args : List Reg) {f f' : List Reg → Code γ} (hf : ∀ outs, (f outs).bare = f' outs) :
    (block body >>= fun b => own i args [b] >>= f).bare
      = block body' >>= fun b => own i.bare args [b] >>= f' := by
  simp [← h, hf, ← block_bare, bareBlocks]

theorem bare_cases {body body' : Code (List Reg)} {rest rest' : Code (List Block)}
    (first : body.bare = body') (later : bareBlocks <$> rest.bare = rest') :
    bareBlocks <$> (do
        let first ← block body
        let rest ← rest
        return first :: rest : Code (List Block)).bare
      = do
        let first ← block body'
        let rest ← rest'
        return first :: rest := by
  simp [← first, ← later, ← block_bare, bareBlocks]

@[simp] theorem bare_castSlots (source target : List CoreType) (regs : List Reg) :
    (castSlots source target regs).bare = castSlots source target regs := by
  simp [castSlots, Instr.bare]

@[simp] theorem bare_padZeros (types : List CoreType) : (padZeros types).bare = padZeros types := by
  simp [padZeros, Instr.bare]

@[simp] theorem bare_storePair (pair : List Reg) (addr : Reg) (offset : UInt32) :
    (storePair pair addr offset).bare = storePair pair addr offset := by
  simp [storePair]

@[simp] theorem bare_loadPair (addr : Reg) (offset : UInt32) :
    (loadPair addr offset).bare = loadPair addr offset := by
  simp [loadPair]

theorem bare_storeLanes (addr : Reg) (offset : UInt32) (lanes : List Reg) :
    (storeLanes addr offset lanes).bare = storeLanes addr offset lanes := by
  induction lanes generalizing offset with
  | nil => rfl
  | cons lane lanes ih => simp [storeLanes, ih]

theorem bare_loadLanes (addr : Reg) (offset : UInt32) (lanes : Nat) :
    (loadLanes addr offset lanes).bare = loadLanes addr offset lanes := by
  induction lanes generalizing offset with
  | zero => rfl
  | succ lanes ih => simp [loadLanes, ih]

@[simp] theorem bare_storeFlags (count : Nat) (regs : List Reg) (addr : Reg) (offset : UInt32) :
    (storeFlags count regs addr offset).bare = storeFlags count regs addr offset := by
  simp [storeFlags, bare_storeLanes]

@[simp] theorem bare_loadFlags (count : Nat) (addr : Reg) (offset : UInt32) :
    (loadFlags count addr offset).bare = loadFlags count addr offset := by
  simp [loadFlags, bare_loadLanes]

theorem placedOffsets_bare (fields : Parts) :
    placedOffsets (bareParts fields) = placedOffsets fields := by
  rw [placedOffsets, placedOffsets, (bareParts_alike fields).fieldPlaces]

theorem placedPayload_bare (payloads : Parts) :
    placedPayload (bareParts payloads) = placedPayload payloads := by
  rw [placedPayload, placedPayload, (bareParts_alike payloads).payloadPlaces,
    (bareParts_alike payloads).length]

/-- Rules that say the same of a type and of the type without synonyms. -/
abbrev BareRule := {raw : RawRule // ∀ t, raw (bare? t) = raw t}

section Movement

variable (raw : BareRule) (realloc : String)

theorem bare_lowerList (l : Label) (elem : Option Shape) {write write' : Reg → Reg → Code Unit}
    (h : ∀ value addr, (write value addr).bare = write' value addr) (r : Reg) :
    (lowerList raw.1 realloc l elem write r).bare
      = lowerList raw.1 realloc (relabel l) (bare? elem) write' r := by
  simp only [lowerList, raw.2]
  split
  · simp [Instr.bare]
  · have loop := bare_ownBlock (f := pure) (rfl : (do
        let value ← emitOne (.iterElem elem) []
        let addr ← emitOne .iterBase []
        write value addr
        return [] : Code (List Reg)).bare = _) (.lowerList l elem realloc) [r] fun _ => rfl
    simpa [Instr.bare, h] using loop

mutual

theorem bare_lower : ∀ (s : Shape) (r : Reg),
    (lower raw.1 realloc s r).bare = lower raw.1 realloc s.bare r
  | .product l form fields, r => by
    simp [lower, Shape.bare, Instr.bare, (bareParts_alike fields).length, bare_lowerFields fields]
  | .sum l form payloads, r => by
    have h := bareParts_alike payloads
    simp only [lower, Shape.bare, h.length, h.payloadSlots]
    rw [← bare_lowerCases _ 0 payloads]
    simp [Instr.bare]
  | .list l elem, r =>
    bare_lowerList raw realloc l elem (fun value addr => bare_write? elem value addr 0) r
  | .synonym _ none, r => rfl
  | .synonym _ (some t), r => bare_lower t r
  | .scalar _, _ | .string, _ | .enum _ _, _ | .flags _ _, _ | .handle _ _ _, _ => by
    simp [lower, Shape.bare, Instr.bare]
  | .channel _ _, _ | .resource _, _ | .unfinished _, _ => rfl

theorem bare_lower? : ∀ (s : Option Shape) (r : Reg),
    (lower? raw.1 realloc s r).bare = lower? raw.1 realloc (bare? s) r
  | none, _ => rfl
  | some s, r => bare_lower s r

theorem bare_lowerFields : ∀ (ss : Parts) (rs : List Reg),
    (lowerFields raw.1 realloc ss rs).bare = lowerFields raw.1 realloc (bareParts ss) rs
  | s :: ss, r :: rs => by
    simp [lowerFields, bareParts, bare_lower? s, bare_lowerFields ss]
  | [], _ | _ :: _, [] => rfl

theorem bare_lowerCases (slots : List CoreType) (index : Nat) : ∀ ss : Parts,
    bareBlocks <$> (lowerCases raw.1 realloc slots index ss).bare
      = lowerCases raw.1 realloc slots index (bareParts ss)
  | [] => rfl
  | none :: ss =>
    bare_cases (by simp [lowerCase, bare?, Instr.bare]) (bare_lowerCases slots (index + 1) ss)
  | some s :: ss => by
    simp only [lowerCases, lowerCase, bareParts, bare?, s.bare_alike.slots]
    exact bare_cases (by simp [Instr.bare, bare_lower s]) (bare_lowerCases slots (index + 1) ss)

theorem bare_write : ∀ (s : Shape) (r addr : Reg) (offset : UInt32),
    (write raw.1 realloc s r addr offset).bare = write raw.1 realloc s.bare r addr offset
  | .product l form fields, r, addr, offset => by
    simp [write, Shape.bare, Instr.bare, (bareParts_alike fields).length, placedOffsets_bare,
      bare_writeFields fields]
  | .sum l form payloads, r, addr, offset => by
    have h := bareParts_alike payloads
    simp only [write, Shape.bare, h.length, placedPayload_bare]
    exact bare_ownBlocks (bare_writeCases _ addr offset _ 0 payloads) _ _ fun _ => rfl
  | .list l elem, r, addr, offset => by
    have h := bare_lowerList raw realloc l elem (fun value addr => bare_write? elem value addr 0) r
    simp [write, Shape.bare, h]
  | .synonym _ none, _, _, _ => rfl
  | .synonym _ (some t), r, addr, offset => bare_write t r addr offset
  | .scalar _, _, _, _ | .string, _, _, _ | .enum _ _, _, _, _ | .flags _ _, _, _, _
  | .handle _ _ _, _, _, _ => by
    simp [write, Shape.bare, Instr.bare]
  | .channel _ _, _, _, _ | .resource _, _, _, _ | .unfinished _, _, _, _ => rfl

theorem bare_write? : ∀ (s : Option Shape) (r addr : Reg) (offset : UInt32),
    (write? raw.1 realloc s r addr offset).bare = write? raw.1 realloc (bare? s) r addr offset
  | none, _, _, _ => rfl
  | some s, r, addr, offset => bare_write s r addr offset

theorem bare_writeFields : ∀ (ss : Parts) (rs : List Reg) (offsets : List UInt32)
    (addr : Reg) (offset : UInt32), (writeFields raw.1 realloc ss rs offsets addr offset).bare
      = writeFields raw.1 realloc (bareParts ss) rs offsets addr offset
  | s :: ss, r :: rs, o :: offsets, addr, offset => by
    simp [writeFields, bareParts, bare_write? s, bare_writeFields ss]
  | [], _, _, _, _ | _ :: _, [], _, _, _ | _ :: _, _ :: _, [], _, _ => rfl

theorem bare_writeCases (tag : IntWidth) (addr : Reg) (offset start : UInt32) (index : Nat) :
    ∀ ss : Parts,
    bareBlocks <$> (writeCases raw.1 realloc tag addr offset start index ss).bare
      = writeCases raw.1 realloc tag addr offset start index (bareParts ss)
  | [] => rfl
  | none :: ss =>
    bare_cases (by simp [writeCase, bare?, Instr.bare])
      (bare_writeCases tag addr offset start (index + 1) ss)
  | some s :: ss =>
    bare_cases (by simp [writeCase, bare?, Instr.bare, bare_write s])
      (bare_writeCases tag addr offset start (index + 1) ss)

end

theorem bare_liftList (l : Label) (elem : Option Shape) {read read' : Reg → Code Reg}
    (h : ∀ addr, (read addr).bare = read' addr) (pair : List Reg) :
    (liftList raw.1 l elem read pair).bare
      = liftList raw.1 (relabel l) (bare? elem) read' pair := by
  simp only [liftList, raw.2]
  split
  · simp [Instr.bare]
  · exact bare_ownBlock (by simp [Instr.bare, h]) _ _ fun _ => rfl

mutual

theorem bare_lift : ∀ (s : Shape) (rs : List Reg), (lift raw.1 s rs).bare = lift raw.1 s.bare rs
  | .product l form fields, rs => by
    simp [lift, Shape.bare, Instr.bare, (bareParts_alike fields).length, bare_liftFields fields]
  | .sum l form payloads, rs => by
    have h := bareParts_alike payloads
    simp only [lift, Shape.bare, h.length, h.payloadSlots]
    exact bare_ownBlocks (bare_liftCases _ _ payloads) _ _ fun _ => rfl
  | .list l elem, rs => bare_liftList raw l elem (fun addr => bare_read? elem addr 0) rs
  | .synonym _ none, _ => rfl
  | .synonym _ (some t), rs => bare_lift t rs
  | .scalar _, _ | .string, _ | .enum _ _, _ | .flags _ _, _ | .handle _ _ _, _ => by
    simp [lift, Shape.bare, Instr.bare]
  | .channel _ _, _ | .resource _, _ | .unfinished _, _ => rfl

theorem bare_lift? : ∀ (s : Option Shape) (rs : List Reg),
    (lift? raw.1 s rs).bare = lift? raw.1 (bare? s) rs
  | none, _ => rfl
  | some s, rs => bare_lift s rs

theorem bare_liftFields : ∀ (ss : Parts) (rs : List Reg),
    (liftFields raw.1 ss rs).bare = liftFields raw.1 (bareParts ss) rs
  | [], _ => rfl
  | s :: ss, rs => by
    simp [liftFields, bareParts, slots?_bare, bare_lift? s, bare_liftFields ss]

theorem bare_liftCases (slots : List CoreType) (rs : List Reg) : ∀ ss : Parts,
    bareBlocks <$> (liftCases raw.1 slots rs ss).bare = liftCases raw.1 slots rs (bareParts ss)
  | [] => rfl
  | none :: ss => bare_cases rfl (bare_liftCases slots rs ss)
  | some s :: ss => by
    simp only [liftCases, liftCase, bareParts, bare?, s.bare_alike.slots]
    exact bare_cases (by simp [bare_lift s]) (bare_liftCases slots rs ss)

theorem bare_read : ∀ (s : Shape) (addr : Reg) (offset : UInt32),
    (read raw.1 s addr offset).bare = read raw.1 s.bare addr offset
  | .product l form fields, addr, offset => by
    simp [read, Shape.bare, Instr.bare, (bareParts_alike fields).length, placedOffsets_bare,
      bare_readFields fields]
  | .sum l form payloads, addr, offset => by
    have h := bareParts_alike payloads
    simp only [read, Shape.bare, h.length, placedPayload_bare]
    exact bare_after (bare_load _ _ _) fun tag =>
      bare_ownBlocks (bare_readCases _ _ payloads) _ _ fun _ => rfl
  | .list l elem, addr, offset => by
    have h := bare_liftList raw l elem fun addr => bare_read? elem addr 0
    simp [read, Shape.bare, h]
  | .synonym _ none, _, _ => rfl
  | .synonym _ (some t), addr, offset => bare_read t addr offset
  | .scalar _, _, _ | .string, _, _ | .enum _ _, _, _ | .flags _ _, _, _ | .handle _ _ _, _, _ => by
    simp [read, Shape.bare, Instr.bare]
  | .channel _ _, _, _ | .resource _, _, _ | .unfinished _, _, _ => rfl

theorem bare_read? : ∀ (s : Option Shape) (addr : Reg) (offset : UInt32),
    (read? raw.1 s addr offset).bare = read? raw.1 (bare? s) addr offset
  | none, _, _ => rfl
  | some s, addr, offset => bare_read s addr offset

theorem bare_readFields : ∀ (ss : Parts) (offsets : List UInt32) (addr : Reg)
    (offset : UInt32),
    (readFields raw.1 ss offsets addr offset).bare
      = readFields raw.1 (bareParts ss) offsets addr offset
  | s :: ss, o :: offsets, addr, offset => by
    simp [readFields, bareParts, bare_read? s, bare_readFields ss]
  | [], _, _, _ | _ :: _, [], _, _ => rfl

theorem bare_readCases (addr : Reg) (start : UInt32) : ∀ ss : Parts,
    bareBlocks <$> (readCases raw.1 addr start ss).bare = readCases raw.1 addr start (bareParts ss)
  | [] => rfl
  | none :: ss => bare_cases rfl (bare_readCases addr start ss)
  | some s :: ss =>
    bare_cases (by simp [readCase, bare?, bare_read s]) (bare_readCases addr start ss)

end

end Movement

mutual

theorem bare_free : ∀ (s : Shape) (addr : Reg) (offset : UInt32),
    (free s addr offset).bare = free s.bare addr offset
  | .product _ _ fields, addr, offset => by
    simp [free, Shape.bare, placedOffsets_bare, bare_freeFields fields]
  | .sum l form payloads, addr, offset => by
    have h := bareParts_alike payloads
    simp only [free, Shape.bare, h.length, h.owns, placedPayload_bare]
    split
    · exact bare_after (bare_load _ _ _) fun tag =>
        bare_ownBlocks (bare_freeCases _ _ payloads) _ _ fun _ => rfl
    · rfl
  | .list l elem, addr, offset => by
    simp only [free, Shape.bare, ownsMemory?_bare]
    exact bare_after (bare_loadPair _ _) fun pair =>
      bare_ownBlock (by simp [Instr.bare, bare_free? elem]) _ _ fun _ => rfl
  | .synonym _ none, _, _ => rfl
  | .synonym _ (some t), addr, offset => bare_free t addr offset
  | .string, _, _ => by simp [free, Shape.bare, Instr.bare]
  | .scalar _, _, _ | .enum _ _, _, _ | .flags _ _, _, _ | .handle _ _ _, _, _ | .channel _ _, _, _
  | .resource _, _, _ | .unfinished _, _, _ => rfl

theorem bare_free? : ∀ (s : Option Shape) (addr : Reg) (offset : UInt32),
    (free? s addr offset).bare = free? (bare? s) addr offset
  | none, _, _ => rfl
  | some s, addr, offset => bare_free s addr offset

theorem bare_freeFields : ∀ (ss : Parts) (offsets : List UInt32) (addr : Reg)
    (offset : UInt32),
    (freeFields ss offsets addr offset).bare = freeFields (bareParts ss) offsets addr offset
  | s :: ss, o :: offsets, addr, offset => by
    simp [freeFields, bareParts, ownsMemory?_bare, bare_free? s, bare_freeFields ss]
  | [], _, _, _ | _ :: _, [], _, _ => rfl

theorem bare_freeCases (addr : Reg) (start : UInt32) : ∀ ss : Parts,
    bareBlocks <$> (freeCases addr start ss).bare = freeCases addr start (bareParts ss)
  | [] => rfl
  | s :: ss => by
    simp only [freeCases, bareParts, ownsMemory?_bare]
    exact bare_cases (by simp [bare_free? s]) (bare_freeCases addr start ss)

end

end Code

/-! ## Calls without synonyms -/

namespace FunctionShape

variable (f : FunctionShape)

theorem bare_coreSignature (dir : Direction) : f.bare.coreSignature dir = f.coreSignature dir := by
  simp only [coreSignature, bare, (bareParts_alike _).fieldSlots]

theorem bare_paramArea : f.bare.paramArea = f.paramArea := by
  simp only [paramArea, bare, (bareParts_alike _).fieldPlaces]

theorem bare_resultArea : f.bare.resultArea = f.resultArea := by
  simp only [resultArea, bare, (bareParts_alike _).fieldPlaces]

theorem Passable.bare {f : FunctionShape} (h : f.Passable) : f.bare.Passable :=
  ⟨(bareParts_alike _).fields.mpr h.params, (bareParts_alike _).fields.mpr h.results⟩

end FunctionShape

namespace Code

theorem bare_getArgs (index count : Nat) : (getArgs index count).bare = getArgs index count := by
  induction count generalizing index with
  | zero => rfl
  | succ count ih => simp [getArgs, Instr.bare, ih]

section Call

variable (raw : BareRule) (g : Generator)

theorem bare_lowerParams (index : Nat) (ss : Parts) :
    (lowerParams raw.1 g index ss).bare = lowerParams raw.1 g index (bareParts ss) := by
  induction ss generalizing index with
  | nil => rfl
  | cons s ss ih => simp [lowerParams, bareParts, Instr.bare, bare_lower? raw, ih]

theorem bare_writeParams (addr : Reg) (index : Nat) (ss : Parts)
    (offsets : List UInt32) :
    (writeParams raw.1 g addr index ss offsets).bare
      = writeParams raw.1 g addr index (bareParts ss) offsets := by
  induction ss generalizing index offsets with
  | nil => rfl
  | cons s ss ih =>
    cases offsets with
    | nil => rfl
    | cons o offsets => simp [writeParams, bareParts, Instr.bare, bare_write? raw, ih]

theorem bare_liftParams (index : Nat) (ss : Parts) :
    (liftParams raw.1 index ss).bare = liftParams raw.1 index (bareParts ss) := by
  induction ss generalizing index with
  | nil => rfl
  | cons s ss ih =>
    simp [liftParams, bareParts, slots?_bare, bare_getArgs, bare_lift? raw, ih]

variable (f : FunctionShape)

theorem bare_lowerArgs : (lowerArgs raw.1 g f).bare = lowerArgs raw.1 g f.bare := by
  have params : f.bare.params = bareParts f.params := rfl
  cases h : g.dir <;> simp [lowerArgs, lowerArgValues, paramPointer, h, f.bare_coreSignature,
    f.bare_paramArea, f.bare_resultArea, params, bare_writeParams raw, bare_lowerParams raw,
    Instr.bare]

theorem bare_liftResults (provided : Option Reg) (returned : List Reg) :
    (liftResults raw.1 g f provided returned).bare
      = liftResults raw.1 g f.bare provided returned := by
  have results : f.bare.results = bareParts f.results := rfl
  simp [liftResults, f.bare_coreSignature, results, (bareParts_alike _).length, placedOffsets_bare,
    bare_readFields raw, bare_liftFields raw, Instr.bare]

theorem bare_liftArgs : (liftArgs raw.1 g f).bare = liftArgs raw.1 g f.bare := by
  have params : f.bare.params = bareParts f.params := rfl
  simp [liftArgs, f.bare_coreSignature, f.bare_paramArea, params, bare_readFields raw,
    bare_liftParams raw, Instr.bare]

theorem bare_lowerResults (values : List Reg) :
    (lowerResults raw.1 g f values).bare = lowerResults raw.1 g f.bare values := by
  have results : f.bare.results = bareParts f.results := rfl
  cases h : g.dir <;> simp [lowerResults, h, f.bare_coreSignature, f.bare_resultArea, results,
    bare_writeFields raw, bare_lowerFields raw, Instr.bare]

theorem bare_call : (call raw.1 g f).bare = call raw.1 g f.bare := by
  have name : f.bare.name = f.name := rfl
  cases h : g.mode with
  | lowerArgs =>
    simp [call, h, name, f.bare_coreSignature, bare_lowerArgs raw, bare_liftResults raw,
      Instr.bare]
  | liftArgs => simp [call, h, bare_liftArgs raw, bare_lowerResults raw, Instr.bare]
  | neither => simp [call, h]

end Call

theorem bare_postReturn (f : FunctionShape) : (postReturn f).bare = postReturn f.bare := by
  have results : f.bare.results = bareParts f.results := rfl
  simp [postReturn, f.bare_coreSignature, results, placedOffsets_bare, bare_freeFields, Instr.bare]

end Code

/-! ## Programs without synonyms -/

def Program.bare (p : Program) : Program :=
  { p with function := p.function.bare, body := p.body.bare }

theorem Code.bare_program (code : Code Unit) (f : FunctionShape) (dir : Direction) (mode : Mode) :
    (code.program f dir mode).bare = code.bare.program f.bare dir mode := rfl

/-- **Synonyms make no difference.** A type and the type without synonyms have the same core types,
size, alignment, offsets and tag, or neither has any; both or neither may be moved as bytes, and
both or neither own memory. The streams for a valid function and for the function without synonyms
are the same, step for step and register for register, apart from the types that their instructions
name, however the types without synonyms are labelled. Only exports have a function that frees their
results. -/
theorem streams_without_synonyms {g : Graph} (hg : g.Acyclic) {f : Function}
    (hf : validate g (some f) = []) {raw : RawRule}
    (hraw : ∀ t, raw (bare? t) = raw t) (gen : Generator) :
    let f := g.shapes.function f
    (∀ s : Shape, s.bare.flat.toOption = s.flat.toOption
      ∧ s.bare.layout.toOption = s.layout.toOption
      ∧ s.bare.isRaw = s.isRaw ∧ s.bare.ownsMemory = s.ownsMemory)
    ∧ (∃ p, Program.ofCall raw gen f = .ok p ∧ Program.ofCall raw gen f.bare = .ok p.bare)
    ∧ (gen.dir = .exported → ∃ p, Program.ofPostReturn raw gen f = .ok p
        ∧ Program.ofPostReturn raw gen f.bare = .ok p.bare)
    ∧ (gen.dir ≠ .exported → ∃ e, Program.ofPostReturn raw gen f = .error e
        ∧ Program.ofPostReturn raw gen f.bare = .error e) := by
  have passable := passable_of_validate hg hf
  refine ⟨fun s => ⟨s.bare_alike.flat, s.bare_alike.layout, s.bare_alike.raw, s.bare_alike.owns⟩,
    ⟨_, Program.ofCall_eq raw gen passable, ?_⟩,
    fun hdir => ⟨_, Program.ofPostReturn_eq raw gen passable hdir, ?_⟩,
    fun hdir => ⟨_, Program.ofPostReturn_refused raw gen hdir,
      Program.ofPostReturn_refused raw gen hdir⟩⟩
  · rw [Program.ofCall_eq raw gen passable.bare, Code.bare_program, Code.bare_call ⟨raw, hraw⟩]
  · rw [Program.ofPostReturn_eq raw gen passable.bare hdir, Code.bare_program,
      Code.bare_postReturn]

end Bare

namespace Album

/-- Pictures are bytes, and albums are lists of pictures, with second names in between. -/
def graph : Graph where
  defs := #[
    { name := "byte", kind := some (.synonym (some (.scalar .u8))) },
    { name := "picture", kind := some (.list (some (.defn 0))) },
    { name := "photo", kind := some (.synonym (some (.defn 1))) },
    { name := "album", kind := some (.list (some (.defn 2))) }]

def add : Function where
  name := "add"
  params := [⟨"album", some (.defn 3)⟩, ⟨"photo", some (.defn 2)⟩]
  results := [⟨"", some (.defn 3)⟩]

end Album

instance Album.relabels : Relabels where
  relabel l := ⟨l.id, "unspelled"⟩

theorem streams_without_synonyms_album :
    ∃ p, Program.ofCall isRaw? { dir := .exported, mode := .liftArgs }
        (Album.graph.shapes.function Album.add) = .ok p
      ∧ Program.ofCall isRaw? { dir := .exported, mode := .liftArgs }
        (Album.graph.shapes.function Album.add).bare = .ok p.bare :=
  (streams_without_synonyms (Graph.Descending.acyclic (by decide)) (by decide) isRaw?_bare
    { dir := .exported, mode := .liftArgs }).2.1

end CanonicalAbi
