import CanonicalAbi.Proofs.Freeing
import CanonicalAbi.Proofs.Soundness

/-!
# The instructions that move values

Which instructions values are lowered, stored, lifted and freed with, and which blocks these own.
-/

namespace CanonicalAbi

variable {i : Instr} {l : Label}

namespace Code

variable {β γ : Type} {P Q : Instr → List Block → Prop}

def Uses (P : Instr → List Block → Prop) (code : Code β) : Prop :=
  ∀ k, StepsAll P (code.run k).steps

namespace Uses

theorem mono {code : Code β} (h : Uses P code) (hQ : ∀ i blocks, P i blocks → Q i blocks) :
    Uses Q code := fun k => (h k).mono hQ

theorem pure (v : β) : Uses P (pure v) := fun _ => trivial

theorem bind {x : Code γ} {f : γ → Code β} (hx : Uses P x) (hf : ∀ v, Uses P (f v)) :
    Uses P (x >>= f) := fun k => stepsAll_append.mpr ⟨hx k, hf _ _⟩

theorem emit (h : P i []) (args : List Reg) : Uses P (emit i args) :=
  fun _ => ⟨⟨h, trivial⟩, trivial⟩

theorem emitOne (h : P i []) (args : List Reg) : Uses P (emitOne i args) :=
  (emit h args).bind fun _ => pure _

theorem emitNone (h : P i []) (args : List Reg) : Uses P (emitNone i args) :=
  (emit h args).bind fun _ => pure _

theorem scratch {size align : UInt32} (h : P (.allocate "" size align) []) :
    Uses P (scratch size align) := fun _ => ⟨h, trivial⟩

theorem ite {p : Prop} [Decidable p] {x y : Code β} (hx : p → Uses P x) (hy : ¬ p → Uses P y) :
    Uses P (if p then x else y) := by
  split
  · next h => exact hx h
  · next h => exact hy h

theorem ownBlocks {bodies : List (Code (List Reg))} (args : List Reg)
    (hi : ∀ k, P i ((Code.blocks bodies).run k).value) (h : ∀ body ∈ bodies, Uses P body) :
    Uses P (Code.blocks bodies >>= Code.own i args) := by
  have inside : ∀ k, BlocksAll P ((Code.blocks bodies).run k).value := by
    clear hi
    induction bodies with
    | nil => exact fun _ => trivial
    | cons body bodies ih =>
      exact fun k => ⟨h body List.mem_cons_self k, ih (tail_parts h) _⟩
  intro k
  rw [bind_steps, steps_blocks]
  exact ⟨⟨hi k, inside k⟩, trivial⟩

theorem ownBlock {body : Code (List Reg)} (hi : ∀ b, P i [b]) (args : List Reg) (h : Uses P body) :
    Uses P (do
      let b ← Code.block body
      Code.own i args [b]) :=
  fun k => ⟨⟨hi _, h k, trivial⟩, trivial⟩

end Uses

end Code

/-! ## Cases -/

/-- The bodies of the cases of a sum under an instruction, by number and payload. -/
inductive CaseBody (raw : RawRule) (l : Label) (form : SumForm)
    (payloads : Parts) : Instr → (Nat → Option Shape → Code (List Reg)) → Prop where
  | lower (realloc : String) : CaseBody raw l form payloads
      (.lowerSum form l payloads.length (flatSum (payloadSlots payloads)))
      (Code.lowerCase raw realloc (flatSum (payloadSlots payloads)).tail)
  | write (realloc : String) (addr : Reg) (offset : UInt32) : CaseBody raw l form payloads
      (.lowerSum form l payloads.length [])
      (Code.writeCase raw realloc (tagWidth payloads.length) addr offset
        (offset + placedPayload payloads))
  | lift (rs : List Reg) : CaseBody raw l form payloads (.liftSum form l payloads.length)
      fun _ => Code.liftCase raw (flatSum (payloadSlots payloads)).tail rs
  | read (addr : Reg) (start : UInt32) : CaseBody raw l form payloads
      (.liftSum form l payloads.length) fun _ => Code.readCase raw addr start
  | free (addr : Reg) (start : UInt32) : CaseBody raw l form payloads
      (.freeSum l payloads.length) fun _ => Code.freeCase addr start

def AreCases (payloads : Parts) (body : Nat → Option Shape → Code (List Reg))
    (blocks : List Block) : Prop :=
  blocks.length = payloads.length ∧ ∀ n part, payloads[n]? = some part →
    ∃ k, blocks[n]? = some ((Code.block (body n part)).run k).value

theorem Code.areCases_blocks (payloads : Parts)
    (body : Nat → Option Shape → Code (List Reg)) (k : Reg) :
    AreCases payloads body ((Code.blocks (payloads.mapIdx body)).run k).value := by
  refine ⟨by rw [length_blocks, List.length_mapIdx], fun n part hpart => ?_⟩
  have found : (payloads.mapIdx body)[n]? = some (body n part) := by
    rw [List.getElem?_mapIdx, hpart]
    rfl
  obtain ⟨k', _, _, hget⟩ := getElem?_blocks found k
  exact ⟨k', hget⟩

/-! ## Ways to move values -/

/-- The ways to move values: to core values, to memory, from either, and out of memory that is given
back. -/
inductive Way where
  | lower
  | store
  | lift
  | free
  deriving DecidableEq

namespace Instr

/-- The instructions without blocks that values are stored with. -/
def Stores (raw : RawRule) : Instr → Prop
  | getArg _ | i32Const _ | constZero _ | store _ _ | lowerScalar _ | lowerHandle _ _ _
  | lowerString _ | lowerProduct _ _ _ | lowerFlags _ _ | lowerEnum _ _ | iterElem _ | iterBase
  | payload => True
  | lowerBytes _ elem _ => raw elem = true
  | _ => False

/-- The instructions without blocks that values are moved with, casts apart. -/
def Plain (raw : RawRule) : Way → Instr → Prop
  | .lower, i | .store, i => i.Stores raw
  | .lift, getArg _ | .lift, load _ _ | .lift, liftScalar _ | .lift, liftHandle _ _ _
  | .lift, liftString | .lift, liftProduct _ _ _ | .lift, liftFlags _ _ | .lift, liftEnum _ _
  | .lift, iterBase | .lift, free _ _ => True
  | .lift, liftBytes _ elem => raw elem = true
  | .free, getArg _ | .free, load _ _ | .free, iterBase | .free, freeString => True
  | _, _ => False

def OnList (l : Label) (elem : Option Shape) : Way → Instr → Prop
  | .store, i => ∃ realloc, i = lowerList l elem realloc
  | .lift, i => i = liftList l elem
  | .free, i => i = freeList l elem
  | .lower, _ => False

/-- The instructions that move sums. Where a sum is stored, its cases yield nothing. -/
def OnSum : Way → Instr → Prop
  | .lower, lowerSum _ _ _ _ | .lift, liftSum _ _ _ | .free, freeSum _ _ => True
  | .store, lowerSum _ _ _ results => results = []
  | _, _ => False

end Instr

/-- A property, for each way to move values of some shapes, that the instructions have which are
used for it. -/
structure Repertoire (raw : RawRule) (K : Shape → Prop)
    (P : Way → Instr → List Block → Prop) : Prop where
  part : ∀ {s part}, K s → some part ∈ s.parts → K part
  stored : ∀ i blocks, P .store i blocks → P .lower i blocks
  plain : ∀ way i, i.Plain raw way → P way i []
  castUp : ∀ casts, P .lower (.bitcasts casts) []
  castDown : ∀ own slots, FitSlots own slots →
    P .lift (.bitcasts (castsBetween (slots.take own.length) own)) []
  list : ∀ way i l elem b, K (.list l elem) → (way ≠ .free → raw elem = false) →
    i.OnList l elem way → P way i [b]
  sum : ∀ way i l form payloads body blocks, K (.sum l form payloads) →
    CaseBody raw l form payloads i body → i.OnSum way → AreCases payloads body blocks →
    P way i blocks

namespace Repertoire

variable {raw : RawRule} {K : Shape → Prop} {P : Way → Instr → List Block → Prop}
  (rep : Repertoire raw K P) {way : Way} {i : Instr} (h : i.Plain raw way) (args : List Reg)
include rep h

theorem emit : Code.Uses (P way) (Code.emit i args) := .emit (rep.plain way i h) args

theorem emitOne : Code.Uses (P way) (Code.emitOne i args) := (rep.emit h args).bind fun _ => .pure _

theorem emitNone : Code.Uses (P way) (Code.emitNone i args) :=
  (rep.emit h args).bind fun _ => .pure _

end Repertoire

namespace Code

variable {raw : RawRule} {K : Shape → Prop} {P : Way → Instr → List Block → Prop}

/-- Whatever moves a value of the shape, `P` holds of its instructions. -/
structure MovesWith (raw : RawRule) (P : Way → Instr → List Block → Prop) (s : Shape) :
    Prop where
  lower : ∀ realloc r, Uses (P .lower) (lower raw realloc s r)
  write : ∀ realloc r addr offset, Uses (P .store) (write raw realloc s r addr offset)
  lift : ∀ rs, Uses (P .lift) (lift raw s rs)
  read : ∀ addr offset, Uses (P .lift) (read raw s addr offset)
  free : ∀ addr offset, Uses (P .free) (free s addr offset)

section Parts

variable {part : Option Shape} {parts : Parts}

section Part

variable (hs : ∀ s, part = some s → MovesWith raw P s)
include hs

theorem lower?_uses (realloc : String) (r : Reg) : Uses (P .lower) (lower? raw realloc part r) := by
  cases part with
  | none => exact .pure _
  | some s => exact (hs s rfl).lower realloc r

theorem write?_uses (realloc : String) (r addr : Reg) (offset : UInt32) :
    Uses (P .store) (write? raw realloc part r addr offset) := by
  cases part with
  | none => exact .pure _
  | some s => exact (hs s rfl).write realloc r addr offset

theorem lift?_uses (rs : List Reg) : Uses (P .lift) (lift? raw part rs) := by
  cases part with
  | none => exact .pure _
  | some s => exact (hs s rfl).lift rs

theorem read?_uses (addr : Reg) (offset : UInt32) :
    Uses (P .lift) (read? raw part addr offset) := by
  cases part with
  | none => exact .pure _
  | some s => exact (hs s rfl).read addr offset

theorem free?_uses (addr : Reg) (offset : UInt32) : Uses (P .free) (free? part addr offset) := by
  cases part with
  | none => exact .pure _
  | some s => exact (hs s rfl).free addr offset

end Part

section Fields

variable (hs : ∀ s, some s ∈ parts → MovesWith raw P s)
include hs

theorem lowerFields_uses (realloc : String) (rs : List Reg) :
    Uses (P .lower) (lowerFields raw realloc parts rs) := by
  induction parts generalizing rs with
  | nil => exact .pure _
  | cons part parts ih =>
    cases rs with
    | nil => exact .pure _
    | cons r rs =>
      refine (lower?_uses (head_part hs) _ _).bind fun _ => ?_
      exact (ih (tail_parts hs) _).bind fun _ => .pure _

theorem writeFields_uses (realloc : String) (rs : List Reg) (offsets : List UInt32) (addr : Reg)
    (offset : UInt32) : Uses (P .store) (writeFields raw realloc parts rs offsets addr offset) := by
  induction parts generalizing rs offsets with
  | nil => exact .pure _
  | cons part parts ih =>
    cases rs with
    | nil => exact .pure _
    | cons r rs =>
      cases offsets with
      | nil => exact .pure _
      | cons o offsets =>
        exact (write?_uses (head_part hs) _ _ _ _).bind fun _ => ih (tail_parts hs) _ _

theorem liftFields_uses (rs : List Reg) : Uses (P .lift) (liftFields raw parts rs) := by
  induction parts generalizing rs with
  | nil => exact .pure _
  | cons part parts ih =>
    refine (lift?_uses (head_part hs) _).bind fun _ => ?_
    exact (ih (tail_parts hs) _).bind fun _ => .pure _

theorem readFields_uses (offsets : List UInt32) (addr : Reg) (offset : UInt32) :
    Uses (P .lift) (readFields raw parts offsets addr offset) := by
  induction parts generalizing offsets with
  | nil => exact .pure _
  | cons part parts ih =>
    cases offsets with
    | nil => exact .pure _
    | cons o offsets =>
      refine (read?_uses (head_part hs) _ _).bind fun _ => ?_
      exact (ih (tail_parts hs) _).bind fun _ => .pure _

theorem freeFields_uses (offsets : List UInt32) (addr : Reg) (offset : UInt32) :
    Uses (P .free) (freeFields parts offsets addr offset) := by
  induction parts generalizing offsets with
  | nil => exact .pure _
  | cons part parts ih =>
    cases offsets with
    | nil => exact .pure _
    | cons o offsets =>
      have first := free?_uses (head_part hs) addr (offset + o)
      have rest := ih (tail_parts hs) offsets
      rw [freeFields]
      split
      · exact first.bind fun _ => rest
      · exact rest

end Fields

end Parts

section Shapes

variable (rep : Repertoire raw K P)
include rep

theorem storePair_uses (pair : List Reg) (addr : Reg) (offset : UInt32) :
    Uses (P .store) (storePair pair addr offset) :=
  (rep.emitNone (by trivial) _).bind fun _ => rep.emitNone (by trivial) _

theorem loadPair_uses {way : Way} (h : ∀ op offset, (Instr.load op offset).Plain raw way)
    (addr : Reg)
    (offset : UInt32) : Uses (P way) (loadPair addr offset) :=
  (rep.emitOne (h _ _) _).bind fun _ => (rep.emitOne (h _ _) _).bind fun _ => .pure _

theorem storeFlags_uses (count : Nat) (regs : List Reg) (addr : Reg) (offset : UInt32) :
    Uses (P .store) (storeFlags count regs addr offset) := by
  have lanes : ∀ offset, Uses (P .store) (storeLanes addr offset regs) := by
    induction regs with
    | nil => exact fun _ => .pure _
    | cons lane lanes ih => exact fun _ => (rep.emitNone (by trivial) _).bind fun _ => ih _
  exact .ite (fun _ => lanes _) fun _ => rep.emitNone (by trivial) _

theorem loadFlags_uses (count : Nat) (addr : Reg) (offset : UInt32) :
    Uses (P .lift) (loadFlags count addr offset) := by
  have lanes : ∀ count offset, Uses (P .lift) (loadLanes addr offset count) := by
    intro count
    induction count with
    | zero => exact fun _ => .pure _
    | succ count ih =>
      exact fun _ => (rep.emitOne (by trivial) _).bind fun _ => (ih _).bind fun _ => .pure _
  exact .ite (fun _ => lanes _ _) fun _ => (rep.emitOne (by trivial) _).bind fun _ => .pure _

theorem padZeros_uses (types : List CoreType) : Uses (P .lower) (padZeros types) :=
  .ite (fun _ => .pure _) fun _ => rep.emit (by trivial) _

section Bodies

variable {part : Option Shape} (hs : ∀ s, part = some s → MovesWith raw P s)
include hs

theorem lowerCase_uses (realloc : String) (slots : List CoreType) (n : Nat) :
    Uses (P .lower) (lowerCase raw realloc slots n part) := by
  cases part with
  | none =>
    refine (rep.emitOne (by trivial) _).bind fun _ => (rep.emitOne (by trivial) _).bind fun _ => ?_
    exact (padZeros_uses rep _).bind fun _ => .pure _
  | some s =>
    refine (rep.emitOne (by trivial) _).bind fun _ => (rep.emitOne (by trivial) _).bind fun _ => ?_
    refine ((hs s rfl).lower _ _).bind fun _ => ?_
    refine (Uses.ite (fun _ => .emit (rep.castUp _) _) fun _ => .pure _).bind fun _ => ?_
    exact (padZeros_uses rep _).bind fun _ => .pure _

theorem writeCase_uses (realloc : String) (tag : IntWidth) (addr : Reg) (offset start : UInt32)
    (n : Nat) : Uses (P .store) (writeCase raw realloc tag addr offset start n part) := by
  cases part with
  | none =>
    refine (rep.emitOne (by trivial) _).bind fun _ => (rep.emitOne (by trivial) _).bind fun _ => ?_
    exact (rep.emitNone (by trivial) _).bind fun _ => .pure _
  | some s =>
    refine (rep.emitOne (by trivial) _).bind fun _ => (rep.emitOne (by trivial) _).bind fun _ => ?_
    refine (rep.emitNone (by trivial) _).bind fun _ => ?_
    exact ((hs s rfl).write _ _ _ _).bind fun _ => .pure _

theorem liftCase_uses {slots : List CoreType} (hfit : ∀ s, part = some s → FitSlots s.slots slots)
    (rs : List Reg) : Uses (P .lift) (liftCase raw slots rs part) := by
  cases part with
  | none => exact .pure _
  | some s =>
    refine (Uses.ite (fun _ => .emit (rep.castDown _ _ (hfit s rfl)) _) fun _ => .pure _).bind
      fun _ => ?_
    exact ((hs s rfl).lift _).bind fun _ => .pure _

theorem lowerList_uses (known : K (.list l part)) (realloc : String) (r : Reg) :
    Uses (P .store) (lowerList raw realloc l part
      (fun value addr => write? raw realloc part value addr 0) r) := by
  refine .ite (fun moved => rep.emit (by exact moved) _) fun apart => ?_
  refine .ownBlock (fun b => rep.list .store _ l part b known (by simpa using apart) ⟨_, rfl⟩) _ ?_
  refine (rep.emitOne (by trivial) _).bind fun _ => (rep.emitOne (by trivial) _).bind fun _ => ?_
  exact (write?_uses hs _ _ _ _).bind fun _ => .pure _

theorem liftList_uses (known : K (.list l part)) (pair : List Reg) :
    Uses (P .lift) (liftList raw l part (fun addr => read? raw part addr 0) pair) := by
  refine .ite (fun moved => rep.emitOne (by exact moved) _) fun apart => ?_
  have body : Uses (P .lift) (do
      let addr ← Code.emitOne .iterBase []
      let value ← read? raw part addr 0
      return [value]) :=
    (rep.emitOne (by trivial) _).bind fun _ =>
      (read?_uses hs _ _).bind fun _ => .pure _
  rw [← bind_assoc]
  exact (Uses.ownBlock (fun b => rep.list .lift _ l part b known (by simpa using apart) rfl) pair
    body).bind fun _ => .pure _

theorem freeList_uses (known : K (.list l part)) (addr : Reg) (offset : UInt32) :
    Uses (P .free) (free (.list l part) addr offset) := by
  refine (loadPair_uses rep (by intros; trivial) _ _).bind fun pair => ?_
  refine (Uses.ownBlock (fun b => rep.list .free _ l part b known (absurd rfl) rfl) pair ?_).bind
    fun _ => .pure _
  split
  · refine (rep.emitOne (by trivial) _).bind fun _ => ?_
    exact (free?_uses hs _ _).bind fun _ => .pure _
  · exact .pure _

end Bodies

theorem sum_uses {form : SumForm} {payloads : Parts}
    (known : K (.sum l form payloads)) (hs : ∀ s, some s ∈ payloads → MovesWith raw P s) :
    MovesWith raw P (.sum l form payloads) := by
  have owned : ∀ way {i body}, CaseBody raw l form payloads i body → i.OnSum way → ∀ args,
      (∀ n, ∀ part ∈ payloads, Uses (P way) (body n part)) →
      Uses (P way) (blocks (payloads.mapIdx body) >>= own i args) := by
    intro way i body hbody hi args h
    refine .ownBlocks args (fun k => rep.sum way i l form payloads body _ known hbody hi
      (areCases_blocks payloads body k)) fun code hcode => ?_
    obtain ⟨n, inside, rfl⟩ := List.mem_mapIdx.mp hcode
    exact h n _ (List.getElem_mem inside)
  -- Where the number of a case does not matter, bodies are a function of the payload only.
  have plain : ∀ body : Option Shape → Code (List Reg),
      payloads.map body = payloads.mapIdx fun _ => body := by
    intro body
    refine List.ext_getElem? fun n => ?_
    rw [List.getElem?_map, List.getElem?_mapIdx]
  have at_ : ∀ part ∈ payloads, ∀ s, part = some s → MovesWith raw P s :=
    fun part hpart s e => hs s (e ▸ hpart)
  refine ⟨fun realloc r => ?_, fun realloc r addr offset => ?_, fun rs => ?_,
    fun addr offset => ?_, fun addr offset => ?_⟩
  · rw [lower, lowerCases_eq]
    simp only [Nat.zero_add]
    exact owned .lower (.lower realloc) trivial _ fun n part hpart =>
      lowerCase_uses rep (at_ part hpart) _ _ n
  · rw [write, writeCases_eq, ← bind_assoc]
    simp only [Nat.zero_add]
    exact (owned .store (.write realloc addr offset) rfl _ fun n part hpart =>
      writeCase_uses rep (at_ part hpart) _ _ _ _ _ n).bind fun _ => .pure _
  · rw [lift, liftCases_eq, plain, ← bind_assoc]
    exact (owned .lift (.lift rs.tail) trivial _ fun _ part hpart =>
      liftCase_uses rep (at_ part hpart)
      (fun s e => FitSlots.of_mem (e ▸ hpart)) _).bind fun _ => .pure _
  · refine (rep.emitOne (by trivial) _).bind fun tag => ?_
    rw [readCases_eq, plain, ← bind_assoc]
    refine (owned .lift (.read addr _) trivial _ fun _ part hpart => ?_).bind fun _ => .pure _
    cases part with
    | none => exact .pure _
    | some s => exact ((hs s hpart).read _ _).bind fun _ => .pure _
  · refine .ite (fun _ => (rep.emitOne (by trivial) _).bind fun tag => ?_) fun _ => .pure _
    rw [freeCases_eq, plain, ← bind_assoc]
    refine (owned .free (.free addr _) trivial _ fun _ part hpart => ?_).bind fun _ => .pure _
    rw [freeCase]
    split
    · exact (free?_uses (at_ part hpart) _ _).bind fun _ => .pure _
    · exact .pure _

theorem moves {s : Shape} (h : K s) : MovesWith raw P s := by
  induction s with
  | scalar | enum | handle =>
    exact ⟨fun _ _ => rep.emit (by trivial) _,
      fun _ _ _ _ => (rep.emitOne (by trivial) _).bind fun _ => rep.emitNone (by trivial) _,
      fun _ => rep.emitOne (by trivial) _,
      fun _ _ => (rep.emitOne (by trivial) _).bind fun _ => rep.emitOne (by trivial) _,
      fun _ _ => .pure _⟩
  | string =>
    refine ⟨fun _ _ => rep.emit (by trivial) _, fun _ _ _ _ => ?_,
      fun _ => rep.emitOne (by trivial) _, fun _ _ => ?_, fun _ _ => ?_⟩
    · exact (rep.emit (by trivial) _).bind fun _ => storePair_uses rep _ _ _
    · exact (loadPair_uses rep (by intros; trivial) _ _).bind fun _ => rep.emitOne (by trivial) _
    · exact (loadPair_uses rep (by intros; trivial) _ _).bind fun _ => rep.emitNone (by trivial) _
  | product l form fields ih =>
    have hs : ∀ s, some s ∈ fields → MovesWith raw P s := fun s m => ih s m (rep.part h m)
    refine ⟨fun _ _ => ?_, fun _ _ _ _ => ?_, fun _ => ?_, fun _ _ => ?_,
      fun _ _ => freeFields_uses hs _ _ _⟩
    · exact (rep.emit (by trivial) _).bind fun _ => lowerFields_uses hs _ _
    · exact (rep.emit (by trivial) _).bind fun _ => writeFields_uses hs _ _ _ _ _
    · exact (liftFields_uses hs _).bind fun _ => rep.emitOne (by trivial) _
    · exact (readFields_uses hs _ _ _).bind fun _ => rep.emitOne (by trivial) _
  | sum l form payloads ih => exact sum_uses rep h fun s m => ih s m (rep.part h m)
  | flags l count =>
    refine ⟨fun _ _ => rep.emit (by trivial) _, fun _ _ _ _ => ?_,
      fun _ => rep.emitOne (by trivial) _, fun _ _ => ?_, fun _ _ => .pure _⟩
    · exact (rep.emit (by trivial) _).bind fun _ => storeFlags_uses rep _ _ _ _
    · exact (loadFlags_uses rep _ _ _).bind fun _ => rep.emitOne (by trivial) _
  | list l elem ih =>
    have hs : ∀ s, elem = some s → MovesWith raw P s := fun s e =>
      ih s e (rep.part h (List.mem_singleton.mpr e.symm))
    refine ⟨fun _ _ => (lowerList_uses rep hs h _ _).mono rep.stored, fun _ _ _ _ => ?_,
      liftList_uses rep hs h, fun _ _ => ?_, freeList_uses rep hs h⟩
    · exact (lowerList_uses rep hs h _ _).bind fun _ => storePair_uses rep _ _ _
    · exact (loadPair_uses rep (by intros; trivial) _ _).bind fun _ => liftList_uses rep hs h _
  | synonym l target ih =>
    have hs : ∀ s, target = some s → MovesWith raw P s := fun s e =>
      ih s e (rep.part h (List.mem_singleton.mpr e.symm))
    exact ⟨lower?_uses hs, write?_uses hs, lift?_uses hs, read?_uses hs, free?_uses hs⟩
  | channel | resource | unfinished =>
    exact ⟨fun _ _ => .pure _, fun _ _ _ _ => .pure _, fun _ => .pure _, fun _ _ => .pure _,
      fun _ _ => .pure _⟩

theorem liftArgs_uses (g : Generator) {f : FunctionShape} (h : ∀ s, some s ∈ f.params → K s) :
    Uses (P .lift) (liftArgs raw g f) := by
  have hs : ∀ s, some s ∈ f.params → MovesWith raw P s := fun s m => moves rep (h s m)
  have getArgs : ∀ count index, Uses (P .lift) (getArgs index count) := by
    intro count
    induction count with
    | zero => exact fun _ => .pure _
    | succ count ih =>
      exact fun _ => (rep.emitOne (by trivial) _).bind fun _ =>
        (ih _).bind fun _ => .pure _
  have liftParams : ∀ parts index, (∀ s, some s ∈ parts → MovesWith raw P s) →
      Uses (P .lift) (liftParams raw index parts) := by
    intro parts
    induction parts with
    | nil => exact fun _ _ => .pure _
    | cons part parts ih =>
      intro index hs
      refine (getArgs _ _).bind fun _ => (lift?_uses (head_part hs) _).bind fun _ => ?_
      exact (ih _ (tail_parts hs)).bind fun _ => .pure _
  rw [liftArgs]
  split
  · refine (rep.emitOne (by trivial) _).bind fun _ => ?_
    refine (readFields_uses hs _ _ _).bind fun _ => ?_
    split
    · exact (rep.emitNone (by trivial) _).bind fun _ => .pure _
    · exact .pure _
  · exact liftParams _ _ hs

end Shapes

end Code

end CanonicalAbi
