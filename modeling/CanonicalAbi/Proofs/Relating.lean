import CanonicalAbi.Proofs.Execution

/-!
# Machines side by side

Two machines that run the same instruction on the same operands do the same under every relation
that the few things an instruction does to a machine keep.
-/

namespace CanonicalAbi

open Exec

variable {α α' β γ τ τ' : Type}

/-! ## Related computations -/

/-- From states that `R` relates, two computations end alike: both with the same result, in states
that `S` relates, or both with the same failure, in states that `F` relates. -/
def Related (F R S : τ → τ' → Prop) (x : ExceptT Failure (StateM τ) β)
    (y : ExceptT Failure (StateM τ') β) : Prop :=
  ∀ s s', R s s' →
    (∃ b t t', runFrom x s = (.ok b, t) ∧ runFrom y s' = (.ok b, t') ∧ S t t') ∨
      ∃ e t t', runFrom x s = (.error e, t) ∧ runFrom y s' = (.error e, t') ∧ F t t'

namespace Related

variable {F R S T : τ → τ' → Prop} {x : ExceptT Failure (StateM τ) β}
  {y : ExceptT Failure (StateM τ') β}

theorem pure (b : β) : Related F R R (Pure.pure b) (Pure.pure b) := fun s s' h =>
  .inl ⟨b, s, s', rfl, rfl, h⟩

theorem throw (hF : ∀ s s', R s s' → F s s') (e : Failure) :
    Related F R S (throw e : ExceptT Failure (StateM τ) β) (throw e) :=
  fun s s' h => .inr ⟨e, s, s', rfl, rfl, hF s s' h⟩

section

variable {f : β → ExceptT Failure (StateM τ) γ} {g : β → ExceptT Failure (StateM τ') γ}
  (h : Related F R S x y)
include h

theorem bindOf (hf : ∀ b s t, runFrom x s = (.ok b, t) → Related F S T (f b) (g b)) :
    Related F R T (x >>= f) (y >>= g) := by
  intro s s' hs
  rcases h s s' hs with ⟨b, t, t', hx, hy, ht⟩ | ⟨e, t, t', hx, hy, ht⟩
  · rw [runFrom_bind_ok hx, runFrom_bind_ok hy]
    exact hf b s t hx t t' ht
  · exact .inr ⟨e, t, t', runFrom_bind_error hx, runFrom_bind_error hy, ht⟩

theorem bind (hf : ∀ b, Related F S T (f b) (g b)) : Related F R T (x >>= f) (y >>= g) :=
  h.bindOf fun b _ _ _ => hf b

end

theorem weaken {S' : τ → τ' → Prop} (h : Related F R S x y) (hS : ∀ s s', S s s' → S' s s') :
    Related F R S' x y := by
  intro s s' hs
  rcases h s s' hs with ⟨b, t, t', hx, hy, ht⟩ | failed
  · exact .inl ⟨b, t, t', hx, hy, hS t t' ht⟩
  · exact .inr failed

theorem map (h : Related F R S x y) (f : β → γ) : Related F R S (f <$> x) (f <$> y) :=
  h.bind fun b => pure (f b)

theorem ite {x' : ExceptT Failure (StateM τ) β} {y' : ExceptT Failure (StateM τ') β} {p : Prop}
    [Decidable p] (h : Related F R S x y) (h' : Related F R S x' y') :
    Related F R S (if p then x else x') (if p then y else y') := by
  by_cases hp : p
  · rw [if_pos hp, if_pos hp]
    exact h
  · rw [if_neg hp, if_neg hp]
    exact h'

theorem update {f : τ → τ} {g : τ' → τ'} (h : ∀ s s', R s s' → S (f s) (g s')) :
    Related F R S (modify f : ExceptT Failure (StateM τ) PUnit) (modify g) := fun s s' hs =>
  .inl ⟨⟨⟩, f s, g s', rfl, rfl, h s s' hs⟩

theorem refl (x : ExceptT Failure (StateM τ) β) : Related Eq Eq Eq x x := by
  rintro s _ rfl
  rcases hx : runFrom x s with ⟨e | b, t⟩
  · exact .inr ⟨e, t, t, rfl, rfl, rfl⟩
  · exact .inl ⟨b, t, t, rfl, rfl, rfl⟩

theorem of_runFrom (h : ∀ s s', R s s' → (runFrom x s).1 = (runFrom y s').1 ∧
    R (runFrom x s).2 (runFrom y s').2) : Related R R R x y := by
  intro s s' hs
  obtain ⟨same, rel⟩ := h s s' hs
  revert same rel
  rcases runFrom x s with ⟨e | b, t⟩ <;> rcases runFrom y s' with ⟨e' | b', t'⟩ <;>
    intro same rel
  · cases same
    exact .inr ⟨e, t, t', rfl, rfl, rel⟩
  · cases same
  · cases same
  · cases same
    exact .inl ⟨b, t, t', rfl, rfl, rel⟩

def Always (I : τ → Prop) (s s' : τ) : Prop := s = s' ∧ I s

theorem always {I : τ → Prop} {x : ExceptT Failure (StateM τ) β}
    (h : ∀ s, I s → I (runFrom x s).2) : Related (Always I) (Always I) (Always I) x x := by
  refine .of_runFrom ?_
  rintro s _ ⟨rfl, hs⟩
  exact ⟨rfl, rfl, h s hs⟩

theorem invariant {I : τ → Prop} {x : ExceptT Failure (StateM τ) β}
    (h : Related (Always I) (Always I) (Always I) x x) (s : τ) (hs : I s) : I (runFrom x s).2 := by
  rcases h s s ⟨rfl, hs⟩ with ⟨b, t, t', hx, hy, _, ht⟩ | ⟨e, t, t', hx, hy, _, ht⟩ <;>
    rw [hx] <;> exact ht

theorem outcome (h : Related R R R x y) {s : τ} {s' : τ'} (hs : R s s') :
    (runFrom x s).1 = (runFrom y s').1 ∧ R (runFrom x s).2 (runFrom y s').2 := by
  rcases h s s' hs with ⟨b, t, t', hx, hy, ht⟩ | ⟨e, t, t', hx, hy, ht⟩ <;>
    rw [hx, hy] <;> exact ⟨rfl, ht⟩

end Related

/-! ## Steady relations -/

/-- The name of the allocator of a block that an instruction lowers a value into. -/
def Instr.realloc? : Instr → Option String
  | lowerString realloc | lowerBytes _ _ realloc | lowerList _ _ realloc => some realloc
  | _ => none

def Instr.Writes : Instr → Prop
  | store _ _ | lowerString _ | lowerBytes _ _ _ => True
  | _ => False

variable {run : Nat → Scope → Exec α (List Value)} {run' : Nat → Scope → Exec α' (List Value)}

namespace Exec

/-- Two machines do the same under a relation that is kept: reading memory, giving back blocks,
taking resources and setting the results; and where the instruction does so, writing memory,
obtaining blocks, lending and calling what is outside. -/
structure Steady [Allocator α] [Allocator α'] (F R : Machine α → Machine α' → Prop)
    (c : Setting α) (c' : Setting α') (i : Instr) : Prop where
  fails : ∀ m m', R m m' → F m m'
  owned : c.owned = c'.owned
  reads : ∀ {β : Type} (read : Memory → Except Failure β), Related F R R
    (act do Action.ofExcept (read (← get).memory)) (act do Action.ofExcept (read (← get).memory))
  writes : i.Writes → ∀ write : Memory → Except Failure Memory,
    (∀ memory memory', write memory = .ok memory' → memory'.size = memory.size) → Related F R R
    (act do
      let memory ← Action.ofExcept (write (← get).memory)
      modify fun w => { w with memory })
    (act do
      let memory ← Action.ofExcept (write (← get).memory)
      modify fun w => { w with memory })
  free : ∀ ptr size align, Related F R R (free ptr size align) (free ptr size align)
  requires : Related F R R requireTable requireTable
  owns : ∀ resource rep, Related F R R (act (.onTable (.addOwned resource rep)))
    (act (.onTable (.addOwned resource rep)))
  takes : ∀ h resource, Related F R R (act (.onTable (.take h resource)))
    (act (.onTable (.take h resource)))
  looks : ∀ h resource, Related F R R (act (.onTable (.rep h resource)))
    (act (.onTable (.rep h resource)))
  returns : ∀ results : List Value, Related F R R (modify fun m => { m with results })
    (modify fun m => { m with results })
  lowers : ∀ realloc, i.realloc? = some realloc → ∀ size align,
    Related F R R (allocFor realloc size align) (allocFor realloc size align)
  obtains : ∀ realloc size align, i = .allocate realloc size align →
    Related F R R (act (.alloc size align)) (act (.alloc size align))
  lends : ∀ l resource, i = .lowerHandle .borrow l resource → ∀ v,
    Related F R R (lowerHandle .borrow l resource v) (lowerHandle .borrow l resource v)
  callsCore : ∀ name signature, i = .callCore name signature → ∀ args,
    Related F R R (callCore c name signature args) (callCore c' name signature args)
  callsInterface : ∀ function, i = .callInterface function → ∀ args,
    Related F R R (callInterface c function args) (callInterface c' function args)

section Elems

variable {F R : Machine α → Machine α' → Prop} {body : Scope → Exec α (List Value)}
  {body' : Scope → Exec α' (List Value)}
  (hbody : ∀ scope, Related F R R (body scope) (body' scope))

include hbody

theorem lowerElems_related (size base : UInt32) (vs : List Value) :
    Related F R R (lowerElems body size base vs) (lowerElems body' size base vs) := by
  induction vs generalizing base with
  | nil => exact .pure ()
  | cons v vs ih => exact (hbody _).bind fun _ => ih (base + size)

theorem liftElems_related (size : UInt32) (before : List Value) (base : UInt32) (count : Nat) :
    Related F R R (liftElems body size before base count)
      (liftElems body' size before base count) := by
  induction count generalizing before base with
  | zero => exact .pure _
  | succ count ih => exact (hbody _).bind fun out => ih _ (base + size)

theorem freeElems_related (size base : UInt32) (count : Nat) :
    Related F R R (freeElems body size base count) (freeElems body' size base count) := by
  induction count generalizing base with
  | zero => exact .pure ()
  | succ count ih => exact (hbody _).bind fun _ => ih (base + size)

end Elems

section Steady

variable [Allocator α] [Allocator α'] {F R : Machine α → Machine α' → Prop} {c : Setting α}
  {c' : Setting α'} {i : Instr} (h : Steady F R c c' i)

include h

namespace Steady

theorem throws {S : Machine α → Machine α' → Prop} (e : Failure) :
    Related F R S (throw e : Exec α β) (throw e) := .throw h.fails e

theorem ofExcept (r : Except Failure β) : Related F R R (ofExcept r) (ofExcept r) := by
  rcases r with e | b
  · exact h.throws e
  · exact .pure b

theorem freeOwned (ptr size align : UInt32) :
    Related F R R (Exec.freeOwned c ptr size align) (Exec.freeOwned c' ptr size align) := by
  rw [Exec.freeOwned, Exec.freeOwned, h.owned]
  exact .ite (h.free ptr size align) (.pure ())

theorem bytesAt (ptr length : UInt32) :
    Related F R R (bytesAt ptr length) (bytesAt ptr length) :=
  .ite (.pure []) (h.reads fun memory => memory.read ptr length)

theorem putBytes {realloc : String} (hi : i.Writes) (hr : i.realloc? = some realloc)
    (data : List UInt8) : Related F R R (putBytes realloc data) (putBytes realloc data) := by
  refine (h.lowers realloc hr _ 1).bind fun ptr => ?_
  have written := h.writes hi (fun memory => memory.write ptr data) fun _ _ => Memory.size_write
  exact .ite (.pure _) (written.bind fun _ => .pure _)

theorem load (op : LoadOp) (addr : UInt32) : Related F R R (load op addr) (load op addr) := by
  rw [load_eq_map, load_eq_map]
  exact (h.reads fun memory => memory.load op.width addr).map _

theorem store (hi : i.Writes) (op : StoreOp) (addr : UInt32) (v : UInt64) :
    Related F R R (store op addr v) (store op addr v) := by
  have stored : ∀ width, Related F R R (act (.store width addr v)) (act (.store width addr v)) :=
    fun width => h.writes hi (fun memory => memory.store width addr v) fun _ _ => Memory.size_write
  cases op <;> exact stored _

theorem liftString (ptr length : UInt32) :
    Related F R R (Exec.liftString c ptr length) (Exec.liftString c' ptr length) := by
  refine (h.bytesAt ptr length).bind fun data => ?_
  have freed : Related F R R (do Exec.freeOwned c ptr length 1; return Value.string data)
      (do Exec.freeOwned c' ptr length 1; return Value.string data) :=
    (h.freeOwned ptr length 1).bind fun _ => .pure _
  exact .ite freed ((h.throws (S := R) _).bind fun _ => freed)

theorem requireBytes (elem : Option Shape) :
    Related F R R (requireBytes elem) (requireBytes elem) :=
  .ite (.pure ()) (h.throws _)

theorem liftHandle (form : HandleForm) (resource : Option Label) (handle : Handle) :
    Related F R R (liftHandle form resource handle) (liftHandle form resource handle) := by
  refine h.requires.bind fun _ => ?_
  cases form with
  | own => exact (h.takes handle resource).bind fun rep => .pure _
  | borrow => exact (h.looks handle resource).bind fun rep => .pure _

theorem lowerOwned (l : Label) (resource : Option Label) (v : Value) :
    Related F R R (lowerHandle .own l resource v) (lowerHandle .own l resource v) := by
  refine h.requires.bind fun _ => ?_
  cases v with
  | own rep => exact (h.owns resource rep).bind fun handle => .pure _
  | _ => exact h.throws _

end Steady

theorem instr_related (scope : Scope) (blocks : Nat)

    (hrun : ∀ n scope, Related F R R (run n scope) (run' n scope)) (args : List Value) :
    Related F R R (instr c scope blocks run i args) (instr c' scope blocks run' i args) := by
  have runsCase : ∀ index scope, Related F R R (runCase blocks run index scope)
      (runCase blocks run' index scope) := fun index scope =>
    .ite (hrun index.toNat scope) (h.throws _)
  cases i with
  | getArg index =>
    simp only [instr]
    split
    · exact .pure _
    · exact h.throws _
  | load op offset => exact (h.load op _).bind fun v => .pure _
  | store op offset => exact (h.store trivial op _ _).bind fun _ => .pure _
  | lowerScalar s => exact (h.ofExcept _).bind fun v => .pure _
  | liftScalar s => exact (h.ofExcept _).bind fun v => .pure _
  | lowerHandle form l resource =>
    cases form with
    | own => exact (h.lowerOwned l resource _).bind fun v => .pure _
    | borrow => exact (h.lends l resource rfl _).bind fun v => .pure _
  | liftHandle form l resource => exact (h.liftHandle form resource _).bind fun v => .pure _
  | lowerString realloc =>
    simp only [instr]
    split
    · exact h.putBytes trivial rfl _
    · exact h.throws _
  | liftString => exact (h.liftString _ _).bind fun v => .pure _
  | lowerBytes l elem realloc =>
    refine (h.requireBytes elem).bind fun _ => ?_
    split
    · exact h.putBytes trivial rfl _
    · exact h.throws _
  | liftBytes l elem =>
    refine (h.requireBytes elem).bind fun _ => (h.bytesAt _ _).bind fun data => ?_
    exact (h.freeOwned _ _ _).bind fun _ => .pure _
  | lowerList l elem realloc =>
    simp only [instr]
    split
    · refine (h.ofExcept _).bind fun layout => (h.lowers realloc rfl _ _).bind fun ptr => ?_
      exact (lowerElems_related (hrun 0) _ _ _).bind fun _ => .pure _
    · exact h.throws _
  | liftList l elem =>
    refine (h.ofExcept _).bind fun layout => ?_
    refine (liftElems_related (hrun 0) _ _ _ _).bind fun elems => ?_
    exact (h.freeOwned _ _ _).bind fun _ => .pure _
  | lowerProduct form l fields =>
    simp only [instr]
    split
    · exact .ite (.pure _) (h.throws _)
    · exact h.throws _
  | lowerFlags l count =>
    simp only [instr]
    split
    · exact .pure _
    · exact h.throws _
  | lowerSum form l cases results =>
    simp only [instr]
    split
    · exact runsCase _ _
    · exact h.throws _
  | liftSum form l cases => exact (runsCase _ _).bind fun out => .pure _
  | lowerEnum l cases =>
    simp only [instr]
    split
    · exact .pure _
    · exact h.throws _
  | liftEnum l cases => exact .ite (.pure _) (h.throws _)
  | callCore name signature => exact h.callsCore name signature rfl args
  | callInterface function => exact h.callsInterface function rfl args
  | ret count => exact (h.returns args).bind fun _ => .pure _
  | allocate realloc size align =>
    exact (h.obtains realloc size align rfl).bind fun ptr => .pure _
  | free size align => exact (h.free _ size align).bind fun _ => .pure _
  | freeString => exact (h.free _ _ 1).bind fun _ => .pure _
  | freeList l elem =>
    refine (h.ofExcept _).bind fun layout => (freeElems_related (hrun 0) _ _ _).bind fun _ => ?_
    exact (h.free _ _ _).bind fun _ => .pure _
  | freeSum l cases => exact (runsCase _ _).bind fun _ => .pure _
  | _ => exact .pure _

end Steady

end Exec

/-! ## Worlds that answer alike -/

/-- A relation between worlds that have the same memory and the same handle table and whose
allocators hand out the same blocks. -/
structure World.Answers [Allocator α] [Allocator α'] (W : World α → World α' → Prop) : Prop where
  memory : ∀ {w w'}, W w w' → w.memory = w'.memory
  table : ∀ {w w'}, W w w' → w.table = w'.table
  withMemory : ∀ {w w'} (memory : Memory), memory.size = w.memory.size → W w w' →
    W { w with memory } { w' with memory }
  withTable : ∀ {w w'} (table : Option HandleTable), W w w' →
    W { w with table } { w' with table }
  alloc : ∀ size align : UInt32, Related W W W (Action.alloc size align)
    (Action.alloc size align)
  free : ∀ ptr size align : UInt32, Related W W W (Action.free ptr size align)
    (Action.free ptr size align)

namespace World.Answers

variable [Allocator α] [Allocator α'] {W : World α → World α' → Prop}

theorem equality : World.Answers (Eq : World α → World α → Prop) where
  memory := by
    rintro w _ rfl
    rfl
  table := by
    rintro w _ rfl
    rfl
  withMemory := by
    rintro w _ memory _ rfl
    rfl
  withTable := by
    rintro w _ table rfl
    rfl
  alloc size align := .refl _
  free ptr size align := .refl _

theorem reads (h : World.Answers W) (read : Memory → Except Failure β) :
    Related W W W (do Action.ofExcept (read (← get).memory)) (do
      Action.ofExcept (read (← get).memory)) := by
  refine .of_runFrom fun w w' hw => ?_
  rw [runFrom_bind_ok (runFrom_get w), runFrom_bind_ok (runFrom_get w'), h.memory hw]
  rcases read w'.memory with e | b <;> exact ⟨rfl, hw⟩

theorem writes (h : World.Answers W) (write : Memory → Except Failure Memory)
    (hsize : ∀ memory memory', write memory = .ok memory' → memory'.size = memory.size) :
    Related W W W
      (do
        let memory ← Action.ofExcept (write (← get).memory)
        modify fun w => { w with memory })
      (do
        let memory ← Action.ofExcept (write (← get).memory)
        modify fun w => { w with memory }) := by
  refine .of_runFrom fun w w' hw => ?_
  rw [runFrom_bind_ok (runFrom_get w), runFrom_bind_ok (runFrom_get w'), h.memory hw]
  rcases written : write w'.memory with e | memory
  · exact ⟨rfl, hw⟩
  · exact ⟨rfl, h.withMemory memory (h.memory hw ▸ hsize _ _ written) hw⟩

theorem onTable (h : World.Answers W) (op : TableOp β) :
    Related W W W (Action.onTable op) (Action.onTable op) := by
  refine .of_runFrom fun w w' hw => ?_
  have same := h.table hw
  rw [Action.onTable, Action.onTable, runFrom_bind_ok (runFrom_get w),
    runFrom_bind_ok (runFrom_get w'), same]
  rcases w'.table with _ | t
  · exact ⟨rfl, hw⟩
  · rcases hop : op.run.run t with ⟨e | b, t'⟩ <;> simp only [hop] <;>
      exact ⟨rfl, h.withTable (some t') hw⟩

end World.Answers

/-! ## Machines that run alike -/

/-- Two machines with worlds that `W` relates and registers that `G` relates, which otherwise agree.
-/
structure Machine.Beside (W : World α → World α' → Prop) (G : Array Value → Array Value → Prop)
    (m : Machine α) (m' : Machine α') : Prop where
  world : W m.world m'.world
  registers : G m.registers m'.registers
  borrowed : m.borrowed = m'.borrowed
  scratch : m.scratch = m'.scratch
  lent : m.lent = m'.lent
  results : m.results = m'.results

/-- Settings whose calls outside are related. -/
structure Setting.Matches (W : World α → World α' → Prop) (c : Setting α) (c' : Setting α') :
    Prop where
  owned : c.owned = c'.owned
  core : Option.Rel (fun f f' => ∀ name params, Related W W W (crossCore f name params)
    (crossCore f' name params)) c.host.core c'.host.core
  interface : Option.Rel (fun f f' => ∀ function args, Related W W W
    (crossInterface f function args) (crossInterface f' function args))
    c.host.interface c'.host.interface

theorem Setting.Matches.refl (c : Setting α) : c.Matches Eq c where
  owned := rfl
  core := by
    rcases c.host.core with _ | f
    · exact .none
    · exact .some fun name params => .refl _
  interface := by
    rcases c.host.interface with _ | f
    · exact .none
    · exact .some fun function args => .refl _

/-- Computations that end in machines side by side, or fail alike. -/
abbrev Paired (F : Machine α → Machine α' → Prop) (W : World α → World α' → Prop)
    (G : Array Value → Array Value → Prop) (x : Exec α β) (y : Exec α' β) : Prop :=
  Related F (Machine.Beside W G) (Machine.Beside W G) x y

namespace Exec

variable {W : World α → World α' → Prop} {G : Array Value → Array Value → Prop}
  {F : Machine α → Machine α' → Prop} (hF : ∀ m m', Machine.Beside W G m m' → F m m')

include hF

theorem act_paired {a : Action α β} {a' : Action α' β} (h : Related W W W a a') :
    Paired F W G (act a) (act a') := by
  intro m m' hm
  have moved : ∀ {w w'}, W w w' →
      Machine.Beside W G { m with world := w } { m' with world := w' } := fun hw =>
    ⟨hw, hm.registers, hm.borrowed, hm.scratch, hm.lent, hm.results⟩
  rw [runFrom_act, runFrom_act]
  rcases h m.world m'.world hm.world with ⟨b, w, w', ha, ha', hw⟩ | ⟨e, w, w', ha, ha', hw⟩ <;>
    rw [ha, ha']
  · exact .inl ⟨b, _, _, rfl, rfl, moved hw⟩
  · exact .inr ⟨e, _, _, rfl, rfl, hF _ _ (moved hw)⟩

omit hF in
theorem scratch_paired (b : Allocation) :
    Paired F W G (modify fun m => { m with scratch := b :: m.scratch })
      (modify fun m => { m with scratch := b :: m.scratch }) :=
  .update fun m m' hm => ⟨hm.world, hm.registers, hm.borrowed, by rw [hm.scratch], hm.lent,
    hm.results⟩

/-! ### Memory and handles -/

section Worlds

variable [Allocator α] [Allocator α'] (hW : World.Answers W)

include hW

theorem allocFor_paired (realloc : String) (size align : UInt32) :
    Paired F W G (allocFor realloc size align) (allocFor realloc size align) := by
  refine (act_paired hF (hW.alloc size align)).bind fun ptr => ?_
  have noted : Paired F W G
      (modify fun m => { m with borrowed := ⟨ptr, size, align⟩ :: m.borrowed })
      (modify fun m => { m with borrowed := ⟨ptr, size, align⟩ :: m.borrowed }) :=
    .update fun m m' hm => ⟨hm.world, hm.registers, by rw [hm.borrowed], hm.scratch, hm.lent,
      hm.results⟩
  exact .ite (noted.bind fun _ => .pure ptr) (.pure ptr)

theorem requireTable_paired : Paired F W G requireTable requireTable := by
  intro m m' hm
  have unfolded : ∀ {δ : Type} (m : Machine δ), runFrom (requireTable : Exec δ Unit) m
      = if m.world.table.isNone then (.error (.invalidInput .eval "no handle table"), m)
        else (.ok (), m) := by
    intro δ m
    rw [requireTable, runFrom_bind_ok (runFrom_get m)]
    split <;> rfl
  rw [unfolded, unfolded, hW.table hm.world]
  by_cases absent : m'.world.table.isNone
  · rw [if_pos absent, if_pos absent]
    exact .inr ⟨_, m, m', rfl, rfl, hF m m' hm⟩
  · rw [if_neg absent, if_neg absent]
    exact .inl ⟨(), m, m', rfl, rfl, hm⟩

theorem lend_paired (l : Label) (resource : Option Label) (v : Value) :
    Paired F W G (lowerHandle .borrow l resource v) (lowerHandle .borrow l resource v) := by
  refine (requireTable_paired hF hW).bind fun _ => ?_
  cases v with
  | borrow rep lender =>
    refine (act_paired hF (hW.onTable _)).bind fun h => ?_
    have lent : Paired F W G (modify fun m => { m with lent := h :: m.lent })
        (modify fun m => { m with lent := h :: m.lent }) :=
      .update fun m m' hm => ⟨hm.world, hm.registers, hm.borrowed, hm.scratch, by rw [hm.lent],
        hm.results⟩
    exact lent.bind fun _ => .pure _
  | _ => exact .throw hF _

end Worlds

/-! ### Calls -/

theorem outcome_paired (name : String) (count : Nat) {call : Action α (List β)}
    {call' : Action α' (List β)} (h : Related W W W call call') :
    Paired F W G (outcome name count call) (outcome name count call') := by
  intro m m' hm
  have moved : ∀ {w w'}, W w w' →
      Machine.Beside W G { m with world := w } { m' with world := w' } := fun hw =>
    ⟨hw, hm.registers, hm.borrowed, hm.scratch, hm.lent, hm.results⟩
  rw [runFrom_outcome, runFrom_outcome]
  rcases h m.world m'.world hm.world with ⟨rs, w, w', hc, hc', hw⟩ | ⟨e, w, w', hc, hc', hw⟩ <;>
    rw [hc, hc']
  · rcases ended name count (.ok rs) with e | rs'
    · exact .inr ⟨_, _, _, rfl, rfl, hF _ _ (moved hw)⟩
    · exact .inl ⟨_, _, _, rfl, rfl, moved hw⟩
  · exact .inr ⟨_, _, _, rfl, rfl, hF _ _ (moved hw)⟩

section Settings

variable {c : Setting α} {c' : Setting α'} (hc : c.Matches W c')

include hc

theorem callCore_paired (name : String) (signature : CoreSignature) (args : List Value) :
    Paired F W G (callCore c name signature args) (callCore c' name signature args) := by
  have alike := hc.core
  rw [callCore, callCore]
  revert alike
  rcases c.host.core with _ | f <;> rcases c'.host.core with _ | f' <;> intro alike
  · exact .throw hF _
  · cases alike
  · cases alike
  · cases alike with
    | some alike =>
      exact (outcome_paired hF name _ (alike name (args.map Value.core))).bind fun rs => .pure _

theorem callInterface_paired (function : FunctionShape) (args : List Value) :
    Paired F W G (callInterface c function args) (callInterface c' function args) := by
  have alike := hc.interface
  rw [callInterface, callInterface]
  revert alike
  rcases c.host.interface with _ | f <;> rcases c'.host.interface with _ | f' <;> intro alike
  · exact .throw hF _
  · cases alike
  · cases alike
  · cases alike with
    | some alike => exact outcome_paired hF function.name _ (alike function args)

end Settings

/-! ### Instructions -/

theorem instr_paired [Allocator α] [Allocator α'] (hW : World.Answers W) {c : Setting α}
    {c' : Setting α'} (hc : c.Matches W c') (scope : Scope) (blocks : Nat)

    (hrun : ∀ n scope, Paired F W G (run n scope) (run' n scope)) (i : Instr) (args : List Value) :
    Paired F W G (instr c scope blocks run i args) (instr c' scope blocks run' i args) := by
  have steady : Steady F (Machine.Beside W G) c c' i :=
    { fails := hF
      owned := hc.owned
      reads := fun read => act_paired hF (hW.reads read)
      writes := fun _ write hsize => act_paired hF (hW.writes write hsize)
      free := fun ptr size align => .ite (.pure ()) (act_paired hF (hW.free ptr size align))
      requires := requireTable_paired hF hW
      owns := fun resource rep => act_paired hF (hW.onTable _)
      takes := fun h resource => act_paired hF (hW.onTable _)
      looks := fun h resource => act_paired hF (hW.onTable _)
      returns := fun results => .update fun m m' hm =>
        ⟨hm.world, hm.registers, hm.borrowed, hm.scratch, hm.lent, rfl⟩
      lowers := fun realloc _ => allocFor_paired hF hW realloc
      obtains := fun _ size align _ => act_paired hF (hW.alloc size align)
      lends := fun l resource _ => lend_paired hF hW l resource
      callsCore := fun name signature _ => callCore_paired hF hc name signature
      callsInterface := fun function _ => callInterface_paired hF hc function }
  exact instr_related steady scope blocks hrun args

end Exec

end CanonicalAbi
