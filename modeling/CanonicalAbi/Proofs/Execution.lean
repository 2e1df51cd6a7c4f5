import CanonicalAbi.Machine.Run
import CanonicalAbi.Proofs.Code
import CanonicalAbi.Proofs.Effects
import CanonicalAbi.Proofs.Encodings
import Mathlib.Data.List.Forall2

/-!
# Running code

What a piece of code does when a machine runs it, with one rule for each way to put code together.
-/

namespace CanonicalAbi

open Exec

variable {α β γ τ : Type} {b : β} {vs vals : List Value} {i : Instr} {args rs : List Reg}
  {body : Code (List Reg)} {k n : Nat} {bodies : List (Code (List Reg))}

/-! ## Outcomes -/

/-- A computation either ends as `Q` says or fails as `E` says. -/
def Does (E : Failure → Prop) (x : ExceptT Failure (StateM τ) β) (m : τ) (Q : β → τ → Prop) :
    Prop :=
  match runFrom x m with
  | (.ok b, m') => Q b m'
  | (.error e, _) => E e

namespace Does

variable {E : Failure → Prop} {x : ExceptT Failure (StateM τ) β} {m m' : τ} {Q Q' : β → τ → Prop}

theorem of_ok (h : runFrom x m = (.ok b, m')) (hQ : Q b m') : Does E x m Q := by
  rw [Does, h]
  exact hQ

theorem of_error {e : Failure} (h : runFrom x m = (.error e, m')) (he : E e) : Does E x m Q := by
  rw [Does, h]
  exact he

theorem pure (hQ : Q b m) : Does E (pure b) m Q := hQ

theorem imp (h : Does E x m Q) (hQ : ∀ b m', Q b m' → Q' b m') : Does E x m Q' := by
  rw [Does] at h ⊢
  revert h
  rcases runFrom x m with ⟨e | b, m'⟩
  · exact id
  · exact hQ b m'

theorem bind {f : β → ExceptT Failure (StateM τ) γ} {R : γ → τ → Prop} (h : Does E x m Q)
    (hf : ∀ b m', Q b m' → Does E (f b) m' R) : Does E (x >>= f) m R := by
  rw [Does] at h ⊢
  rw [runFrom_bind]
  revert h
  rcases runFrom x m with ⟨e | b, m'⟩
  · exact id
  · exact hf b m'

theorem after {f : β → ExceptT Failure (StateM τ) γ} {R : γ → τ → Prop}
    (h : runFrom x m = (.ok b, m')) (hf : Does E (f b) m' R) : Does E (x >>= f) m R := by
  rw [Does] at hf ⊢
  rwa [runFrom_bind_ok h]

theorem outcome (h : Does E x m Q) : Does E x m fun b m' => Q b m' ∧ runFrom x m = (.ok b, m') := by
  rw [Does] at h ⊢
  revert h
  rcases runFrom x m with ⟨e | b, m'⟩
  · exact id
  · exact fun hQ => ⟨hQ, rfl⟩

theorem elim_ok (h : Does E x m Q) (hx : runFrom x m = (.ok b, m')) : Q b m' := by
  rw [Does, hx] at h
  exact h

theorem exists_ok (h : Does (fun _ => False) x m Q) :
    ∃ b m', runFrom x m = (.ok b, m') ∧ Q b m' := by
  rw [Does] at h
  revert h
  rcases runFrom x m with ⟨e | b, m'⟩
  · exact False.elim
  · exact fun hQ => ⟨b, m', rfl, hQ⟩

end Does

/-! ## Registers -/

def Machine.reg (m : Machine α) (r : Nat) : Value := m.registers.getD r .nothing

/-- Machines that differ in registers only. -/
structure Machine.Alike (m m' : Machine α) : Prop where
  world : m.world = m'.world
  borrowed : m.borrowed = m'.borrowed
  scratch : m.scratch = m'.scratch
  lent : m.lent = m'.lent
  results : m.results = m'.results

theorem Machine.Alike.refl (m : Machine α) : m.Alike m := ⟨rfl, rfl, rfl, rfl, rfl⟩

theorem Machine.Alike.eq {m m' : Machine α} (h : m.Alike m') :
    m = { m' with registers := m.registers } := by
  cases m
  obtain ⟨rfl, rfl, rfl, rfl, rfl⟩ := h
  rfl

theorem Machine.Alike.trans {m m' m'' : Machine α} (h : m.Alike m') (h' : m'.Alike m'') :
    m.Alike m'' :=
  ⟨h.world.trans h'.world, h.borrowed.trans h'.borrowed, h.scratch.trans h'.scratch,
    h.lent.trans h'.lent, h.results.trans h'.results⟩

/-- The registers below `k` were left alone. -/
structure Kept (k : Nat) (m m' : Machine α) : Prop where
  size : m'.registers.size = m.registers.size
  reg : ∀ r < k, m'.reg r = m.reg r

namespace Kept

variable {k k' : Nat} {m m' m'' : Machine α}

theorem of_eq (h : m'.registers = m.registers) : Kept k m m' :=
  ⟨by rw [h], fun r _ => by rw [Machine.reg, h, Machine.reg]⟩

theorem trans (h : Kept k m m') (h' : Kept k' m' m'') (hk : k ≤ k') : Kept k m m'' :=
  ⟨h'.size.trans h.size,
    fun r hr => (h'.reg r (Nat.lt_of_lt_of_le hr hk)).trans (h.reg r hr)⟩

theorem mono (h : Kept k m m') (hk : k' ≤ k) : Kept k' m m' :=
  ⟨h.size, fun r hr => h.reg r (Nat.lt_of_lt_of_le hr hk)⟩

end Kept

/-- A machine, and the next register that code writes. -/
structure Point (α : Type) where
  next : Nat
  machine : Machine α

namespace Point

def Holds (p : Point α) (r : Reg) (v : Value) : Prop := r < p.next ∧ p.machine.reg r = v

def HoldsAll (p : Point α) (rs : List Reg) (vs : List Value) : Prop := List.Forall₂ p.Holds rs vs

/-- From `p` to `q` no register that was written changed. -/
structure Extends (p q : Point α) : Prop where
  next : p.next ≤ q.next
  kept : Kept p.next p.machine q.machine

variable {p q q' : Point α}

theorem Extends.trans (h : p.Extends q) (h' : q.Extends q') : p.Extends q' :=
  ⟨Nat.le_trans h.next h'.next, h.kept.trans h'.kept h.next⟩

theorem Extends.ahead (hk : p.next ≤ k) : p.Extends ⟨k, p.machine⟩ := ⟨hk, .of_eq rfl⟩

theorem Holds.extend {r : Reg} {v : Value} (h : p.Holds r v) (hq : p.Extends q) : q.Holds r v :=
  ⟨Nat.lt_of_lt_of_le h.1 hq.next, (hq.kept.reg r h.1).trans h.2⟩

theorem HoldsAll.extend (h : p.HoldsAll rs vs) (hq : p.Extends q) : q.HoldsAll rs vs :=
  h.imp fun _ _ h => h.extend hq

theorem HoldsAll.map_reg (h : p.HoldsAll rs vs) : rs.map p.machine.reg = vs := by
  induction h with
  | nil => rfl
  | cons h _ ih => rw [List.map_cons, h.2, ih]

theorem HoldsAll.append {rs' : List Reg} {vs' : List Value} (h : p.HoldsAll rs vs)
    (h' : p.HoldsAll rs' vs') : p.HoldsAll (rs ++ rs') (vs ++ vs') :=
  List.rel_append h h'

end Point

/-! ## Single steps -/

namespace Exec

@[simp] theorem runFrom_getRegs (regs : List Reg) (m : Machine α) :
    runFrom (getRegs regs) m = (.ok (regs.map m.reg), m) := rfl

theorem runFrom_act {β : Type} (a : Action α β) (m : Machine α) :
    runFrom (act a) m = ((runFrom a m.world).1, { m with world := (runFrom a m.world).2 }) := by
  have unfolded : runFrom (act a) m = (match runFrom a m.world with
      | (.ok b, w) => (.ok b, { m with world := w })
      | (.error e, w) => (.error e, { m with world := w })) := by
    simp only [act, runFrom_bind, runFrom_get, continueWith_ok, run_run_eq]
    rcases runFrom a m.world with ⟨e | b, w⟩ <;> rfl
  rw [unfolded]
  rcases runFrom a m.world with ⟨e | b, w⟩ <;> rfl

/-- The outcome of a call that has to give `count` results, given how it ended. -/
def ended (name : String) (count : Nat) : Except Failure (List β) → Except Failure (List β)
  | .error f => .error (.wrap .eval .invalidData (some f) ("call " ++ name))
  | .ok results =>
    if results.length ≠ count then
      .error (.stackMismatch .eval ("results of " ++ name) count results.length)
    else .ok results

theorem ended_eq_ok {name : String} {count : Nat} {r : Except Failure (List β)} {results : List β} :
    ended name count r = .ok results ↔ r = .ok results ∧ results.length = count := by
  cases r with
  | error f => simp [ended]
  | ok vs =>
    rw [ended]
    split
    · next wrong => exact ⟨nofun, fun h => absurd h.2 (Except.ok.inj h.1 ▸ wrong)⟩
    · next right => exact ⟨fun e => ⟨e, Except.ok.inj e ▸ not_not.mp right⟩, And.left⟩

theorem runFrom_outcome (name : String) (count : Nat) (call : Action α (List β)) (m : Machine α) :
    runFrom (outcome name count call) m
      = (ended name count (runFrom call m.world).1,
        { m with world := (runFrom call m.world).2 }) := by
  rw [outcome, runFrom_bind_ok (runFrom_get m)]
  simp only [run_run_eq]
  rcases runFrom call m.world with ⟨f | results, world⟩
  · rfl
  · by_cases wrong : results.length ≠ count
    · simp only [ended, if_pos wrong]
      rfl
    · simp only [ended, if_neg wrong]
      rfl

theorem load_eq_map (op : LoadOp) (addr : UInt32) :
    (load op addr : Exec α Value)
      = (fun n => .u64 (op.extend n)) <$> act (.load op.width addr) := by
  cases op <;> simp only [load, bind_pure_comp] <;> rfl

def setRange (registers : Array Value) (k : Nat) : List Value → Array Value
  | [] => registers
  | v :: vs => setRange (registers.setIfInBounds k v) (k + 1) vs

theorem runFrom_setRegs_take (k n : Nat) (vs : List Value) (m : Machine α) :
    runFrom (setRegs (List.range' k n) vs) m
      = (.ok (), { m with registers := setRange m.registers k (vs.take n) }) := by
  suffices ∀ (registers : Array Value) (k n : Nat),
      ((List.range' k n).zip vs).foldl (fun rs (r, v) => rs.setIfInBounds r v) registers
        = setRange registers k (vs.take n) by
    rw [setRegs, runFrom_modify, this]
  induction vs with
  | nil => exact fun _ _ n => by rw [List.zip_nil_right, List.take_nil]; rfl
  | cons v vs ih =>
    intro registers k n
    cases n with
    | zero => rfl
    | succ n => exact ih _ _ n

theorem runFrom_setRegs (k : Nat) (vs : List Value) (m : Machine α) :
    runFrom (setRegs (List.range' k vs.length) vs) m
      = (.ok (), { m with registers := setRange m.registers k vs }) := by
  rw [runFrom_setRegs_take, List.take_length]

@[simp] theorem size_setRange (registers : Array Value) (k : Nat) (vs : List Value) :
    (setRange registers k vs).size = registers.size := by
  induction vs generalizing registers k with
  | nil => rfl
  | cons v vs ih => simp [setRange, ih]

theorem getD_setRange_of_lt (registers : Array Value) {r : Nat} (hr : r < k) (vs : List Value) :
    (setRange registers k vs).getD r .nothing = registers.getD r .nothing := by
  induction vs generalizing registers k with
  | nil => rfl
  | cons v vs ih =>
    rw [setRange, ih _ (by omega)]
    simp only [Array.getD_eq_getD_getElem?]
    rw [Array.getElem?_setIfInBounds_ne (by omega)]

theorem kept_of_setRange {m m' : Machine α} (k : Nat) (vs : List Value)
    (h : m'.registers = setRange m.registers k vs) : Kept k m m' := by
  refine ⟨by rw [h, size_setRange], fun r hr => ?_⟩
  rw [Machine.reg, h]
  exact getD_setRange_of_lt _ hr _

theorem holdsAll_setRange (m : Machine α) (h : k + vs.length ≤ m.registers.size) :
    (⟨k + vs.length, { m with registers := setRange m.registers k vs }⟩ : Point α).HoldsAll
      (List.range' k vs.length) vs := by
  suffices ∀ (registers : Array Value) (k n : Nat), k + vs.length ≤ registers.size →
      k + vs.length ≤ n →
      (⟨n, { m with registers := setRange registers k vs }⟩ : Point α).HoldsAll
        (List.range' k vs.length) vs from this _ _ _ h (Nat.le_refl _)
  clear h
  induction vs with
  | nil => exact fun _ _ _ _ _ => .nil
  | cons v vs ih =>
    intro registers k n h hn
    simp only [List.length_cons] at h hn
    rw [List.length_cons, List.range'_succ, setRange]
    refine .cons ⟨show k < n by omega, ?_⟩ (ih _ _ _ (by simp; omega) (by omega))
    rw [Machine.reg, getD_setRange_of_lt _ (by omega), Array.getD_eq_getD_getElem?,
      Array.getElem?_setIfInBounds_self_of_lt (by omega)]
    rfl

variable [Allocator α] {c : Setting α} {scope : Scope}

@[simp] theorem steps_nil (m : Machine α) : runFrom (steps c scope []) m = (.ok (), m) := rfl

theorem steps_append (ss ts : List Step) :
    steps c scope (ss ++ ts) = steps c scope ss >>= fun _ => steps c scope ts := by
  induction ss with
  | nil => simp [steps]
  | cons s ss ih => simp [steps, ih]

theorem steps_singleton (s : Step) (m : Machine α) :
    runFrom (steps c scope [s]) m = runFrom (step c scope s) m := by
  simp only [steps, runFrom_bind]
  rcases runFrom (step c scope s) m with ⟨e | b, m'⟩ <;> rfl

theorem nth_eq {blocks : List Block} {b : Block} (h : blocks[n]? = some b) :
    nth c scope n blocks = block c scope b := by
  induction blocks generalizing n with
  | nil => simp at h
  | cons b' bs ih =>
    cases n with
    | zero =>
      obtain rfl : b' = b := by simpa using h
      rfl
    | succ n => exact ih (by simpa using h)

end Exec

/-! ## Code -/

namespace Code

/-- Code that runs from a point either ends as `Q` says, with the registers that were in use left
alone, or fails as `E` says. There have to be enough registers. -/
def Runs [Allocator α] (E : Failure → Prop) (c : Setting α) (scope : Scope) (code : Code β)
    (p : Point α) (Q : β → Point α → Prop) : Prop :=
  (code.run p.next).next ≤ p.machine.registers.size →
    Does E (steps c scope (code.run p.next).steps) p.machine fun _ m =>
      Kept p.next p.machine m ∧ Q (code.run p.next).value ⟨(code.run p.next).next, m⟩

namespace Runs

variable [Allocator α] {E : Failure → Prop} {c : Setting α} {scope : Scope} {p : Point α}

theorem pure {Q : β → Point α → Prop} (h : Q b p) : (pure b : Code β).Runs E c scope p Q :=
  fun _ => Does.of_ok (steps_nil _) ⟨.of_eq rfl, h⟩

theorem imp {code : Code β} {Q Q' : β → Point α → Prop} (h : code.Runs E c scope p Q)
    (hQ : ∀ b q, p.Extends q → Q b q → Q' b q) : code.Runs E c scope p Q' := fun hsize =>
  (h hsize).imp fun _ _ ⟨kept, hq⟩ => ⟨kept, hQ _ _ ⟨code.grows _, kept⟩ hq⟩

theorem bind {x : Code β} {f : β → Code γ} {Q : β → Point α → Prop} {R : γ → Point α → Prop}
    (hx : x.Runs E c scope p Q)
    (hf : ∀ b q, p.Extends q → Q b q → (f b).Runs E c scope q R) :
    (x >>= f).Runs E c scope p R := by
  intro hsize
  have first := hx (Nat.le_trans ((f _).grows _) hsize)
  rw [Does] at first ⊢
  rw [bind_steps, steps_append, runFrom_bind]
  revert first
  rcases runFrom (steps c scope (x.run p.next).steps) p.machine with ⟨e | _, m⟩
  · exact id
  · rintro ⟨kept, hq⟩
    have second := hf _ ⟨_, m⟩ ⟨x.grows _, kept⟩ hq (kept.size ▸ hsize)
    refine Does.imp second ?_
    rintro _ m' ⟨kept', hr⟩
    exact ⟨kept.trans kept' (x.grows _), hr⟩

omit [Allocator α] in
theorem steps_ownBlocks {blocks : Code (List Block)} (silent : ∀ k, (blocks.run k).steps = [])
    (k : Reg) : ((blocks >>= own i args).run k).steps
      = [.exec i args (List.range' (blocks.run k).next i.results) (blocks.run k).value] := by
  rw [bind_steps, silent]
  rfl

/-- An instruction that owns blocks, which are no steps of their own. What the blocks do to the
registers above is forgotten. -/
theorem ownBlocks {blocks : Code (List Block)} {Q : List Reg → Point α → Prop}
    (silent : ∀ k, (blocks.run k).steps = []) (hargs : p.HoldsAll args vals)
    (h : (blocks.run p.next).next ≤ p.machine.registers.size →
      Does E (instr c scope (blocks.run p.next).value.length
        (fun n s => nth c s n (blocks.run p.next).value) i vals) p.machine
        fun results m => Kept p.next p.machine m ∧ results.length = i.results
          ∧ ∀ rs q, p.Extends q → q.machine.Alike m → q.HoldsAll rs results → Q rs q) :
    (blocks >>= own i args).Runs E c scope p Q := by
  intro hsize
  have hsize' : (blocks.run p.next).next + i.results ≤ p.machine.registers.size := hsize
  have grows := blocks.grows p.next
  have first := h (Nat.le_trans (Nat.le_add_right _ _) hsize')
  rw [Does] at first ⊢
  rw [steps_ownBlocks silent, steps_singleton, step, runFrom_bind, runFrom_getRegs,
    continueWith_ok, hargs.map_reg, runFrom_bind]
  revert first
  rcases runFrom (instr c scope (blocks.run p.next).value.length
    (fun n s => nth c s n (blocks.run p.next).value) i vals) p.machine with ⟨e | results, m⟩
  · exact id
  · rintro ⟨kept, hlen, hq⟩
    rw [continueWith_ok, runFrom_setRegs_take, List.take_of_length_le (Nat.le_of_eq hlen)]
    let m' : Machine α :=
      { m with registers := setRange m.registers (blocks.run p.next).next results }
    have kept' : Kept p.next p.machine m' := kept.trans (kept_of_setRange _ results rfl) grows
    refine ⟨kept', hq _ ⟨_, _⟩ ⟨Nat.le_trans grows (Nat.le_add_right _ _), kept'⟩
      ⟨rfl, rfl, rfl, rfl, rfl⟩ ?_⟩
    change Point.HoldsAll ⟨_ + i.results, m'⟩ (List.range' _ i.results) results
    rw [← hlen]
    exact holdsAll_setRange m (by rw [kept.size, hlen]; exact hsize')

theorem emit {Q : List Reg → Point α → Prop} (hargs : p.HoldsAll args vals)
    (h : Does E (instr c scope 0 (fun n s => nth c s n []) i vals) p.machine
      fun results m => m.registers = p.machine.registers ∧ results.length = i.results
        ∧ ∀ rs q, p.Extends q → q.machine.Alike m → q.HoldsAll rs results → Q rs q) :
    (emit i args).Runs E c scope p Q := by
  have silent : ∀ k, ((Pure.pure [] : Code (List Block)).run k).steps = [] := fun _ => rfl
  have := ownBlocks (i := i) (Q := Q) silent hargs fun _ =>
    h.imp fun _ _ ⟨kept, rest⟩ => ⟨.of_eq kept, rest⟩
  rwa [pure_bind] at this

theorem emitOne {Q : Reg → Point α → Prop} (hi : i.results = 1) (hargs : p.HoldsAll args vals)
    (h : Does E (instr c scope 0 (fun n s => nth c s n []) i vals) p.machine
      fun results m => m.registers = p.machine.registers ∧ ∃ v, results = [v]
        ∧ ∀ r q, p.Extends q → q.machine.Alike m → q.Holds r v → Q r q) :
    (emitOne i args).Runs E c scope p Q := by
  refine bind (Q := fun rs q => Q (rs.headD 0) q) (emit hargs (h.imp ?_)) ?_
  · rintro results m ⟨kept, v, rfl, hq⟩
    refine ⟨kept, hi.symm, fun rs q hpq alike holds => ?_⟩
    cases holds with
    | cons holds rest =>
      cases rest
      exact hq _ q hpq alike holds
  · exact fun rs q _ hq => pure hq

theorem emitNone {Q : Unit → Point α → Prop} (hi : i.results = 0) (hargs : p.HoldsAll args vals)
    (h : Does E (instr c scope 0 (fun n s => nth c s n []) i vals) p.machine
      fun results m => m.registers = p.machine.registers ∧ results = []
        ∧ ∀ q, p.Extends q → q.machine.Alike m → Q () q) :
    (emitNone i args).Runs E c scope p Q := by
  refine bind (Q := fun _ q => Q () q) (emit hargs (h.imp ?_)) ?_
  · rintro results m ⟨kept, rfl, hq⟩
    exact ⟨kept, hi.symm, fun rs q hpq alike _ => hq q hpq alike⟩
  · exact fun _ q _ hq => pure hq

end Runs

/-! ## Blocks -/

def blocks : List (Code (List Reg)) → Code (List Block)
  | [] => return []
  | body :: bodies => do
    let first ← block body
    let rest ← blocks bodies
    return first :: rest

theorem steps_blocks (bodies : List (Code (List Reg))) (k : Reg) :
    ((blocks bodies).run k).steps = [] := by
  induction bodies generalizing k with
  | nil => rfl
  | cons body bodies ih =>
    have rest := ih (body.run k).next
    simp only [blocks, bind_steps, run_pure, List.append_nil]
    exact rest

theorem length_blocks (bodies : List (Code (List Reg))) (k : Reg) :
    ((blocks bodies).run k).value.length = bodies.length := by
  induction bodies generalizing k with
  | nil => rfl
  | cons body bodies ih => exact congrArg (· + 1) (ih (body.run k).next)

theorem getElem?_blocks (h : bodies[n]? = some body) (k : Reg) :
    ∃ k', k ≤ k' ∧ (body.run k').next ≤ ((blocks bodies).run k).next
      ∧ ((blocks bodies).run k).value[n]? = some (.mk (body.run k').steps (body.run k').value) := by
  induction bodies generalizing n k with
  | nil => simp at h
  | cons first bodies ih =>
    cases n with
    | zero =>
      obtain rfl : first = body := by simpa using h
      exact ⟨k, Nat.le_refl _, (blocks bodies).grows _, rfl⟩
    | succ n =>
      obtain ⟨k', hk, hnext, hget⟩ := ih (by simpa using h) (first.run k).next
      exact ⟨k', Nat.le_trans (first.grows k) hk, hnext, hget⟩

variable [Allocator α] {E : Failure → Prop} {c : Setting α} {scope : Scope}

theorem Runs.block {m : Machine α} {Q : List Reg → Point α → Prop}
    (h : body.Runs E c scope ⟨k, m⟩ Q) (hsize : (body.run k).next ≤ m.registers.size) :
    Does E (Exec.block c scope (.mk (body.run k).steps (body.run k).value)) m
      fun vals m' => Kept k m m' ∧ ∃ rs n, Q rs ⟨n, m'⟩ ∧ vals = rs.map m'.reg := by
  refine (h hsize).bind ?_
  rintro _ m' ⟨kept, hq⟩
  exact Does.of_ok (Exec.runFrom_getRegs _ _) ⟨kept, _, _, hq, rfl⟩

/-- Runs one of several blocks, on a machine that kept the registers below `k`. -/
theorem Runs.nth (hbody : bodies[n]? = some body) {m : Machine α} {Q : List Reg → Point α → Prop}
    (h : ∀ k', k ≤ k' → body.Runs E c scope ⟨k', m⟩ Q)
    (hsize : ((Code.blocks bodies).run k).next ≤ m.registers.size) :
    Does E (Exec.nth c scope n ((Code.blocks bodies).run k).value) m
      fun vals m' => Kept k m m' ∧ ∃ rs n, Q rs ⟨n, m'⟩ ∧ vals = rs.map m'.reg := by
  obtain ⟨k', hk, hnext, hget⟩ := getElem?_blocks hbody k
  rw [Exec.nth_eq hget]
  refine ((h k' hk).block (Nat.le_trans hnext hsize)).imp ?_
  rintro vals m' ⟨kept, rest⟩
  exact ⟨kept.mono hk, rest⟩

omit [Allocator α] in
theorem runCase_eq {index : UInt32} (hcount : index < .ofNat bodies.length)
    (run : Nat → Scope → Exec α (List Value)) :
    Exec.runCase ((blocks bodies).run k).value.length run index scope = run index.toNat scope := by
  rw [Exec.runCase, if_pos (by rwa [length_blocks])]

end Code

end CanonicalAbi
