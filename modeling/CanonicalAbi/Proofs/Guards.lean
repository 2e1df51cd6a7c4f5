import CanonicalAbi.Proofs.Execution

/-!
# Guarded runs

A machine looks up registers, operands, blocks, elements and payloads by position, and relies on
finding them. Here is the same machine with a check in front of every look-up, and with a check of
what an instruction finds in its registers. The checks fail as one likes.
-/

namespace CanonicalAbi

/-- How many elements of lists and payloads of cases are being handled, one inside another. -/
structure Frames where
  elements : Nat := 0
  payloads : Nat := 0

namespace Instr

/-- The number of operands that an instruction looks up. A set of flags is read from the integers
that have room for its flags, which might be fewer than it is stored in. -/
def reads : Instr → Nat
  | liftFlags _ count => (count + 31) / 32
  | i => i.operands

/-- The number of values that an instruction takes from what each of its blocks yields. -/
def wants : Instr → Nat
  | liftList _ _ => 1
  | _ => 0

def enter (i : Instr) (frames : Frames) : Frames :=
  match i with
  | lowerList _ _ _ | liftList _ _ | freeList _ _ =>
    { frames with elements := frames.elements + 1 }
  | lowerSum _ _ _ _ => { frames with payloads := frames.payloads + 1 }
  | _ => frames

/-- Whether there is an element or a payload for an instruction that asks for it. -/
def finds (i : Instr) (frames : Frames) : Bool :=
  match i with
  | iterElem _ | iterBase => frames.elements ≠ 0
  | payload => frames.payloads ≠ 0
  | _ => true

end Instr

variable {α β γ : Type}

namespace Guarded

variable (vet : Instr → List Value → Bool) (fault : Failure)

def require (condition : Bool) : Exec α Unit := if condition then pure () else throw fault

def getRegs (regs : List Reg) : Exec α (List Value) := do
  require fault (regs.all (· < (← get).registers.size))
  Exec.getRegs regs

def setRegs (regs : List Reg) (values : List Value) : Exec α Unit := do
  require fault (values.length ≤ regs.length)
  require fault ((regs.take values.length).all (· < (← get).registers.size))
  Exec.setRegs regs values

mutual

def step [Allocator α] (c : Setting α) (frames : Frames) (scope : Scope) : Step → Exec α Unit
  | .exec i args outs blocks => do
    require fault (i.reads ≤ args.length && i.finds frames)
    let values ← getRegs fault args
    require fault (vet i values)
    let results ← Exec.instr c scope blocks.length
      (fun n scope => do
        let out ← nth c (i.enter frames) scope n blocks
        require fault (i.wants ≤ out.length)
        return out)
      i values
    setRegs fault outs results
  | .scratch size align out => do
    let ptr ← Exec.act (.alloc size align)
    modify fun m => { m with scratch := ⟨ptr, size, align⟩ :: m.scratch }
    setRegs fault [out] [.ofU32 ptr]

def steps [Allocator α] (c : Setting α) (frames : Frames) (scope : Scope) :
    List Step → Exec α Unit
  | [] => pure ()
  | s :: ss => do
    step c frames scope s
    steps c frames scope ss

def block [Allocator α] (c : Setting α) (frames : Frames) (scope : Scope) :
    Block → Exec α (List Value)
  | .mk ss results => do
    steps c frames scope ss
    getRegs fault results

def nth [Allocator α] (c : Setting α) (frames : Frames) (scope : Scope) :
    Nat → List Block → Exec α (List Value)
  | 0, b :: _ => block c frames scope b
  | n + 1, _ :: bs => nth c frames scope n bs
  | _, [] => throw fault

end

end Guarded

/-! ## Checks that never fail -/

/-- The computation `y` is `x` with checks that do not fail, and `x` ends as `Q` says or fails as
`E` says. -/
def Guards (E : Failure → Prop) (y x : Exec α β) (m : Machine α) (Q : β → Machine α → Prop) :
    Prop :=
  runFrom y m = runFrom x m ∧ Does E x m Q

namespace Guards

variable {E : Failure → Prop} {x y : Exec α β} {m : Machine α} {Q Q' : β → Machine α → Prop}

theorem of_does (h : Does E x m Q) : Guards E x x m Q := ⟨rfl, h⟩

theorem imp (h : Guards E y x m Q) (hQ : ∀ b m', Q b m' → Q' b m') : Guards E y x m Q' :=
  ⟨h.1, h.2.imp hQ⟩

theorem bind {g f : β → Exec α γ} {R : γ → Machine α → Prop} (h : Guards E y x m Q)
    (hf : ∀ b m', Q b m' → Guards E (g b) (f b) m' R) : Guards E (y >>= g) (x >>= f) m R := by
  obtain ⟨same, does⟩ := h
  refine ⟨?_, does.bind fun b m' hq => (hf b m' hq).2⟩
  rw [runFrom_bind, runFrom_bind, same]
  rw [Does] at does
  revert does
  rcases runFrom x m with ⟨e | b, m'⟩
  · exact fun _ => rfl
  · exact fun hq => (hf b m' hq).1

theorem after {z : Exec α γ} {c : γ} {m' : Machine α} {g f : γ → Exec α β}
    (hz : runFrom z m = (.ok c, m')) (h : Guards E (g c) (f c) m' Q) :
    Guards E (z >>= g) (z >>= f) m Q :=
  ⟨by rw [runFrom_bind_ok hz, runFrom_bind_ok hz, h.1], h.2.after hz⟩

theorem require {fault : Failure} {condition : Bool} {g : Unit → Exec α β}
    (hc : condition = true) (h : Guards E (g ()) x m Q) :
    Guards E (Guarded.require fault condition >>= g) x m Q := by
  have passed : runFrom (Guarded.require fault condition) m = (.ok (), m) := by
    rw [Guarded.require, if_pos hc]
    rfl
  exact ⟨(runFrom_bind_ok passed).trans h.1, h.2⟩

theorem checked {fault : Failure} {condition : β → Bool} (h : Guards E y x m Q)
    (hc : ∀ b m', Q b m' → condition b = true) :
    Guards E (do let b ← y; Guarded.require fault (condition b); return b) x m Q := by
  have unchecked : x = (x >>= fun b => Pure.pure b) := (bind_pure x).symm
  rw [unchecked]
  exact h.bind fun b m' hq => require (hc b m' hq) (of_does (Does.pure hq))

end Guards

namespace Guarded

variable {fault : Failure} {m : Machine α}

theorem runFrom_getRegs {regs : List Reg} (h : ∀ r ∈ regs, r < m.registers.size) :
    runFrom (getRegs fault regs) m = runFrom (Exec.getRegs regs) m := by
  have all : regs.all (· < m.registers.size) = true := by simpa using h
  rw [getRegs, runFrom_bind_ok (runFrom_get m), all]
  rfl

theorem runFrom_setRegs {regs : List Reg} {values : List Value} (hlen : values.length = regs.length)
    (h : ∀ r ∈ regs, r < m.registers.size) :
    runFrom (setRegs fault regs values) m = runFrom (Exec.setRegs regs values) m := by
  have all : regs.all (· < m.registers.size) = true := by simpa using h
  have enough : runFrom (require fault (values.length ≤ regs.length)) m = (.ok (), m) := by
    rw [hlen]
    simp [require]
  rw [setRegs, runFrom_bind_ok enough, runFrom_bind_ok (runFrom_get m), hlen, List.take_length, all]
  rfl

end Guarded

end CanonicalAbi
