import CanonicalAbi.Proofs.Parcels
import CanonicalAbi.Proofs.Transfers

/-!
# Mirroring

How a machine keeps to what `send` and `receive` say. A computation mirrors work on handles if it
does the same to the handles and fails where that fails; besides, memory may run out.
-/

namespace CanonicalAbi

variable {α β γ δ ε : Type} {f : β → Exec α δ} {i : Instr} {args : List Reg} {vals : List Value}

def Machine.custody (m : Machine α) : Custody := ⟨m.world.table, m.lent⟩

theorem Machine.Alike.custody {m m' : Machine α} (h : m.Alike m') : m.custody = m'.custody := by
  rw [Machine.custody, h.world, h.lent, Machine.custody]

theorem Does.weaken {τ : Type} {E E' : Failure → Prop} {x : ExceptT Failure (StateM τ) β} {m : τ}
    {Q : β → τ → Prop} (h : Does E x m Q) (hE : ∀ e, E e → E' e) : Does E' x m Q := by
  rw [Does] at h ⊢
  revert h
  rcases runFrom x m with ⟨e | b, m'⟩
  · exact hE e
  · exact id

/-! ## Computations -/

/-- A computation does what `x` says to the handles, and ends as `Q` says of the result of `x` and
of its own. It fails if `x` does, and otherwise only for want of memory. -/
def Mirrors (x : Passing γ) (y : Exec α β) (m : Machine α) (Q : γ → β → Machine α → Prop) : Prop :=
  Does (fun e => e.IsRefusal ∨ x.run m.custody = none) y m fun b m' =>
    ∃ a, x.run m.custody = some (a, m'.custody) ∧ Q a b m'

namespace Mirrors

variable {x : Passing γ} {y : Exec α β} {m m' : Machine α} {Q : γ → β → Machine α → Prop}

theorem imp {Q' : γ → β → Machine α → Prop} (h : Mirrors x y m Q)
    (hQ : ∀ a b m', Q a b m' → Q' a b m') : Mirrors x y m Q' := by
  refine Does.imp h ?_
  rintro b m' ⟨a, hx, hq⟩
  exact ⟨a, hx, hQ a b m' hq⟩

theorem of_error {e : Failure} (hy : runFrom y m = (.error e, m')) (hx : x.run m.custody = none) :
    Mirrors x y m Q :=
  Does.of_error hy (.inr hx)

theorem of_ok {a : γ} {b : β} (hy : runFrom y m = (.ok b, m'))
    (hx : x.run m.custody = some (a, m'.custody)) (hQ : Q a b m') : Mirrors x y m Q :=
  Does.of_ok hy ⟨a, hx, hQ⟩

theorem bind {g : γ → Passing ε} {R : ε → δ → Machine α → Prop} (h : Mirrors x y m Q)
    (hf : ∀ a b m', Q a b m' → Mirrors (g a) (f b) m' R) : Mirrors (x >>= g) (y >>= f) m R := by
  refine Does.bind (Does.weaken h ?_) ?_
  · rintro e (refusal | failed)
    · exact .inl refusal
    · exact .inr (Passing.run_bind_none failed)
  · rintro b m' ⟨a, hx, hq⟩
    rw [Passing.run_bind_some hx]
    exact hf a b m' hq

theorem map (g : γ → ε) {R : ε → β → Machine α → Prop}
    (h : Mirrors x y m fun a b m' => R (g a) b m') : Mirrors (g <$> x) y m R := by
  refine Does.imp (Does.weaken h ?_) ?_
  · rintro e (refusal | failed)
    · exact .inl refusal
    · right
      rw [StateT.run_map, failed]
      rfl
  · rintro b m' ⟨a, hx, hq⟩
    refine ⟨g a, ?_, hq⟩
    rw [StateT.run_map, hx]
    rfl

theorem after {g : Passing ε} {R : ε → δ → Machine α → Prop} {P : β → Machine α → Prop}
    (h : Does (·.IsRefusal) y m P)
    (hf : ∀ b m', P b m' → m'.custody = m.custody ∧ Mirrors g (f b) m' R) :
    Mirrors g (y >>= f) m R := by
  refine Does.bind (Does.weaken h fun e refusal => .inl refusal) ?_
  intro b m' hp
  obtain ⟨same, second⟩ := hf b m' hp
  rw [← same]
  exact second

theorem before {R : γ → δ → Machine α → Prop} (h : Mirrors x y m Q)
    (hf : ∀ a b m', Q a b m' →
      Does (·.IsRefusal) (f b) m' fun d m'' => m''.custody = m'.custody ∧ R a d m'') :
    Mirrors x (y >>= f) m R := by
  refine Does.bind h ?_
  rintro b m' ⟨a, hx, hq⟩
  refine Does.imp (Does.weaken (hf a b m' hq) fun e refusal => .inl refusal) ?_
  rintro d m'' ⟨same, hr⟩
  exact ⟨a, same ▸ hx, hr⟩

end Mirrors

/-! ## Code -/

namespace Code

variable [Allocator α]

def Mirrors (c : Setting α) (scope : Scope) (code : Code β) (p : Point α) (x : Passing γ)
    (Q : γ → β → Point α → Prop) : Prop :=
  code.Runs (fun e => e.IsRefusal ∨ x.run p.machine.custody = none) c scope p fun b q =>
    ∃ a, x.run p.machine.custody = some (a, q.machine.custody) ∧ Q a b q

theorem Runs.weaken {E E' : Failure → Prop} {c : Setting α} {scope : Scope} {p : Point α}
    {code : Code β} {Q : β → Point α → Prop} (h : code.Runs E c scope p Q)
    (hE : ∀ e, E e → E' e) : code.Runs E' c scope p Q :=
  fun hsize => (h hsize).weaken hE

namespace Mirrors

variable {c : Setting α} {scope : Scope} {p : Point α} {x : Passing γ} {code : Code β}
  {Q : γ → β → Point α → Prop}

theorem imp {Q' : γ → β → Point α → Prop} (h : code.Mirrors c scope p x Q)
    (hQ : ∀ a b q, p.Extends q → Q a b q → Q' a b q) : code.Mirrors c scope p x Q' := by
  refine Runs.imp h ?_
  rintro b q later ⟨a, hx, hq⟩
  exact ⟨a, hx, hQ a b q later hq⟩

theorem pure {a : γ} {b : β} (h : Q a b p) :
    (pure b : Code β).Mirrors c scope p (pure a) Q :=
  Runs.pure ⟨a, rfl, h⟩

theorem bind {f : β → Code δ} {g : γ → Passing ε} {R : ε → δ → Point α → Prop}
    (h : code.Mirrors c scope p x Q)
    (hf : ∀ a b q, p.Extends q → Q a b q → (f b).Mirrors c scope q (g a) R) :
    (code >>= f).Mirrors c scope p (x >>= g) R := by
  refine Runs.bind (Runs.weaken h ?_) ?_
  · rintro e (refusal | failed)
    · exact .inl refusal
    · exact .inr (Passing.run_bind_none failed)
  · rintro b q later ⟨a, hx, hq⟩
    rw [Passing.run_bind_some hx]
    exact hf a b q later hq

theorem map (g : γ → ε) {R : ε → β → Point α → Prop}
    (h : code.Mirrors c scope p x fun a b q => R (g a) b q) :
    code.Mirrors c scope p (g <$> x) R := by
  refine Runs.imp (Runs.weaken h ?_) ?_
  · rintro e (refusal | failed)
    · exact .inl refusal
    · right
      rw [StateT.run_map, failed]
      rfl
  · rintro b q _ ⟨a, hx, hq⟩
    refine ⟨g a, ?_, hq⟩
    rw [StateT.run_map, hx]
    rfl

theorem after {f : β → Code δ} {g : Passing ε} {R : ε → δ → Point α → Prop}
    {P : β → Point α → Prop} (h : code.Runs (·.IsRefusal) c scope p P)
    (hf : ∀ b q, p.Extends q → P b q → q.machine.custody = p.machine.custody
      ∧ (f b).Mirrors c scope q g R) :
    (code >>= f).Mirrors c scope p g R := by
  refine Runs.bind (Runs.weaken h fun e refusal => .inl refusal) ?_
  intro b q later hp
  obtain ⟨same, second⟩ := hf b q later hp
  rw [← same]
  exact second

theorem before {f : β → Code δ} {R : γ → δ → Point α → Prop} (h : code.Mirrors c scope p x Q)
    (hf : ∀ a b q, p.Extends q → Q a b q → (f b).Runs (·.IsRefusal) c scope q fun d q' =>
      q'.machine.custody = q.machine.custody ∧ R a d q') :
    (code >>= f).Mirrors c scope p x R := by
  refine Runs.bind h ?_
  rintro b q later ⟨a, hx, hq⟩
  refine Runs.imp (Runs.weaken (hf a b q later hq) fun e refusal => .inl refusal) ?_
  rintro d q' _ ⟨same, hr⟩
  exact ⟨a, same ▸ hx, hr⟩

/-! ### Instructions -/

theorem ownBlocks {blocks : Code (List Block)} {Q : γ → List Reg → Point α → Prop}
    (silent : ∀ k, (blocks.run k).steps = []) (hargs : p.HoldsAll args vals)
    (h : (blocks.run p.next).next ≤ p.machine.registers.size →
      CanonicalAbi.Mirrors x (Exec.instr c scope (blocks.run p.next).value.length
        (fun n s => Exec.nth c s n (blocks.run p.next).value) i vals) p.machine
        fun a results m => Kept p.next p.machine m ∧ results.length = i.results
          ∧ ∀ rs q, p.Extends q → q.machine.Alike m → q.HoldsAll rs results → Q a rs q) :
    (blocks >>= own i args).Mirrors c scope p x Q := by
  refine Runs.ownBlocks silent hargs fun hsize => Does.imp (h hsize) ?_
  rintro results m ⟨a, hx, kept, length, hq⟩
  refine ⟨kept, length, fun rs q later alike holds => ⟨a, ?_, hq rs q later alike holds⟩⟩
  rw [alike.custody]
  exact hx

theorem emit {Q : γ → List Reg → Point α → Prop} (hargs : p.HoldsAll args vals)
    (h : CanonicalAbi.Mirrors x (Exec.instr c scope 0 (fun n s => Exec.nth c s n []) i vals)
      p.machine fun a results m => m.registers = p.machine.registers
        ∧ results.length = i.results
        ∧ ∀ rs q, p.Extends q → q.machine.Alike m → q.HoldsAll rs results → Q a rs q) :
    (emit i args).Mirrors c scope p x Q := by
  refine Runs.emit hargs (Does.imp h ?_)
  rintro results m ⟨a, hx, hregs, length, hq⟩
  refine ⟨hregs, length, fun rs q later alike holds => ⟨a, ?_, hq rs q later alike holds⟩⟩
  rw [alike.custody]
  exact hx

theorem emitOne {Q : γ → Reg → Point α → Prop} (hi : i.results = 1) (hargs : p.HoldsAll args vals)
    (h : CanonicalAbi.Mirrors x (Exec.instr c scope 0 (fun n s => Exec.nth c s n []) i vals)
      p.machine fun a results m => m.registers = p.machine.registers ∧ ∃ v, results = [v]
        ∧ ∀ r q, p.Extends q → q.machine.Alike m → q.Holds r v → Q a r q) :
    (emitOne i args).Mirrors c scope p x Q := by
  refine Runs.emitOne hi hargs (Does.imp h ?_)
  rintro results m ⟨a, hx, hregs, v, hv, hq⟩
  refine ⟨hregs, v, hv, fun r q later alike holds => ⟨a, ?_, hq r q later alike holds⟩⟩
  rw [alike.custody]
  exact hx

/-! ### Blocks -/

variable {bodies : List (Code (List Reg))} {body : Code (List Reg)} {k : Reg} {m : Machine α}

theorem nth {n : Nat} (hbody : bodies[n]? = some body) {Q : γ → List Reg → Point α → Prop}
    (h : ∀ k', k ≤ k' → body.Mirrors c scope ⟨k', m⟩ x Q)
    (hsize : ((Code.blocks bodies).run k).next ≤ m.registers.size) :
    CanonicalAbi.Mirrors x (Exec.nth c scope n ((Code.blocks bodies).run k).value) m
      fun a vals m' => Kept k m m' ∧ ∃ rs n, Q a rs ⟨n, m'⟩ ∧ vals = rs.map m'.reg := by
  refine Does.imp (Runs.nth hbody (Q := fun rs q =>
    ∃ a, x.run m.custody = some (a, q.machine.custody) ∧ Q a rs q) h hsize) ?_
  rintro vals m' ⟨kept, rs, n, ⟨a, hx, hq⟩, hvals⟩
  exact ⟨a, hx, kept, rs, n, hq, hvals⟩

end Mirrors

end Code

/-! ## Handles -/

namespace Passing

variable {c : Custody} (hc : c.table = none)

include hc

theorem run_onTable_none (op : TableOp β) : (onTable op).run c = none := by
  simp only [StateT.run, onTable, hc]

theorem run_sendHandle_none (form : HandleForm) (type : Option Label) (v : Value) :
    (sendHandle form type v).run c = none := by
  cases form with
  | own =>
    cases v with
    | own rep => exact run_onTable_none hc _
    | _ => rfl
  | borrow =>
    cases v with
    | borrow rep lender => exact run_bind_none (run_onTable_none hc _)
    | _ => rfl

theorem run_receiveHandle_none (form : HandleForm) (type : Option Label) (h : Handle) :
    (receiveHandle form type h).run c = none := by
  cases form with
  | own =>
    rw [receiveHandle, StateT.run_map, run_onTable_none hc]
    rfl
  | borrow =>
    rw [receiveHandle, StateT.run_map, run_onTable_none hc]
    rfl

end Passing

namespace Exec

variable {m : Machine α}

theorem onTable_mirrors {t : HandleTable} (ht : m.world.table = some t) (op : TableOp β) :
    Mirrors (Passing.onTable op) (act (.onTable op)) m fun a b m' => b = a
      ∧ ∃ table, m' = { m with world := { m.world with table } } := by
  have ran := runFrom_onTable op ht
  rcases hop : runFrom op t with ⟨e | b, t'⟩
  · rw [hop] at ran
    refine .of_error ran ?_
    simp only [StateT.run, Passing.onTable, Machine.custody, ht, hop]
  · rw [hop] at ran
    refine .of_ok (a := b) ran ?_ ⟨rfl, _, rfl⟩
    simp only [StateT.run, Passing.onTable, Machine.custody, ht, hop]

theorem requireTable_mirrors {x : Passing γ} {y : Exec α β} {Q : γ → β → Machine α → Prop}
    (absent : m.custody.table = none → x.run m.custody = none)
    (h : ∀ t, m.world.table = some t → Mirrors x y m Q) :
    Mirrors x (requireTable >>= fun _ => y) m Q := by
  cases ht : m.world.table with
  | none =>
    obtain ⟨e, refused⟩ := runFrom_requireTable_none ht
    exact .of_error (runFrom_bind_error refused) (absent ht)
  | some t =>
    refine .after (P := fun _ m' => m' = m) (Does.of_ok (runFrom_requireTable_some ht) rfl) ?_
    rintro _ _ rfl
    exact ⟨rfl, h t ht⟩

theorem lowerHandle_mirrors (form : HandleForm) (l : Label) (type : Option Label) (v : Value) :
    Mirrors (Passing.sendHandle form type v) (lowerHandle form l type v) m fun h w m' =>
      w = .ofU32 h ∧ ∃ table lent, m' = { m with world := { m.world with table }, lent } := by
  refine requireTable_mirrors (fun absent => Passing.run_sendHandle_none absent form type v) ?_
  intro t ht
  cases form with
  | own =>
    cases v with
    | own rep =>
      refine (onTable_mirrors ht _).before ?_
      rintro _ h _ ⟨rfl, table, rfl⟩
      exact Does.pure ⟨rfl, rfl, table, m.lent, rfl⟩
    | _ => exact .of_error rfl rfl
  | borrow =>
    cases v with
    | borrow rep lender =>
      refine (onTable_mirrors ht _).bind ?_
      rintro _ h _ ⟨rfl, table, rfl⟩
      exact .of_ok rfl rfl ⟨rfl, table, h :: m.lent, rfl⟩
    | _ => exact .of_error rfl rfl

theorem liftHandle_mirrors (form : HandleForm) (type : Option Label) (h : Handle) :
    Mirrors (Passing.receiveHandle form type h) (liftHandle form type h) m fun v w m' =>
      w = v ∧ ∃ table, m' = { m with world := { m.world with table } } := by
  refine requireTable_mirrors (fun absent => Passing.run_receiveHandle_none absent form type h) ?_
  intro t ht
  cases form with
  | own =>
    refine ((onTable_mirrors ht _).before ?_).map _
    rintro _ rep _ ⟨rfl, table, rfl⟩
    exact Does.pure ⟨rfl, rfl, table, rfl⟩
  | borrow =>
    refine ((onTable_mirrors ht _).before ?_).map _
    rintro _ rep _ ⟨rfl, table, rfl⟩
    exact Does.pure ⟨rfl, rfl, table, rfl⟩

end Exec

end CanonicalAbi
