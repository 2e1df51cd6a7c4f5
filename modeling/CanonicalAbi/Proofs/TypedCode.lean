import CanonicalAbi.Proofs.Typing

/-!
# Code respects types

Lowering a value takes one operand of its type and leaves operands of the core types that the type
flattens to, and lifting does the converse.
-/

namespace CanonicalAbi

open List

variable {t : OperandType} {r : Reg}

def TypedReg (Γ : RegTypes) (r : Reg) (t : OperandType) : Prop := Γ[r]? = some (some t)

theorem TypedReg.mono {Γ Γ' : RegTypes} (hpre : Γ <+: Γ') (h : TypedReg Γ r t) : TypedReg Γ' r t :=
  Named.get hpre h

namespace Typed

variable {Γ Γ' : RegTypes} {regs regs' : List Reg} {ts ts' : List OperandType}

theorem nil : Typed Γ [] [] := Named.nil

theorem one (h : TypedReg Γ r t) : Typed Γ [r] [t] := Named.one h

theorem mono (hpre : Γ <+: Γ') (h : Typed Γ regs ts) : Typed Γ' regs ts := Named.mono hpre h

theorem append (h : Typed Γ regs ts) (h' : Typed Γ regs' ts') :
    Typed Γ (regs ++ regs') (ts ++ ts') := by
  rw [Typed, map_append]
  exact Named.append h h'

theorem cons (h : TypedReg Γ r t) (h' : Typed Γ regs ts) : Typed Γ (r :: regs) (t :: ts) :=
  Forall₂.cons h h'

theorem of_cons (h : Typed Γ regs (t :: ts)) :
    ∃ r rest, regs = r :: rest ∧ TypedReg Γ r t ∧ Typed Γ rest ts := by
  obtain ⟨r, rest, hr, hrest, rfl⟩ := forall₂_cons_right_iff.mp h
  exact ⟨r, rest, rfl, hr, hrest⟩

theorem of_nil (h : Typed Γ regs []) : regs = [] := forall₂_nil_right_iff.mp h

theorem length_eq (h : Typed Γ regs ts) : regs.length = ts.length := by
  simpa using Named.length_eq h

theorem take (n : Nat) (h : Typed Γ regs ts) : Typed Γ (regs.take n) (ts.take n) := by
  rw [Typed, map_take]
  exact forall₂_take n h

theorem drop (n : Nat) (h : Typed Γ regs ts) : Typed Γ (regs.drop n) (ts.drop n) := by
  rw [Typed, map_drop]
  exact forall₂_drop n h

end Typed

theorem Scalar.storeOp_coreType (s : Scalar) : s.storeOp.coreType = s.coreType := by
  cases s <;> rfl

theorem Scalar.loadOp_coreType (s : Scalar) : s.loadOp.coreType = s.coreType := by
  cases s <;> rfl

theorem IntWidth.storeOp_coreType (w : IntWidth) : w.storeOp.coreType = .i32 := by
  cases w <;> rfl

theorem IntWidth.loadOp_coreType (w : IntWidth) : w.loadOp.coreType = .i32 := by
  cases w <;> rfl

namespace Code

variable {β γ : Type} {c : Contract} {item : Item} {Γ : RegTypes}

/-- Code whose steps respect types, and whose value then satisfies `R`. -/
def HasType (c : Contract) (item : Item) (Γ : RegTypes) (code : Code β) (R : RegTypes → β → Prop) :
    Prop :=
  ∃ Γ', TypedSteps c item Γ (code.run Γ.length).steps Γ' ∧
    Γ'.length = (code.run Γ.length).next ∧ R Γ' (code.run Γ.length).value

def BlocksHaveType (c : Contract) (Γ : RegTypes) (code : Code (List Block))
    (types : List BlockType) : Prop :=
  (∀ k, (code.run k).steps = []) ∧ ∃ Γ', TypedBlocks c Γ (code.run Γ.length).value types Γ' ∧
    Γ'.length = (code.run Γ.length).next

def Makes (types : List OperandType) (Γ : RegTypes) (regs : List Reg) : Prop := Typed Γ regs types

def MakesOne (t : OperandType) (Γ : RegTypes) (r : Reg) : Prop := TypedReg Γ r t

def MakesNone (_ : RegTypes) (_ : Unit) : Prop := True

/-! ## Rules -/

section Rules

variable {R : RegTypes → β → Prop}

theorem HasType.pure {v : β} (h : R Γ v) : HasType c item Γ (pure v) R :=
  ⟨Γ, .nil _ _, rfl, h⟩

theorem HasType.own {blocks : Code (List Block)} {types : List BlockType} {i : Instr}
    {args : List Reg} {ins outs : List OperandType} (hblocks : BlocksHaveType c Γ blocks types)
    (hi : i.HasType c item ins types outs) (hargs : Typed Γ args ins) :
    HasType c item Γ (blocks >>= fun bs => Code.own i args bs) (Makes outs) := by
  obtain ⟨hsteps, Γ1, hbs, hnext⟩ := hblocks
  refine ⟨Γ1 ++ outs.map some, ?_, ?_, ?_⟩
  · simp only [bind_steps, hsteps, nil_append, Code.own, ← hnext, ← hi.length_results]
    exact .exec hbs hi (hargs.mono hbs.extends) (.nil _ _)
  · simp only [bind_next, Code.own, ← hnext, ← hi.length_results, length_append,
      length_map]
  · simp only [bind_value, Code.own, ← hnext, ← hi.length_results]
    have h := Named.range' Γ1 (outs.map some)
    rwa [length_map] at h

theorem BlocksHaveType.none (c : Contract) (Γ : RegTypes) : BlocksHaveType c Γ (Pure.pure []) [] :=
  ⟨fun _ => rfl, Γ, .nil _, rfl⟩

theorem BlocksHaveType.cons {body : Code (List Reg)} {rest : Code (List Block)} {type : BlockType}
    {types : List BlockType} (hbody : HasType c type.item Γ body (Makes type.results))
    (hrest : ∀ Γ', Γ <+: Γ' → Γ'.length = (body.run Γ.length).next →
      BlocksHaveType c Γ' rest types) :
    BlocksHaveType c Γ
      (Code.block body >>= fun first => rest >>= fun others => Pure.pure (first :: others))
      (type :: types) := by
  obtain ⟨Γ1, hsteps, hnext, hresults⟩ := hbody
  obtain ⟨made, rfl⟩ := hsteps.extends
  have hlen : (Γ ++ replicate made.length Option.none).length = (Γ ++ made).length := by simp
  obtain ⟨hnone, Γ2, hblocks, hnext'⟩ :=
    hrest (Γ ++ replicate made.length Option.none) (prefix_append _ _) (hlen.trans hnext)
  rw [hlen, hnext] at hblocks hnext'
  refine ⟨fun k => ?_, Γ2, ?_, ?_⟩
  · simp only [bind_steps, Code.block, hnone, run_pure, nil_append]
  · exact .cons hsteps hresults hblocks
  · exact hnext'

theorem HasType.emit {i : Instr} {args : List Reg} {ins outs : List OperandType}
    (hi : i.HasType c item ins [] outs) (hargs : Typed Γ args ins) :
    HasType c item Γ (Code.emit i args) (Makes outs) :=
  HasType.own (BlocksHaveType.none c Γ) hi hargs

theorem HasType.scratch (size align : UInt32) :
    HasType c item Γ (Code.scratch size align) (MakesOne (.core .i32)) :=
  ⟨Γ ++ [some (.core .i32)], .scratch size align (.nil _ _), by simp [Code.scratch],
    by simp [Code.scratch, MakesOne, TypedReg]⟩

end Rules

end Code

end CanonicalAbi
