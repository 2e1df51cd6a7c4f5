import CanonicalAbi.Proofs.TypedCode

/-!
# Backends that answer

A backend that answers each instruction with as many results as it has never stops a replay of steps
that respect types.
-/

namespace CanonicalAbi

variable {σ ω : Type}

/-- A call of a backend, with its answer. -/
inductive Event (ω : Type) where
  | emit (i : Instr) (args results : List ω)
  | openBlock
  | closeBlock (results : List ω)
  | returnPointer (size align : UInt32) (addr : ω)

/-- Calls that respect the discipline, at one level of nesting, after `n` blocks that no instruction
owns yet. At the end there is no such block. -/
inductive Disciplined : Nat → List (Event ω) → Prop where
  | nil : Disciplined 0 []
  | emit {i : Instr} {args results : List ω} {rest : List (Event ω)}
      (hargs : args.length = i.operands) (hresults : results.length = i.results)
      (hrest : Disciplined 0 rest) : Disciplined i.blocks (.emit i args results :: rest)
  | block {n : Nat} {body rest : List (Event ω)} (results : List ω) (hbody : Disciplined 0 body)
      (hrest : Disciplined (n + 1) rest) :
      Disciplined n (.openBlock :: (body ++ .closeBlock results :: rest))
  | returnPointer {n : Nat} {rest : List (Event ω)} (size align : UInt32) (addr : ω)
      (hrest : Disciplined n rest) : Disciplined n (.returnPointer size align addr :: rest)

namespace Backend

variable (b : Backend σ ω)

/-- A backend that answers every instruction with as many results as it has. -/
def Answers : Prop := ∀ (i : Instr) (args : List ω) (st : σ), args.length = i.operands →
  ∃ results st', b.emit i args st = (.ok results, st') ∧ results.length = i.results

def journaled : Backend (σ × List (Event ω)) ω where
  emit i args s :=
    match b.emit i args s.1 with
    | (.ok results, st) => (.ok results, (st, .emit i args results :: s.2))
    | (.error abort, st) => (.error abort, (st, s.2))
  openBlock s := (b.openBlock s.1, .openBlock :: s.2)
  closeBlock results s := (b.closeBlock results s.1, .closeBlock results :: s.2)
  returnPointer size align s :=
    ((b.returnPointer size align s.1).1, ((b.returnPointer size align s.1).2,
      .returnPointer size align (b.returnPointer size align s.1).1 :: s.2))
  movesRaw := b.movesRaw

/-- The backend answers the calls so, one after the other. -/
inductive Trace : σ → List (Event ω) → σ → Prop where
  | nil (st : σ) : Trace st [] st
  | emit {i : Instr} {args results : List ω} {st st1 st' : σ} {rest : List (Event ω)}
      (h : b.emit i args st = (.ok results, st1)) (hrest : Trace st1 rest st') :
      Trace st (.emit i args results :: rest) st'
  | openBlock {st st' : σ} {rest : List (Event ω)} (hrest : Trace (b.openBlock st) rest st') :
      Trace st (.openBlock :: rest) st'
  | closeBlock {st st' : σ} {results : List ω} {rest : List (Event ω)}
      (hrest : Trace (b.closeBlock results st) rest st') :
      Trace st (.closeBlock results :: rest) st'
  | returnPointer {st st' : σ} {size align : UInt32} {rest : List (Event ω)}
      (hrest : Trace (b.returnPointer size align st).2 rest st') :
      Trace st (.returnPointer size align (b.returnPointer size align st).1 :: rest) st'

variable {b}

theorem Trace.append {st st1 st2 : σ} {es fs : List (Event ω)} (h : b.Trace st es st1)
    (h' : b.Trace st1 fs st2) : b.Trace st (es ++ fs) st2 := by
  induction h with
  | nil => exact h'
  | emit h _ ih => exact .emit h (ih h')
  | openBlock _ ih => exact .openBlock (ih h')
  | closeBlock _ ih => exact .closeBlock (ih h')
  | returnPointer _ ih => exact .returnPointer (ih h')

theorem Trace.journal {s s' : σ × List (Event ω)} {es : List (Event ω)}
    (h : b.journaled.Trace s es s') : s'.2 = es.reverse ++ s.2 := by
  induction h with
  | nil => rfl
  | @emit i args results st st1 st' rest h _ ih =>
    simp only [journaled] at h
    split at h
    · obtain ⟨hok, rfl⟩ := Prod.mk.inj h
      obtain rfl := Except.ok.inj hok
      simp [ih]
    · exact absurd (Prod.mk.inj h).1 (by simp)
  | openBlock _ ih => simp [ih, journaled]
  | closeBlock _ ih => simp [ih, journaled]
  | returnPointer _ ih => simp [ih, journaled]

theorem Trace.journaled {st st' : σ} {es : List (Event ω)} (h : b.Trace st es st')
    (journal : List (Event ω)) :
    b.journaled.Trace (st, journal) es (st', es.reverse ++ journal) := by
  induction h generalizing journal with
  | nil st => exact .nil _
  | emit h _ ih =>
    rw [List.reverse_cons, List.append_assoc]
    exact .emit (by simp [Backend.journaled, h]) (ih _)
  | openBlock _ ih =>
    rw [List.reverse_cons, List.append_assoc]
    exact .openBlock (ih _)
  | closeBlock _ ih =>
    rw [List.reverse_cons, List.append_assoc]
    exact .closeBlock (ih _)
  | returnPointer _ ih =>
    rw [List.reverse_cons, List.append_assoc]
    exact .returnPointer (ih _)

theorem Answers.nonempty (hb : b.Answers) (st : σ) : Nonempty ω := by
  obtain ⟨results, _, _, length⟩ := hb (.getArg 0) [] st rfl
  obtain ⟨x, _⟩ := List.length_eq_one_iff.mp length
  exact ⟨x⟩

theorem Answers.journaled (hb : b.Answers) : b.journaled.Answers := by
  intro i args s hargs
  obtain ⟨results, st', h, hresults⟩ := hb i args s.1 hargs
  exact ⟨results, (st', .emit i args results :: s.2), by simp [Backend.journaled, h], hresults⟩

end Backend

/-! ## Replaying typed steps -/

theorem TypedReg.exists_named {Γ : RegTypes} {r : Reg} {t : OperandType} {env : List ω}
    (h : TypedReg Γ r t) (henv : env.length = Γ.length) : ∃ x, env[r]? = some x := by
  have hlt : r < env.length := henv ▸ (List.getElem?_eq_some_iff.mp h).1
  exact ⟨_, List.getElem?_eq_getElem hlt⟩

theorem Typed.named {Γ : RegTypes} {regs : List Reg} {types : List OperandType} {env : List ω}
    (h : Typed Γ regs types) (henv : env.length = Γ.length) :
    ∃ xs, Named env regs xs ∧ xs.length = types.length := by
  induction types generalizing regs with
  | nil => exact ⟨[], h.of_nil ▸ Named.nil, rfl⟩
  | cons t types ih =>
    obtain ⟨r, rest, rfl, hr, hrest⟩ := h.of_cons
    obtain ⟨x, hx⟩ := hr.exists_named henv
    obtain ⟨xs, hxs, hlen⟩ := ih hrest
    exact ⟨x :: xs, .cons hx hxs, congrArg (· + 1) hlen⟩

theorem Backend.Answers.issue {b : Backend σ ω} (hb : b.Answers) {i : Instr} {args : List ω}
    (hargs : args.length = i.operands) (st : σ) :
    ∃ results st', runFrom (b.issue i args) st = (.ok results, st') ∧
      b.emit i args st = (.ok results, st') ∧ results.length = i.results := by
  obtain ⟨results, st', h, hresults⟩ := hb i args st hargs
  exact ⟨results, st', by simp [runFrom, Backend.issue, h, hresults], h, hresults⟩

/-- A replay that came to its end by calls that `D` describes. -/
def Replayed (b : Backend σ ω) (Γ' : RegTypes) (D : List (Event ω) → Prop)
    (replay : Replay σ (List ω)) (st : σ) : Prop :=
  ∃ env' st' es, runFrom replay st = (.ok env', st') ∧ env'.length = Γ'.length ∧
    b.Trace st es st' ∧ D es

def Neutral (es : List (Event ω)) : Prop := ∀ rest, Disciplined 0 rest → Disciplined 0 (es ++ rest)

/-- Calls that leave `n` more blocks to an instruction. -/
def Finishes (n : Nat) (es : List (Event ω)) : Prop :=
  ∀ m rest, Disciplined (m + n) rest → Disciplined m (es ++ rest)

variable {b : Backend σ ω} {c : Contract}

mutual

theorem TypedSteps.replayed (hb : b.Answers) {item : Item} {Γ Γ' : RegTypes} {steps : List Step} :
    TypedSteps c item Γ steps Γ' → ∀ (env : List ω) (st : σ), env.length = Γ.length →
      Replayed b Γ' Neutral (b.replay env steps) st
  | .nil _ _, env, st, henv => ⟨env, st, [], rfl, henv, .nil st, fun _ h => h⟩
  | .exec (i := i) hblocks hi hargs hrest, env, st, henv => by
    obtain ⟨env1, st1, es1, hrun1, henv1, htrace1, hes1⟩ := hblocks.replayed hb env st henv
    obtain ⟨xs, hxs, hlen⟩ := hargs.named henv1
    have hoperands : xs.length = i.operands := hlen.trans hi.length_operands
    obtain ⟨results, st2, hissue, hemit, hresults⟩ := hb.issue hoperands st1
    obtain ⟨env3, st3, es3, hrun3, henv3, htrace3, hes3⟩ := hrest.replayed hb (env1 ++ results) st2
      (by simp [henv1, hresults, hi.length_results])
    refine ⟨env3, st3, es1 ++ .emit i xs results :: es3, ?_, henv3,
      htrace1.append (.emit hemit htrace3), fun rest hr => ?_⟩
    · simp only [Backend.replay, Backend.replayStep, bind_assoc, pure_bind]
      rw [runFrom_bind_ok hrun1, hxs.operandsOf_eq, runFrom_bind_ok hissue, hrun3]
    · have hd : Disciplined i.blocks (.emit i xs results :: (es3 ++ rest)) :=
        .emit hoperands hresults (hes3 rest hr)
      rw [List.append_assoc]
      refine hes1 0 _ ?_
      rw [Nat.zero_add, hblocks.length_eq, hi.length_blocks]
      exact hd
  | .scratch size align hrest, env, st, henv => by
    obtain ⟨env', st', es, hrun, henv', htrace, hes⟩ :=
      hrest.replayed hb (env ++ [(b.returnPointer size align st).1])
        (b.returnPointer size align st).2 (by simp [henv])
    refine ⟨env', st', .returnPointer size align (b.returnPointer size align st).1 :: es, ?_, henv',
      .returnPointer htrace, fun rest hr => .returnPointer size align _ (hes rest hr)⟩
    simp only [Backend.replay]
    rw [runFrom_bind_ok (by rfl), hrun]

theorem TypedBlocks.replayed (hb : b.Answers) {Γ Γ' : RegTypes} {blocks : List Block}
    {types : List BlockType} :
    TypedBlocks c Γ blocks types Γ' → ∀ (env : List ω) (st : σ), env.length = Γ.length →
      Replayed b Γ' (Finishes blocks.length) (b.replayBlocks env blocks) st
  | .nil _, env, st, henv => ⟨env, st, [], rfl, henv, .nil st, fun _ _ h => h⟩
  | .cons hsteps hresults hrest, env, st, henv => by
    obtain ⟨env1, st1, es1, hrun1, henv1, htrace1, hes1⟩ :=
      hsteps.replayed hb env (b.openBlock st) henv
    obtain ⟨xs, hxs, hlen⟩ := hresults.named henv1
    obtain ⟨env2, st2, es2, hrun2, henv2, htrace2, hes2⟩ :=
      hrest.replayed hb env1 (b.closeBlock xs st1) (by simpa using henv1)
    refine ⟨env2, st2, .openBlock :: (es1 ++ .closeBlock xs :: es2), ?_, henv2,
      .openBlock (htrace1.append (.closeBlock htrace2)), fun m rest hr => ?_⟩
    · simp only [Backend.replayBlocks]
      rw [runFrom_bind_ok (runFrom_modify _ _), runFrom_bind_ok hrun1, hxs.operandsOf_eq,
        runFrom_bind_ok (runFrom_modify _ _), hrun2]
    · have hbody : Disciplined 0 (es1 ++ []) := hes1 [] .nil
      have hafter := hes2 (m + 1) rest (by simpa [Nat.add_right_comm, Nat.add_assoc] using hr)
      have hblock := Disciplined.block xs hbody hafter
      simpa using hblock

end

theorem Recording.answers (raw : RawRule) : (Recording.backend raw).Answers :=
  fun _ _ _ _ => ⟨_, _, rfl, List.length_range'⟩

end CanonicalAbi
