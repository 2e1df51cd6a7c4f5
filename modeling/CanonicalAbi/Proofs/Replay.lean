import CanonicalAbi.Proofs.Code
import CanonicalAbi.Proofs.Effects
import Mathlib.Data.List.Forall2

/-!
# Replaying code on a backend

Code determines the calls that any backend receives: its steps are replayed in order, each after its
blocks, and the operands that the backend answers with are numbered as they come.
-/

namespace CanonicalAbi

open List

variable {σ ω β γ : Type}

/-- A replay of steps on a backend, which can stop it. -/
abbrev Replay (σ : Type) := ExceptT Abort (StateM σ)

def operandsOf (env : List ω) (regs : List Reg) : List ω := regs.filterMap (env[·]?)

namespace Backend

variable (b : Backend σ ω)

/-- Hands an instruction to the backend, which must answer with as many results as it has. -/
def issue (i : Instr) (args : List ω) : Replay σ (List ω) := fun st =>
  match b.emit i args st with
  | (.error abort, st) => (.error abort, st)
  | (.ok results, st) =>
    if results.length = i.results then (.ok results, st)
    else (.error (.failure
      (.stackMismatch .generate (i.name ++ " results") i.results results.length)), st)

theorem length_issue {i : Instr} {args results : List ω} {st st' : σ}
    (h : runFrom (b.issue i args) st = (.ok results, st')) : results.length = i.results := by
  simp only [runFrom, issue] at h
  split at h
  · cases h
  · split at h
    · next hlen =>
      cases h
      exact hlen
    · cases h

mutual

def replayStep (env : List ω) : Step → Replay σ (List ω)
  | .exec i args _ blocks => do
    let env ← replayBlocks env blocks
    let results ← b.issue i (operandsOf env args)
    return env ++ results
  | .scratch size align _ => fun st =>
    (.ok (env ++ [(b.returnPointer size align st).1]), (b.returnPointer size align st).2)

def replay (env : List ω) : List Step → Replay σ (List ω)
  | [] => return env
  | s :: ss => do
    let env ← replayStep env s
    replay env ss

def replayBlocks (env : List ω) : List Block → Replay σ (List ω)
  | [] => return env
  | .mk steps results :: blocks => do
    modify b.openBlock
    let env ← replay env steps
    modify (b.closeBlock (operandsOf env results))
    replayBlocks env blocks

end

theorem replay_append (env : List ω) (ss ts : List Step) :
    b.replay env (ss ++ ts) = b.replay env ss >>= fun env => b.replay env ts := by
  induction ss generalizing env with
  | nil => simp [replay]
  | cons s ss ih => simp only [cons_append, replay, ih, bind_assoc]

end Backend

/-! ## Operands and registers -/

def Named (env : List ω) (regs : List Reg) (xs : List ω) : Prop :=
  List.Forall₂ (fun r x => env[r]? = some x) regs xs

namespace Named

variable {env env' : List ω} {regs regs' : List Reg} {xs xs' : List ω}

theorem nil : Named env [] [] := List.Forall₂.nil

theorem one {r : Reg} {x : ω} (h : env[r]? = some x) : Named env [r] [x] := .cons h .nil

theorem get {r : Reg} {x : ω} (hpre : env <+: env') (h : env[r]? = some x) :
    env'[r]? = some x := by
  obtain ⟨more, rfl⟩ := hpre
  exact List.getElem?_append_left (List.getElem?_eq_some_iff.mp h).1 ▸ h

theorem operandsOf_eq (h : Named env regs xs) : operandsOf env regs = xs := by
  induction h with
  | nil => rfl
  | cons h _ ih => simp only [operandsOf, filterMap_cons, h] at ih ⊢; rw [ih]

theorem mono (hpre : env <+: env') (h : Named env regs xs) : Named env' regs xs := by
  obtain ⟨more, rfl⟩ := hpre
  refine h.imp fun r x hr => ?_
  exact List.getElem?_append_left (List.getElem?_eq_some_iff.mp hr).1 ▸ hr

theorem append (h : Named env regs xs) (h' : Named env regs' xs') :
    Named env (regs ++ regs') (xs ++ xs') :=
  rel_append h h'

theorem length_eq (h : Named env regs xs) : regs.length = xs.length := List.Forall₂.length_eq h

theorem range' (env results : List ω) :
    Named (env ++ results) (List.range' env.length results.length) results := by
  induction results generalizing env with
  | nil => exact .nil
  | cons x xs ih =>
    refine .cons (by simp) ?_
    have h : Named (env ++ [x] ++ xs) (List.range' (env ++ [x]).length xs.length) xs :=
      ih (env ++ [x])
    simp only [List.append_assoc, List.singleton_append, List.length_append,
      List.length_singleton] at h
    exact h

end Named

namespace Gen

variable {b : Backend σ ω}

/-! ## Following code -/

/-- The innermost open block began at a height of at most `n`. -/
def Above (s : Generation σ ω) (n : Nat) : Prop := ∀ block ∈ s.blocks.head?, block.height ≤ n

theorem Above.mono {s : Generation σ ω} {m n : Nat} (h : Above s m) (hmn : m ≤ n) : Above s n :=
  fun block hb => Nat.le_trans (h block hb) hmn

/-- A run of a piece of generation ended as a replay from `st0` did. When the replay came to its
end, so did the run: what is below `stk` on the stack is untouched, `R` relates what was made to the
operands that the run returns and leaves on the stack, and the `finished` blocks wait. When the
backend stopped the replay it stopped the run, with the same calls made. -/
def EndsAs (s : Generation σ ω) (stk : List ω) (finished : Nat) (R : List ω → β → List ω → Prop)
    (run : Except Abort β × Generation σ ω) : Except Abort (List ω) × σ → Prop
  | (.error e, st) => ∃ s', run = (.error e, s') ∧ s'.backend = st
  | (.ok env, st) => ∃ v outs log, R env v outs ∧
      run = (.ok v, { s with stack := outs.reverse ++ stk, backend := st, finished, log })

section

variable {s s' s0 : Generation σ ω} {stk stk' : List ω} {n n' : Nat}
  {R R' : List ω → β → List ω → Prop}

theorem EndsAs.imp {run : Except Abort β × Generation σ ω}
    {replay : Except Abort (List ω) × σ} (h : EndsAs s stk n R run replay)
    (hR : ∀ env v outs (st : σ) (log : List LogEntry), R env v outs → ∃ outs', R' env v outs' ∧
      { s with stack := outs.reverse ++ stk, backend := st, finished := n, log }
        = { s' with stack := outs'.reverse ++ stk', backend := st, finished := n', log }) :
    EndsAs s' stk' n' R' run replay := by
  rcases replay with ⟨e | env, st⟩
  · exact h
  · obtain ⟨v, outs, log, hr, hrun⟩ := h
    obtain ⟨outs', hr', same⟩ := hR env v outs st log hr
    exact ⟨v, outs', log, hr', by rw [hrun, same]⟩

theorem EndsAs.bind {α : Type} {Q : List ω → α → List ω → Prop} {x : Gen σ ω α}
    {f : α → Gen σ ω β} {y : Replay σ (List ω)} {g : List ω → Replay σ (List ω)} {st : σ}
    (h : EndsAs s stk n Q (runFrom x s0) (runFrom y st))
    (hf : ∀ env v outs st log, Q env v outs → EndsAs s' stk' n' R
      (runFrom (f v) { s with stack := outs.reverse ++ stk, backend := st, finished := n, log })
      (runFrom (g env) st)) :
    EndsAs s' stk' n' R (runFrom (x >>= f) s0) (runFrom (y >>= g) st) := by
  rw [runFrom_bind, runFrom_bind]
  revert h
  rcases runFrom y st with ⟨e | env, st'⟩
  · rintro ⟨s1, hrun, hst⟩
    rw [hrun]
    exact ⟨s1, rfl, hst⟩
  · rintro ⟨v, outs, log, hQ, hrun⟩
    rw [hrun]
    exact hf env v outs st' log hQ

end

/-- Generation that, with `ins` on top of the stack, does what the code says: on every backend it
ends as the replay of the steps. -/
def Follows (b : Backend σ ω) (env ins : List ω) (work : Gen σ ω β) (code : Code γ)
    (R : List ω → γ → β → List ω → Prop) : Prop :=
  ∀ (s : Generation σ ω) (stk : List ω), s.stack = ins.reverse ++ stk → s.finished = 0 →
    Above s stk.length →
    EndsAs s stk 0
      (fun env' v outs => env <+: env' ∧ env'.length = (code.run env.length).next ∧
        R env' (code.run env.length).value v outs)
      (runFrom work s) (runFrom (b.replay env (code.run env.length).steps) s.backend)

def FollowsBlocks (b : Backend σ ω) (env : List ω) (n : Nat) (work : Gen σ ω Unit)
    (code : Code (List Block)) : Prop :=
  (∀ k, (code.run k).steps = []) ∧
  ∀ (s : Generation σ ω), Above s s.stack.length →
    EndsAs s s.stack (s.finished + n)
      (fun env' _ outs => outs = [] ∧ env <+: env' ∧ env'.length = (code.run env.length).next)
      (runFrom work s) (runFrom (b.replayBlocks env (code.run env.length).value) s.backend)

/-! ## The generator's primitives -/

theorem runFrom_emit {i : Instr} {s : Generation σ ω} {xs stk : List ω}
    (hstack : s.stack = xs.reverse ++ stk) (hlen : xs.length = i.operands)
    (hblocks : s.finished = i.blocks) {r : Except Abort (List ω)} {st : σ}
    (hissue : runFrom (b.issue i xs) s.backend = (r, st)) :
    runFrom (emit b i) s = continueWith
      (fun outs g => (.ok (), { g with stack := outs.reverse ++ stk }))
      (r, { s with backend := st, stack := stk, finished := 0 }) := by
  have htake : (s.stack.take i.operands).reverse = xs := by
    rw [hstack, ← hlen, ← length_reverse, take_left, reverse_reverse]
  have hdrop : s.stack.drop i.operands = stk := by
    rw [hstack, ← hlen, ← length_reverse, drop_left]
  have hle : ¬ s.stack.length < i.operands := by
    rw [hstack, ← hlen]
    simp
  simp only [emit, runFrom_bind, runFrom_get, continueWith_ok, hle, hblocks, htake, hdrop,
    if_false, ne_eq, not_true_eq_false]
  simp only [Backend.issue, runFrom] at hissue
  rcases hemit : b.emit i xs s.backend with ⟨abort | results, st'⟩
  · rw [hemit] at hissue
    obtain ⟨rfl, rfl⟩ := Prod.mk.inj hissue
    rfl
  · rw [hemit] at hissue
    by_cases hr : results.length = i.results
    · simp only [hr, if_true] at hissue
      obtain ⟨rfl, rfl⟩ := Prod.mk.inj hissue
      simp only [hr, not_true_eq_false, if_false]
      rfl
    · simp only [hr, if_false] at hissue
      obtain ⟨rfl, rfl⟩ := Prod.mk.inj hissue
      simp only [hr, not_false_eq_true, if_true]
      rfl

theorem runFrom_popN {s : Generation σ ω} {xs stk : List ω} (hstack : s.stack = xs.reverse ++ stk)
    (habove : Above s stk.length) :
    runFrom (popN xs.length) s = (.ok xs, { s with stack := stk }) := by
  have htake : (s.stack.take xs.length).reverse = xs := by
    rw [hstack, ← length_reverse, take_left, reverse_reverse]
  have hdrop : s.stack.drop xs.length = stk := by
    rw [hstack, ← length_reverse, drop_left]
  have hlen : s.stack.length = xs.length + stk.length := by simp [hstack]
  have hfloor : s.blocks.head?.any (fun blk => decide (s.stack.length - xs.length < blk.height))
      = false := by
    cases hb : s.blocks.head? with
    | none => rfl
    | some blk =>
      have := habove blk (by rw [hb]; rfl)
      simp only [Option.any_some, decide_eq_false_iff_not]
      omega
  simp only [popN, runFrom_bind, runFrom_get, continueWith_ok, hfloor, hdrop, htake]
  rw [if_neg (by omega)]
  rfl

theorem runFrom_openBlock (s : Generation σ ω) :
    ∃ log, runFrom (openBlock b) s = (.ok (), { s with
      backend := b.openBlock s.backend, finished := 0,
      blocks := ⟨s.stack.length, s.finished⟩ :: s.blocks, log }) :=
  ⟨_, rfl⟩

theorem runFrom_closeBlock {s : Generation σ ω} {blk : OpenBlock} {outer : List OpenBlock}
    {xs stk : List ω} (hblocks : s.blocks = blk :: outer) (hfin : s.finished = 0)
    (hstack : s.stack = xs.reverse ++ stk) (hheight : blk.height = stk.length)
    (habove : Above { s with blocks := outer } stk.length) :
    ∃ log, runFrom (closeBlock b xs.length) s = (.ok (), { s with
      backend := b.closeBlock xs s.backend, stack := stk, finished := blk.waiting + 1,
      blocks := outer, log }) := by
  obtain ⟨backend, stack, finished, blocks, log⟩ := s
  obtain rfl : blocks = blk :: outer := hblocks
  obtain rfl : finished = 0 := hfin
  obtain rfl : stack = xs.reverse ++ stk := hstack
  have hlen : (xs.reverse ++ stk).length = blk.height + xs.length := by
    rw [hheight]
    simp [Nat.add_comm]
  refine ⟨.finishBlock (outer.length + 1) xs.length :: log, ?_⟩
  simp only [closeBlock, runFrom_bind, runFrom_get, continueWith_ok, hlen, ne_eq,
    not_true_eq_false, if_false, runFrom_set]
  rw [runFrom_popN rfl habove]
  rfl

/-! ## Rules for following code -/

section Rules

variable {env ins : List ω} {R : List ω → γ → β → List ω → Prop}

/-- Generation that only moves operands between the stack and its result. -/
def Silent (ins : List ω) (work : Gen σ ω β) (v : β) (outs : List ω) : Prop :=
  ∀ (s : Generation σ ω) (stk : List ω), s.stack = ins.reverse ++ stk → Above s stk.length →
    ∃ log, runFrom work s = (.ok v, { s with stack := outs.reverse ++ stk, log })

theorem Silent.push (ins : List ω) (a : ω) :
    Silent ins (push a : Gen σ ω Unit) () (ins ++ [a]) := by
  intro s stk hstack _
  refine ⟨s.log, ?_⟩
  simp [Gen.push, hstack]

theorem Silent.pushAll (ins as : List ω) :
    Silent ins (pushAll as : Gen σ ω Unit) () (ins ++ as) := by
  intro s stk hstack _
  refine ⟨s.log, ?_⟩
  simp [Gen.pushAll, hstack]

theorem Silent.popN {n : Nat} (ins xs : List ω) (hn : xs.length = n) :
    Silent (ins ++ xs) (popN n : Gen σ ω (List ω)) xs ins := by
  intro s stk hstack habove
  refine ⟨s.log, ?_⟩
  rw [reverse_append, append_assoc] at hstack
  have hfloor : Above s (ins.reverse ++ stk).length := habove.mono (by simp)
  rw [← hn, runFrom_popN hstack hfloor]

theorem Silent.pop (ins : List ω) (x : ω) :
    Silent (ins ++ [x]) (pop : Gen σ ω ω) x ins := by
  intro s stk hstack habove
  obtain ⟨log, h⟩ := Silent.popN (n := 1) ins [x] rfl s stk hstack habove
  refine ⟨log, ?_⟩
  rw [Gen.pop, runFrom_bind_ok h]
  rfl

theorem Silent.ofExcept (ins : List ω) {x : Except Failure β} {v : β} (h : x = .ok v) :
    Silent ins (ofExcept x : Gen σ ω β) v ins := by
  intro s stk hstack _
  refine ⟨s.log, ?_⟩
  rw [h, ← hstack]
  rfl

theorem Silent.note (ins : List ω) (entry : LogEntry) :
    Silent ins (note entry : Gen σ ω Unit) () ins := by
  intro s stk hstack _
  refine ⟨entry :: s.log, ?_⟩
  rw [← hstack]
  rfl

theorem Follows.mono {work : Gen σ ω β} {code : Code γ} {R' : List ω → γ → β → List ω → Prop}
    (h : Follows b env ins work code R)
    (hR : ∀ env' v outs, env <+: env' → env'.length = (code.run env.length).next →
      R env' (code.run env.length).value v outs → R' env' (code.run env.length).value v outs) :
    Follows b env ins work code R' := by
  intro s stk hstack hfin habove
  refine (h s stk hstack hfin habove).imp fun env' v outs _ _ ⟨hpre, hlen, hrel⟩ => ?_
  exact ⟨outs, ⟨hpre, hlen, hR env' v outs hpre hlen hrel⟩, rfl⟩

theorem Follows.pure {v : β} {c : γ} (h : R env c v ins) :
    Follows b env ins (pure v) (pure c) R := by
  intro s stk hstack hfin _
  refine ⟨v, ins, s.log, ⟨prefix_refl _, rfl, h⟩, ?_⟩
  rw [← hstack, ← hfin]
  rfl

theorem Follows.silent {α : Type} {work : Gen σ ω α} {v : α} {outs : List ω} {f : α → Gen σ ω β}
    {code : Code γ} (hw : Silent ins work v outs) (h : Follows b env outs (f v) code R) :
    Follows b env ins (work >>= f) code R := by
  intro s stk hstack hfin habove
  obtain ⟨log, hrun⟩ := hw s stk hstack habove
  rw [runFrom_bind_ok hrun]
  exact (h { s with stack := outs.reverse ++ stk, log } stk rfl hfin habove).imp
    fun _ _ outs _ _ hr => ⟨outs, hr, rfl⟩

theorem Follows.bind {α δ : Type} {x : Gen σ ω α} {c : Code δ} {f : α → Gen σ ω β}
    {d : δ → Code γ} {Q : List ω → δ → α → List ω → Prop} (hx : Follows b env ins x c Q)
    (hf : ∀ env' v outs, env <+: env' → env'.length = (c.run env.length).next →
      Q env' (c.run env.length).value v outs →
      Follows b env' outs (f v) (d (c.run env.length).value) R) :
    Follows b env ins (x >>= f) (c >>= d) R := by
  intro s stk hstack hfin habove
  rw [Code.bind_steps, Backend.replay_append]
  refine (hx s stk hstack hfin habove).bind fun env' v outs st log ⟨hpre, hlen, hQ⟩ => ?_
  rw [Code.bind_value, Code.bind_next, ← hlen]
  refine (hf env' v outs hpre hlen hQ
    { s with stack := outs.reverse ++ stk, backend := st, finished := 0, log } stk rfl rfl
    habove).imp ?_
  exact fun _ _ outs' _ _ ⟨hpre', hlen', hR⟩ => ⟨outs', ⟨hpre.trans hpre', hlen', hR⟩, rfl⟩

theorem Follows.frame {work : Gen σ ω β} {code : Code γ} (keep : List ω)
    (h : Follows b env ins work code R) :
    Follows b env (keep ++ ins) work code
      (fun env' c v outs => ∃ made, outs = keep ++ made ∧ R env' c v made) := by
  intro s stk hstack hfin habove
  rw [reverse_append, append_assoc] at hstack
  refine (h s (keep.reverse ++ stk) hstack hfin (habove.mono (by simp))).imp
    fun _ _ outs _ _ ⟨hpre, hlen, hR⟩ => ⟨keep ++ outs, ⟨hpre, hlen, outs, rfl, hR⟩, ?_⟩
  rw [reverse_append, append_assoc]

/-- The operands of the code's registers, `n` of them. -/
def Leaves (n : Nat) (env : List ω) (regs : List Reg) (_ : Unit) (outs : List ω) : Prop :=
  Named env regs outs ∧ outs.length = n

/-! ### Instructions -/

/-- Generation that ends by handing an instruction some operands. -/
def Issues (b : Backend σ ω) (ins : List ω) (work : Gen σ ω Unit) (i : Instr) (xs : List ω) :
    Prop :=
  ∀ (s : Generation σ ω) (stk : List ω), s.stack = ins.reverse ++ stk →
    runFrom work s = runFrom (emit b i) { s with stack := xs.reverse ++ stk }

theorem Issues.emit (i : Instr) (xs : List ω) : Issues b xs (emit b i) i xs :=
  fun s stk hstack => by rw [← hstack]

theorem Issues.push {i : Instr} {ins xs : List ω} {work : Gen σ ω Unit} {a : ω}
    (h : Issues b (ins ++ [a]) work i xs) :
    Issues b ins (Gen.push a >>= fun _ => work) i xs := by
  intro s stk hstack
  have hrun : runFrom (Gen.push a) s
      = (.ok (), { s with stack := (ins ++ [a]).reverse ++ stk }) := by
    simp [Gen.push, hstack]
  rw [runFrom_bind_ok hrun]
  exact h _ stk rfl

theorem Follows.own {work issue : Gen σ ω Unit} {code : Code (List Block)} {i : Instr}
    {regs : List Reg} {xs : List ω} (hblocks : FollowsBlocks b env i.blocks work code)
    (hissue : Issues b ins issue i xs) (hregs : Named env regs xs)
    (hoperands : xs.length = i.operands) :
    Follows b env ins (work >>= fun _ => issue) (code >>= fun bs => Code.own i regs bs)
      (Leaves i.results) := by
  intro s stk hstack hfin habove
  obtain ⟨hsteps, hw⟩ := hblocks
  have hlen : s.stack.length = ins.length + stk.length := by simp [hstack]
  simp only [Code.bind_steps, Code.bind_value, Code.bind_next, hsteps, nil_append, Code.own,
    Backend.replay, Backend.replayStep, bind_pure]
  refine (hw s (habove.mono (by omega))).bind ?_
  rintro env' _ _ st log ⟨rfl, hpre, hnext⟩
  have hxs : operandsOf env' regs = xs := (hregs.mono hpre).operandsOf_eq
  rw [hxs, hissue _ stk (by simpa using hstack)]
  rcases hr' : runFrom (b.issue i xs) st with ⟨e | results, st'⟩
  · rw [runFrom_emit rfl hoperands (by simp [hfin]) hr', runFrom_bind_error hr']
    exact ⟨_, rfl, rfl⟩
  · have hres : results.length = i.results := b.length_issue hr'
    rw [runFrom_emit rfl hoperands (by simp [hfin]) hr', runFrom_bind_ok hr']
    refine ⟨(), results, log, ⟨?_, ?_, ?_, hres⟩, rfl⟩
    · exact hpre.trans (prefix_append _ _)
    · rw [length_append, hnext, hres]
    · rw [← hnext, ← hres]
      exact Named.range' env' results

theorem FollowsBlocks.none (b : Backend σ ω) (env : List ω) :
    FollowsBlocks b env 0 (Pure.pure ()) (Pure.pure []) := by
  refine ⟨fun _ => rfl, fun s _ => ⟨(), [], s.log, ⟨rfl, prefix_refl _, rfl⟩, rfl⟩⟩

/-! ### Blocks -/

theorem FollowsBlocks.cons {n m : Nat} {body rest : Gen σ ω Unit} {c : Code (List Reg)}
    {d : Code (List Block)}
    (hbody : Follows b env [] body c (Leaves n))
    (hsteps : ∀ k, (d.run k).steps = [])
    (hrest : ∀ env', env <+: env' → env'.length = (c.run env.length).next →
      FollowsBlocks b env' m rest d) :
    FollowsBlocks b env (m + 1) (Gen.block b n body >>= fun _ => rest)
      (Code.block c >>= fun first => d >>= fun rest => Pure.pure (first :: rest)) := by
  refine ⟨fun k => ?_, fun s habove => ?_⟩
  · simp only [Code.bind_steps, Code.block, hsteps, Code.run_pure, nil_append]
  obtain ⟨log1, hopen⟩ := runFrom_openBlock (b := b) s
  have hw := hbody { s with
      backend := b.openBlock s.backend, finished := 0,
      blocks := ⟨s.stack.length, s.finished⟩ :: s.blocks, log := log1 } s.stack rfl rfl
    (by simp [Above])
  simp only [Code.bind_value, Code.bind_next, Code.block, Code.run_pure]
  simp only [Gen.block, Backend.replayBlocks, bind_assoc]
  rw [runFrom_bind_ok hopen, runFrom_bind_ok (runFrom_modify _ _)]
  refine hw.bind fun env' _ outs st log2 ⟨hpre, hnext, hnamed, hlen⟩ => ?_
  obtain ⟨log3, hclose⟩ := @runFrom_closeBlock _ _ b
    { s with stack := outs.reverse ++ s.stack, backend := st, finished := 0,
             blocks := ⟨s.stack.length, s.finished⟩ :: s.blocks, log := log2 }
    ⟨s.stack.length, s.finished⟩ s.blocks outs s.stack rfl rfl rfl rfl habove
  rw [hlen] at hclose
  rw [runFrom_bind_ok hclose, runFrom_bind_ok (runFrom_modify _ _), hnamed.operandsOf_eq, ← hnext]
  refine ((hrest env' hpre hnext).2 { s with
    backend := b.closeBlock outs st, finished := s.finished + 1, log := log3 } habove).imp ?_
  rintro _ _ _ _ _ ⟨rfl, hpre', hlen'⟩
  refine ⟨[], ⟨rfl, hpre.trans hpre', hlen'⟩, ?_⟩
  rw [Nat.add_right_comm, Nat.add_assoc]

end Rules

end Gen

end CanonicalAbi
