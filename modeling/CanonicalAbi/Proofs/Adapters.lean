import CanonicalAbi.Proofs.Validation
import CanonicalAbi.Proofs.Streams

/-!
# Adapters write typed code

The halves of a call and the function that frees results write their code, so that the whole adapter
of a passable function is a replay of `Code.call`, which respects the types of its contract.
-/

namespace CanonicalAbi

open List

variable {index : Nat} {t : OperandType} {rs : List Reg} {params : Parts}

/-! ## Reading arguments -/

mutual

def argReads : List Step → List Nat
  | [] => []
  | s :: ss => s.reads ++ argReads ss

def Step.reads : Step → List Nat
  | .exec (.getArg index) _ _ blocks => blockReads blocks ++ [index]
  | .exec _ _ _ blocks => blockReads blocks
  | .scratch _ _ _ => []

def blockReads : List Block → List Nat
  | [] => []
  | .mk steps _ :: blocks => argReads steps ++ blockReads blocks

end

theorem argReads_append (ss ts : List Step) : argReads (ss ++ ts) = argReads ss ++ argReads ts := by
  induction ss with
  | nil => rfl
  | cons s ss ih => simp [argReads, ih]

mutual

theorem TypedSteps.argReads_eq_nil {c : Contract} (hc : c.args = []) {item : Item}
    {Γ Γ' : RegTypes} {steps : List Step} : TypedSteps c item Γ steps Γ' → argReads steps = []
  | .nil _ _ => rfl
  | .exec (i := i) hblocks hi _ hrest => by
    have hb := hblocks.blockReads_eq_nil hc
    have hr := hrest.argReads_eq_nil hc
    cases hi with
    | getArg h => simp [hc] at h
    | _ => simp [argReads, Step.reads, hb, hr]
  | .scratch _ _ hrest => by
    simp [argReads, Step.reads, hrest.argReads_eq_nil hc]

theorem TypedBlocks.blockReads_eq_nil {c : Contract} (hc : c.args = []) {Γ Γ' : RegTypes}
    {blocks : List Block} {types : List BlockType} :
    TypedBlocks c Γ blocks types Γ' → blockReads blocks = []
  | .nil _ => rfl
  | .cons hsteps _ hrest => by
    simp [blockReads, hsteps.argReads_eq_nil hc, hrest.blockReads_eq_nil hc]

end

theorem Contract.args_cons {c : Contract} {ts : List OperandType}
    (h : t :: ts <+: c.args.drop index) :
    c.args[index]? = some t ∧ ts <+: c.args.drop (index + 1) := by
  obtain ⟨more, h⟩ := h
  constructor
  · rw [← head?_drop, ← h]
    rfl
  · rw [← tail_drop, ← h]
    exact prefix_append _ _

namespace Gen

variable {σ ω : Type} {b : Backend σ ω} {c : Contract} {p : Scene ω}

/-- Generation that writes code which reads some arguments, in order. -/
def Scans {β γ : Type} (b : Backend σ ω) (c : Contract) (p : Scene ω) (ins : List ω)
    (work : Gen σ ω β) (code : Code γ) (R : Left ω γ β) (indices : List Nat) : Prop :=
  Writes b c .nothing p ins work code R ∧
    (Nonempty ω → argReads (code.run p.types.length).steps = indices)

namespace Scans

variable {α β γ δ : Type} {ins : List ω} {R : Left ω γ β} {is js : List Nat}

theorem none {work : Gen σ ω β} {code : Code γ}
    (h : ∀ args, Writes b { c with args } .nothing p ins work code R) :
    Scans b c p ins work code R [] := by
  refine ⟨h c.args, fun some => ?_⟩
  obtain ⟨⟨_, steps, _⟩, _⟩ := h [] some
  exact steps.argReads_eq_nil rfl

theorem getArg (h : c.args[index]? = some t) :
    Scans b c p [] (emit b (.getArg index)) (Code.emitOne (.getArg index) []) (.one t) [index] :=
  ⟨.emitPush (.getArg h) .nil, fun _ => rfl⟩

theorem takeArg (h : c.args[index]? = some t) :
    Scans b c p [] (emitOne b (.getArg index)) (Code.emitOne (.getArg index) []) (.taken t)
      [index] :=
  ⟨.emitOne (.getArg h) .nil, fun _ => rfl⟩

theorem pure {v : β} {code : γ} (typed : R.typed p.types code) (named : R.named p.env code v ins) :
    Scans b c p ins (pure v) (pure code) R [] :=
  ⟨.pure typed named, fun _ => rfl⟩

theorem silent {work : Gen σ ω α} {v : α} {outs : List ω} {f : α → Gen σ ω β} {code : Code γ}
    (hw : Silent ins work v outs) (h : Scans b c p outs (f v) code R is) :
    Scans b c p ins (work >>= f) code R is :=
  ⟨.silent hw h.1, h.2⟩

theorem bind {x : Gen σ ω α} {code : Code δ} {f : α → Gen σ ω β} {d : δ → Code γ} {Q : Left ω δ α}
    (keep : List ω) (hx : Scans b c p ins x code Q is)
    (hf : Q.Then p fun q v a outs => Scans b c q (keep ++ outs) (f a) (d v) R js) :
    Scans b c p (keep ++ ins) (x >>= f) (code >>= d) R (is ++ js) := by
  refine ⟨hx.1.bind keep fun q v a outs hq typed named => (hf q v a outs hq typed named).1,
    fun some => ?_⟩
  obtain ⟨⟨Γ, steps, next, typed⟩, _⟩ := hx.1 some
  obtain ⟨env, grown, same⟩ := p.exists_env some steps.extends
  obtain ⟨a, outs, named⟩ := Q.exists_named typed same
  have reads := (hf ⟨env, Γ, same⟩ _ a outs ⟨grown, steps.extends⟩ typed named).2 some
  rw [next] at reads
  rw [Code.bind_steps, argReads_append, hx.2 some, reads]

theorem above {work : Gen σ ω Unit} {code : Code δ} {Q : Left ω δ Unit} {g : δ → List Reg}
    {us : List OperandType} (keep : List ω) (h : Scans b c p [] work code Q is)
    (hR : Q.Then p fun q v _ outs => q.HasAll (g v) (keep ++ outs) us) :
    Scans b c p keep work (code >>= fun v => Pure.pure (g v)) (.all us) is :=
  ⟨h.1.above keep hR, fun some => by
    simpa only [Code.bind_steps, Code.run_pure, append_nil] using h.2 some⟩

end Scans

theorem ret_writes {item : Item} {types : List OperandType} {count : Nat} {xs : List ω}
    (hreturns : c.returns = types) (hcount : types.length = count) (hrs : p.HasAll rs xs types) :
    Writes b c item p xs (emit b (.ret count)) (Code.emitNone (.ret count) rs) .nothing := by
  subst hreturns
  exact .emitNone (.ret hcount) hrs

variable (g : Generator) {f : FunctionShape}

/-! ## The caller's half -/

section Caller

theorem lowerParams_scans (index : Nat) (hargs : params.map .of <+: c.args.drop index)
    (hp : FieldsPassable params) :
    Scans b c p [] (lowerParams b g index params) (Code.lowerParams b.movesRaw g index params)
      (.all ((fieldSlots params).map .core)) (range' index params.length) := by
  induction params generalizing p index with
  | nil => exact .pure .nil .nil
  | cons s params ih =>
    obtain ⟨harg, hrest⟩ := Contract.args_cons hargs
    refine (Scans.getArg harg).bind [] <| .one fun q1 _ x _ hx => ?_
    refine (Scans.none fun _ => lower?_of_parts g.loweringAllocator (fun _ _ => lowerWrites _) hp.1
      hx).bind [] <| .all fun q2 _ flat _ hfirst => ?_
    refine (ih (index + 1) hrest hp.2).above flat <| .all fun q3 _ _ hq3 hothers => ?_
    rw [fieldSlots, map_append]
    exact (hfirst.mono hq3).append hothers

theorem writeParams_scans (index : Nat) {offsets : List UInt32} {ra : Reg} {a : ω}
    (hargs : params.map .of <+: c.args.drop index) (hp : FieldsPassable params)
    (hoffsets : offsets.length = params.length) (ha : p.Has ra a (.core .i32)) :
    Scans b c p [] (writeParams b g a index params offsets)
      (Code.writeParams b.movesRaw g ra index params offsets) .nothing
      (range' index params.length) := by
  induction params generalizing p index offsets with
  | nil => exact .pure trivial rfl
  | cons s params ih =>
    obtain ⟨o, offsets, rfl⟩ := exists_cons_of_length_eq_add_one hoffsets
    obtain ⟨harg, hrest⟩ := Contract.args_cons hargs
    refine (Scans.getArg harg).bind [] <| .one fun q1 _ x hq1 hx => ?_
    refine (Scans.none fun _ => write?_of_parts g.loweringAllocator (fun _ _ => lowerWrites _) hp.1
      o hx (ha.mono hq1)).bind [] <| .nothing fun q2 hq2 => ?_
    exact ih (index + 1) hrest hp.2 (Nat.succ.inj hoffsets) (ha.mono (hq1.trans hq2))

theorem paramPointer_writes :
    Writes b c .nothing p [] (paramPointer b g f.paramArea.size f.paramArea.align)
      (Code.paramPointer g f) (.taken (.core .i32)) := by
  simp only [paramPointer, Code.paramPointer]
  cases g.dir
  · exact .returnPointer _ _
  · exact .emitOne (.allocate _ _ _) .nil

theorem lowerArgValues_scans (hargs : c.args = f.params.map .of) (hp : FieldsPassable f.params) :
    Scans b c p [] (lowerArgValues b g f (f.coreSignature g.dir))
      (Code.lowerArgValues b.movesRaw g f) (.all ((f.passedParams g.dir).map .core))
      (range f.params.length) := by
  have hdrop : f.params.map .of <+: c.args.drop 0 := by
    rw [drop_zero, hargs]
  rw [range_eq_range']
  simp only [lowerArgValues, Code.lowerArgValues, FunctionShape.passedParams]
  split
  · refine .silent (Silent.ofExcept [] (fieldLayouts_eq hp)) ?_
    refine (Scans.none fun _ => paramPointer_writes g).bind [] <| .taken fun q1 _ a _ ha => ?_
    refine append_nil (range' 0 f.params.length) ▸
      (writeParams_scans g 0 hdrop hp (length_placedOffsets f.params) ha).bind [] <| .nothing
        fun q2 hq2 => ?_
    have hone := Scene.HasAll.one (ha.mono hq2)
    exact .silent (Silent.push [] a) (.pure hone.typed hone.named)
  · exact lowerParams_scans g 0 hdrop hp

/-- The core arguments, and the pointer among them that results are expected at. -/
def Left.args (f : FunctionShape) (dir : Direction) :
    Left ω (List Reg × Option Reg) (Option ω) where
  typed Γ made := Typed Γ made.1 ((f.coreSignature dir).params.map .core) ∧
    (∀ r ∈ made.2, TypedReg Γ r (.core .i32)) ∧
    (made.2.isSome ↔ (f.coreSignature dir).returnPointer.isSome ∧ dir = .imported)
  named env made area outs := Named env made.1 outs ∧ Option.Rel (env[·]? = some ·) made.2 area
  exists_named := by
    rintro Γ ⟨regs, area⟩ env ⟨typed, pointer, _⟩ same
    obtain ⟨xs, named, _⟩ := Typed.named typed same
    cases area with
    | none => exact ⟨none, xs, named, .none⟩
    | some r =>
      obtain ⟨x, hx⟩ := (pointer r rfl).exists_named same
      exact ⟨some x, xs, named, .some hx⟩

theorem lowerArgs_scans (hargs : c.args = f.params.map .of) (hp : FieldsPassable f.params)
    (hr : FieldsPassable f.results) :
    Scans b c p [] (lowerArgs b g f (f.coreSignature g.dir)) (Code.lowerArgs b.movesRaw g f)
      (.args f g.dir) (range f.params.length) := by
  rw [lowerArgs]
  refine append_nil (range f.params.length) ▸
    (lowerArgValues_scans g hargs hp).bind [] <| .all fun q1 flat outs _ hflat => ?_
  rw [resultPointer]
  split
  · next hret =>
    refine .none fun _ => .silent (Silent.ofExcept _ (fieldLayouts_eq hr)) ?_
    rw [← append_nil ([] ++ outs)]
    refine (Writes.returnPointer _ _).bind ([] ++ outs) <| .taken fun q2 _ a hq2 ha => ?_
    have hall := (hflat.mono hq2).append (.one ha)
    rw [append_nil]
    refine .silent (Silent.push _ a) (.pure ⟨?_, ?_, by simpa using hret⟩ ⟨hall.named, ?_⟩)
    · rw [f.coreSignature_params, if_pos hret, map_append]
      exact hall.typed
    · rintro _ ⟨⟩
      exact ha.typed
    · exact .some ha.named
  · next hret =>
    refine .pure ⟨?_, by simp, by simpa using hret⟩ ⟨hflat.named, .none⟩
    rw [f.coreSignature_params, if_neg hret, append_nil]
    exact hflat.typed

theorem liftResults_writes (hreturns : c.returns = f.results.map .of)
    (hr : FieldsPassable f.results) {xs : List ω} {provided : Option Reg} {area : Option ω}
    (hrs : p.HasAll rs xs ((f.coreSignature g.dir).results.map .core))
    (harea : Option.Rel (p.Has · · (.core .i32)) provided area)
    (hsome : provided.isSome ↔ (f.coreSignature g.dir).returnPointer.isSome ∧ g.dir = .imported) :
    Writes b c .nothing p xs (liftResults b f (f.coreSignature g.dir) area)
      (Code.liftResults b.movesRaw g f provided rs) .nothing := by
  rw [f.coreSignature_results] at hrs
  simp only [liftResults, Code.liftResults]
  by_cases hret : (f.coreSignature g.dir).returnPointer.isSome
  · -- What is left on the stack is the pointer, if the callee returned it.
    have hread : ∀ {ra a}, p.Has ra a (.core .i32) →
        Writes b c .nothing p []
          (do
            let offsets ← ofExcept (fieldOffsets f.results)
            readFields b f.results offsets a 0
            emit b (.ret f.results.length))
          (do
            let values ← Code.readFields b.movesRaw f.results (placedOffsets f.results) ra 0
            Code.emitNone (.ret f.results.length) values) .nothing := by
      intro ra a ha
      refine .silent (Silent.ofExcept [] (fieldOffsets_eq hr)) ?_
      exact (readFields_of_parts (fun _ _ => liftWrites) hr 0 (length_placedOffsets f.results)
        ha).bind [] <| .all fun q _ _ _ hvalues => ret_writes hreturns (length_map _) hvalues
    simp only [hret, if_true] at hrs ⊢
    cases harea with
    | some hx =>
      rw [if_pos (hsome.mp rfl).2] at hrs
      obtain ⟨rfl, rfl⟩ := hrs.of_nil
      exact hread hx
    | none =>
      have hdir : g.dir ≠ .imported := fun hdir => by simpa using hsome.mpr ⟨hret, hdir⟩
      rw [if_neg hdir] at hrs
      obtain ⟨r, x, rfl, rfl, hx⟩ := hrs.of_one
      exact .silent (Silent.pop [] x) (hread hx)
  · rw [if_neg hret] at hrs
    simp only [hret, if_false, Bool.false_eq_true]
    refine .silent (Silent.popN [] xs ?_) ?_
    · rw [f.coreSignature_results, if_neg hret]
      exact hrs.length_eq.trans (length_map _)
    · exact (liftFields_of_parts (fun _ _ => liftWrites) hr hrs).bind [] <| .all
        fun q _ _ _ hvalues => ret_writes hreturns (length_map _) hvalues

end Caller

/-! ## The callee's half -/

section Callee

theorem getArgs_scans (index : Nat) {types : List OperandType}
    (hargs : types <+: c.args.drop index) :
    Scans b c p [] (getArgs b index types.length) (Code.getArgs index types.length) (.all types)
      (range' index types.length) := by
  induction types generalizing p index with
  | nil => exact .pure .nil .nil
  | cons t types ih =>
    obtain ⟨harg, hrest⟩ := Contract.args_cons hargs
    refine (Scans.getArg harg).bind [] <| .one fun q1 _ x _ hx => ?_
    exact (ih (index + 1) hrest).above [x] <| .all fun q2 _ _ hq2 hothers =>
      .cons (hx.mono hq2) hothers

theorem liftParams_scans (index : Nat) (hargs : (fieldSlots params).map .core <+: c.args.drop index)
    (hp : FieldsPassable params) :
    Scans b c p [] (liftParams b index params) (Code.liftParams b.movesRaw index params)
      (.all (params.map .of)) (range' index (fieldSlots params).length) := by
  induction params generalizing p index with
  | nil => exact .pure .nil .nil
  | cons s params ih =>
    rw [fieldSlots, map_append] at hargs
    have hfirst := getArgs_scans (b := b) (p := p) index ((prefix_append _ _).trans hargs)
    have hrest : (fieldSlots params).map .core <+: c.args.drop (index + (slots? s).length) := by
      obtain ⟨more, hmore⟩ := hargs
      rw [← drop_drop, ← hmore, append_assoc, drop_left' (length_map _)]
      exact prefix_append _ _
    rw [length_map] at hfirst
    rw [fieldSlots, length_append, ← range'_append_1]
    refine .silent (Silent.ofExcept [] (flat?_eq hp.1)) ?_
    refine hfirst.bind [] <| .all fun q1 _ _ _ hflat => ?_
    refine (Scans.none fun _ => lift?_of_parts (fun _ _ => liftWrites) hp.1 hflat).bind [] <| .one
      fun q2 _ v _ hv => ?_
    exact (ih _ hrest hp.2).above [v] <| .all fun q3 _ _ hq3 hothers => .cons (hv.mono hq3) hothers

theorem liftArgs_scans (hargs : c.args = (f.coreSignature g.dir).params.map .core)
    (hp : FieldsPassable f.params) :
    Scans b c p [] (liftArgs b g f (f.coreSignature g.dir)) (Code.liftArgs b.movesRaw g f)
      (.all (f.params.map .of)) (range (f.passedParams g.dir).length) := by
  have hdrop : (f.passedParams g.dir).map .core <+: c.args.drop 0 := by
    rw [drop_zero, hargs, f.coreSignature_params, map_append]
    exact prefix_append _ _
  rw [range_eq_range']
  simp only [liftArgs, Code.liftArgs]
  split
  · next hind =>
    rw [FunctionShape.passedParams, if_pos hind] at hdrop ⊢
    refine (Scans.takeArg (Contract.args_cons hdrop).1).bind [] <| .taken fun q1 _ a _ ha => ?_
    refine .none fun _ => .silent (Silent.ofExcept [] (fieldLayouts_eq hp)) ?_
    refine (readFields_of_parts (fun _ _ => liftWrites) hp 0 (length_placedOffsets f.params)
      ha).bind [] <| .all fun q2 values outs hq2 hvalues => ?_
    split
    · refine .silent (Silent.push _ a) ?_
      refine (Writes.emitNone (.free _ _) (.one (ha.mono hq2))).lastAll ([] ++ outs) <| .nothing
        fun q3 hq3 => ?_
      rw [append_nil]
      exact hvalues.mono hq3
    · exact .pure hvalues.typed hvalues.named
  · next hdirect =>
    rw [FunctionShape.passedParams, if_neg hdirect] at hdrop ⊢
    exact liftParams_scans 0 hdrop hp

/-- The arguments that are read after those of the interface: the pointer for results, if the caller
provides it. -/
def pointerReads (f : FunctionShape) (dir : Direction) : List Nat :=
  if (f.coreSignature dir).returnPointer.isSome && dir = .imported then
    [(f.coreSignature dir).params.length - 1]
  else []

theorem range_params (f : FunctionShape) (dir : Direction) :
    range (f.passedParams dir).length ++ pointerReads f dir
      = range (f.coreSignature dir).params.length := by
  rw [pointerReads, f.coreSignature_params]
  split
  · rw [length_append, length_singleton, Nat.add_sub_cancel, range_succ]
  · rw [append_nil, append_nil]

theorem lowerResults_scans
    (hargs : pointerReads f g.dir ≠ [] → c.args = (f.coreSignature g.dir).params.map .core)
    (hreturns : c.returns = (f.coreSignature g.dir).results.map .core)
    (hr : FieldsPassable f.results) {xs : List ω} (hrs : p.HasAll rs xs (f.results.map .of)) :
    Scans b c p xs (lowerResults b g f (f.coreSignature g.dir))
      (Code.lowerResults b.movesRaw g f rs) .nothing (pointerReads f g.dir) := by
  have hwrite : ∀ {c} {q : Scene ω} {ra a}, p.Grows q → q.Has ra a (.core .i32) →
      Writes b c .nothing q [] (writeFields b g.loweringAllocator f.results xs
          f.resultArea.offsets a 0)
        (Code.writeFields b.movesRaw g.loweringAllocator f.results rs f.resultArea.offsets ra 0)
        .nothing := fun hq ha =>
    writeFields_of_parts _ (fun _ _ => lowerWrites _) hr 0 (hrs.mono hq) ha
  rw [f.coreSignature_results] at hreturns
  refine .silent (Silent.popN [] xs (hrs.length_eq.trans (length_map _))) ?_
  simp only [Code.lowerResults]
  split
  · next hptr =>
    rw [if_pos hptr] at hreturns
    refine .silent (Silent.ofExcept [] (fieldLayouts_eq hr)) ?_
    cases hdir : g.dir with
    | imported =>
      rw [hdir] at hptr hargs
      rw [hdir, if_pos rfl] at hreturns
      have hreads : pointerReads f .imported = [(f.coreSignature .imported).params.length - 1] := by
        simp [pointerReads, hptr]
      have hlast : c.args[(f.coreSignature .imported).params.length - 1]?
          = some (.core .i32) := by
        rw [hargs (by simp [hreads]), f.coreSignature_params]
        simp [hptr]
      rw [hreads]
      refine (Scans.takeArg hlast).bind [] <| .taken fun q1 _ a hq1 ha => .none fun _ => ?_
      exact (hwrite hq1 ha).bind [] <| .nothing fun q2 _ => ret_writes hreturns rfl .nil
    | exported =>
      rw [hdir, if_neg (by decide)] at hreturns
      have hreads : pointerReads f .exported = [] := by simp [pointerReads]
      rw [hreads]
      refine .none fun _ => (Writes.returnPointer _ _).bind [] <| .taken fun q1 _ a hq1 ha => ?_
      refine (hwrite hq1 ha).bind [] <| .nothing fun q2 hq2 => ?_
      exact .silent (Silent.push [] a) (ret_writes hreturns rfl (.one (ha.mono hq2)))
  · next hptr =>
    rw [if_neg hptr] at hreturns
    have hreads : pointerReads f g.dir = [] := by simp [pointerReads, hptr]
    rw [hreads]
    refine .none fun _ => (lowerFields_of_parts _ (fun _ _ => lowerWrites _) hr hrs).bind [] <| .all
      fun q _ _ _ hflat => ret_writes hreturns ?_ hflat
    rw [length_map, f.coreSignature_results, if_neg hptr]

end Callee

/-! ## Whole adapters -/

/-- A generation that came to its end has nothing left over. When the backend stopped the replay it
stopped the generation. -/
def Completes (run : Except Abort Unit × Generation σ ω) : Except Abort (List ω) × σ → Prop
  | (.error e, st) => ∃ s', run = (.error e, s') ∧ s'.backend = st
  | (.ok _, st) => ∃ log, run = (.ok (), { backend := st, log })

theorem Follows.completes {work : Gen σ ω Unit} {code : Code Unit}
    (h : Follows b [] [] work code Left.nothing.named) (f : FunctionShape) (backend : σ) :
    Completes (runFrom (work >>= fun _ => finish f) { backend })
      (runFrom (b.replay [] (code.run 0).steps) backend) := by
  have hw := h { backend } [] rfl rfl (by simp [Above])
  simp only [length_nil] at hw
  rcases hr : runFrom (b.replay [] (code.run 0).steps) backend with ⟨e | env', st⟩
  · rw [hr] at hw
    obtain ⟨s', hrun, hst⟩ := hw
    exact ⟨s', by rw [runFrom_bind_error hrun], hst⟩
  · rw [hr] at hw
    obtain ⟨_, outs, log, ⟨_, _, rfl⟩, hrun⟩ := hw
    exact ⟨.generated f.name :: log, by rw [runFrom_bind_ok hrun]; rfl⟩

theorem half_scans (hf : f.Passable) :
    Scans b (f.contract (f.coreSignature g.dir) g.mode) p [] (half b g f)
      (Code.call b.movesRaw g f) .nothing
      (range (f.contract (f.coreSignature g.dir) g.mode).args.length) := by
  refine .silent (Silent.note [] _) ?_
  refine .silent (Silent.ofExcept [] (FunctionShape.signature_eq g.dir hf.params hf.results)) ?_
  simp only [Code.call]
  cases hmode : g.mode with
  | lowerArgs =>
    have hargs : (f.contract (f.coreSignature g.dir) .lowerArgs).args = f.params.map .of := rfl
    rw [hargs, length_map]
    refine append_nil (range f.params.length) ▸
      (lowerArgs_scans g hargs hf.params hf.results).bind [] ?_
    rintro q ⟨flat, provided⟩ area outs _ ⟨typed, hprovided, hsome⟩ ⟨named, harea⟩
    refine .none fun _ => (Writes.emit .callCore ⟨named, typed⟩).bind [] <| .all
      fun q2 _ _ hq2 hreturned => liftResults_writes g rfl hf.results hreturned ?_ hsome
    cases harea with
    | some hx => exact .some (Scene.Has.mono ⟨hx, hprovided _ rfl⟩ hq2)
    | none => exact .none
  | liftArgs =>
    have hargs : (f.contract (f.coreSignature g.dir) .liftArgs).args
        = (f.coreSignature g.dir).params.map .core := rfl
    rw [hargs, length_map, ← range_params]
    refine (liftArgs_scans g hargs hf.params).bind [] <| .all fun q1 _ _ _ h => ?_
    have hcall : Scans b (f.contract (f.coreSignature g.dir) .liftArgs) q1 _
        (emit b (.callInterface f)) _ (.all (f.results.map .of)) [] :=
      .none fun _ => .emit .callInterface h
    exact hcall.bind [] <| .all fun q2 _ _ _ hvalues =>
      lowerResults_scans g (fun _ => hargs) rfl hf.results hvalues
  | neither => exact .pure trivial rfl

theorem call_replays (some : Nonempty ω) (hf : f.Passable) (backend : σ) :
    Completes (runFrom (call b g f) { backend })
      (runFrom (b.replay [] ((Code.call b.movesRaw g f).run 0).steps) backend) := by
  exact ((half_scans (b := b) (p := ⟨[], [], rfl⟩) g hf).1 some).2.completes f backend

theorem call_completes (hb : b.Answers) (hf : f.Passable) (backend : σ) :
    Completes (runFrom (call b g f) { backend })
      (runFrom (b.replay [] ((Code.call b.movesRaw g f).run 0).steps) backend) :=
  call_replays g (hb.nonempty backend) hf backend

theorem freeResults_writes (hg : g.dir = .exported) (hf : f.Passable) :
    Writes b (f.postContract (f.coreSignature .exported)) .nothing p [] (freeResults b g f)
      (Code.postReturn f) .nothing := by
  rw [freeResults, if_neg (not_not_intro hg)]
  refine .silent (Silent.note [] _) ?_
  refine .silent (Silent.ofExcept [] (FunctionShape.signature_eq .exported hf.params hf.results)) ?_
  simp only [Code.postReturn]
  split
  · next hptr =>
    have harg : (f.postContract (f.coreSignature .exported)).args[0]? = some (.core .i32) := by
      simp [FunctionShape.postContract, f.coreSignature_results, hptr]
    refine .silent (Silent.ofExcept [] (fieldOffsets_eq hf.results)) ?_
    refine (Writes.emitOne (.getArg harg) .nil).bind [] <| .taken fun q1 _ _ _ ha => ?_
    exact (freeFields_of_parts (fun _ _ => freeWrites) hf.results 0 ha).bind [] <| .nothing
      fun q2 _ => ret_writes rfl rfl .nil
  · exact ret_writes rfl rfl .nil

theorem postReturn_replays (some : Nonempty ω) (hg : g.dir = .exported) (hf : f.Passable)
    (backend : σ) :
    Completes (runFrom (postReturn b g f) { backend })
      (runFrom (b.replay [] ((Code.postReturn f).run 0).steps) backend) :=
  (freeResults_writes (b := b) (p := ⟨[], [], rfl⟩) g hg hf some).2.completes f backend

theorem postReturn_completes (hb : b.Answers) (hg : g.dir = .exported) (hf : f.Passable)
    (backend : σ) :
    Completes (runFrom (postReturn b g f) { backend })
      (runFrom (b.replay [] ((Code.postReturn f).run 0).steps) backend) :=
  postReturn_replays g (hb.nonempty backend) hg hf backend

end Gen

namespace Code

theorem call_reads (raw : RawRule) (g : Generator) {f : FunctionShape}
    (hf : f.Passable) :
    HasType (f.contract (f.coreSignature g.dir) g.mode) .nothing [] (call raw g f) MakesNone ∧
      argReads ((call raw g f).run 0).steps
        = range (f.contract (f.coreSignature g.dir) g.mode).args.length :=
  have h := Gen.half_scans (b := Recording.backend raw) (p := .ofTypes []) g hf
  ⟨h.1.hasType, h.2 ⟨0⟩⟩

theorem postReturn_hasType {f : FunctionShape} (hf : f.Passable) :
    HasType (f.postContract (f.coreSignature .exported)) .nothing [] (postReturn f) MakesNone :=
  (Gen.freeResults_writes (b := Recording.backend fun _ => false)
    { dir := .exported, mode := .liftArgs } rfl hf).hasType

end Code

/-! ## Checked generation -/

section Checked

variable {σ ω : Type} {b : Backend σ ω} {g : Graph} {f : Function}

theorem validationFailure_eq_none (h : validate g (some f) = []) :
    validationFailure g (some f) = none := by
  simp [validationFailure, h, Failure.ofList]

def Checked.ofRun (run : Except Abort Unit × Generation σ ω) : Checked σ :=
  ⟨run.1.mapError Abort.toFailure, run.2.backend, run.2.log⟩

theorem Generator.checked_eq (h : validate g (some f) = []) (dir : Direction) (mode : Mode)
    (realloc : String) (st : σ) :
    Generator.checked { dir, mode, realloc } b (.ofGraph g (some f)) st
      = .ofRun (runFrom (Gen.call b { dir, mode, realloc } (g.shapes.function f))
          { backend := st }) := by
  simp only [Generator.checked, Checked.ofWork, Subject.ofGraph, validationFailure_eq_none h]
  rfl

theorem Generator.checkedPostReturn_eq (h : validate g (some f) = []) (realloc : String) (st : σ) :
    Generator.checkedPostReturn b realloc (.ofGraph g (some f)) st
      = .ofRun (runFrom (Gen.postReturn b { dir := .exported, mode := .liftArgs, realloc }
          (g.shapes.function f)) { backend := st }) := by
  simp only [Generator.checkedPostReturn, Checked.ofWork, Subject.ofGraph,
    validationFailure_eq_none h]
  rfl

end Checked

end CanonicalAbi
