import CanonicalAbi.Proofs.Dominance

/-!
# Upper halves

Core values are kept in words of 64 bits, and nothing clears the upper halves of arguments of 32
bits. Two runs of the callee's half whose arguments differ there only are the same: every
instruction that lifts takes the low half of such an operand, and no cast that lifts makes a wider
value of it.
-/

namespace CanonicalAbi

open List Exec OperandType Machine

variable {ps : List (Value × Value)} {v v' : Value} {x y : UInt64} {α : Type} {args' : List Value}
  {t : OperandType} {types : List OperandType} {i : Instr}

/-! ## Operands -/

def OperandType.Short (t : OperandType) : Prop := t = .core .i32 ∨ t = .core .f32

/-- Two operands of a type that are the same, if `loose` up to upper halves that say nothing. -/
def OperandType.Alike (loose : Prop) (t : OperandType) (v v' : Value) : Prop :=
  v = v' ∨ loose ∧ t.Short ∧ v.core.toUInt32 = v'.core.toUInt32

def AllAlike (loose : Prop) : List OperandType → List (Value × Value) → Prop :=
  List.Forall₂ fun t p => t.Alike loose p.1 p.2

variable {loose : Prop}

theorem OperandType.Alike.low (h : t.Alike loose v v') : v.core.toUInt32 = v'.core.toUInt32 := by
  rcases h with rfl | ⟨_, _, same⟩
  · rfl
  · exact same

theorem OperandType.Alike.eq (h : t.Alike loose v v') (exact : loose → ¬ t.Short) : v = v' := by
  rcases h with same | ⟨hl, short, _⟩
  · exact same
  · exact absurd short (exact hl)

namespace AllAlike

variable {types : List OperandType} {ps : List (Value × Value)}

theorem eq (h : AllAlike loose types ps) (exact : loose → ∀ t ∈ types, ¬ t.Short) :
    ps.map Prod.fst = ps.map Prod.snd := by
  induction h with
  | nil => rfl
  | cons first _ ih =>
    rw [map_cons, map_cons, first.eq fun hl => exact hl _ mem_cons_self,
      ih fun hl t ht => exact hl t (mem_cons_of_mem _ ht)]

theorem low (h : AllAlike loose types ps) :
    ps.map (fun p => p.1.core.toUInt32) = ps.map fun p => p.2.core.toUInt32 := by
  induction h with
  | nil => rfl
  | cons first _ ih => rw [map_cons, map_cons, first.low, ih]

theorem of_one (h : AllAlike loose [t] ps) : ∃ p, ps = [p] ∧ t.Alike loose p.1 p.2 := by
  obtain ⟨p, _, hp, hrest, rfl⟩ := forall₂_cons_left_iff.mp h
  obtain rfl := forall₂_nil_left_iff.mp hrest
  exact ⟨p, rfl, hp⟩

theorem of_two {u : OperandType} (h : AllAlike loose [t, u] ps) :
    ∃ p q, ps = [p, q] ∧ t.Alike loose p.1 p.2 ∧ u.Alike loose q.1 q.2 := by
  obtain ⟨p, _, hp, hrest, rfl⟩ := forall₂_cons_left_iff.mp h
  obtain ⟨q, rfl, hq⟩ := of_one hrest
  exact ⟨p, q, rfl, hp, hq⟩

theorem refl {vs : List Value} (h : types.length = vs.length) :
    AllAlike loose types (vs.map fun v => (v, v)) := by
  induction types generalizing vs with
  | nil =>
    rw [eq_nil_of_length_eq_zero h.symm]
    exact .nil
  | cons t types ih =>
    obtain ⟨v, vs, rfl⟩ := exists_cons_of_length_eq_add_one h.symm
    exact .cons (.inl rfl) (ih (Nat.succ.inj h))

end AllAlike

/-! ## Instructions -/

/-- The instructions that make no wider value of a core value of 32 bits and do not hand it on. -/
def Instr.Narrow : Instr → Prop
  | bitcasts casts => ∀ cast ∈ casts, ¬ cast.Widens
  | lowerSum _ _ _ results => results = []
  | ret count => count = 0
  | callCore _ _ => False
  | _ => True

theorem OperandType.not_short_source {part : Option Shape} : ¬ (source part).Short := by
  simp [Short]

theorem OperandType.not_short_of {part : Option Shape} : ¬ (of part).Short :=
  not_short_source

theorem Scalar.liftValue_low {s : Scalar} (h : (core s.coreType).Short)
    (low : x.toUInt32 = y.toUInt32) : s.liftValue x = s.liftValue y := by
  have low8 : x.toUInt8 = y.toUInt8 := by
    rw [← UInt64.toUInt8_toUInt32, low, UInt64.toUInt8_toUInt32]
  have low16 : x.toUInt16 = y.toUInt16 := by
    rw [← UInt64.toUInt16_toUInt32, low, UInt64.toUInt16_toUInt32]
  cases s <;> simp [coreType, OperandType.Short] at h <;> simp only [liftValue, low, low8, low16]

theorem Exec.store_low {op : StoreOp} (h : (core op.coreType).Short) (addr : UInt32)
    (low : x.toUInt32 = y.toUInt32) : (store op addr x : Exec α Unit) = store op addr y := by
  have bytes : ∀ count ≤ 4, Memory.toBytes count x = Memory.toBytes count y := by
    intro count hcount
    refine Memory.toBytes_congr (by omega) ?_
    have same : x.toNat % 2 ^ 32 = y.toNat % 2 ^ 32 := by simpa using congrArg UInt32.toNat low
    have divides : 2 ^ (8 * count) ∣ 2 ^ 32 := Nat.pow_dvd_pow 2 (by omega)
    rw [← Nat.mod_mod_of_dvd x.toNat divides, same, Nat.mod_mod_of_dvd _ divides]
  have stored : ∀ width : IntWidth, width.size.toNat ≤ 4 →
      (Action.store width addr x : Action α Unit) = .store width addr y := fun width small => by
    simp only [Action.store, Memory.store, bytes _ small]
  cases op <;> simp [StoreOp.coreType, OperandType.Short] at h <;>
    rw [store, store, stored _ (by decide)]

namespace Bitcast

theorem Converts.alike {cast : Bitcast} {a b : CoreType} (h : Converts cast a b)
    (narrow : loose → ¬ cast.Widens) (hv : (core a).Alike loose v v') :
    (core b).Alike loose (.u64 (cast.apply v.core)) (.u64 (cast.apply v'.core)) := by
  rcases hv with rfl | ⟨hl, short, low⟩
  · exact .inl rfl
  · cases h with
    | none | i32ToF32 | f32ToI32 => exact .inr ⟨hl, by simp_all [OperandType.Short], low⟩
    | i32ToI64 => exact absurd (.inl rfl) (narrow hl)
    | f32ToI64 => exact absurd (.inr rfl) (narrow hl)
    | i64ToI32 | i64ToF32 | f64ToI64 | i64ToF64 => simp [OperandType.Short] at short

theorem ConvertsAll.alike {casts : List Bitcast} {own slots : List CoreType}
    (h : ConvertsAll casts own slots) (narrow : loose → ∀ cast ∈ casts, ¬ cast.Widens)
    (hps : AllAlike loose (own.map .core) ps) :
    AllAlike loose (slots.map .core) (zipWith (fun cast p =>
      (.u64 (cast.apply p.1.core), .u64 (cast.apply p.2.core))) casts ps) := by
  induction h generalizing ps with
  | nil => exact .nil
  | cons first rest ih =>
    obtain ⟨p, ps, hp, hrest, rfl⟩ := forall₂_cons_left_iff.mp hps
    refine .cons (first.alike (fun hl => narrow hl _ mem_cons_self) hp) (ih ?_ hrest)
    exact fun hl cast hc => narrow hl cast (mem_cons_of_mem _ hc)

end Bitcast

namespace Instr.HasType

variable {c : Contract} {item : Item} {i : Instr} {ins outs : List OperandType}
  {types : List BlockType} (h : i.HasType c item ins types outs) (narrow : loose → i.Narrow)

include h narrow

theorem yields_exact (hl : loose) : ∀ type ∈ types, ∀ t ∈ type.results, ¬ t.Short := by
  have small := narrow hl
  cases h with
  | lowerSum form l payloads results =>
    obtain rfl : results = [] := small
    simp
  | liftSum form l payloads =>
    intro type htype t ht
    obtain ⟨p, _, rfl⟩ := mem_map.mp htype
    obtain ⟨s, _, rfl⟩ := mem_map.mp ht
    exact not_short_of
  | liftList l elem => simp [not_short_of]
  | freeSum l cases =>
    intro type htype
    rw [eq_of_mem_replicate htype]
    simp
  | _ => simp

theorem instr_alike [Allocator α] (hcasts : ∀ casts, i ≠ .bitcasts casts)
    (hps : AllAlike loose ins ps) (s : Setting α) (scope : Scope) (blocks : Nat)
    (run : Nat → Scope → Exec α (List Value)) :
    instr s scope blocks run i (ps.map Prod.fst)
      = instr s scope blocks run i (ps.map Prod.snd) := by
  have same : (loose → ∀ t ∈ ins, ¬ t.Short) → instr s scope blocks run i (ps.map Prod.fst)
      = instr s scope blocks run i (ps.map Prod.snd) := fun exact => by rw [hps.eq exact]
  cases h with
  | bitcasts => exact absurd rfl (hcasts _)
  | load | liftHandle | liftSum | liftEnum | free | freeSum =>
    obtain ⟨p, rfl, hp⟩ := hps.of_one
    simp only [instr, map_cons, headD_cons, hp.low]
  | liftString | liftBytes | liftList | freeString | freeList =>
    obtain ⟨p, q, rfl, hp, hq⟩ := hps.of_two
    simp only [instr, map_cons, headD_cons, getD_cons_succ, getD_cons_zero,
      hp.low, hq.low]
  | store op offset =>
    obtain ⟨p, q, rfl, hp, hq⟩ := hps.of_two
    simp only [instr, map_cons, headD_cons, getD_cons_succ, getD_cons_zero,
      hq.low]
    rcases hp with eq | ⟨_, short, low⟩
    · rw [eq]
    · rw [store_low short _ low]
  | liftScalar x =>
    obtain ⟨p, rfl, hp⟩ := hps.of_one
    simp only [instr, map_cons, headD_cons]
    rcases hp with eq | ⟨_, short, low⟩
    · rw [eq]
    · rw [Scalar.liftValue_low short low]
  | liftFlags => simp only [instr, map_map, Function.comp_def, hps.low]
  | callCore => exact same fun hl => (narrow hl).elim
  | ret hcount =>
    refine same fun hl t ht => ?_
    have none : c.returns.length = 0 := hcount.trans (narrow hl)
    rw [eq_nil_of_length_eq_zero none] at ht
    cases ht
  | _ => exact same (by simp [not_short_source, not_short_of])

end Instr.HasType

/-! ## Registers -/

/-- Registers of a type have values alike at it. -/
structure RegsAlike (loose : Prop) (Γ : RegTypes) (a a' : Array Value) : Prop where
  size : a.size = a'.size
  reg : ∀ (r : Reg) (t : OperandType), Γ[r]? = some (some t) →
    t.Alike loose (a.getD r .nothing) (a'.getD r .nothing)

namespace RegsAlike

variable {Γ Γ' : RegTypes} {a a' : Array Value}

theorem mono (h : RegsAlike loose Γ' a a') (hpre : Γ <+: Γ') : RegsAlike loose Γ a a' :=
  ⟨h.size, fun r t hr => h.reg r t (Named.get hpre hr)⟩

theorem out_of_scope (h : RegsAlike loose Γ a a') (n : Nat) :
    RegsAlike loose (Γ ++ replicate n none) a a' :=
  ⟨h.size, fun r t hr => h.reg r t (getElem?_of_scope hr)⟩

theorem read (h : RegsAlike loose Γ a a') {regs : List Reg} (hregs : Typed Γ regs types) :
    AllAlike loose types (regs.map fun r => (a.getD r .nothing, a'.getD r .nothing)) := by
  induction types generalizing regs with
  | nil =>
    obtain rfl := hregs.of_nil
    exact .nil
  | cons t types ih =>
    obtain ⟨r, rest, rfl, hr, hrest⟩ := hregs.of_cons
    exact .cons (h.reg r t hr) (ih hrest)

theorem set (h : RegsAlike loose Γ a a') (hps : AllAlike loose types ps) :
    RegsAlike loose (Γ ++ types.map some) (setRange a Γ.length (ps.map Prod.fst))
      (setRange a' Γ.length (ps.map Prod.snd)) := by
  induction hps generalizing Γ a a' with
  | nil => simpa [setRange] using h
  | @cons t p types ps first _ ih =>
    have one : RegsAlike loose (Γ ++ [some t]) (a.setIfInBounds Γ.length p.1)
        (a'.setIfInBounds Γ.length p.2) := by
      refine ⟨by simp [h.size], fun r u hr => ?_⟩
      simp only [Array.getD_eq_getD_getElem?, Array.getElem?_setIfInBounds, h.size]
      by_cases here : Γ.length = r
      · subst here
        obtain rfl : t = u := by simpa using hr
        by_cases inside : Γ.length < a'.size
        · simpa [inside] using first
        · simp [inside, OperandType.Alike]
      · have old : Γ[r]? = some (some u) := by
          have below := (List.getElem?_eq_some_iff.mp hr).1
          rw [List.length_append, List.length_singleton] at below
          rwa [List.getElem?_append_left (by omega)] at hr
        simpa [here, Array.getD_eq_getD_getElem?] using h.reg r u old
    simpa [setRange] using ih one

theorem forget {loose' : Prop} (h : RegsAlike loose (Γ ++ types.map some) a a')
    (exact : ∀ t ∈ types, ¬ t.Short) :
    RegsAlike loose' (replicate Γ.length none ++ types.map some) a a' := by
  refine ⟨h.size, fun r t hr => .inl ?_⟩
  rcases Nat.lt_or_ge r Γ.length with inside | outside
  · rw [getElem?_append_left (by simpa using inside)] at hr
    cases eq_of_mem_replicate (mem_of_getElem? hr)
  · rw [getElem?_append_right (by simpa using outside), length_replicate] at hr
    refine (h.reg r t ?_).eq fun _ => exact t (by simpa using mem_of_getElem? hr)
    rwa [getElem?_append_right outside]

end RegsAlike

/-- Arguments are alike at their types. -/
structure ArgsAlike (loose : Prop) (types : List OperandType) (args args' : List Value) : Prop where
  length : args.length = args'.length
  arg : ∀ (index : Nat) (t : OperandType) (v v' : Value), types[index]? = some t →
    args[index]? = some v → args'[index]? = some v' → t.Alike loose v v'

theorem ArgsAlike.refl (types : List OperandType) (args : List Value) :
    ArgsAlike loose types args args :=
  ⟨rfl, fun _ _ _ _ _ hv hv' => .inl (Option.some.inj (hv.symm.trans hv'))⟩

/-! ## Steps -/

/-- Machines that differ in registers only, and there as the types permit. -/
abbrev Machine.AlikeAt {α : Type} (loose : Prop) (Γ : RegTypes) : Machine α → Machine α → Prop :=
  Beside Eq (RegsAlike loose Γ)

/-- Machines that differ in registers only. -/
abbrev Machine.Level {α : Type} : Machine α → Machine α → Prop :=
  Beside Eq fun _ _ => True

theorem Machine.Beside.level {G : Array Value → Array Value → Prop} (m m' : Machine α)
    (h : Beside Eq G m m') : m.Level m' :=
  ⟨h.world, trivial, h.borrowed, h.scratch, h.lent, h.results⟩

section Steps

variable {α : Type} {c : Contract} {item : Item} {Γ Γ1 Γ' : RegTypes}

/-- From two machines, two computations end alike: both with operands of some types that are alike,
and with registers that still are, or both with the same failure. -/
def Yield (loose : Prop) (Γ : RegTypes) (types : List OperandType) (x x' : Exec α (List Value))
    (m m' : Machine α) : Prop :=
  (∃ ps t t', runFrom x m = (.ok (ps.map Prod.fst), t) ∧ runFrom x' m' = (.ok (ps.map Prod.snd), t')
    ∧ AllAlike loose types ps ∧ t.AlikeAt loose Γ t')
  ∨ ∃ e t t', runFrom x m = (.error e, t) ∧ runFrom x' m' = (.error e, t') ∧ t.Level t'

theorem Exec.setRegs_alike (hps : AllAlike loose types ps) {m m' : Machine α}
    (hm : m.AlikeAt loose Γ m') :
    ∃ t t', runFrom (setRegs (range' Γ.length types.length) (ps.map Prod.fst)) m = (.ok (), t)
      ∧ runFrom (setRegs (range' Γ.length types.length) (ps.map Prod.snd)) m' = (.ok (), t')
      ∧ t.AlikeAt loose (Γ ++ types.map some) t' := by
  have length : ∀ side : Value × Value → Value, types.length = (ps.map side).length := fun side =>
    hps.length_eq.trans (length_map side).symm
  have left := runFrom_setRegs Γ.length (ps.map Prod.fst) m
  have right := runFrom_setRegs Γ.length (ps.map Prod.snd) m'
  rw [← length] at left right
  exact ⟨_, _, left, right, hm.world, hm.registers.set hps, hm.borrowed, hm.scratch, hm.lent,
    hm.results⟩

variable [Allocator α] {s : Setting α}

theorem Exec.instr_args (h : ∀ index, i ≠ .getArg index) (scope : Scope) (args' : List Value)
    (blocks : Nat) (run : Nat → Scope → Exec α (List Value)) (vs : List Value) :
    instr s { scope with args := args' } blocks run i vs = instr s scope blocks run i vs := by
  cases i with
  | getArg => exact absurd rfl (h _)
  | _ => rfl

theorem Instr.HasType.yields {ins outs : List OperandType} {types : List BlockType}
    (h : i.HasType c item ins types outs) (narrow : loose → i.Narrow) {scope : Scope}
    (hscope : ArgsAlike loose c.args scope.args args') {blocks : Nat}
    {run : Nat → Scope → Exec α (List Value)}
    (hrun : ∀ n scope, Related Level (AlikeAt loose Γ) (AlikeAt loose Γ)
      (run n scope) (run n scope))
    (passes : i.passesOn → ∀ n < blocks, ∀ scope, Delivers i.results (run n scope))
    (hps : AllAlike loose ins ps) {m m' : Machine α} (hm : m.AlikeAt loose Γ m') :
    Yield loose Γ outs (instr s scope blocks run i (ps.map Prod.fst))
      (instr s { scope with args := args' } blocks run i (ps.map Prod.snd)) m m' := by
  by_cases hcasts : ∃ casts, i = .bitcasts casts
  · obtain ⟨casts, rfl⟩ := hcasts
    cases h with
    | bitcasts converts =>
      refine .inl ⟨_, m, m', ?_, ?_, converts.alike narrow hps, hm⟩ <;>
        rw [List.map_zipWith, instr, List.zipWith_map_right] <;> rfl
  by_cases hget : ∃ index, i = .getArg index
  · obtain ⟨index, rfl⟩ := hget
    cases h with
    | getArg ht =>
      simp only [instr]
      rcases hv : scope.args[index]? with _ | v <;> rcases hv' : args'[index]? with _ | v'
      · rw [hscope.length]
        exact .inr ⟨_, m, m', rfl, rfl, hm.level⟩
      · have := List.getElem?_eq_none_iff.mp hv
        have := (List.getElem?_eq_some_iff.mp hv').1
        have := hscope.length
        omega
      · have := List.getElem?_eq_none_iff.mp hv'
        have := (List.getElem?_eq_some_iff.mp hv).1
        have := hscope.length
        omega
      · exact .inl ⟨[(v, v')], m, m', rfl, rfl, .cons (hscope.arg index _ v v' ht hv hv') .nil, hm⟩
  rw [instr_args (fun index h => hget ⟨index, h⟩) scope args',
    ← h.instr_alike narrow (fun casts h => hcasts ⟨casts, h⟩) hps]
  have length : (ps.map Prod.fst).length = i.operands :=
    ((List.length_map _).trans hps.length_eq.symm).trans h.length_operands
  rcases instr_paired (F := Level) Beside.level World.Answers.equality
    (Setting.Matches.refl s) scope blocks hrun i (ps.map Prod.fst) m m' hm with
    ⟨vs, t, t', ran, ran', alike⟩ | failed
  · have made : outs.length = vs.length :=
      h.length_results.trans (instr_delivers s scope blocks length passes m vs t ran).symm
    refine .inl ⟨vs.map fun v => (v, v), t, t', ?_, ?_, .refl made, alike⟩ <;>
      simpa [Function.comp_def] using ‹_›
  · exact .inr failed

theorem step_alike {args : List Reg} {blocks : List Block} {ins outs : List OperandType}
    {types : List BlockType} (hblocks : TypedBlocks c Γ blocks types Γ1)
    (hi : i.HasType c item ins types outs) (hargs : Typed Γ1 args ins) (narrow : loose → i.Narrow)
    (hrun : ∀ n scope, Related Level (AlikeAt loose Γ) (AlikeAt loose Γ)
      (nth s scope n blocks) (nth s scope n blocks))
    {scope : Scope} (hscope : ArgsAlike loose c.args scope.args args') :
    Related Level (AlikeAt loose Γ) (AlikeAt loose (Γ1 ++ outs.map some))
      (step s scope (.exec i args (range' Γ1.length outs.length) blocks))
      (step s { scope with args := args' }
        (.exec i args (range' Γ1.length outs.length) blocks)) := by
  obtain ⟨n, rfl⟩ := hblocks.scope_eq
  intro m m' hm
  have hps := (hm.registers.out_of_scope n).read hargs
  have yields := hi.yields (s := s) narrow hscope hrun (fun passes n hn scope =>
    Forgetful.nth_delivers s (hblocks.length_results (hi.passes passes)) hn scope) hps hm
  simp only [map_map, Function.comp_def] at yields
  rw [step, step, runFrom_bind_ok (runFrom_getRegs args m),
    runFrom_bind_ok (runFrom_getRegs args m')]
  rcases yields with ⟨ps, t, t', ran, ran', alike, ht⟩ | ⟨e, t, t', ran, ran', ht⟩
  · obtain ⟨u, u', set, set', hu⟩ := setRegs_alike alike
      ⟨ht.world, ht.registers.out_of_scope n, ht.borrowed, ht.scratch, ht.lent, ht.results⟩
    exact .inl ⟨(), u, u', (runFrom_bind_ok ran).trans set, (runFrom_bind_ok ran').trans set', hu⟩
  · exact .inr ⟨e, t, t', runFrom_bind_error ran, runFrom_bind_error ran', ht⟩

variable (s)

mutual

theorem TypedSteps.alike {item : Item} {Γ Γ' : RegTypes} {steps : List Step} :
    TypedSteps c item Γ steps Γ' → (loose → StepsOnly Instr.Narrow steps) →
    ∀ {scope : Scope} {args' : List Value}, ArgsAlike loose c.args scope.args args' →
      Related Level (AlikeAt loose Γ) (AlikeAt loose Γ')
        (Exec.steps s scope steps) (Exec.steps s { scope with args := args' } steps)
  | .nil _ _, _, _, _, _ => .pure ()
  | .exec hblocks hi hargs hrest, narrow, scope, args', hscope => by
    refine (step_alike hblocks hi hargs (fun hl => (narrow hl).1.1) ?_ hscope).bind fun _ =>
      hrest.alike (fun hl => (narrow hl).2) hscope
    exact hblocks.alike (fun hl => (narrow hl).1.2) (hi.yields_exact fun hl => (narrow hl).1.1)
  | .scratch size align hrest, narrow, scope, args', hscope => by
    refine Related.bind ?_ fun _ => hrest.alike (fun hl => (narrow hl).2) hscope
    refine (Exec.act_paired Beside.level (.refl _)).bind fun ptr => ?_
    intro m m' hm
    have pointer : AllAlike loose [.core .i32] [(.ofU32 ptr, .ofU32 ptr)] := .cons (.inl rfl) .nil
    have noted : AlikeAt loose _ { m with scratch := ⟨ptr, size, align⟩ :: m.scratch }
        { m' with scratch := ⟨ptr, size, align⟩ :: m'.scratch } :=
      ⟨hm.world, hm.registers, hm.borrowed, by rw [hm.scratch], hm.lent, hm.results⟩
    obtain ⟨t, t', set, set', ht⟩ := Exec.setRegs_alike pointer noted
    exact .inl ⟨(), t, t', set, set', ht⟩

theorem TypedBlocks.alike {Γ Γ' : RegTypes} {blocks : List Block} {types : List BlockType} :
    TypedBlocks c Γ blocks types Γ' → (loose → BlocksOnly Instr.Narrow blocks) →
    (loose → ∀ type ∈ types, ∀ t ∈ type.results, ¬ t.Short) → ∀ n scope,
      Related Level (AlikeAt loose Γ) (AlikeAt loose Γ)
        (nth s scope n blocks) (nth s scope n blocks)
  | .nil _, _, _, n, _ => by
    cases n <;> exact .pure []
  | .cons hsteps hresults hrest, narrow, exact, 0, scope => by
    refine (hsteps.alike (fun hl => (narrow hl).1) (.refl _ scope.args)).bind fun _ m m' hm => ?_
    have same := (hm.registers.read hresults).eq fun hl => exact hl _ mem_cons_self
    rw [map_map, map_map] at same
    refine .inl ⟨_, m, m', runFrom_getRegs _ m, ?_, hm.world, hm.registers.mono
      (prefix_append _ _), hm.borrowed, hm.scratch, hm.lent, hm.results⟩
    exact congrArg (fun vs => (Except.ok vs, m')) same.symm
  | .cons _ _ hrest, narrow, exact, n + 1, scope => by
    intro m m' hm
    refine (Related.weaken (hrest.alike (fun hl => (narrow hl).2)
      (fun hl => tail_parts (exact hl)) n scope) fun t t' ht => ?_) m m' ?_
    · exact ⟨ht.world, ht.registers.mono (prefix_append _ _), ht.borrowed, ht.scratch, ht.lent,
        ht.results⟩
    · exact ⟨hm.world, hm.registers.out_of_scope _, hm.borrowed, hm.scratch, hm.lent, hm.results⟩

end

end Steps

/-! ## Storing results -/

theorem Instr.Lifts.narrow {raw : RawRule} (h : i.Lifts raw) : i.Narrow := by
  cases i with
  | bitcasts => exact h
  | lowerSum | ret | callCore => exact h.elim
  | _ => trivial

/-- The instructions that values are stored with, which make no core value of 32 bits wider. Of
other ways to move values nothing is said. -/
def Instr.NarrowOn : Way → Instr → List Block → Prop
  | .store, i, _ => i.Narrow
  | _, _, _ => True

theorem Instr.storesNarrow (raw : RawRule) :
    Repertoire raw (fun _ => True) NarrowOn where
  part _ _ := trivial
  stored _ _ _ := trivial
  plain way i h := by cases way <;> cases i <;> trivial
  castUp _ := trivial
  castDown _ _ _ := trivial
  list way i l elem b _ _ h := by
    cases way with
    | store =>
      obtain ⟨_, rfl⟩ := h
      trivial
    | _ => trivial
  sum way i l form payloads body blocks _ _ h _ := by cases way <;> cases i <;> trivial

namespace Code

variable {raw : RawRule}

theorem lowerResults_narrow {dir : Direction} {f : FunctionShape}
    (h : Gen.pointerReads f dir ≠ []) (values : List Reg) (k : Reg) :
    StepsOnly Instr.Narrow
      ((lowerResults raw { dir, mode := .liftArgs } f values).run k).steps := by
  obtain ⟨pointer, rfl⟩ : (f.coreSignature dir).returnPointer.isSome ∧ dir = .imported := by
    by_contra absent
    exact h (by simpa [Gen.pointerReads] using absent)
  have uses : Uses (Instr.NarrowOn .store)
      (lowerResults raw { dir := .imported, mode := .liftArgs } f values) := by
    rw [lowerResults, if_pos pointer]
    refine (Uses.emitOne trivial _).bind fun addr => ?_
    refine (writeFields_uses (fun s _ => moves (Instr.storesNarrow raw) trivial) _ _ _ _ _).bind
      fun _ => ?_
    exact .emitNone (show (Instr.ret 0).Narrow from rfl) _
  exact uses k

end Code

/-! ## Whole runs -/

/-- Core values of a type that are the same, up to the upper half of one of 32 bits. -/
def CoreType.SameLow : CoreType → UInt64 → UInt64 → Prop
  | .i32, x, y | .f32, x, y => x.toNat % 2 ^ 32 = y.toNat % 2 ^ 32
  | .i64, x, y | .f64, x, y => x = y

/-- As many core values as types, which are the same up to upper halves of those of 32 bits. -/
def SameLows : List CoreType → List UInt64 → List UInt64 → Prop
  | [], [], [] => True
  | t :: types, x :: xs, y :: ys => t.SameLow x y ∧ SameLows types xs ys
  | _, _, _ => False

theorem CoreType.SameLow.alike {t : CoreType} (h : t.SameLow x y) :
    (core t).Alike True (.u64 x) (.u64 y) := by
  have low : x.toNat % 2 ^ 32 = y.toNat % 2 ^ 32 → x.toUInt32 = y.toUInt32 := fun h =>
    UInt32.toNat_inj.mp (by simpa using h)
  cases t with
  | i32 => exact .inr ⟨trivial, .inl rfl, low h⟩
  | f32 => exact .inr ⟨trivial, .inr rfl, low h⟩
  | i64 | f64 => exact .inl (congrArg Value.u64 h)

theorem SameLows.alike : {types : List CoreType} → {xs ys : List UInt64} → SameLows types xs ys →
    ArgsAlike True (types.map .core) (Value.ofCore xs) (Value.ofCore ys)
  | [], [], [], _ => .refl _ _
  | t :: types, x :: xs, y :: ys, h => by
    obtain ⟨length, arg⟩ := h.2.alike
    refine ⟨congrArg (· + 1) length, fun index u v v' hu hv hv' => ?_⟩
    cases index with
    | zero =>
      cases hu
      cases hv
      cases hv'
      exact h.1.alike
    | succ index => exact arg index u v v' hu hv hv'

variable {α : Type} [Allocator α]

theorem Code.call_alike (raw : RawRule) (dir : Direction) {f : FunctionShape}
    (hf : f.Passable) {args : List Value}
    (h : ArgsAlike True ((f.coreSignature dir).params.map .core) args args') (host : Host α)
    (w : World α) : let p := (call raw { dir, mode := .liftArgs } f).program f dir .liftArgs
    runFrom (p.run host args) w = runFrom (p.run host args') w := by
  intro p
  obtain ⟨parts⟩ := exists_parts raw dir hf
  let made := f.results.map of
  have source : ∀ t ∈ made, ¬ t.Short := by
    intro t ht
    obtain ⟨part, _, rfl⟩ := mem_map.mp ht
    exact not_short_of
  -- up to the call, upper halves may differ
  let call := Step.exec (.callInterface f) parts.regs
    (range' parts.types.length made.length) []
  have typed : TypedSteps (f.contract (f.coreSignature dir) .liftArgs) .nothing []
      (parts.before ++ [call]) (parts.types ++ made.map some) :=
    parts.typed.append (.exec (.nil _) .callInterface parts.passed (.nil _ _))
  have received : Related Level (AlikeAt True []) (AlikeAt True _)
      (Exec.steps ⟨host, p.ownsLifted⟩ { args } (parts.before ++ [call]))
      (Exec.steps ⟨host, p.ownsLifted⟩ { args := args' } (parts.before ++ [call])) :=
    typed.alike ⟨host, p.ownsLifted⟩ (fun _ => stepsAll_append.mpr
      ⟨parts.lifts.mono fun _ _ h => h.narrow, ⟨trivial, trivial⟩, trivial⟩) h
  -- after it, they may if the code reads the pointer for results
  obtain ⟨loose, answered⟩ : ∃ loose, Related Level
      (AlikeAt loose (replicate parts.types.length none ++ made.map some))
      (AlikeAt loose parts.allTypes) (Exec.steps ⟨host, p.ownsLifted⟩ { args } parts.after)
      (Exec.steps ⟨host, p.ownsLifted⟩ { args := args' } parts.after) := by
    rcases parts.reads with none | ⟨same, pointer⟩
    · refine ⟨False, parts.typedAfter.alike _ nofun ⟨h.length, fun index t v v' ht => ?_⟩⟩
      rw [none] at ht
      cases ht
    · refine ⟨True, parts.typedAfter.alike _ (fun _ => ?_) ?_⟩
      · obtain ⟨values, k, steps⟩ := parts.lowers
        rw [steps]
        exact lowerResults_narrow pointer values k
      · rw [same]
        exact h
  have whole := (received.weaken fun m m' hm => (⟨hm.world, hm.registers.forget source, hm.borrowed,
    hm.scratch, hm.lent, hm.results⟩ : m.AlikeAt loose _ m')).bind fun _ => answered
  have start : (p.startOn args.length w).AlikeAt True [] (p.startOn args'.length w) := by
    rw [h.length]
    exact ⟨rfl, ⟨rfl, nofun⟩, rfl, rfl, rfl, rfl⟩
  have code : ∀ (c : Setting α) (scope : Scope) (m : Machine α),
      runFrom (Exec.steps c scope p.body.steps) m
        = runFrom (do Exec.steps c scope (parts.before ++ [call]); Exec.steps c scope parts.after)
          m := by
    intro c scope m
    change runFrom (Exec.steps c scope ((Code.call raw _ f).run 0).steps) m = _
    rw [parts.split, ← Exec.steps_append, append_assoc]
    rfl
  rw [Program.runFrom_run_steps, Program.runFrom_run_steps, code, code]
  rcases whole _ _ start with ⟨b, m, m', hm, hm', same⟩ | ⟨e, m, m', hm, hm', same⟩ <;> rw [hm, hm']
  · exact p.ending_congr same (.ok b)
  · exact p.ending_congr same (.error e)

/-- Upper halves of arguments of 32 bits are ignored. The callee's half of every validated function
of an acyclic graph compiles. Take core arguments that are the same where the signature has 64 bits,
and the same modulo `2 ^ 32` where it has 32. Whatever is outside, the program ends in the same way
on both: with the same results or the same failure, and in the same world, so with the same memory,
allocator and handle table. Either it fails on both before it has called anything, or it calls the
function of the interface with the same values. -/
theorem upper_halves_ignored {g : Graph} (hg : g.Acyclic) {f : Function}
    (hf : validate g (some f) = []) (raw : RawRule) (dir : Direction) :
    ∃ p, (Program.compile dir .liftArgs raw (.ofGraph g (some f))).1 = .ok p
      ∧ ∀ {α : Type} [Allocator α] (flat flat' : List UInt64) (w : World α),
        SameLows ((g.shapes.function f).coreSignature dir).params flat flat' →
        (∀ host, runFrom (p.run host (Value.ofCore flat)) w
          = runFrom (p.run host (Value.ofCore flat')) w)
        ∧ ((∃ e, p.Refuses (Value.ofCore flat) w e ∧ p.Refuses (Value.ofCore flat') w e)
          ∨ ∃ values, p.CallsWith (Value.ofCore flat) w (g.shapes.function f) values
            ∧ p.CallsWith (Value.ofCore flat') w (g.shapes.function f) values) := by
  have passable := passable_of_validate hg hf
  refine ⟨_, compile_eq raw hg hf dir .liftArgs, fun flat flat' w h => ?_⟩
  have same := fun host => Code.call_alike raw dir passable h.alike host w
  refine ⟨same, ?_⟩
  rcases Code.call_receives raw dir passable flat w with ⟨e, _, w', refused⟩ | ⟨values, _, called⟩
  · exact .inl ⟨e, ⟨w', refused⟩, w', fun host => (same host).symm.trans (refused host)⟩
  · refine .inr ⟨values, called, ?_, fun host absent => ?_⟩
    · obtain ⟨world, finish, seen, fails, ends⟩ := called.call
      exact ⟨world, finish, seen, fails, fun host impl h =>
        (same host).symm.trans (ends host impl h)⟩
    · obtain ⟨e, w', report, failed⟩ := called.absent host absent
      exact ⟨e, w', report, (same host).symm.trans failed⟩

/-- A postbox does the same with a box and a key whatever stands above their numbers. -/
theorem upper_halves_ignored_postbox :
    Postbox.graph.Acyclic ∧ validate Postbox.graph (some Postbox.swap) = []
    ∧ SameLows ((Postbox.graph.shapes.function Postbox.swap).coreSignature .imported).params
      [7, 2, 0x10000000000, 0, 0, 0, 0, 64]
      [0x100000007, 0x200000002, 0x10000000000, 0x100000000, 0, 0, 0, 0x100000040]
    ∧ ∃ p, (Program.compile .imported .liftArgs Program.isByte Postbox.subject).1 = .ok p
      ∧ ∀ {α : Type} [Allocator α] (w : World α) (host : Host α),
        runFrom (p.run host (Value.ofCore [7, 2, 0x10000000000, 0, 0, 0, 0, 64])) w
          = runFrom (p.run host (Value.ofCore
            [0x100000007, 0x200000002, 0x10000000000, 0x100000000, 0, 0, 0, 0x100000040])) w := by
  have same : SameLows
      ((Postbox.graph.shapes.function Postbox.swap).coreSignature .imported).params
      [7, 2, 0x10000000000, 0, 0, 0, 0, 64]
      [0x100000007, 0x200000002, 0x10000000000, 0x100000000, 0, 0, 0, 0x100000040] :=
    ⟨rfl, rfl, rfl, rfl, rfl, rfl, rfl, rfl, trivial⟩
  obtain ⟨p, compiled, runs⟩ :=
    upper_halves_ignored Postbox.acyclic Postbox.validate_swap Program.isByte .imported
  exact ⟨Postbox.acyclic, Postbox.validate_swap, same, p, compiled, fun w host =>
    (runs _ _ w same).1 host⟩

end CanonicalAbi
