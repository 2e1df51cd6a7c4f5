import CanonicalAbi.Proofs.Answering

/-!
# Generation that writes typed code

A piece of generation writes code if, on every backend, it does what the code says and the code
respects types.
-/

namespace CanonicalAbi

open List

variable {σ ω α β γ δ : Type} {code : Code δ} {n : Nat} {work issue : Gen σ ω Unit}

/-! ## Registers with their operands and types -/

/-- The operands so far and their types. -/
structure Scene (ω : Type) where
  env : List ω
  types : RegTypes
  same : env.length = types.length

namespace Scene

variable {p q q' : Scene ω} {r : Reg} {x : ω} {t : OperandType} {rs rs' : List Reg}
  {xs xs' : List ω} {ts ts' : List OperandType}

/-- Operands were added. -/
structure Grows (p q : Scene ω) : Prop where
  env : p.env <+: q.env
  types : p.types <+: q.types

theorem Grows.trans (h : p.Grows q) (h' : q.Grows q') : p.Grows q' :=
  ⟨h.env.trans h'.env, h.types.trans h'.types⟩

/-- The register stands for the operand and has the type. -/
structure Has (p : Scene ω) (r : Reg) (x : ω) (t : OperandType) : Prop where
  named : p.env[r]? = some x
  typed : TypedReg p.types r t

theorem Has.mono (h : p.Has r x t) (hq : p.Grows q) : q.Has r x t :=
  ⟨Named.get hq.env h.named, h.typed.mono hq.types⟩

/-- Registers stand for operands, and have types. -/
structure HasAll (p : Scene ω) (rs : List Reg) (xs : List ω) (ts : List OperandType) : Prop where
  named : Named p.env rs xs
  typed : Typed p.types rs ts

namespace HasAll

theorem nil : p.HasAll [] [] [] := ⟨.nil, .nil⟩

theorem cons (h : p.Has r x t) (h' : p.HasAll rs xs ts) :
    p.HasAll (r :: rs) (x :: xs) (t :: ts) :=
  ⟨.cons h.named h'.named, .cons h.typed h'.typed⟩

theorem one (h : p.Has r x t) : p.HasAll [r] [x] [t] := .cons h .nil

theorem append (h : p.HasAll rs xs ts) (h' : p.HasAll rs' xs' ts') :
    p.HasAll (rs ++ rs') (xs ++ xs') (ts ++ ts') :=
  ⟨h.named.append h'.named, h.typed.append h'.typed⟩

theorem mono (h : p.HasAll rs xs ts) (hq : p.Grows q) : q.HasAll rs xs ts :=
  ⟨h.named.mono hq.env, h.typed.mono hq.types⟩

theorem take (n : Nat) (h : p.HasAll rs xs ts) : p.HasAll (rs.take n) (xs.take n) (ts.take n) :=
  ⟨forall₂_take n h.named, h.typed.take n⟩

theorem drop (n : Nat) (h : p.HasAll rs xs ts) : p.HasAll (rs.drop n) (xs.drop n) (ts.drop n) :=
  ⟨forall₂_drop n h.named, h.typed.drop n⟩

theorem length_eq (h : p.HasAll rs xs ts) : xs.length = ts.length :=
  h.named.length_eq.symm.trans h.typed.length_eq

theorem of_nil (h : p.HasAll rs xs []) : rs = [] ∧ xs = [] :=
  ⟨h.typed.of_nil, eq_nil_of_length_eq_zero h.length_eq⟩

theorem of_cons (h : p.HasAll rs xs (t :: ts)) :
    ∃ r rs' x xs', rs = r :: rs' ∧ xs = x :: xs' ∧ p.Has r x t ∧ p.HasAll rs' xs' ts := by
  obtain ⟨r, rs', rfl, hr, hrs⟩ := h.typed.of_cons
  obtain ⟨x, xs', hx, hxs, rfl⟩ := forall₂_cons_left_iff.mp h.named
  exact ⟨r, rs', x, xs', rfl, rfl, ⟨hx, hr⟩, hxs, hrs⟩

theorem of_one (h : p.HasAll rs xs [t]) : ∃ r x, rs = [r] ∧ xs = [x] ∧ p.Has r x t := by
  obtain ⟨r, rs, x, xs, rfl, rfl, hr, hrest⟩ := h.of_cons
  obtain ⟨rfl, rfl⟩ := hrest.of_nil
  exact ⟨r, x, rfl, rfl, hr⟩

end HasAll

theorem exists_env (p : Scene ω) (h : Nonempty ω) {Γ : RegTypes} (hΓ : p.types <+: Γ) :
    ∃ env, p.env <+: env ∧ env.length = Γ.length := by
  obtain ⟨x⟩ := h
  refine ⟨p.env ++ replicate (Γ.length - p.types.length) x, prefix_append _ _, ?_⟩
  have length := hΓ.length_le
  simp only [length_append, length_replicate, p.same]
  omega

end Scene

namespace Gen

variable {b : Backend σ ω} {c : Contract} {item : Item} {p : Scene ω} {ins : List ω}

/-! ## Writing -/

/-- What is left behind: how later code refers to it is typed, and names the operands that were
returned and left on the stack. -/
structure Left (ω γ β : Type) where
  typed : RegTypes → γ → Prop
  named : List ω → γ → β → List ω → Prop
  exists_named : ∀ {Γ v} {env : List ω}, typed Γ v → env.length = Γ.length →
    ∃ a outs, named env v a outs

namespace Left

def all (ts : List OperandType) : Left ω (List Reg) Unit where
  typed := Code.Makes ts
  named env rs _ outs := Named env rs outs
  exists_named typed same := by
    obtain ⟨xs, named, _⟩ := Typed.named typed same
    exact ⟨(), xs, named⟩

def one (t : OperandType) : Left ω Reg Unit where
  typed := Code.MakesOne t
  named env r _ outs := ∃ x, outs = [x] ∧ env[r]? = some x
  exists_named typed same := by
    obtain ⟨x, named⟩ := TypedReg.exists_named typed same
    exact ⟨(), [x], x, rfl, named⟩

def nothing : Left ω Unit Unit where
  typed := Code.MakesNone
  named _ _ _ outs := outs = []
  exists_named _ _ := ⟨(), [], rfl⟩

def taken (t : OperandType) : Left ω Reg ω where
  typed := Code.MakesOne t
  named env r x outs := env[r]? = some x ∧ outs = []
  exists_named typed same := by
    obtain ⟨x, named⟩ := TypedReg.exists_named typed same
    exact ⟨x, [], named, rfl⟩

/-- Whatever is left behind satisfies `W`, in every scene that `p` can grow to. -/
def Then (L : Left ω γ β) (p : Scene ω) (W : Scene ω → γ → β → List ω → Prop) : Prop :=
  ∀ q v a outs, p.Grows q → L.typed q.types v → L.named q.env v a outs → W q v a outs

section

variable {p : Scene ω} {ts : List OperandType} {t : OperandType}

theorem Then.all {W : Scene ω → List Reg → Unit → List ω → Prop}
    (h : ∀ q rs xs, p.Grows q → q.HasAll rs xs ts → W q rs () xs) : (all ts).Then p W :=
  fun q rs _ xs hq typed named => h q rs xs hq ⟨named, typed⟩

theorem Then.one {W : Scene ω → Reg → Unit → List ω → Prop}
    (h : ∀ q r x, p.Grows q → q.Has r x t → W q r () [x]) : (one t).Then p W := by
  rintro q r v _ hq typed ⟨x, rfl, named⟩
  exact h q r x hq ⟨named, typed⟩

theorem Then.nothing {W : Scene ω → Unit → Unit → List ω → Prop}
    (h : ∀ q, p.Grows q → W q () () []) : nothing.Then p W := by
  rintro q u v _ hq _ rfl
  exact h q hq

theorem Then.taken {W : Scene ω → Reg → ω → List ω → Prop}
    (h : ∀ q r x, p.Grows q → q.Has r x t → W q r x []) : (taken t).Then p W := by
  rintro q r x _ hq typed ⟨named, rfl⟩
  exact h q r x hq ⟨named, typed⟩

end

end Left

/-- Generation that, with `ins` on top of the stack, does what the code says, which respects types.
There has to be something that can be an operand. -/
def Writes (b : Backend σ ω) (c : Contract) (item : Item) (p : Scene ω) (ins : List ω)
    (work : Gen σ ω β) (code : Code γ) (R : Left ω γ β) : Prop :=
  Nonempty ω →
    Code.HasType c item p.types code R.typed ∧ Follows b p.env ins work code R.named

def WritesBlocks (b : Backend σ ω) (c : Contract) (p : Scene ω) (types : List BlockType)
    (work : Gen σ ω Unit) (code : Code (List Block)) : Prop :=
  Nonempty ω →
    Code.BlocksHaveType c p.types code types ∧ FollowsBlocks b p.env types.length work code

/-! ### Sequences -/

section Sequences

variable {R : Left ω γ β}

theorem Writes.pure {v : β} {code : γ} (typed : R.typed p.types code)
    (named : R.named p.env code v ins) : Writes b c item p ins (pure v) (pure code) R :=
  fun _ => ⟨.pure typed, .pure named⟩

theorem Writes.silent {work : Gen σ ω α} {v : α} {outs : List ω} {f : α → Gen σ ω β}
    {code : Code γ} (hw : Silent ins work v outs) (h : Writes b c item p outs (f v) code R) :
    Writes b c item p ins (work >>= f) code R :=
  fun some => ⟨(h some).1, (h some).2.silent hw⟩

theorem Writes.bind {x : Gen σ ω α} {f : α → Gen σ ω β} {d : δ → Code γ} {Q : Left ω δ α}
    (keep : List ω) (hx : Writes b c item p ins x code Q)
    (hf : Q.Then p fun q v a outs => Writes b c item q (keep ++ outs) (f a) (d v) R) :
    Writes b c item p (keep ++ ins) (x >>= f) (code >>= d) R := by
  intro some
  obtain ⟨⟨Γ, steps, next, typed⟩, follows⟩ := hx some
  have after : ∀ env a outs, p.env <+: env → (same : env.length = Γ.length) →
      Q.named env (code.run p.types.length).value a outs →
      Code.HasType c item Γ (d (code.run p.types.length).value) R.typed ∧
        Follows b env (keep ++ outs) (f a) (d (code.run p.types.length).value) R.named :=
    fun env a outs grown same named => hf ⟨env, Γ, same⟩ _ a outs ⟨grown, steps.extends⟩ typed named
      some
  constructor
  · obtain ⟨env, grown, same⟩ := p.exists_env some steps.extends
    obtain ⟨a, outs, named⟩ := Q.exists_named typed same
    obtain ⟨Γ', steps', next', typed'⟩ := (after env a outs grown same named).1
    rw [next] at steps' next' typed'
    exact ⟨Γ', steps.append steps', next', typed'⟩
  · refine (follows.frame keep).bind fun env a outs grown length h => ?_
    obtain ⟨made, rfl, named⟩ := h
    rw [p.same] at length named ⊢
    exact (after env a made grown (length.trans next.symm) named).2

theorem Writes.last {work : Gen σ ω β} {Q : Left ω δ β} {g : δ → γ} (keep : List ω)
    (h : Writes b c item p ins work code Q)
    (hR : Q.Then p fun q v a outs => R.typed q.types (g v) ∧ R.named q.env (g v) a (keep ++ outs)) :
    Writes b c item p (keep ++ ins) work (code >>= fun v => Pure.pure (g v)) R := by
  rw [← bind_pure work]
  exact h.bind keep fun q v a outs hq typed named =>
    .pure (hR q v a outs hq typed named).1 (hR q v a outs hq typed named).2

end Sequences

section Last

variable {ts us : List OperandType} {t : OperandType} {work : Gen σ ω Unit}

theorem Writes.lastAll {Q : Left ω δ Unit} {g : δ → List Reg} (keep : List ω)
    (h : Writes b c item p ins work code Q)
    (hR : Q.Then p fun q v _ outs => q.HasAll (g v) (keep ++ outs) us) :
    Writes b c item p (keep ++ ins) work (code >>= fun v => Pure.pure (g v)) (.all us) :=
  h.last keep fun q v a outs hq typed named =>
    ⟨(hR q v a outs hq typed named).typed, (hR q v a outs hq typed named).named⟩

theorem Writes.above {Q : Left ω δ Unit} {g : δ → List Reg} (keep : List ω)
    (h : Writes b c item p [] work code Q)
    (hR : Q.Then p fun q v _ outs => q.HasAll (g v) (keep ++ outs) us) :
    Writes b c item p keep work (code >>= fun v => Pure.pure (g v)) (.all us) := by
  simpa only [append_nil] using h.lastAll keep hR

theorem Writes.none {code : Code Unit} (h : Writes b c item p ins work code .nothing) :
    Writes b c item p ins work (code >>= fun _ => Pure.pure []) (.all []) :=
  h.lastAll [] (.nothing fun _ _ => .nil)

theorem Writes.only {code : Code (List Reg)} (h : Writes b c item p ins work code (.all [t])) :
    Writes b c item p ins work (code >>= fun outs => Pure.pure (outs.headD 0)) (.one t) :=
  h.last [] <| .all fun q rs xs _ hrs => by
    obtain ⟨r, x, rfl, rfl, hr⟩ := hrs.of_one
    exact ⟨hr.typed, x, rfl, hr.named⟩

theorem Writes.dropped {code : Code (List Reg)} (h : Writes b c item p ins work code (.all [])) :
    Writes b c item p ins work (code >>= fun _ => Pure.pure ()) .nothing :=
  h.last [] <| .all fun _ _ _ _ hrs => ⟨trivial, hrs.of_nil.2⟩

end Last

/-! ### Instructions and blocks -/

section Instructions

variable {i : Instr} {args : List Reg} {xs : List ω} {takes outs : List OperandType}
  {types : List BlockType} {type : BlockType} {t : OperandType}

theorem WritesBlocks.none : WritesBlocks b c p [] (Pure.pure ()) (Pure.pure []) :=
  fun _ => ⟨.none c p.types, .none b p.env⟩

theorem WritesBlocks.cons {body rest : Gen σ ω Unit} {code : Code (List Reg)}
    {d : Code (List Block)} (hn : type.results.length = n)
    (hbody : Writes b c type.item p [] body code (.all type.results))
    (hrest : ∀ q, p.Grows q → WritesBlocks b c q types rest d) :
    WritesBlocks b c p (type :: types) (Gen.block b n body >>= fun _ => rest)
      (Code.block code >>= fun first => d >>= fun others => Pure.pure (first :: others)) := by
  intro some
  obtain ⟨typed, follows⟩ := hbody some
  obtain ⟨Γ, steps, next, made⟩ := id typed
  obtain ⟨env, grown, same⟩ := p.exists_env some steps.extends
  have after : ∀ q, p.Grows q → _ := fun q hq => hrest q hq some
  refine ⟨.cons typed fun Γ' hΓ length => ?_,
    .cons (follows.mono fun env' _ outs _ _ named => ?_)
      (after ⟨env, Γ, same⟩ ⟨grown, steps.extends⟩).1.1 fun env' henv length => ?_⟩
  · exact (after ⟨env, Γ', same.trans (next.trans length.symm)⟩ ⟨grown, hΓ⟩).1
  · rw [p.same] at named ⊢
    exact ⟨named, named.length_eq.symm.trans (made.length_eq.trans hn)⟩
  · rw [p.same] at length
    exact (after ⟨env', Γ, length.trans next.symm⟩ ⟨henv, steps.extends⟩).2

section

variable {code : Code (List Block)} (hblocks : WritesBlocks b c p types work code)
include hblocks

theorem Writes.own (hi : i.HasType c item takes types outs) (hissue : Issues b ins issue i xs)
    (hargs : p.HasAll args xs takes) :
    Writes b c item p ins (work >>= fun _ => issue) (code >>= fun bs => Code.own i args bs)
      (.all outs) := by
  intro some
  obtain ⟨typed, follows⟩ := hblocks some
  rw [hi.length_blocks] at follows
  refine ⟨.own typed hi hargs.typed, Follows.mono
    (.own follows hissue hargs.named (hargs.length_eq.trans hi.length_operands)) ?_⟩
  exact fun _ _ _ _ _ left => left.1

theorem Writes.ownOne (hi : i.HasType c item takes types [t]) (hissue : Issues b ins issue i xs)
    (hargs : p.HasAll args xs takes) : Writes b c item p ins (work >>= fun _ => issue)
      (code >>= fun bs => Code.own i args bs >>= fun outs => Pure.pure (outs.headD 0))
      (.one t) := by
  have h := (Writes.own hblocks hi hissue hargs).only
  rwa [bind_assoc] at h

theorem Writes.ownNone (hi : i.HasType c item takes types []) (hissue : Issues b ins issue i xs)
    (hargs : p.HasAll args xs takes) : Writes b c item p ins (work >>= fun _ => issue)
      (code >>= fun bs => Code.own i args bs >>= fun _ => Pure.pure ()) .nothing := by
  have h := (Writes.own hblocks hi hissue hargs).dropped
  rwa [bind_assoc] at h

end

theorem Writes.ownBlock {body : Gen σ ω Unit} {code : Code (List Reg)}
    (hi : i.HasType c item takes [type] outs) (hn : type.results.length = n)
    (hbody : Writes b c type.item p [] body code (.all type.results))
    (hargs : p.HasAll args xs takes) :
    Writes b c item p xs (Gen.block b n body >>= fun _ => Gen.emit b i)
      (Code.block code >>= fun x => Code.own i args [x]) (.all outs) := by
  have hblocks := WritesBlocks.cons hn hbody fun q _ => WritesBlocks.none
  have h := Writes.own hblocks hi (.emit i xs) hargs
  simpa only [bind_assoc, pure_bind] using h

theorem Writes.emit (hi : i.HasType c item takes [] outs) (hargs : p.HasAll args xs takes) :
    Writes b c item p xs (Gen.emit b i) (Code.emit i args) (.all outs) := by
  have h := Writes.own (b := b) .none hi (.emit i xs) hargs
  simpa only [Code.emit, pure_bind] using h

theorem Writes.emitPush (hi : i.HasType c item takes [] [t]) (hargs : p.HasAll args xs takes) :
    Writes b c item p xs (Gen.emit b i) (Code.emitOne i args) (.one t) :=
  (Writes.emit hi hargs).only

theorem Writes.emitNone (hi : i.HasType c item takes [] []) (hargs : p.HasAll args xs takes) :
    Writes b c item p xs (Gen.emit b i) (Code.emitNone i args) .nothing :=
  (Writes.emit hi hargs).dropped

theorem Writes.emitOne (hi : i.HasType c item takes [] [t]) (hargs : p.HasAll args xs takes) :
    Writes b c item p xs (Gen.emitOne b i) (Code.emitOne i args) (.taken t) := by
  refine (Writes.emit hi hargs).bind [] <| .all fun q rs outs _ h => ?_
  obtain ⟨r, x, rfl, rfl, hr⟩ := h.of_one
  have hpop : Gen.pop = (Gen.pop >>= Pure.pure : Gen σ ω ω) := by simp
  rw [hpop]
  exact .silent (Silent.pop [] x) (.pure hr.typed ⟨hr.named, rfl⟩)

theorem Writes.returnPointer (size align : UInt32) :
    Writes b c item p [] (returnPointer b size align) (Code.scratch size align)
      (.taken (.core .i32)) := by
  refine fun _ => ⟨.scratch size align, fun s stk hstack hfin _ => ?_⟩
  refine ⟨(b.returnPointer size align s.backend).1, [], s.log,
    ⟨prefix_append _ _, by simp [Code.scratch], by simp [Code.scratch], rfl⟩, ?_⟩
  rw [← hfin]
  rw [← hstack]
  rfl

end Instructions

end Gen

/-! ## Registers that hold themselves -/

theorem Recording.named_range {regs : List Reg} (h : ∀ r ∈ regs, r < n) :
    Named (range n) regs regs := by
  induction regs with
  | nil => exact .nil
  | cons r rs ih =>
    refine .cons ?_ (ih fun r' hr' => h r' (mem_cons_of_mem _ hr'))
    simp [h r mem_cons_self]

section Types

variable {Γ : RegTypes} {r : Reg} {rs : List Reg} {t : OperandType} {ts : List OperandType}

def Scene.ofTypes (Γ : RegTypes) : Scene Reg := ⟨range Γ.length, Γ, length_range⟩

theorem Scene.length_ofTypes (Γ : RegTypes) : (Scene.ofTypes Γ).env.length = Γ.length :=
  length_range

theorem Typed.hasAll (h : Typed Γ rs ts) : (Scene.ofTypes Γ).HasAll rs rs ts :=
  ⟨Recording.named_range h.lt_length, h⟩

theorem TypedReg.has (h : TypedReg Γ r t) : (Scene.ofTypes Γ).Has r r t :=
  ⟨(forall₂_cons.mp (Typed.one h).hasAll.named).1, h⟩

theorem Gen.Writes.hasType {raw : RawRule} {c : Contract} {item : Item}
    {ins : List Reg} {work : Gen Recording Reg β} {code : Code γ} {R : Left Reg γ β}
    (h : Writes (Recording.backend raw) c item (.ofTypes Γ) ins work code R) :
    Code.HasType c item Γ code R.typed :=
  (h ⟨0⟩).1

end Types

end CanonicalAbi
