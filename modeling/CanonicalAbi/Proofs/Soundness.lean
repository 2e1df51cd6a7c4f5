import CanonicalAbi.Proofs.Guards
import CanonicalAbi.Proofs.Operations

/-!
# Type soundness

A machine that runs steps which respect types looks up nothing that is not there, and keeps operands
of their types in its registers.
-/

namespace CanonicalAbi

open Exec List OperandType Mean

variable {type : BlockType} {elem : Option Shape}

/-! ## Instructions of steps -/

section All

variable (P : Instr → List Block → Prop)

mutual

/-- Whether all instructions of some steps have a property, with the blocks that they own. A request
for memory counts as an allocation. -/
def StepsAll : List Step → Prop
  | [] => True
  | s :: ss => s.All ∧ StepsAll ss

def Step.All : Step → Prop
  | .exec i _ _ blocks => P i blocks ∧ BlocksAll blocks
  | .scratch size align _ => P (.allocate "" size align) []

def BlocksAll : List Block → Prop
  | [] => True
  | .mk steps _ :: blocks => StepsAll steps ∧ BlocksAll blocks

end

end All

/-- All instructions of steps, also in their blocks, are of a kind. -/
abbrev StepsOnly (P : Instr → Prop) : List Step → Prop := StepsAll fun i _ => P i

/-- All instructions of a step are of a kind. -/
abbrev Step.Only (P : Instr → Prop) : Step → Prop := Step.All fun i _ => P i

/-- All instructions of blocks are of a kind. -/
abbrev BlocksOnly (P : Instr → Prop) : List Block → Prop := BlocksAll fun i _ => P i

section Weaken

variable {P Q R : Instr → List Block → Prop}

theorem stepsAll_append {ss ts : List Step} :
    StepsAll P (ss ++ ts) ↔ StepsAll P ss ∧ StepsAll P ts := by
  induction ss with
  | nil => simp [StepsAll]
  | cons s ss ih => simp [StepsAll, ih, and_assoc]

mutual

theorem StepsAll.imp₂ (h : ∀ i blocks, P i blocks → Q i blocks → R i blocks) :
    {steps : List Step} → StepsAll P steps → StepsAll Q steps → StepsAll R steps
  | [], _, _ => trivial
  | _ :: _, hp, hq => ⟨Step.All.imp₂ h hp.1 hq.1, StepsAll.imp₂ h hp.2 hq.2⟩

theorem Step.All.imp₂ (h : ∀ i blocks, P i blocks → Q i blocks → R i blocks) :
    {s : Step} → s.All P → s.All Q → s.All R
  | .exec _ _ _ _, hp, hq => ⟨h _ _ hp.1 hq.1, BlocksAll.imp₂ h hp.2 hq.2⟩
  | .scratch _ _ _, hp, hq => h _ _ hp hq

theorem BlocksAll.imp₂ (h : ∀ i blocks, P i blocks → Q i blocks → R i blocks) :
    {blocks : List Block} → BlocksAll P blocks → BlocksAll Q blocks → BlocksAll R blocks
  | [], _, _ => trivial
  | .mk _ _ :: _, hp, hq => ⟨StepsAll.imp₂ h hp.1 hq.1, BlocksAll.imp₂ h hp.2 hq.2⟩

end

theorem StepsAll.mono (h : ∀ i blocks, P i blocks → Q i blocks) {steps : List Step}
    (hp : StepsAll P steps) : StepsAll Q steps :=
  hp.imp₂ (fun i blocks hp _ => h i blocks hp) hp

end Weaken

/-- The instructions that keep up what is known about operands and failures. A host keeps up
nothing, an allocator fails as it likes, and a list has to be lifted in the way that is agreed on.
-/
def Instr.Keeps (raw : RawRule) (a : Assurance) : Instr → Prop
  | .callInterface _ => ¬ a.typed
  | .callCore _ _ => ¬ a.ranged
  | .lowerString _ | .lowerBytes _ _ _ | .lowerList _ _ _ | .lowerHandle _ _ _
  | .allocate _ _ _ => ¬ a.reported
  | .liftBytes _ elem => a.typed → raw elem = true
  | .liftList _ elem => (a.typed → raw elem = false) ∧ (a.reported → Passable? elem)
  | .freeList _ elem => a.reported → Passable? elem
  | _ => True

/-- Operands of the types of an instruction pass a check. -/
def Instr.Passes (vet : Instr → List Value → Bool) (c : Contract) (raw : RawRule) (a : Assurance)
    (i : Instr) : Prop :=
  ∀ {item : Item} {ins : List OperandType} {types : List BlockType} {outs : List OperandType}
    {vs : List Value}, i.HasType c item ins types outs → Mean raw a ins vs → vet i vs = true

variable {α β γ : Type} {raw : RawRule} {a : Assurance}

theorem StepsAll.passes {P : Instr → List Block → Prop} {steps : List Step} (h : StepsAll P steps)
    {c : Contract} : StepsOnly (Instr.Passes (fun _ _ => true) c raw a) steps :=
  h.mono fun _ _ _ _ _ _ _ _ _ _ => rfl

/-! ## Blocks -/

section Blocks

variable {k : Nat} {m : Machine α} {run' run : Scope → Exec α (List Value)}

/-- On every machine that kept the registers below `k`, a block with checks does what it does
without them, and yields operands of some types. -/
def BlockSound (raw : RawRule) (a : Assurance) (k : Nat) (m : Machine α)
    (run' run : Scope → Exec α (List Value)) (type : BlockType) : Prop :=
  ∀ scope m', scope.args = [] → type.item.Means raw a scope → Kept k m m' →
    Guards a.Allows (run' scope) (run scope) m' fun out m'' =>
      Kept k m' m'' ∧ Mean raw a type.results out

theorem Kept.refl (k : Nat) (m : Machine α) : Kept k m m := .of_eq rfl

theorem BlockSound.since {m' : Machine α} (h : BlockSound raw a k m run' run type)
    (kept : Kept k m m') : BlockSound raw a k m' run' run type :=
  fun scope m'' hargs hscope kept' => h scope m'' hargs hscope (kept.trans kept' (Nat.le_refl k))

theorem lowerElems_guards {results : List OperandType}
    (h : BlockSound raw a k m run' run ⟨.element elem, results⟩) (size base : UInt32)
    {vs : List Value} (hvs : ∀ v ∈ vs, (of elem).Means raw a v) :
    Guards a.Allows (lowerElems run' size base vs) (lowerElems run size base vs) m
      fun _ m' => Kept k m m' := by
  induction vs generalizing base m with
  | nil => exact .of_does (Does.pure (.refl k m))
  | cons v vs ih =>
    refine (h { elem := v, base } m rfl (hvs v mem_cons_self) (.refl k m)).bind ?_
    rintro _ m1 ⟨kept, _⟩
    refine (ih (h.since kept) (base + size) fun x hx => hvs x (mem_cons_of_mem _ hx)).imp ?_
    exact fun _ m2 kept' => kept.trans kept' (Nat.le_refl k)

theorem liftElems_guards (h : BlockSound raw a k m run' run ⟨.address, [.of elem]⟩)
    (size base : UInt32) (count : Nat) {before : List Value}
    (hbefore : ∀ v ∈ before, (of elem).Means raw a v) :
    Guards a.Allows (liftElems run' size before base count)
      (liftElems run size before base count) m fun vs m' =>
        Kept k m m' ∧ ∀ v ∈ vs, (of elem).Means raw a v := by
  induction count generalizing base m before with
  | zero =>
    exact .of_does (Does.pure ⟨.refl k m, fun v hv => hbefore v (mem_reverse.mp hv)⟩)
  | succ count ih =>
    refine (h { base } m rfl trivial (.refl k m)).bind ?_
    rintro out m1 ⟨kept, hout⟩
    obtain ⟨v, rfl, hv⟩ := hout.of_one
    have hbefore' : ∀ x ∈ v :: before, (of elem).Means raw a x := by
      intro x hx
      rcases mem_cons.mp hx with rfl | hx
      · exact hv
      · exact hbefore x hx
    refine (ih (h.since kept) (base + size) hbefore').imp ?_
    exact fun vs m2 ⟨kept', hvs⟩ => ⟨kept.trans kept' (Nat.le_refl k), hvs⟩

theorem freeElems_guards {results : List OperandType}
    (h : BlockSound raw a k m run' run ⟨.address, results⟩) (size base : UInt32) (count : Nat) :
    Guards a.Allows (freeElems run' size base count) (freeElems run size base count) m
      fun _ m' => Kept k m m' := by
  induction count generalizing base m with
  | zero => exact .of_does (Does.pure (.refl k m))
  | succ count ih =>
    refine (h { base } m rfl trivial (.refl k m)).bind ?_
    rintro _ m1 ⟨kept, _⟩
    refine (ih (h.since kept) (base + size)).imp ?_
    exact fun _ m2 kept' => kept.trans kept' (Nat.le_refl k)

end Blocks

section Instr

variable [Allocator α] {c : Contract} {item : Item} {i : Instr} {ins outs : List OperandType}
  {types : List BlockType} {k : Nat} {m : Machine α} {s : Setting α} {scope : Scope}
  {run' run : Nat → Scope → Exec α (List Value)}

omit [Allocator α] in
theorem runCase_guards
    (h : ∀ n type, types[n]? = some type → BlockSound raw a k m (run' n) (run n) type)
    (index : UInt32) (hargs : scope.args = [])
    (hscope : ∀ type, types[index.toNat]? = some type → type.item.Means raw a scope) :
    Guards a.Allows (runCase types.length run' index scope)
      (runCase types.length run index scope) m fun out m' =>
        Kept k m m' ∧ ∃ type, types[index.toNat]? = some type ∧ Mean raw a type.results out := by
  rw [runCase, runCase]
  split
  · next inside =>
    have htype := getElem?_eq_getElem (toNat_lt_of_lt_ofNat inside)
    refine (h _ _ htype scope m hargs (hscope _ htype) (.refl k m)).imp ?_
    rintro out m' ⟨kept, hout⟩
    exact ⟨kept, _, htype, hout⟩
  · exact .of_does fun _ => rfl

omit [Allocator α] in
theorem Exec.Gives.guards {x : Exec α β} {R : β → Prop} (h : Exec.Gives a x R) (k : Nat)
    (m : Machine α) : Guards a.Allows x x m fun b m' => Kept k m m' ∧ R b :=
  .of_does ((h m).imp fun _ _ ⟨same, hb⟩ => ⟨.of_eq same, hb⟩)

omit [Allocator α] in
theorem Exec.Gives.single {x : Exec α Value} {t : OperandType}
    (h : Exec.Gives a x (t.Means raw a)) :
    Exec.Gives a (do return [← x]) (Mean raw a [t]) :=
  h.bind fun _ hv => .pure (one hv)

omit [Allocator α] in
theorem layoutOf_gives (h : a.reported → Passable? elem) :
    Exec.Gives a (Exec.ofExcept (optLayout elem) : Exec α Layout) fun _ => True := by
  refine .ofExcept (fun _ _ => trivial) fun e he reported => ?_
  rw [optLayout_eq (h reported)] at he
  cases he

/-- An instruction with checks in its blocks does what it does without them, and makes operands of
its types. -/
theorem Instr.HasType.guards (hi : i.HasType c item ins types outs) (hk : i.Keeps raw a)
    {vals : List Value} (hvals : Mean raw a ins vals) (hargs : ArgsMean raw a c.args scope)
    (hitem : item.Means raw a scope)
    (hrun : ∀ n type, types[n]? = some type → BlockSound raw a k m (run' n) (run n) type) :
    Guards a.Allows (instr s scope types.length run' i vals)
      (instr s scope types.length run i vals) m fun out m' =>
        Kept k m m' ∧ Mean raw a outs out := by
  cases hi with
  | @getArg index t h =>
    refine Exec.Gives.guards ?_ k m
    simp only [instr]
    split
    · next v hv => exact .pure (one (hargs index t v h hv))
    · exact .throw fun _ => rfl
  | i32Const value =>
    exact Exec.Gives.guards (.pure (one (means_ofU32 .i32 _))) k m
  | constZero types => exact Exec.Gives.guards (.pure (zeros types)) k m
  | bitcasts h => exact Exec.Gives.guards (.pure (h.means hvals)) k m
  | load op offset => exact Exec.Gives.guards (load_gives op _).single k m
  | store op offset =>
    exact Exec.Gives.guards ((store_gives op _ _).bind fun _ _ => .pure nil) k m
  | lowerScalar x =>
    refine Exec.Gives.guards (Exec.Gives.single (.ofExcept ?_ ?_)) k m
    · exact fun v hv => Scalar.means_lowerValue hv
    · exact fun e he _ => Scalar.report_lowerValue he
  | liftScalar x =>
    refine Exec.Gives.guards (Exec.Gives.single (.ofExcept ?_ ?_)) k m
    · exact fun v hv _ => Scalar.admits_liftValue hv
    · exact fun e he _ => Scalar.report_liftValue he
  | lowerHandle form l resource =>
    exact Exec.Gives.guards (lowerHandle_gives hk form l resource _).single k m
  | liftHandle form l resource =>
    exact Exec.Gives.guards (liftHandle_gives form l resource _).single k m
  | lowerString realloc =>
    refine Exec.Gives.guards ?_ k m
    simp only [instr]
    split
    · exact putBytes_gives hk realloc _
    · exact .throw fun _ => rfl
  | liftString =>
    exact Exec.Gives.guards (liftString_gives s _ _).single k m
  | lowerBytes l elem realloc =>
    refine Exec.Gives.guards ((requireBytes_gives elem).bind fun _ _ => ?_) k m
    split
    · exact putBytes_gives hk realloc _
    · exact .throw fun _ => rfl
  | liftBytes l elem =>
    refine Exec.Gives.guards ((requireBytes_gives elem).bind fun _ _ => ?_) k m
    refine (bytesAt_gives _ _).bind fun data _ => ?_
    refine (freeOwned_gives s _ _ 1).bind fun _ _ => .pure (source fun typed => ?_)
    rw [IsValue?, Shape.IsValue, if_pos (hk typed)]
    exact ⟨data, rfl⟩
  | lowerList l elem realloc =>
    obtain ⟨v, rfl, hv⟩ := hvals.of_one
    cases v with
    | list elems =>
      have helems : ∀ x ∈ elems, (of elem).Means raw a x := by
        intro x hx
        refine means_of.mpr fun typed => ?_
        have whole := hv typed
        rw [IsValue?, Shape.IsValue] at whole
        split at whole
        · obtain ⟨_, h⟩ := whole
          cases h
        · obtain ⟨_, h, each⟩ := whole
          cases h
          exact each x hx
      refine Guards.bind
        (Exec.Gives.guards (layoutOf_gives fun reported => absurd reported hk) k m) ?_
      rintro layout m1 ⟨kept, _⟩
      refine Guards.bind (Exec.Gives.guards (allocFor_gives hk realloc _ _) k m1) ?_
      rintro ptr m2 ⟨kept', _⟩
      have block := (hrun 0 _ rfl).since (kept.trans kept' (Nat.le_refl k))
      refine (lowerElems_guards block layout.size ptr helems).bind ?_
      intro _ m3 kept''
      refine .of_does (Does.pure ⟨?_, pair .i32 .i32 ptr _⟩)
      exact (kept.trans kept' (Nat.le_refl k)).trans kept'' (Nat.le_refl k)
    | _ => exact .of_does fun _ => rfl
  | liftList l elem =>
    refine (Exec.Gives.guards (layoutOf_gives hk.2) k m).bind ?_
    rintro layout m1 ⟨kept, _⟩
    refine (liftElems_guards ((hrun 0 _ rfl).since kept) layout.size _ _ (by simp)).bind ?_
    rintro vs m2 ⟨kept', hvs⟩
    refine (Exec.Gives.guards (freeOwned_gives s _ _ _) k m2).bind ?_
    rintro _ m3 ⟨kept'', _⟩
    refine .of_does (Does.pure ⟨?_, source fun typed => ?_⟩)
    · exact (kept.trans kept' (Nat.le_refl k)).trans kept'' (Nat.le_refl k)
    · rw [IsValue?, Shape.IsValue, if_neg (by simp [hk.1 typed])]
      exact ⟨vs, rfl, fun x hx => means_of.mp (hvs x hx) typed⟩
  | iterElem h =>
    subst h
    have elem : (of _).Means raw a scope.elem := hitem
    exact Exec.Gives.guards (.pure (one elem)) k m
  | iterBase h =>
    exact Exec.Gives.guards (.pure (one (means_ofU32 .i32 _))) k m
  | lowerProduct form l fields =>
    obtain ⟨v, rfl, hv⟩ := hvals.of_one
    refine Exec.Gives.guards ?_ k m
    simp only [instr, headD_cons]
    split
    · next values =>
      split
      · next length =>
        refine .pure (parts length fun typed => ?_)
        obtain ⟨_, h, fields⟩ := hv typed
        cases h
        exact fields
      · exact .throw fun _ => rfl
    · exact .throw fun _ => rfl
  | liftProduct form l fields =>
    refine Exec.Gives.guards (.pure (source fun typed => ?_)) k m
    exact ⟨vals, rfl, hvals.of_parts typed⟩
  | lowerFlags l count =>
    refine Exec.Gives.guards ?_ k m
    simp only [instr]
    split
    · next fs _ =>
      have lanes : Mean raw a _ _ := lanes (flagLanes fs (FlagsStorage.ofCount count).lanes)
      rw [length_flagLanes] at lanes
      exact .pure lanes
    · exact .throw fun _ => rfl
  | liftFlags l count =>
    have counted : ∀ lanes, IsValue? raw (some (.flags l count)) (.flags (laneFlags lanes count)) :=
      fun lanes => ⟨_, rfl, by simp [laneFlags]⟩
    exact Exec.Gives.guards (.pure (source fun _ => counted _)) k m
  | payload h =>
    subst h
    have payload : (of _).Means raw a scope.payload := hitem
    exact Exec.Gives.guards (.pure (one payload)) k m
  | lowerSum form l payloads results =>
    obtain ⟨v, rfl, hv⟩ := hvals.of_one
    cases v with
    | case index payload =>
      refine (runCase_guards hrun index rfl fun type htype => ?_).imp ?_
      · rw [getElem?_map] at htype
        obtain ⟨p, hp, rfl⟩ := Option.map_eq_some_iff.mp htype
        refine means_of.mpr fun typed => ?_
        obtain ⟨_, _, h, payload⟩ := hv typed
        cases h
        obtain ⟨p', hp', payload⟩ := caseIs_iff.mp payload
        rw [hp] at hp'
        cases hp'
        exact payload
      · rintro out m' ⟨kept, type, htype, hout⟩
        rw [getElem?_map] at htype
        obtain ⟨p, _, rfl⟩ := Option.map_eq_some_iff.mp htype
        exact ⟨kept, hout⟩
    | _ => exact .of_does fun _ => rfl
  | liftSum form l payloads =>
    refine (runCase_guards hrun _ rfl fun type htype => ?_).bind ?_
    · rw [getElem?_map] at htype
      obtain ⟨p, _, rfl⟩ := Option.map_eq_some_iff.mp htype
      exact trivial
    rintro out m' ⟨kept, type, htype, hout⟩
    rw [getElem?_map] at htype
    obtain ⟨p, hp, rfl⟩ := Option.map_eq_some_iff.mp htype
    refine .of_does (Does.pure ⟨kept, source fun typed => ⟨_, _, rfl, ?_⟩⟩)
    refine caseIs_iff.mpr ⟨p, hp, ?_⟩
    cases p with
    | none =>
      cases hout
      rfl
    | some shape =>
      obtain ⟨x, rfl, hx⟩ := of_one hout
      exact means_of.mp hx typed
  | lowerEnum l cases =>
    refine Exec.Gives.guards ?_ k m
    simp only [instr]
    split
    · exact .pure (one (means_ofU32 .i32 _))
    · exact .throw fun _ => rfl
  | liftEnum l cases =>
    refine Exec.Gives.guards ?_ k m
    simp only [instr]
    split
    · next inside =>
      refine .pure (source fun _ => ⟨_, rfl, ?_⟩)
      exact Nat.lt_of_lt_of_le (UInt32.lt_iff_toNat_lt.mp inside) (Nat.mod_le cases _)
    · exact .throw fun _ => rfl
  | callCore => exact Exec.Gives.guards (callCore_gives hk s _ _ _) k m
  | callInterface => exact Exec.Gives.guards (callInterface_gives hk s _ _) k m
  | ret h =>
    refine Exec.Gives.guards (Exec.Gives.bind (R := fun _ => True) ?_ fun _ _ => .pure nil) k m
    exact .modify fun _ => rfl
  | allocate realloc size align =>
    refine Exec.Gives.guards ((alloc_gives hk size align).bind fun ptr _ => ?_) k m
    exact .pure (one (means_ofU32 .i32 ptr))
  | free size align =>
    exact Exec.Gives.guards ((free_gives _ size align).bind fun _ _ => .pure nil) k m
  | freeString =>
    exact Exec.Gives.guards ((free_gives _ _ 1).bind fun _ _ => .pure nil) k m
  | freeList l elem =>
    refine (Exec.Gives.guards (layoutOf_gives hk) k m).bind ?_
    rintro layout m1 ⟨kept, _⟩
    refine (freeElems_guards ((hrun 0 _ rfl).since kept) layout.size _ _).bind ?_
    intro _ m2 kept'
    refine (Exec.Gives.guards (free_gives _ _ _) k m2).bind ?_
    rintro _ m3 ⟨kept'', _⟩
    refine .of_does (Does.pure ⟨?_, nil⟩)
    exact (kept.trans kept' (Nat.le_refl k)).trans kept'' (Nat.le_refl k)
  | freeSum l cases =>
    refine (runCase_guards hrun _ rfl fun type htype => ?_).bind ?_
    · obtain ⟨_, rfl⟩ := mem_replicate.mp (mem_of_getElem? htype)
      exact trivial
    rintro _ m' ⟨kept, _⟩
    exact .of_does (Does.pure ⟨kept, nil⟩)

end Instr

/-! ## Look-ups -/

def Item.Framed (frames : Frames) : Item → Prop
  | .nothing => True
  | .payload _ => frames.payloads ≠ 0
  | .element _ | .address => frames.elements ≠ 0

namespace Instr

variable {c : Contract} {item : Item} {i : Instr} {ins outs : List OperandType}
  {types : List BlockType} {frames : Frames}

theorem HasType.reads_le (h : i.HasType c item ins types outs) : i.reads ≤ ins.length := by
  rw [h.length_operands]
  cases i with
  | liftFlags l count =>
    have := le_lanes count
    simp only [reads, operands]
    omega
  | _ => exact Nat.le_refl _

theorem HasType.finds_eq (h : i.HasType c item ins types outs) (hitem : item.Framed frames) :
    i.finds frames = true := by
  cases h with
  | iterElem h =>
    subst h
    exact decide_eq_true hitem
  | iterBase h =>
    rcases h with rfl | ⟨elem, rfl⟩ <;> exact decide_eq_true hitem
  | payload h =>
    subst h
    exact decide_eq_true hitem
  | _ => rfl

theorem HasType.framed (h : i.HasType c item ins types outs) (htype : type ∈ types) :
    type.item.Framed (i.enter frames) := by
  cases h with
  | lowerList l elem realloc =>
    obtain rfl := mem_singleton.mp htype
    exact Nat.succ_ne_zero _
  | liftList l elem =>
    obtain rfl := mem_singleton.mp htype
    exact Nat.succ_ne_zero _
  | freeList l elem =>
    obtain rfl := mem_singleton.mp htype
    exact Nat.succ_ne_zero _
  | lowerSum form l payloads results =>
    obtain ⟨p, _, rfl⟩ := mem_map.mp htype
    exact Nat.succ_ne_zero _
  | liftSum form l payloads =>
    obtain ⟨p, _, rfl⟩ := mem_map.mp htype
    trivial
  | freeSum l cases =>
    obtain ⟨_, rfl⟩ := mem_replicate.mp htype
    trivial
  | _ => exact absurd htype not_mem_nil

theorem HasType.wants_le (h : i.HasType c item ins types outs) (htype : type ∈ types) :
    i.wants ≤ type.results.length := by
  cases h with
  | liftList l elem =>
    obtain rfl := mem_singleton.mp htype
    exact Nat.le_refl _
  | _ => exact Nat.zero_le _

end Instr

/-! ## Steps -/

section Steps

variable {c : Contract} {Γ Γ' : RegTypes} {m m' : Machine α}

theorem TypedBlocks.scope_eq {blocks : List Block} {types : List BlockType}
    (h : TypedBlocks c Γ blocks types Γ') : ∃ n, Γ' = Γ ++ replicate n none := by
  induction blocks generalizing Γ types with
  | nil =>
    cases h
    exact ⟨0, (append_nil _).symm⟩
  | cons b bs ih =>
    cases h with
    | cons _ _ hrest =>
      obtain ⟨n, h⟩ := ih hrest
      rw [append_assoc, replicate_append_replicate] at h
      exact ⟨_, h⟩

theorem getElem?_of_scope {n r : Nat} {t : OperandType}
    (h : (Γ ++ replicate n none)[r]? = some (some t)) : Γ[r]? = some (some t) := by
  rcases Nat.lt_or_ge r Γ.length with inside | outside
  · rwa [getElem?_append_left inside] at h
  · rw [getElem?_append_right outside] at h
    cases (mem_replicate.mp (mem_of_getElem? h)).2

theorem RegsMean.out_of_scope (h : RegsMean raw a Γ m) (n : Nat) :
    RegsMean raw a (Γ ++ replicate n none) m :=
  fun r t hr => h r t (getElem?_of_scope hr)

theorem RegsMean.kept (h : RegsMean raw a Γ m) (kept : Kept Γ.length m m') :
    RegsMean raw a Γ m' := by
  intro r t hr
  rw [kept.reg r (List.getElem?_eq_some_iff.mp hr).1]
  exact h r t hr

theorem RegsMean.read (h : RegsMean raw a Γ m) {regs : List Reg} {types : List OperandType}
    (hregs : Typed Γ regs types) : Mean raw a types (regs.map m.reg) := by
  induction types generalizing regs with
  | nil =>
    obtain rfl := forall₂_nil_right_iff.mp hregs
    exact Mean.nil
  | cons t types ih =>
    obtain ⟨r, rest, hr, hrest, rfl⟩ := forall₂_cons_right_iff.mp hregs
    exact .cons (h r t hr) (ih hrest)

theorem RegsMean.set (h : RegsMean raw a Γ m) {types : List OperandType} {vs : List Value}
    (hvs : Mean raw a types vs) (hsize : Γ.length + types.length ≤ m.registers.size) :
    RegsMean raw a (Γ ++ types.map some)
      { m with registers := setRange m.registers Γ.length vs } := by
  have length := hvs.length_eq
  have holds := holdsAll_setRange m (show Γ.length + vs.length ≤ _ by omega)
  intro r t hr
  rcases Nat.lt_or_ge r Γ.length with inside | outside
  · rw [List.getElem?_append_left inside] at hr
    have same : ({ m with registers := setRange m.registers Γ.length vs } : Machine α).reg r
        = m.reg r := getD_setRange_of_lt m.registers inside vs
    rw [same]
    exact h r t hr
  · rw [List.getElem?_append_right outside, List.getElem?_map] at hr
    obtain ⟨t', ht', h'⟩ := Option.map_eq_some_iff.mp hr
    cases h'
    obtain ⟨hj, rfl⟩ := List.getElem?_eq_some_iff.mp ht'
    have operand := hvs.get hj (by omega)
    have held := holds.get (i := r - Γ.length) (by simp; omega) (by omega)
    simp only [List.get_eq_getElem, List.getElem_range'] at operand held
    have number : Γ.length + 1 * (r - Γ.length) = r := by omega
    rw [number] at held
    rw [held.2]
    exact operand

/-- The scope has the values that the code refers to. -/
structure Scope.Sound (raw : RawRule) (a : Assurance) (c : Contract) (item : Item)
    (frames : Frames) (scope : Scope) : Prop where
  args : ArgsMean raw a c.args scope
  found : item.Means raw a scope
  framed : item.Framed frames

variable [Allocator α] {vet : Instr → List Value → Bool} {s : Setting α} {fault : Failure}

theorem step_guards {item : Item} {Γ1 : RegTypes} {i : Instr} {args : List Reg}
    {blocks : List Block} {ins outs : List OperandType} {types : List BlockType} {frames : Frames}
    {scope : Scope} (hblocks : TypedBlocks c Γ blocks types Γ1)
    (hi : i.HasType c item ins types outs) (hargs : Typed Γ1 args ins) (hk : i.Keeps raw a)
    (hscope : scope.Sound raw a c item frames) (hregs : RegsMean raw a Γ m)
    (hsize : (Γ1 ++ outs.map some).length ≤ m.registers.size)
    (passes : vet i (args.map m.reg) = true)
    (hrun : ∀ n type, types[n]? = some type → BlockSound raw a Γ.length m
      (fun scope => Guarded.nth vet fault s (i.enter frames) scope n blocks)
      (fun scope => nth s scope n blocks) type) :
    Guards a.Allows
      (Guarded.step vet fault s frames scope
        (.exec i args (range' Γ1.length outs.length) blocks))
      (Exec.step s scope (.exec i args (range' Γ1.length outs.length) blocks)) m
      fun _ m' => Kept Γ.length m m' ∧ RegsMean raw a (Γ1 ++ outs.map some) m' := by
  obtain ⟨n, rfl⟩ := hblocks.scope_eq
  simp only [length_append, length_map] at hsize
  have inScope := hregs.out_of_scope n
  have hvals := inScope.read hargs
  have lookups : (decide (i.reads ≤ args.length) && i.finds frames) = true := by
    have enough := hi.reads_le
    rw [← length_map m.reg, hvals.length_eq]
    simp [enough, hi.finds_eq hscope.framed]
  have checked : ∀ n type, types[n]? = some type → BlockSound raw a Γ.length m
      (fun scope => do
        let out ← Guarded.nth vet fault s (i.enter frames) scope n blocks
        Guarded.require fault (i.wants ≤ out.length)
        return out)
      (fun scope => nth s scope n blocks) type := by
    intro n type htype scope m' hscope hitem kept
    refine (hrun n type htype scope m' hscope hitem kept).checked fun out _ ⟨_, hout⟩ => ?_
    rw [decide_eq_true_eq, hout.length_eq]
    exact hi.wants_le (mem_of_getElem? htype)
  refine Guards.require lookups ?_
  have inside : ∀ r ∈ args, r < m.registers.size := fun r hr =>
    Nat.lt_of_lt_of_le (hargs.lt_length r hr) (by rw [length_append]; omega)
  refine Guards.bind (Q := fun vals m' => vals = args.map m.reg ∧ m' = m)
    ⟨Guarded.runFrom_getRegs inside, Does.of_ok (runFrom_getRegs _ _) ⟨rfl, rfl⟩⟩ ?_
  rintro _ _ ⟨rfl, rfl⟩
  rw [hblocks.length_eq]
  refine Guards.require passes ?_
  refine (hi.guards hk hvals hscope.args hscope.found checked).bind ?_
  rintro results m1 ⟨kept, hresults⟩
  have length := hresults.length_eq
  have kept_size := kept.size
  have outs_inside : ∀ r ∈ range' (Γ ++ replicate n none).length outs.length,
      r < m1.registers.size := by
    intro r hr
    rw [mem_range'_1, length_append] at hr
    omega
  refine ⟨Guarded.runFrom_setRegs (by simpa using length) outs_inside, ?_⟩
  rw [← length]
  refine Does.of_ok (runFrom_setRegs _ results m1) ⟨?_, ?_⟩
  · exact kept.trans (kept_of_setRange _ results rfl) (by rw [length_append]; omega)
  · refine RegsMean.set ((hregs.kept kept).out_of_scope n) hresults ?_
    rw [length_append]
    omega

variable (s fault)

mutual

/-- Steps that respect types look up nothing that is not there, find what passes a check if operands
of their types do, and leave operands of their types in the registers. -/
theorem TypedSteps.guards {item : Item} {Γ Γ' : RegTypes} {steps : List Step} :
    TypedSteps c item Γ steps Γ' → StepsOnly (Instr.Keeps raw a) steps →
    StepsOnly (Instr.Passes vet c raw a) steps →
    ∀ {frames : Frames} {scope : Scope} {m : Machine α}, scope.Sound raw a c item frames →
      RegsMean raw a Γ m → Γ'.length ≤ m.registers.size →
      Guards a.Allows (Guarded.steps vet fault s frames scope steps) (Exec.steps s scope steps) m
        fun _ m' => Kept Γ.length m m' ∧ RegsMean raw a Γ' m'
  | .nil _ _, _, _, _, _, _, _, hregs, _ => .of_does (Does.pure ⟨.of_eq rfl, hregs⟩)
  | .exec hblocks hi hargs hrest, hk, hv, frames, scope, m, hscope, hregs, hsize => by
    have enough := Nat.le_trans hrest.extends.length_le hsize
    have grown := hblocks.extends.length_le
    refine (step_guards hblocks hi hargs hk.1.1 hscope hregs enough ?_ ?_).bind ?_
    · obtain ⟨n, rfl⟩ := hblocks.scope_eq
      exact hv.1.1 hi ((hregs.out_of_scope n).read hargs)
    · intro n type htype scope' m' hscope' hitem kept
      rw [length_append] at enough
      refine hblocks.guards hk.1.2 hv.1.2 n type htype ⟨?_, hitem, ?_⟩ (hregs.kept kept) ?_
      · intro index t v _ hv
        rw [hscope'] at hv
        cases hv
      · exact hi.framed (mem_of_getElem? htype)
      · rw [kept.size]
        omega
    · rintro _ m1 ⟨kept, hregs1⟩
      refine (hrest.guards hk.2 hv.2 hscope hregs1 (kept.size ▸ hsize)).imp ?_
      rintro _ m2 ⟨kept', hregs2⟩
      exact ⟨kept.trans kept' (by rw [length_append]; omega), hregs2⟩
  | .scratch size align hrest, hk, hv, frames, scope, m, hscope, hregs, hsize => by
    have enough := Nat.le_trans hrest.extends.length_le hsize
    rw [length_append, length_singleton] at enough
    have refused : ¬ a.reported := hk.1
    have first : Guards a.Allows
      (Guarded.step vet fault s frames scope (.scratch size align Γ.length))
        (Exec.step s scope (.scratch size align Γ.length)) m
        fun _ m' => Kept Γ.length m m' ∧ RegsMean raw a (Γ ++ [some (.core .i32)]) m' := by
      refine ((alloc_gives refused size align).guards Γ.length m).bind ?_
      rintro ptr m1 ⟨kept, _⟩
      refine Guards.after (runFrom_modify _ m1) ?_
      have size_eq := kept.size
      refine ⟨Guarded.runFrom_setRegs rfl fun r hr => ?_, ?_⟩
      · rw [mem_singleton.mp hr]
        change Γ.length < m1.registers.size
        omega
      refine Does.of_ok (runFrom_setRegs Γ.length [.ofU32 ptr] _) ⟨?_, ?_⟩
      · exact kept.trans (kept_of_setRange _ [.ofU32 ptr] rfl) (Nat.le_refl _)
      · have pointer : Mean raw a [.core .i32] [.ofU32 ptr] :=
          one (means_ofU32 .i32 ptr)
        refine RegsMean.set (hregs.kept ?_) pointer ?_
        · exact kept.trans (.of_eq rfl) (Nat.le_refl _)
        · change Γ.length + 1 ≤ m1.registers.size
          omega
    refine first.bind ?_
    rintro _ m1 ⟨kept, hregs1⟩
    refine (hrest.guards hk.2 hv.2 hscope hregs1 (kept.size ▸ hsize)).imp ?_
    rintro _ m2 ⟨kept', hregs2⟩
    exact ⟨kept.trans kept' (by rw [length_append]; omega), hregs2⟩

theorem TypedBlocks.guards {Γ Γ' : RegTypes} {blocks : List Block} {types : List BlockType} :
    TypedBlocks c Γ blocks types Γ' → BlocksOnly (Instr.Keeps raw a) blocks →
    BlocksOnly (Instr.Passes vet c raw a) blocks →
    ∀ n type, types[n]? = some type → ∀ {frames : Frames} {scope : Scope} {m : Machine α},
      scope.Sound raw a c type.item frames → RegsMean raw a Γ m → Γ'.length ≤ m.registers.size →
      Guards a.Allows (Guarded.nth vet fault s frames scope n blocks) (nth s scope n blocks) m
        fun out m' => Kept Γ.length m m' ∧ Mean raw a type.results out
  | .nil _, _, _, _, _, htype, _, _, _, _, _, _ => by simp at htype
  | .cons hsteps hresults hrest, hk, hv, 0, type, htype, frames, scope, m, hscope, hregs,
    hsize => by
    obtain rfl := Option.some.inj htype
    have enough := Nat.le_trans hrest.extends.length_le hsize
    rw [length_append, length_replicate, ← length_append] at enough
    refine (hsteps.guards hk.1 hv.1 hscope hregs enough).bind ?_
    rintro _ m1 ⟨kept, hregs1⟩
    refine ⟨Guarded.runFrom_getRegs fun r hr => ?_,
      Does.of_ok (runFrom_getRegs _ _) ⟨kept, hregs1.read hresults⟩⟩
    rw [kept.size]
    exact Nat.lt_of_lt_of_le (hresults.lt_length r hr) enough
  | .cons _ _ hrest, hk, hv, n + 1, type, htype, frames, scope, m, hscope, hregs, hsize => by
    refine (hrest.guards hk.2 hv.2 n type htype hscope (hregs.out_of_scope _) hsize).imp ?_
    rintro out m' ⟨kept, hout⟩
    exact ⟨kept.mono (by rw [length_append]; omega), hout⟩

end

end Steps

end CanonicalAbi
