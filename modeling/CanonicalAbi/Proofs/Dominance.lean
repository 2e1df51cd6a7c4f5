import CanonicalAbi.Proofs.CaseOrder
import CanonicalAbi.Proofs.Reception
import CanonicalAbi.Proofs.Relating

/-!
# Single assignment

Every register of a program is set by one step, and a step reads only registers that were set by
then: by an earlier step of its own block, or by a step before the one that owns the block, or
before the owner of that one, and so on.
-/

namespace CanonicalAbi

open List

/-! ## Registers that are set and read -/

def Step.outs : Step → List Reg
  | .exec _ _ outs _ => outs
  | .scratch _ _ out => [out]

mutual

/-- All registers that a step and the blocks that it owns set, in the order in which they are
written. -/
def Step.sets : Step → List Reg
  | .exec _ _ outs blocks => blocksSet blocks ++ outs
  | .scratch _ _ out => [out]

def stepsSet : List Step → List Reg
  | [] => []
  | s :: ss => s.sets ++ stepsSet ss

def blocksSet : List Block → List Reg
  | [] => []
  | .mk ss _ :: bs => stepsSet ss ++ blocksSet bs

end

def Instr.passesOn : Instr → Bool
  | lowerSum _ _ _ _ => true
  | _ => false

mutual

/-- A step reads only registers that are known. It has as many operands, results and blocks as its
instruction, and its blocks know what it knows. -/
def Step.Dominated (known : List Reg) : Step → Prop
  | .exec i args outs blocks =>
    args ⊆ known ∧ args.length = i.operands ∧ outs.length = i.results ∧ blocks.length = i.blocks
      ∧ (i.passesOn → ∀ b ∈ blocks, b.results.length = i.results) ∧ BlocksDominated known blocks
  | .scratch _ _ _ => True

/-- What a step sets is known to the steps after it, but not what is set in its blocks. -/
def StepsDominated (known : List Reg) : List Step → Prop
  | [] => True
  | s :: ss => s.Dominated known ∧ StepsDominated (known ++ s.outs) ss

def BlocksDominated (known : List Reg) : List Block → Prop
  | [] => True
  | .mk ss results :: bs =>
    StepsDominated known ss ∧ results ⊆ known ++ ss.flatMap Step.outs ∧ BlocksDominated known bs

end

/-- Every register is set by one step, which comes before all that read it and is not hidden from
them in a block. -/
structure Program.SingleAssignment (p : Program) : Prop where
  once : stepsSet p.body.steps = range p.registers
  dominated : StepsDominated [] p.body.steps

/-! ## Steps that respect types -/

def Covers (Γ : RegTypes) (known : List Reg) : Prop := ∀ r t, Γ[r]? = some (some t) → r ∈ known

namespace Covers

variable {Γ : RegTypes} {known : List Reg}

theorem nothing (h : Covers Γ known) (count : Nat) :
    Covers (Γ ++ replicate count none) known :=
  fun r t hr => h r t (getElem?_of_scope hr)

theorem append (h : Covers Γ known) (types : List OperandType) :
    Covers (Γ ++ types.map some) (known ++ List.range' Γ.length types.length) := by
  intro r t hr
  by_cases old : r < Γ.length
  · rw [List.getElem?_append_left old] at hr
    exact List.mem_append_left _ (h r t hr)
  · have bound := (List.getElem?_eq_some_iff.mp hr).1
    rw [List.length_append, List.length_map] at bound
    exact List.mem_append_right _ (List.mem_range'_1.mpr ⟨Nat.not_lt.mp old, bound⟩)

theorem subset (h : Covers Γ known) {regs : List Reg} {types : List OperandType}
    (typed : Typed Γ regs types) : regs ⊆ known := by
  induction types generalizing regs with
  | nil =>
    obtain rfl := forall₂_nil_right_iff.mp typed
    exact nil_subset _
  | cons t types ih =>
    obtain ⟨r, rest, hr, hrest, rfl⟩ := forall₂_cons_right_iff.mp typed
    exact cons_subset.mpr ⟨h r t hr, ih hrest⟩

end Covers

theorem Instr.HasType.passes {c : Contract} {item : Item} {i : Instr}
    {ins outs : List OperandType} {types : List BlockType} (h : i.HasType c item ins types outs)
    (passes : i.passesOn) : ∀ type ∈ types, type.results.length = i.results := by
  cases h with
  | lowerSum form l payloads results =>
    intro type htype
    obtain ⟨p, _, rfl⟩ := mem_map.mp htype
    exact length_map ..
  | _ => cases passes

theorem TypedBlocks.length_results {c : Contract} {Γ Γ' : RegTypes} {blocks : List Block}
    {types : List BlockType} {count : Nat} :
    TypedBlocks c Γ blocks types Γ' → (∀ type ∈ types, type.results.length = count) →
      ∀ b ∈ blocks, b.results.length = count
  | .nil _, _ => by simp
  | .cons _ hresults hrest, h => by
    intro b hb
    rcases mem_cons.mp hb with rfl | hb
    · exact hresults.length_eq.trans (h _ mem_cons_self)
    · exact hrest.length_results (tail_parts h) b hb

mutual

theorem TypedSteps.dominated {c : Contract} {item : Item} {Γ Γ' : RegTypes} {steps : List Step} :
    TypedSteps c item Γ steps Γ' → ∀ known, Covers Γ known →
      StepsDominated known steps ∧ Covers Γ' (known ++ steps.flatMap Step.outs)
  | .nil _ _, known, h => by
    rw [flatMap_nil, append_nil]
    exact ⟨trivial, h⟩
  | @TypedSteps.exec _ _ _ Γ1 _ i args blocks steps ins outs types hblocks hi hargs hrest, known,
      h => by
    obtain ⟨blocksOk, h1⟩ := hblocks.dominated known h
    obtain ⟨restOk, h'⟩ := hrest.dominated _ (h1.append outs)
    rw [append_assoc] at h'
    have reads : args.length = i.operands := hargs.length_eq.trans hi.length_operands
    have makes : (range' Γ1.length outs.length).length = i.results :=
      length_range'.trans hi.length_results
    have owns : blocks.length = i.blocks := hblocks.length_eq.trans hi.length_blocks
    exact ⟨⟨⟨h1.subset hargs, reads, makes, owns, fun passes => hblocks.length_results
      (hi.passes passes), blocksOk⟩, restOk⟩, h'⟩
  | @TypedSteps.scratch _ _ Γ _ size align steps hrest, known, h => by
    obtain ⟨restOk, h'⟩ := hrest.dominated _ (h.append [.core .i32])
    rw [append_assoc] at h'
    exact ⟨⟨trivial, restOk⟩, h'⟩

theorem TypedBlocks.dominated {c : Contract} {Γ Γ' : RegTypes} {blocks : List Block}
    {types : List BlockType} : TypedBlocks c Γ blocks types Γ' → ∀ known, Covers Γ known →
      BlocksDominated known blocks ∧ Covers Γ' known
  | .nil _, _, h => ⟨trivial, h⟩
  | .cons hsteps hresults hrest, known, h => by
    obtain ⟨stepsOk, made⟩ := hsteps.dominated known h
    obtain ⟨restOk, h'⟩ := hrest.dominated known (h.nothing _)
    exact ⟨⟨stepsOk, made.subset hresults, restOk⟩, h'⟩

end

mutual

theorem TypedSteps.sets {c : Contract} {item : Item} {Γ Γ' : RegTypes} {steps : List Step} :
    TypedSteps c item Γ steps Γ' →
      range Γ.length ++ stepsSet steps = range Γ'.length
  | .nil _ _ => append_nil _
  | @TypedSteps.exec _ _ _ Γ1 _ i args blocks steps ins outs types hblocks hi hargs hrest => by
    have rest := hrest.sets
    rw [length_append, length_map, ← range_append_range', ← hblocks.sets] at rest
    rw [stepsSet, Step.sets, ← rest]
    simp only [append_assoc]
  | @TypedSteps.scratch _ _ Γ _ size align steps hrest => by
    have rest := hrest.sets
    rw [length_append, length_singleton, ← range_append_range'] at rest
    rw [stepsSet, Step.sets, ← rest]
    simp only [append_assoc, range'_one]

theorem TypedBlocks.sets {c : Contract} {Γ Γ' : RegTypes} {blocks : List Block}
    {types : List BlockType} : TypedBlocks c Γ blocks types Γ' →
      range Γ.length ++ blocksSet blocks = range Γ'.length
  | .nil _ => append_nil _
  | .cons hsteps hresults hrest => by
    have first := hsteps.sets
    have rest := hrest.sets
    rw [length_append, length_replicate, ← length_append, ← first] at rest
    rw [blocksSet, ← rest, append_assoc]

end

theorem TypedSteps.singleAssignment {c : Contract} {code : Code Unit} {Γ : RegTypes}
    (h : TypedSteps c .nothing [] (code.run 0).steps Γ) (hnext : Γ.length = (code.run 0).next)
    (f : FunctionShape) (dir : Direction) (mode : Mode) :
    (code.program f dir mode).SingleAssignment where
  once := by
    have sets := h.sets
    rwa [hnext] at sets
  dominated := by
    have nothing : Covers [] [] := by
      intro r t hr
      cases hr
    exact (h.dominated [] nothing).1

/-! ## How much an instruction makes -/

variable {α β γ : Type}

def Delivers (count : Nat) (x : Exec α (List β)) : Prop :=
  ∀ m vs m', runFrom x m = (.ok vs, m') → vs.length = count

namespace Delivers

variable {count : Nat} {x y : Exec α (List β)}

theorem pure {vs : List β} (h : vs.length = count) :
    Delivers count (Pure.pure vs : Exec α (List β)) := by
  intro m vs' m' hx
  cases hx
  exact h

theorem throw (e : Failure) : Delivers count (throw e : Exec α (List β)) := by
  intro m vs m' hx
  cases hx

theorem bind {z : Exec α γ} {f : γ → Exec α (List β)} (h : ∀ c, Delivers count (f c)) :
    Delivers count (z >>= f) := by
  intro m vs m' hx
  obtain ⟨c, m1, _, hf⟩ := runFrom_bind_eq_ok.mp hx
  exact h c m1 vs m' hf

theorem ite {p : Prop} [Decidable p] (hx : p → Delivers count x) (hy : ¬p → Delivers count y) :
    Delivers count (if p then x else y) := by
  by_cases hp : p
  · rw [if_pos hp]
    exact hx hp
  · rw [if_neg hp]
    exact hy hp

end Delivers

namespace Exec

variable [Allocator α]

theorem putBytes_delivers (realloc : String) (data : List UInt8) :
    Delivers 2 (putBytes realloc data : Exec α (List Value)) := by
  refine .bind fun ptr => ?_
  exact .ite (fun _ => .pure rfl) fun _ => .bind fun _ => .pure rfl

omit [Allocator α] in
theorem outcome_delivers (name : String) (count : Nat) (call : Action α (List β)) :
    Delivers count (outcome name count call) := by
  intro m vs m' hx
  rw [runFrom_outcome] at hx
  exact (ended_eq_ok.mp (Prod.mk.inj hx).1).2

/-- An instruction makes as many operands as it declares, if its blocks do where it passes on what
they yield. -/
theorem instr_delivers (c : Setting α) (scope : Scope) (blocks : Nat)
    {run : Nat → Scope → Exec α (List Value)} {i : Instr} {args : List Value}
    (hargs : args.length = i.operands)
    (hrun : i.passesOn → ∀ n < blocks, ∀ scope, Delivers i.results (run n scope)) :
    Delivers i.results (instr c scope blocks run i args) := by
  cases i with
  | getArg index =>
    simp only [instr]
    split
    · exact .pure rfl
    · exact .throw _
  | constZero types => exact .pure (length_map ..)
  | bitcasts casts =>
    refine .pure ?_
    rw [length_zipWith, hargs]
    exact Nat.min_self _
  | lowerString realloc =>
    simp only [instr]
    split
    · exact putBytes_delivers realloc _
    · exact .throw _
  | lowerBytes l elem realloc =>
    refine .bind fun _ => ?_
    split
    · exact putBytes_delivers realloc _
    · exact .throw _
  | lowerList l elem realloc =>
    simp only [instr]
    split
    · exact .bind fun layout => .bind fun ptr => .bind fun _ => .pure rfl
    · exact .throw _
  | lowerProduct form l fields =>
    simp only [instr]
    split
    · exact .ite (fun same => .pure same) fun _ => .throw _
    · exact .throw _
  | lowerFlags l count =>
    simp only [instr]
    split
    · refine .pure ?_
      rw [length_map]
      exact length_flagLanes _ _
    · exact .throw _
  | lowerSum form l cases results =>
    simp only [instr]
    split
    · exact .ite (fun inside => hrun rfl _ (toNat_lt_of_lt_ofNat inside) _) fun _ => .throw _
    · exact .throw _
  | lowerEnum l cases =>
    simp only [instr]
    split
    · exact .pure rfl
    · exact .throw _
  | liftEnum l cases => exact .ite (fun _ => .pure rfl) fun _ => .throw _
  | callCore name signature =>
    simp only [instr, callCore]
    split
    · exact .throw _
    · intro m vs m' hx
      obtain ⟨rs, m1, called, rest⟩ := runFrom_bind_eq_ok.mp hx
      cases rest
      exact (length_map ..).trans (outcome_delivers _ _ _ m rs _ called)
  | callInterface function =>
    simp only [instr, callInterface]
    split
    · exact .throw _
    · exact outcome_delivers _ _ _
  | freeList l elem => exact .bind fun layout => .bind fun _ => .bind fun _ => .pure rfl
  | liftList l elem => exact .bind fun layout => .bind fun elems => .bind fun _ => .pure rfl
  | liftBytes l elem => exact .bind fun _ => .bind fun data => .bind fun _ => .pure rfl
  | load op offset | store op offset | lowerScalar s | liftScalar s | lowerHandle form l resource
  | liftHandle form l resource | liftString | liftSum form l cases | ret count
  | allocate realloc size align | free size align | freeString | freeSum l cases =>
    exact .bind fun _ => .pure rfl
  | _ => exact .pure rfl

end Exec

/-! ## A forgetful machine -/

/-- Two register files agree on the known registers. -/
structure AgreeOn (known : List Reg) (a a' : Array Value) : Prop where
  size : a.size = a'.size
  reg : ∀ r ∈ known, a.getD r .nothing = a'.getD r .nothing

namespace AgreeOn

variable {known known' : List Reg} {a a' : Array Value}

theorem mono (h : AgreeOn known a a') (fewer : known' ⊆ known) : AgreeOn known' a a' :=
  ⟨h.size, fun r hr => h.reg r (fewer hr)⟩

theorem set (h : AgreeOn known a a') (r : Reg) (v : Value) :
    AgreeOn (known ++ [r]) (a.setIfInBounds r v) (a'.setIfInBounds r v) := by
  refine ⟨by simp only [Array.size_setIfInBounds, h.size], fun r' hr' => ?_⟩
  simp only [Array.getD_eq_getD_getElem?]
  by_cases same : r = r'
  · rw [same, Array.getElem?_setIfInBounds_self, Array.getElem?_setIfInBounds_self, h.size]
  · rw [Array.getElem?_setIfInBounds_ne same, Array.getElem?_setIfInBounds_ne same]
    simp only [← Array.getD_eq_getD_getElem?]
    rcases mem_append.mp hr' with old | new
    · exact h.reg r' old
    · exact absurd (mem_singleton.mp new).symm same

theorem setAll (h : AgreeOn known a a') {regs : List Reg} {vs : List Value}
    (enough : regs.length = vs.length) :
    AgreeOn (known ++ regs) ((regs.zip vs).foldl (fun rs (r, v) => rs.setIfInBounds r v) a)
      ((regs.zip vs).foldl (fun rs (r, v) => rs.setIfInBounds r v) a') := by
  induction regs generalizing known a a' vs with
  | nil =>
    rw [append_nil]
    exact h
  | cons r regs ih =>
    cases vs with
    | nil => cases enough
    | cons v vs =>
      have rest := ih (h.set r v) (Nat.succ.inj enough)
      rwa [append_assoc] at rest

end AgreeOn

namespace Forgetful

/-- Overwrites all registers that are not known, with something that may depend on everything. -/
def forget (junk : Machine α → Reg → Value) (known : List Reg) : Exec α Unit :=
  modify fun m => { m with
    registers := m.registers.mapIdx fun r v => if r ∈ known then v else junk m r }

variable [Allocator α] (junk : Machine α → Reg → Value)

mutual

def step (c : Setting α) (scope : Scope) (known : List Reg) : Step → Exec α Unit
  | .exec i args outs blocks => do
    forget junk known
    let values ← Exec.getRegs args
    let results ← Exec.instr c scope blocks.length (fun n scope => nth c scope known n blocks) i
      values
    Exec.setRegs outs results
  | .scratch size align out => do
    forget junk known
    let ptr ← Exec.act (.alloc size align)
    modify fun m => { m with scratch := ⟨ptr, size, align⟩ :: m.scratch }
    Exec.setRegs [out] [.ofU32 ptr]

/-- Runs steps one after another, each of which knows what those before it set. -/
def steps (c : Setting α) (scope : Scope) (known : List Reg) : List Step → Exec α Unit
  | [] => pure ()
  | s :: ss => do
    step c scope known s
    steps c scope (known ++ s.outs) ss

def block (c : Setting α) (scope : Scope) (known : List Reg) : Block → Exec α (List Value)
  | .mk ss results => do
    steps c scope known ss
    forget junk (known ++ ss.flatMap Step.outs)
    Exec.getRegs results

def nth (c : Setting α) (scope : Scope) (known : List Reg) : Nat → List Block → Exec α (List Value)
  | 0, b :: _ => block c scope known b
  | n + 1, _ :: bs => nth c scope known n bs
  | _, [] => pure []

end

/-! ## What it does -/

/-- Machines that differ in unknown registers only. -/
abbrev Knows (known : List Reg) : Machine α → Machine α → Prop :=
  Machine.Beside Eq (AgreeOn known)

variable {junk} {known : List Reg}

omit [Allocator α] in
theorem Knows.mono {known' : List Reg} (fewer : known' ⊆ known) (m m' : Machine α)
    (h : Knows known m m') : Knows known' m m' :=
  ⟨h.world, h.registers.mono fewer, h.borrowed, h.scratch, h.lent, h.results⟩

omit [Allocator α] in
theorem Knows.nothing (m m' : Machine α) (h : Knows known m m') : Knows [] m m' :=
  h.mono (nil_subset known)

omit [Allocator α] in
theorem forget_related {F : Machine α → Machine α → Prop} {x y : Exec α β}
    {S : Machine α → Machine α → Prop} (h : Related F (Knows known) S x y) :
    Related F (Knows known) S x (do forget junk known; y) := by
  intro m m' hm
  have forgot : Knows known m { m' with
      registers := m'.registers.mapIdx fun r v => if r ∈ known then v else junk m' r } := by
    refine ⟨hm.world, ⟨?_, fun r hr => ?_⟩, hm.borrowed, hm.scratch, hm.lent, hm.results⟩
    · rw [Array.size_mapIdx]
      exact hm.registers.size
    · rw [hm.registers.reg r hr]
      simp only [Array.getD_eq_getD_getElem?, Array.getElem?_mapIdx, if_pos hr, Option.map_id']
  exact h m _ forgot

omit [Allocator α] in
theorem getRegs_related {F : Machine α → Machine α → Prop} {regs : List Reg} (h : regs ⊆ known) :
    Related F (Knows known) (Knows known) (Exec.getRegs regs) (Exec.getRegs regs) := by
  intro m m' hm
  have same : regs.map m.reg = regs.map m'.reg :=
    map_congr_left fun r hr => hm.registers.reg r (h hr)
  refine .inl ⟨regs.map m.reg, m, m', rfl, ?_, hm⟩
  rw [same]
  rfl

omit [Allocator α] in
theorem setRegs_related {F : Machine α → Machine α → Prop} {regs : List Reg} {vs : List Value}
    (h : vs.length = regs.length) :
    Related F (Knows known) (Knows (known ++ regs)) (Exec.setRegs regs vs)
      (Exec.setRegs regs vs) :=
  .update fun _ _ hm => ⟨hm.world, hm.registers.setAll h.symm, hm.borrowed, hm.scratch, hm.lent,
    hm.results⟩

theorem nth_delivers (c : Setting α) {blocks : List Block} {count : Nat}
    (h : ∀ b ∈ blocks, b.results.length = count) {n : Nat} (hn : n < blocks.length)
    (scope : Scope) : Delivers count (Exec.nth c scope n blocks) := by
  rw [Exec.nth_eq (getElem?_eq_getElem hn)]
  have length := h _ (getElem_mem hn)
  revert length
  rcases blocks[n] with ⟨ss, results⟩
  intro length
  refine .bind fun _ => ?_
  intro m vs m' hx
  cases hx
  exact (length_map ..).trans length

variable (junk)

mutual

theorem step_related (c : Setting α) (scope : Scope) : ∀ (known : List Reg) (s : Step),
    s.Dominated known → Related (Knows []) (Knows known) (Knows (known ++ s.outs))
      (Exec.step c scope s) (step junk c scope known s)
  | known, .exec i args outs blocks, ⟨reads, operands, results, _, passes, hblocks⟩ => by
    refine forget_related ((getRegs_related reads).bindOf fun values m m1 got => ?_)
    have length : values.length = i.operands := by
      cases got
      exact (length_map ..).trans operands
    have alike := Exec.instr_paired (F := Knows []) (G := AgreeOn known)
      (fun m m' h => Knows.nothing m m' h) World.Answers.equality (Setting.Matches.refl c) scope
      blocks.length (fun n scope => nth_related c scope known n blocks hblocks) i values
    have delivers : Delivers i.results (Exec.instr c scope blocks.length
        (fun n scope => Exec.nth c scope n blocks) i values) :=
      Exec.instr_delivers c scope blocks.length length
        fun h n hn scope => nth_delivers c (passes h) hn scope
    refine alike.bindOf fun vs m m1 ran => ?_
    exact setRegs_related ((delivers m vs m1 ran).trans results.symm)
  | known, .scratch size align out, _ => by
    refine forget_related ?_
    refine (Exec.act_paired (fun m m' h => Knows.nothing m m' h) (.refl _)).bind fun ptr => ?_
    exact (Exec.scratch_paired ⟨ptr, size, align⟩).bind fun _ => setRegs_related rfl

theorem steps_related (c : Setting α) (scope : Scope) : ∀ (known : List Reg) (ss : List Step),
    StepsDominated known ss → Related (Knows []) (Knows known)
      (Knows (known ++ ss.flatMap Step.outs)) (Exec.steps c scope ss) (steps junk c scope known ss)
  | known, [], _ => by
    rw [flatMap_nil, append_nil]
    exact .pure ()
  | known, s :: ss, ⟨first, rest⟩ => by
    rw [Exec.steps, steps, flatMap_cons, ← append_assoc]
    exact (step_related c scope known s first).bind fun _ =>
      steps_related c scope (known ++ s.outs) ss rest

theorem nth_related (c : Setting α) (scope : Scope) : ∀ (known : List Reg) (n : Nat)
    (blocks : List Block), BlocksDominated known blocks →
      Related (Knows []) (Knows known) (Knows known) (Exec.nth c scope n blocks)
        (nth junk c scope known n blocks)
  | known, 0, .mk ss results :: _, ⟨hsteps, yields, _⟩ => by
    refine (steps_related c scope known ss hsteps).bind fun _ => ?_
    exact forget_related ((getRegs_related yields).weaken
      (Knows.mono (subset_append_left _ _)))
  | known, n + 1, .mk _ _ :: bs, ⟨_, _, rest⟩ => nth_related c scope known n bs rest
  | known, _, [], _ => by
    rw [Exec.nth, nth]
    exact .pure []

end

end Forgetful

/-! ## Compiled programs -/

namespace Program

theorem ending_congr [Allocator α] (p : Program) {G : Array Value → Array Value → Prop}
    {m m' : Machine α} (h : Machine.Beside Eq G m m') (r : Except Failure Unit) :
    p.ending (r, m) = p.ending (r, m') := by
  have cleaned : p.cleanUp m = p.cleanUp m' := by
    rw [cleanUp, cleanUp, h.lent, h.borrowed, h.scratch]
  rcases r with e | _ <;> simp only [ending, cleaned, h.world, h.results]

/-- A run does not depend on registers other than those that were set before, in the same block or
around it: it ends in the same way on a machine that forgets them before every step, whatever it
finds in their place. -/
def ReadsWhatIsSet (p : Program) : Prop :=
  ∀ {α : Type} [Allocator α] (junk : Machine α → Reg → Value) (host : Host α) (args : List Value)
    (w : World α),
    p.ending (runFrom (Forgetful.steps junk ⟨host, p.ownsLifted⟩ { args } [] p.body.steps)
        (p.startOn args.length w))
      = runFrom (p.run host args) w

theorem SingleAssignment.readsWhatIsSet {p : Program} (h : p.SingleAssignment) :
    p.ReadsWhatIsSet := by
  intro α _ junk host args w
  have start : Forgetful.Knows [] (p.startOn args.length w) (p.startOn args.length w) :=
    ⟨rfl, ⟨rfl, fun _ _ => rfl⟩, rfl, rfl, rfl, rfl⟩
  rw [runFrom_run_steps]
  rcases Forgetful.steps_related junk ⟨host, p.ownsLifted⟩ { args } [] p.body.steps h.dominated
    _ _ start with ⟨b, m, m', hm, hm', same⟩ | ⟨e, m, m', hm, hm', same⟩ <;> rw [hm, hm']
  · exact (p.ending_congr same (.ok b)).symm
  · exact (p.ending_congr same (.error e)).symm

end Program

/-- Compiled programs are in single-assignment form. Every half of a call of a validated function of
an acyclic graph compiles, and so does the function that frees its results. Each register of the
program is set by one step. Registers are read only by later steps of the same block and by steps of
blocks that those own, so no run reads a register that is not set, or that was set in a block that
did not run. Every step owns as many blocks as its instruction has, those of the cases of a sum in
the order in which the graph lists the cases. -/
theorem programs_assign_once {g : Graph} (hg : g.Acyclic) {f : Function}
    (hf : validate g (some f) = []) (raw : RawRule) :
    (∀ dir mode, ∃ p, (Program.compile dir mode raw (.ofGraph g (some f))).1 = .ok p
      ∧ p.SingleAssignment ∧ p.ReadsWhatIsSet ∧ StepsInOrder raw g.shapes p.body.steps)
    ∧ ∃ p, (Program.compilePostReturn raw (.ofGraph g (some f))).1 = .ok p
      ∧ p.SingleAssignment ∧ p.ReadsWhatIsSet ∧ StepsInOrder raw g.shapes p.body.steps := by
  constructor
  · intro dir mode
    obtain ⟨Γ, _, typed, hnext, _⟩ := recorded_call raw hg hf dir mode ""
    have once := typed.singleAssignment hnext (g.shapes.function f) dir mode
    exact ⟨_, compile_eq raw hg hf dir mode, once, once.readsWhatIsSet,
      Code.call_inOrder hg f { dir, mode } 0⟩
  · obtain ⟨Γ, typed, hnext, _⟩ := Code.postReturn_hasType (passable_of_validate hg hf)
    have once := typed.singleAssignment hnext (g.shapes.function f) .exported .liftArgs
    exact ⟨_, compilePostReturn_eq raw hg hf, once, once.readsWhatIsSet,
      Code.postReturn_inOrder hg f 0⟩

/-- The halves of swapping letters in a postbox assign each register once. -/
theorem programs_assign_once_postbox :
    Postbox.graph.Acyclic ∧ validate Postbox.graph (some Postbox.swap) = []
    ∧ (∀ dir mode, ∃ p, (Program.compile dir mode Program.isByte Postbox.subject).1 = .ok p
      ∧ p.SingleAssignment ∧ p.ReadsWhatIsSet
      ∧ StepsInOrder Program.isByte Postbox.graph.shapes p.body.steps)
    ∧ ∃ p, (Program.compilePostReturn Program.isByte Postbox.subject).1 = .ok p
      ∧ p.SingleAssignment ∧ p.ReadsWhatIsSet
      ∧ StepsInOrder Program.isByte Postbox.graph.shapes p.body.steps :=
  ⟨Postbox.acyclic, Postbox.validate_swap,
    programs_assign_once Postbox.acyclic Postbox.validate_swap Program.isByte⟩

end CanonicalAbi
