import CanonicalAbi.Proofs.Programs
import CanonicalAbi.Proofs.Results

/-!
# The halves of a call

The callee's half, run on an offer, calls the function of the interface with the arguments that were
passed and passes its results on.
-/

namespace CanonicalAbi

open List Value Program

variable {α : Type}

/-! ## Calls of something outside -/

/-- A function of the interface may give these results for these arguments. -/
def Answers (impl : FunctionShape → List Value → Action α (List Value)) (f : FunctionShape)
    (ws rs : List Value) : Prop :=
  ∃ w, (runFrom (impl f ws) w).1 = .ok rs

/-- A function of the interface that does not touch the memory, the allocator or, where it matters,
the handle table, and whose results fit. -/
def Serves (raw : RawRule) (owners : Option HandleTable) (room : Nat)
    (f : FunctionShape) (impl : FunctionShape → List Value → Action α (List Value))
    (vs : List Value) : Prop :=
  ∀ ws, (owners.isSome → ws = vs) → ∀ w, Does (Excused owners) (impl f ws) w fun rs w' =>
    w'.memory = w.memory ∧ w'.allocator = w.allocator ∧ (owners.isSome → w' = w)
      ∧ FieldsAdmit raw owners f.results rs ∧ (owners.isSome → handlesAll rs ≤ room)

/-- The interface function was called with `vs`, and left memory and the allocator alone. -/
structure Visited (owners : Option HandleTable) (vs : List Value) (w w' : World α) : Prop where
  memory : w'.memory = w.memory
  allocator : w'.allocator = w.allocator
  table : owners.isSome → w'.table = w.table
  notes : owners.isSome → w.Notes 1 w'
  seen : owners.isSome → w'.crossing.seen = some vs

/-- A machine that something outside was called from, in the world that this left behind. -/
structure Machine.Resumed (m m' : Machine α) : Prop where
  borrowed : m'.borrowed = m.borrowed
  scratch : m'.scratch = m.scratch
  lent : m'.lent = m.lent

theorem Generator.loweringAllocator_isEmpty (dir : Direction) (mode : Mode) :
    ({ dir, mode } : Generator).loweringAllocator.isEmpty
      = decide (dir = .imported ∧ mode = .lowerArgs) := by
  cases dir <;> cases mode <;> decide

section Outside

variable [BumpLike α] {owners : Option HandleTable} {c : Setting α} {scope : Scope} {p : Point α}
  {f : FunctionShape}

omit [BumpLike α] in
theorem Exec.outcome_does {β : Type} {call : Action α (List β)} {name : String} {count : Nat}
    {m : Machine α} {Q : List β → World α → Prop}
    (h : Does (Excused owners) call m.world fun rs w => rs.length = count ∧ Q rs w) :
    Does (Excused owners) (Exec.outcome name count call) m fun rs m' =>
      rs.length = count ∧ ∃ w, m' = { m with world := w } ∧ Q rs w := by
  rw [Does] at h ⊢
  rw [Exec.runFrom_outcome]
  revert h
  rcases runFrom call m.world with ⟨e | rs, w⟩
  · exact fun he strict => .wrapped _ _ _ (he strict)
  · rintro ⟨hrs, hq⟩
    simp only [Exec.ended_eq_ok.mpr ⟨rfl, hrs⟩]
    exact ⟨hrs, w, rfl, hq⟩

theorem callInterface_runs {raw : RawRule} {room : Nat}
    {impl : FunctionShape → List Value → Action α (List Value)}
    (himpl : c.host.interface = some impl)
    {vs ws : List Value} (hws : owners.isSome → ws = vs)
    (serves : Serves raw owners room f impl vs) {args : List Reg} (hargs : p.HoldsAll args ws) :
    (Code.emit (.callInterface f) args).Runs (Excused owners) c scope p fun regs q => ∃ rs,
      q.HoldsAll regs rs ∧ Answers impl f ws rs ∧ FieldsAdmit raw owners f.results rs
        ∧ (owners.isSome → handlesAll rs ≤ room) ∧ p.machine.Resumed q.machine
        ∧ Visited owners vs p.machine.world q.machine.world := by
  have call : Does (Excused owners) (Exec.crossInterface impl f ws) p.machine.world fun rs w =>
      rs.length = f.results.length ∧ Answers impl f ws rs ∧ FieldsAdmit raw owners f.results rs
        ∧ (owners.isSome → handlesAll rs ≤ room)
        ∧ Visited owners vs p.machine.world w := by
    refine Does.after (runFrom_modify _ _) (Does.after (runFrom_modify _ _) ?_)
    refine (serves ws hws _).outcome.imp ?_
    rintro rs w ⟨⟨memory, allocator, same, admits, room⟩, ran⟩
    refine ⟨admits.length_eq, ⟨_, by rw [ran]⟩, admits, room, memory, allocator, ?_, ?_, ?_⟩
    · exact fun strict => by rw [same strict]
    · exact fun strict => .of_entry (by rw [same strict]) rfl
    · exact fun strict => by rw [same strict, hws strict]
  refine Code.Runs.emit hargs ?_
  simp only [Exec.instr, Exec.callInterface, himpl]
  refine (Exec.outcome_does call).imp ?_
  rintro rs m ⟨hlength, w, rfl, answers, admits, room, visited⟩
  refine ⟨rfl, hlength, fun regs q _ alike holds => ⟨rs, holds, answers, admits, room, ?_, ?_⟩⟩
  · exact ⟨alike.borrowed, alike.scratch, alike.lent⟩
  · rw [alike.world]
    exact visited

theorem callCore_runs {core : String → List UInt64 → Action α (List UInt64)}
    (hcore : c.host.core = some core) {name : String} {signature : CoreSignature}
    {params : List UInt64} {args : List Reg} (hargs : p.HoldsAll args (params.map .u64))
    {Q : List UInt64 → World α → Prop}
    (h : ∀ w : World α, w.memory = p.machine.world.memory →
      w.allocator = p.machine.world.allocator →
      w.table = p.machine.world.table → p.machine.world.Notes 0 w →
      Does (Excused owners) (core name params) w fun returned w' =>
        returned.length = signature.results.length ∧ Q returned w') :
    (Code.emit (.callCore name signature) args).Runs (Excused owners) c scope p fun regs q =>
      ∃ returned, q.HoldsAll regs (returned.map .u64) ∧ p.machine.Resumed q.machine
        ∧ Q returned q.machine.world := by
  have call : Does (Excused owners) (Exec.crossCore core name params) p.machine.world
      fun returned w => returned.length = signature.results.length ∧ Q returned w := by
    refine Does.after (runFrom_modify _ _) (Does.after (runFrom_modify _ _) ?_)
    exact h _ rfl rfl rfl (.of_entry rfl rfl)
  have core_u64 : (params.map Value.u64).map Value.core = params := by
    rw [map_map]
    exact map_id params
  refine Code.Runs.emit hargs ?_
  simp only [Exec.instr, Exec.callCore, hcore, core_u64]
  refine (Exec.outcome_does call).bind ?_
  rintro returned m ⟨hlength, w, rfl, hq⟩
  refine Does.pure ⟨rfl, ?_, fun regs q _ alike holds => ⟨returned, holds, ?_, ?_⟩⟩
  · rw [Value.ofCore, length_map, hlength]
    rfl
  · exact ⟨alike.borrowed, alike.scratch, alike.lent⟩
  · rw [alike.world]
    exact hq

end Outside

/-! ## The callee's half -/

variable [BumpLike α]

/-- What a callee does with an offer: it calls the function of the interface and passes its results
on. The memory of an export's arguments is given back, that of the results is in use. -/
structure Replied (raw : RawRule) (owners : Option HandleTable) (dir : Direction)
    (f : FunctionShape) (impl : FunctionShape → List Value → Action α (List Value))
    (vs : List Value) (taken : List Allocation) (area : Option UInt32) (rs : List Value)
    (returned : List UInt64) (o : Assets) (w w' : World α) : Prop where
  answers : ∃ ws, (owners.isSome → ws = vs) ∧ Answers impl f ws rs
  admits : FieldsAdmit raw owners f.results rs
  answered : Answered raw owners dir f area returned (receivedAll owners rs) o w'
  balances : ∀ live, w.Balances ((if dir = .exported then taken else []) ++ live) w'
    (o.blocks ++ (f.returnBlocks dir returned ++ live))
  notes : owners.isSome → w.Notes 1 w'
  seen : owners.isSome → w'.crossing.seen = some vs

/-- What the callee's half leaves a machine with: a reply, and nothing that lasts for the call. -/
def CalleeEnds (raw : RawRule) (owners : Option HandleTable) (dir : Direction)
    (f : FunctionShape) (impl : FunctionShape → List Value → Action α (List Value))
    (vs : List Value) (taken : List Allocation) (area : Option UInt32) (m m' : Machine α) : Prop :=
  ∃ rs returned o, m'.results = returned.map .u64
    ∧ Replied raw owners dir f impl vs taken area rs returned o m.world m'.world
    ∧ m'.borrowed.Perm m.borrowed ∧ m'.scratch = f.returnBlocks dir returned ++ m.scratch
    ∧ (AllBorrowless f.results → m'.lent = m.lent)

variable {w : World α}

section Callee

variable {raw : RawRule} {owners : Option HandleTable} {c : Setting α} {scope : Scope}
  {p : Point α} {room : Nat} {dir : Direction} {f : FunctionShape}
  {impl : FunctionShape → List Value → Action α (List Value)} {vs : List Value} {xs : List UInt64}
  {area : Option UInt32} {o : Assets}

theorem ArgsAt.length_eq {mem : Memory} (h : ArgsAt raw mem f vs xs o) (dir : Direction) :
    xs.length = (f.passedParams dir).length := by
  rw [FunctionShape.passedParams, FunctionShape.coreSignature_indirect]
  obtain ⟨ps, _, h⟩ := h
  split_ifs at h ⊢
  · obtain ⟨ptr, rfl, _⟩ := h
    rfl
  · exact h.holds.length_eq.symm

theorem Offered.last (h : Offered raw owners room dir f vs xs area o w) {ptr : UInt32}
    (hptr : ptr ∈ area) :
    ((offered xs area).map u64)[(f.coreSignature dir).params.length - 1]?
      = some (.ofU32 ptr) := by
  obtain rfl : area = some ptr := hptr
  have provides : (f.returnsArea && dir = .imported) = true := h.provides.symm
  have count : (f.coreSignature dir).params.length - 1 = xs.length := by
    rw [FunctionShape.coreSignature_params, FunctionShape.coreSignature_returnPointer,
      if_pos provides, length_append, h.args.length_eq dir]
    rfl
  rw [count, offered, getElem?_map, getElem?_append_right (Nat.le_refl _), Nat.sub_self]
  rfl

theorem callee_runs (hraw : ∀ e, raw e = true → isByte e = true) (hp : f.Passable)
    (hfit : f.Fits) (howned : c.owned = decide (dir = .exported))
    (himpl : c.host.interface = some impl) (serves : Serves raw owners room f impl vs)
    (offer : Offered raw owners room dir f vs xs area o p.machine.world)
    (hargs : scope.args = (offered xs area).map .u64) :
    (Code.call raw { dir, mode := .liftArgs } f).Runs (Excused owners) c scope p fun _ q =>
      CalleeEnds raw owners dir f impl vs (o.blocks ++ f.paramBlocks xs) area p.machine
        q.machine := by
  refine (liftArgs_runs (g := { dir, mode := .liftArgs }) hp.params howned offer hargs).bind ?_
  rintro args q1 h1 ⟨ws, hws, equal, lifted, passes⟩
  obtain ⟨ready1, frontier1⟩ := lifted.ready offer.ready
  refine (callInterface_runs himpl equal serves hws).bind ?_
  rintro values q2 h2 ⟨rs, hrs, answers, admits, enough, resumed, visited⟩
  have ready2 : q2.Ready := by
    obtain ⟨a, ha, bounds⟩ := ready1
    exact ⟨a, visited.allocator.trans ha, visited.memory ▸ bounds⟩
  have frontier2 : q2.machine.world.frontier = q1.machine.world.frontier := by
    simp only [World.frontier, visited.allocator]
  have passes2 : q2.machine.world.Passes owners [] (handlesAll rs) := by
    intro origin horigin
    have strict := Option.isSome_of_mem horigin
    obtain ⟨t, ht, holding⟩ := passes origin horigin
    exact ⟨t, (visited.table strict).trans ht, holding.less_room (enough strict)⟩
  have last : ∀ ptr ∈ area, scope.args[(f.coreSignature dir).params.length - 1]?
      = some (.ofU32 ptr) ∧ ptr.toNat + f.resultArea.size.toNat ≤ q2.machine.world.frontier := by
    intro ptr hptr
    rw [hargs, frontier2, frontier1]
    exact ⟨offer.last hptr, offer.inside ptr hptr⟩
  refine (lowerResults_runs (g := { dir, mode := .liftArgs }) hraw hp.results hfit admits hrs ready2
    passes2 offer.provides last).imp ?_
  rintro _ q3 _ ⟨returned, o', results, outlay, lent, answered⟩
  have asked : ∀ live, p.machine.world.Balances
      ((if dir = .exported then o.blocks ++ f.paramBlocks xs else []) ++ live)
      q1.machine.world live := by
    intro live
    rw [howned] at lifted
    by_cases hdir : dir = .exported
    · rw [if_pos hdir]
      rw [decide_eq_true hdir] at lifted
      exact .lifted lifted live
    · rw [if_neg hdir]
      rw [decide_eq_false hdir] at lifted
      exact .read lifted live
  refine ⟨rs, returned, o', results, ⟨⟨ws, equal, answers⟩, admits, answered, ?_, ?_, ?_⟩, ?_,
    ?_, ?_⟩
  · intro live
    exact (asked live).trans ((World.Balances.idle ready1 visited.allocator live).trans
      (outlay.balances live))
  · intro strict
    have first : p.machine.world.Notes 0 q1.machine.world := .of_eq lifted.log
    exact (first.trans (visited.notes strict)).trans (.of_eq outlay.log)
  · intro strict
    rw [outlay.crossing]
    exact visited.seen strict
  · have borrowed := outlay.borrowed
    rw [Generator.loweringAllocator_isEmpty, resumed.borrowed, lifted.borrowed] at borrowed
    simpa using borrowed
  · rw [outlay.scratch, resumed.scratch, lifted.scratch]
  · intro h
    rw [lent h, resumed.lent, lifted.lent]

theorem toCore_map_u64 (xs : List UInt64) : toCore (xs.map .u64) = .ok xs := by
  induction xs with
  | nil => rfl
  | cons x xs ih =>
    rw [map_cons, toCore, ih]
    rfl

theorem callee_does (hraw : ∀ e, raw e = true → isByte e = true) (hp : f.Passable)
    (hfit : f.Fits) (hb : owners.isSome → AllBorrowless f.results)
    (serves : Serves raw owners room f impl vs)
    (offer : Offered raw owners room dir f vs xs area o w) (name : String) :
    Does (Excused owners)
      (((Code.call raw { dir, mode := .liftArgs } f).program f dir .liftArgs).asCore (some impl)
        name (offered xs area)) w fun returned w' => ∃ rs o',
          Replied raw owners dir f impl vs (o.blocks ++ f.paramBlocks xs) area rs returned o' w w'
            ∧ w'.crossing.returned = some returned := by
  let program := (Code.call raw { dir, mode := .liftArgs } f).program f dir .liftArgs
  let args := ofCore (offered xs area)
  let start := program.startOn args.length w
  have begun : Offered raw owners room dir f vs xs area o start.world := offer.of_eq rfl rfl rfl
  have owned : program.ownsLifted = decide (dir = .exported) := by cases dir <;> rfl
  have runs : Does (Excused owners) (program.run { interface := some impl } args) w
      fun results w' => ∃ m,
        CalleeEnds raw owners dir f impl vs (o.blocks ++ f.paramBlocks xs) area start m
          ∧ results = m.results ∧ Cleaned dir m m.world w' :=
    run_does (callee_runs (p := ⟨0, start⟩) hraw hp hfit owned rfl serves begun rfl)
  refine Does.bind runs ?_
  rintro _ w1 ⟨m, ⟨rs, returned, o', results, replied, borrowed, scratch, lent⟩, rfl, cleaned⟩
  rw [results, toCore_map_u64]
  refine Does.after rfl (Does.after (runFrom_modify _ _) (Does.pure ⟨rs, o', ?_, rfl⟩))
  obtain ⟨ready, _⟩ := cleaned.ready replied.answered.ready
  have table : owners.isSome → w1.table = m.world.table := fun strict =>
    cleaned.table (lent (hb strict))
  have nothing : ∀ live, m.world.Balances live w1 live := by
    intro live
    have balances := cleaned.balances replied.answered.ready live
    have kept : (if dir = .imported then m.scratch else []) = [] := by
      rw [scratch]
      cases dir <;> simp [start, startOn]
    rw [borrowed.eq_nil, kept] at balances
    exact balances
  exact {
    answers := replied.answers
    admits := replied.admits
    answered := replied.answered.of_eq cleaned.memory ready table
    balances live := (World.Balances.idle offer.ready rfl _).trans
      ((replied.balances live).trans (nothing _))
    notes strict :=
      have begins : w.Notes 0 start.world := .of_entry rfl rfl
      (begins.trans (replied.notes strict)).trans cleaned.notes
    seen strict := (congrArg Crossing.seen cleaned.crossing).trans (replied.seen strict) }

end Callee

/-! ## The caller's half -/

/-- What a call amounts to: its results are those of the function of the interface. In the end the
memory of an export's results is in use, and so are the blocks `held`. -/
structure Completed (raw : RawRule) (owners : Option HandleTable) (dir : Direction)
    (f : FunctionShape) (impl : FunctionShape → List Value → Action α (List Value))
    (vs : List Value) (held : List Allocation) (area : Option UInt32) (rs : List Value)
    (returned : List UInt64) (o : Assets) (w w' : World α) : Prop where
  answers : ∃ ws, (owners.isSome → ws = vs) ∧ Answers impl f ws rs
  admits : FieldsAdmit raw owners f.results rs
  ready : w'.Ready
  passed : ResultsAt raw w'.memory dir f area returned (receivedAll owners rs) o
  balances : ∀ live, w.Balances live w'
    ((if dir = .exported then o.blocks ++ f.returnBlocks dir returned else []) ++ (held ++ live))
  notes : owners.isSome → w.Notes 1 w'
  seen : owners.isSome → w'.crossing.seen = some vs
  kept : w'.crossing.returned = some returned

def CallerEnds (raw : RawRule) (owners : Option HandleTable) (dir : Direction)
    (f : FunctionShape) (impl : FunctionShape → List Value → Action α (List Value))
    (vs : List Value) (m m' : Machine α) : Prop :=
  ∃ area rs returned o, (owners.isSome → m'.results = receivedAll owners rs)
    ∧ Completed raw owners dir f impl vs
      (m'.borrowed ++ if dir = .imported then m'.scratch else [])
        area rs returned o m.world m'.world

section Caller

variable {raw : RawRule} {owners : Option HandleTable} {c : Setting α} {scope : Scope}
  {p : Point α} {room : Nat} {dir : Direction} {f : FunctionShape}
  {impl : FunctionShape → List Value → Action α (List Value)}
  {core : String → List UInt64 → Action α (List UInt64)}

def Replies (raw : RawRule) (owners : Option HandleTable) (room : Nat) (dir : Direction)
    (f : FunctionShape) (impl : FunctionShape → List Value → Action α (List Value))
    (vs : List Value) (core : String → List UInt64 → Action α (List UInt64)) : Prop :=
  ∀ xs area o w, Offered raw owners room dir f vs xs area o w →
    Does (Excused owners) (core f.name (offered xs area)) w fun returned w' => ∃ rs o',
      Replied raw owners dir f impl vs (o.blocks ++ f.paramBlocks xs) area rs returned o' w w'
        ∧ w'.crossing.returned = some returned

theorem caller_runs (hraw : ∀ e, raw e = true → isByte e = true) (hp : f.Passable)
    (hfit : f.Fits) (howned : c.owned = decide (dir = .imported)) (hcore : c.host.core = some core)
    (replies : Replies raw owners room dir f impl (receivedAll owners scope.args) core)
    (hargs : FieldsAdmit raw owners f.params scope.args) (ready : p.Ready)
    (passes : p.machine.world.Passes owners [] (handlesAll scope.args + room))
    (hborrowed : p.machine.borrowed = []) (hscratch : p.machine.scratch = []) :
    (Code.call raw { dir, mode := .lowerArgs } f).Runs (Excused owners) c scope p fun _ q =>
      CallerEnds raw owners dir f impl (receivedAll owners scope.args) p.machine
        q.machine := by
  refine (lowerArgs_runs (g := { dir, mode := .lowerArgs }) hraw hp.params hfit hargs ready
    passes).bind ?_
  rintro ⟨args, provided⟩ q1 h1 ⟨xs, area, o, hregs, hprovided, outlay, offer⟩
  refine (callCore_runs hcore hregs
    (Q := fun returned w => ∃ rs o', Replied raw owners dir f impl
      (receivedAll owners scope.args) (o.blocks ++ f.paramBlocks xs) area rs returned o'
      q1.machine.world w ∧ w.crossing.returned = some returned) ?_).bind ?_
  · intro w memory allocator table notes
    refine (replies xs area o w (offer.of_eq memory allocator table)).imp ?_
    rintro returned w' ⟨rs, o', replied, kept⟩
    refine ⟨replied.answered.results.length_eq, rs, o', { replied with
      balances := fun live => ?_
      notes := fun strict => ?_ }, kept⟩
    · exact (World.Balances.idle offer.ready allocator _).trans (replied.balances live)
    · exact notes.trans (replied.notes strict)
  rintro regs q2 h2 ⟨returned, hreturned, resumed, rs, o', replied, kept⟩
  have hprovided2 : Option.Rel (fun r ptr => q2.Holds r (.ofU32 ptr)) provided area := by
    cases hprovided with
    | none => exact .none
    | some holds => exact .some (holds.extend h2)
  refine (liftResults_runs (g := { dir, mode := .lowerArgs }) hp.results replied.answered
    hreturned hprovided2 offer.provides).imp ?_
  rintro _ q3 _ ⟨results, lifted⟩
  obtain ⟨ready3, _⟩ := lifted.ready replied.answered.ready
  refine ⟨area, rs, returned, o', results, {
    answers := replied.answers
    admits := replied.admits
    ready := ready3
    passed := lifted.memory ▸ replied.answered.results
    balances := ?_
    notes := fun strict => ?_
    seen := fun strict => ?_
    kept := ?_ }⟩
  · intro live
    have borrowed := outlay.borrowed
    have scratch := outlay.scratch
    have asked := outlay.balances live
    rw [Generator.loweringAllocator_isEmpty, hborrowed, ← resumed.borrowed, ← lifted.borrowed,
      append_nil] at borrowed
    rw [hscratch, ← resumed.scratch, ← lifted.scratch, append_nil] at scratch
    rw [howned] at lifted
    cases dir with
    | imported =>
      -- The arguments stay in use until the run ends; the results are taken and given back.
      have answered := replied.balances
        (o.blocks ++ (f.paramBlocks xs ++ f.resultBlocks area ++ live))
      rw [FunctionShape.returnBlocks_imported, nil_append] at answered
      have taken := World.Balances.lifted lifted
        (o.blocks ++ (f.paramBlocks xs ++ f.resultBlocks area ++ live))
      have borrowed : q3.machine.borrowed.Perm o.blocks := borrowed
      have scratch : q3.machine.scratch = f.resultBlocks area ++ f.paramBlocks xs := scratch
      refine (asked.trans (answered.trans taken)).perm_right (Perm.filter _ ?_)
      rw [if_neg (by decide), if_pos rfl, scratch, nil_append,
        append_assoc q3.machine.borrowed]
      exact borrowed.symm.append (perm_append_comm.append_right live)
    | exported =>
      -- The arguments were handed over; the results stay in use.
      have read := World.Balances.read lifted
        (o'.blocks ++ (f.returnBlocks .exported returned ++ live))
      have borrowed : q3.machine.borrowed = [] := borrowed.eq_nil
      have unprovided : f.resultBlocks area = [] := by
        have provides := offer.provides
        cases area with
        | none => rfl
        | some ptr => simp at provides
      rw [unprovided, append_nil, ← append_assoc] at asked
      refine (asked.trans ((replied.balances live).trans read)).perm_right ?_
      rw [if_pos rfl, if_neg (by decide), borrowed, append_assoc]
      exact .refl _
  · have first : p.machine.world.Notes 0 q1.machine.world := .of_eq outlay.log
    exact (first.trans (replied.notes strict)).trans (.of_eq lifted.log)
  · rw [lifted.crossing]
    exact replied.seen strict
  · rw [lifted.crossing]
    exact kept

theorem caller_does (hraw : ∀ e, raw e = true → isByte e = true) (hp : f.Passable)
    (hfit : f.Fits) {args : List Value}
    (replies : Replies raw owners room dir f impl (receivedAll owners args) core)
    (hargs : FieldsAdmit raw owners f.params args) (ready : w.Ready)
    (passes : w.Passes owners [] (handlesAll args + room)) :
    Does (Excused owners)
      (((Code.call raw { dir, mode := .lowerArgs } f).program f dir .lowerArgs).run
        { core := some core } args) w fun results w' => ∃ area rs returned o,
          (owners.isSome → results = receivedAll owners rs)
            ∧ Completed raw owners dir f impl (receivedAll owners args) [] area rs returned o
              w w' := by
  let program := (Code.call raw { dir, mode := .lowerArgs } f).program f dir .lowerArgs
  let start := program.startOn args.length w
  have owned : program.ownsLifted = decide (dir = .imported) := by cases dir <;> rfl
  have runs : Does (Excused owners) (program.run { core := some core } args) w
      fun results w' => ∃ m,
        CallerEnds raw owners dir f impl (receivedAll owners args) start m
          ∧ results = m.results ∧ Cleaned dir m m.world w' :=
    run_does (caller_runs (p := ⟨0, start⟩) hraw hp hfit owned rfl replies hargs ready passes
      rfl rfl)
  refine runs.imp ?_
  rintro _ w' ⟨m, ⟨area, rs, returned, o, results, completed⟩, rfl, cleaned⟩
  refine ⟨area, rs, returned, o, results, {
    answers := completed.answers
    admits := completed.admits
    ready := (cleaned.ready completed.ready).1
    passed := cleaned.memory ▸ completed.passed
    balances := fun live => ?_
    notes := fun strict => ?_
    seen := fun strict => ?_
    kept := ?_ }⟩
  · let left := if dir = .exported then o.blocks ++ f.returnBlocks dir returned else []
    have freed := cleaned.balances completed.ready (left ++ live)
    refine (World.Balances.idle ready rfl live).trans ((completed.balances live).trans
      (freed.perm_left (Perm.filter _ ?_)))
    rw [← append_assoc]
    exact perm_append_comm_assoc ..
  · have begins : w.Notes 0 start.world := .of_entry rfl rfl
    exact (begins.trans (completed.notes strict)).trans cleaned.notes
  · rw [cleaned.crossing]
    exact completed.seen strict
  · rw [cleaned.crossing]
    exact completed.kept

end Caller

/-! ## Whole calls -/

section Whole

variable {raw : RawRule} {owners : Option HandleTable} {room : Nat}
  (hraw : ∀ e, raw e = true → isByte e = true) {g : Graph} (hg : g.Acyclic) {f : Function}
  (hf : validate g (some f) = []) (hfit : (g.shapes.function f).Fits)
  {impl : FunctionShape → List Value → Action α (List Value)}

include hraw hg hf hfit

theorem callThrough_does (dir : Direction)
    (hb : owners.isSome → AllBorrowless (g.shapes.function f).results) {args : List Value}
    (hargs : FieldsAdmit raw owners (g.shapes.function f).params args)
    (serves : Serves raw owners room (g.shapes.function f) impl (receivedAll owners args))
    (ready : w.Ready)
    (passes : w.Passes owners [] (handlesAll args + room)) :
    Does (Excused owners) (callThrough dir raw (.ofGraph g (some f)) (some impl) args) w
      fun results w' => ∃ area rs returned o,
        (owners.isSome → results = receivedAll owners rs)
          ∧ Completed raw owners dir (g.shapes.function f) impl (receivedAll owners args) []
            area rs returned o
            { w with log := (compile dir .liftArgs raw (.ofGraph g (some f))).2
              ++ ((compile dir .lowerArgs raw (.ofGraph g (some f))).2 ++ w.log) } w' := by
  have hp := passable_of_validate hg hf
  rw [callThrough]
  simp only [Action.ofLogged, Action.notes, compile_eq raw hg hf, Action.ofExcept, bind_assoc,
    pure_bind]
  refine Does.after (runFrom_modify _ _) (Does.after (runFrom_modify _ _) ?_)
  refine caller_does hraw hp hfit ?_ hargs ready passes
  exact fun xs area o w offer => callee_does hraw hp hfit hb serves offer _

omit hraw hfit in
theorem freeResults_does {E : Failure → Prop} {area : Option UInt32} {returned : List UInt64}
    {rs : List Value} {o : Assets} (ready : w.Ready)
    (passed : ResultsAt raw w.memory .exported (g.shapes.function f) area returned rs o) :
    Does E (freeResults raw (.ofGraph g (some f)) returned) w fun _ w' =>
      ∀ live, w.Balances (o.blocks ++ live) w' live := by
  let program :=
    (Code.postReturn (g.shapes.function f)).program (g.shapes.function f) .exported .liftArgs
  rw [freeResults]
  simp only [Action.ofLogged, Action.notes, compilePostReturn_eq raw hg hf, Action.ofExcept,
    bind_assoc, pure_bind]
  refine Does.after (runFrom_modify _ _) ?_
  let w1 : World α :=
    { w with log := (compilePostReturn raw (.ofGraph g (some f))).2 ++ w.log }
  let start := program.startOn (ofCore returned).length w1
  have runs : Does E (program.run {} (ofCore returned)) w1 fun results w' => ∃ m,
      Lifted true o.blocks start m ∧ results = m.results ∧ Cleaned .exported m m.world w' :=
    run_does (postReturn_runs (p := ⟨0, start⟩) (passable_of_validate hg hf).results ready
      passed rfl)
  refine runs.imp ?_
  rintro _ w' ⟨m, lifted, rfl, cleaned⟩ live
  have cleaned := cleaned.balances (lifted.ready ready).1 live
  rw [lifted.borrowed] at cleaned
  exact (World.Balances.idle ready rfl _).trans ((World.Balances.lifted lifted live).trans cleaned)

end Whole

/-! ## A call of a small interface -/

namespace Postbox

def letter : Value := .case 1 (.list [.string [65, 100, 97], .bytes [1, 2], .f32 0])

def args : List Value := [.own 7, letter]

def answer (_ : FunctionShape) (_ : List Value) : Action α (List Value) := return [letter]

theorem admits_letter (owners : Option HandleTable) :
    FieldsAdmit isByte owners (graph.shapes.function swap).results [letter] := by
  have valid : Text.Utf8.isValid [65, 100, 97] = true := by
    simp [Text.Utf8.isValid, Text.Utf8.next, Text.Utf8.charAtLeast, Nat.isValidChar]
  exact ⟨⟨1, _, rfl, by decide, _, rfl, ⟨_, rfl, valid, by decide⟩, ⟨_, rfl, by decide⟩, trivial,
    trivial⟩, trivial⟩

theorem admits_args (owners : Option HandleTable) :
    FieldsAdmit isByte owners (graph.shapes.function swap).params args :=
  ⟨⟨7, rfl⟩, admits_letter owners⟩

theorem over_start : (Bump.ofRange 0 256).Over (Memory.zeros 256).size := by
  rw [Memory.zeros, Memory.size, Array.size_replicate]
  constructor <;> decide

end Postbox

end CanonicalAbi
