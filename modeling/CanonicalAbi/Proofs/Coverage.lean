import CanonicalAbi.Proofs.Accesses
import CanonicalAbi.Proofs.Recordings

/-!
# Loads of what was stored

Which places of memory a stored value takes depends on the cases of the sums in it and on the
lengths of its lists. For one such choice, the places that are loaded when the value is read or
freed are among those that are stored when it is written, element by element also in its lists.
-/

namespace CanonicalAbi

open List Instr

variable {ns : List Nat} {n : Nat} {α : Type} {l : Label} {i : Instr} {s : Shape}
  {payloads : Parts} {xs : List α}

/-! ## Paths -/

/-- What happens on a path through some steps: the places that are touched outside the blocks of
lists, and what happens to each element of each list, unless the list is moved as bytes. -/
inductive Trace where
  | mk (places : List Access) (lists : List (Option (List Trace)))

namespace Trace

def places : Trace → List Access
  | mk places _ => places

def lists : Trace → List (Option (List Trace))
  | mk _ lists => lists

def empty : Trace := ⟨[], []⟩

def one (a : Access) : Trace := ⟨[a], []⟩

instance : Inhabited Trace := ⟨empty⟩

instance : Append Trace := ⟨fun t u => ⟨t.places ++ u.places, t.lists ++ u.lists⟩⟩

theorem empty_append (t : Trace) : empty ++ t = t := by
  cases t
  rfl

theorem append_empty (t : Trace) : t ++ empty = t := by
  cases t
  exact congrArg₂ mk (append_nil _) (append_nil _)

theorem append_assoc (t u v : Trace) : t ++ u ++ v = t ++ (u ++ v) :=
  congrArg₂ mk (List.append_assoc _ _ _) (List.append_assoc _ _ _)

mutual

/-- The places of the one trace are among those of the other, outside of lists and for each element
of each list. -/
inductive Within : Trace → Trace → Prop where
  | mk {places places' : List Access} {lists lists' : List (Option (List Trace))} :
    places ⊆ places' → Forall₂ ElementsWithin lists lists' →
      Within ⟨places, lists⟩ ⟨places', lists'⟩

/-- As `Within`, for the elements of a list; `none` are moved as bytes. -/
inductive ElementsWithin : Option (List Trace) → Option (List Trace) → Prop where
  | bytes (elements : Option (List Trace)) : ElementsWithin elements none
  | each {ts us : List Trace} : Forall₂ Within ts us → ElementsWithin (some ts) (some us)

end

theorem Within.append {t t' u u' : Trace} (h : t.Within t') (h' : u.Within u') :
    (t ++ u).Within (t' ++ u') := by
  obtain ⟨places, lists⟩ := h
  obtain ⟨places', lists'⟩ := h'
  refine ⟨append_subset.mpr ⟨?_, ?_⟩, rel_append lists lists'⟩
  · exact Subset.trans places (subset_append_left _ _)
  · exact Subset.trans places' (subset_append_right _ _)

theorem Within.of_subset {t u : Trace} (ht : t.lists = []) (hu : u.lists = [])
    (h : t.places ⊆ u.places) : t.Within u := by
  obtain ⟨places, lists⟩ := t
  obtain ⟨places', lists'⟩ := u
  obtain rfl : lists = [] := ht
  obtain rfl : lists' = [] := hu
  exact ⟨h, .nil⟩

theorem ElementsWithin.map {t u : α → Trace} (h : ∀ x ∈ xs, (t x).Within (u x)) :
    ElementsWithin (some (xs.map t)) (some (xs.map u)) := by
  refine .each ?_
  rw [forall₂_map_left_iff, forall₂_map_right_iff, forall₂_same]
  exact h

theorem empty_within {t : Trace} (h : t.lists = []) : empty.Within t := by
  obtain ⟨places, lists⟩ := t
  obtain rfl : lists = [] := h
  exact ⟨nil_subset _, .nil⟩

end Trace

/-- A walk through some steps, which follows decisions: the numbers of cases and the lengths of
lists, in the order in which they come up. -/
abbrev Walk := StateT (List Nat) Option

def Walk.decision : Walk Nat
  | [] => none
  | n :: ns => some (n, ns)

/-- Whether an instruction handles the elements of a list, by its block or as bytes. -/
def Instr.movesElements : Instr → Bool
  | lowerBytes _ _ _ | liftBytes _ _ | lowerList _ _ _ | liftList _ _ | freeList _ _ => true
  | _ => false

section Walk

variable (counts : Instr → Bool)

mutual

/-- Walks through steps and notes the places of the instructions that count. -/
def walk : List Step → Walk Trace
  | [] => return .empty
  | s :: ss => do
    let t ← walkStep s
    let u ← walk ss
    return t ++ u

def walkStep : Step → Walk Trace
  | .exec i _ _ blocks =>
    if i.ownsCases then do
      let n ← Walk.decision
      walkCase blocks n
    else if i.movesElements then do
      let n ← Walk.decision
      let elements ← walkElements blocks n
      return ⟨[], [elements]⟩
    else return ⟨if counts i then i.access?.toList else [], []⟩
  | .scratch _ _ _ => return .empty

def walkCase : List Block → Nat → Walk Trace
  | [], _ => failure
  | .mk steps _ :: _, 0 => walk steps
  | _ :: blocks, n + 1 => walkCase blocks n

/-- Walks through the block of a list once for each element. Elements that are moved as bytes have
no block. -/
def walkElements : List Block → Nat → Walk (Option (List Trace))
  | [], _ => return none
  | .mk steps _ :: _, n => some <$> (replicate n ()).mapM fun _ => walk steps

end

end Walk

/-! ## Choices -/

/-- The cases that a value has, and how many elements. -/
inductive Choice where
  | leaf
  | fields (choices : List Choice)
  | case (number : Nat) (payload : Choice)
  | elements (choices : List Choice)

mutual

/-- Whether a value of the shape can have these cases and lengths. -/
def Shape.Allows : Shape → Choice → Prop
  | .product _ _ fields, .fields choices => FieldsAllow fields choices
  | .sum _ _ payloads, .case number choice => CaseAllows payloads number choice
  | .list _ elem, .elements choices => ∀ choice ∈ choices, Allows? elem choice
  | .synonym _ target, choice => Allows? target choice
  | .scalar _, .leaf | .string, .leaf | .enum _ _, .leaf | .flags _ _, .leaf
  | .handle _ _ _, .leaf => True
  | _, _ => False

def Allows? : Option Shape → Choice → Prop
  | none, .leaf => True
  | none, _ => False
  | some s, choice => s.Allows choice

def FieldsAllow : Parts → List Choice → Prop
  | [], [] => True
  | f :: fields, choice :: choices => Allows? f choice ∧ FieldsAllow fields choices
  | _, _ => False

def CaseAllows : Parts → Nat → Choice → Prop
  | [], _, _ => False
  | p :: _, 0, choice => Allows? p choice
  | _ :: payloads, number + 1, choice => CaseAllows payloads number choice

end

/-- Which parts a walk visits, and the elements of which lists it enters. -/
structure Route where
  visits : Option Shape → Bool
  enters : Option Shape → Bool

/-- All parts are visited, but for elements that are moved as bytes. -/
def Route.whole (raw : RawRule) : Route := ⟨fun _ => true, fun elem => !raw elem⟩

def Route.owning : Route := ⟨ownsMemory?, ownsMemory?⟩

section Decisions

variable (route : Route)

mutual

/-- The decisions that come up on a route through a value, in order. -/
def Shape.decisions : Shape → Choice → List Nat
  | .product _ _ fields, .fields choices => fieldDecisions fields choices
  | .sum l form payloads, .case number choice =>
    if route.visits (some (.sum l form payloads)) then
      number :: caseDecisions payloads number choice
    else []
  | .list _ elem, .elements choices =>
    choices.length :: if route.enters elem then choices.flatMap (decisions? elem) else []
  | .synonym _ target, choice => decisions? target choice
  | _, _ => []

def decisions? : Option Shape → Choice → List Nat
  | none, _ => []
  | some s, choice => s.decisions choice

def fieldDecisions : Parts → List Choice → List Nat
  | f :: fields, choice :: choices =>
    (if route.visits f then decisions? f choice else []) ++ fieldDecisions fields choices
  | _, _ => []

def caseDecisions : Parts → Nat → Choice → List Nat
  | [], _, _ => []
  | p :: _, 0, choice => if route.visits p then decisions? p choice else []
  | _ :: payloads, number + 1, choice => caseDecisions payloads number choice

end

end Decisions

/-! ## Walking through code -/

namespace Code

variable {β γ : Type} {counts : Instr → Bool}

def Walks (counts : Instr → Bool) (code : Code β) (ns : List Nat) (t : Trace) : Prop :=
  ∀ k rest, (walk counts (code.run k).steps).run (ns ++ rest) = some (t, rest)

theorem walk_append (ss ts : List Step) :
    walk counts (ss ++ ts) = do
      let t ← walk counts ss
      let u ← walk counts ts
      return t ++ u := by
  induction ss with
  | nil => simp only [nil_append, walk, pure_bind, Trace.empty_append, bind_pure]
  | cons s ss ih => simp only [cons_append, walk, ih, bind_assoc, pure_bind, Trace.append_assoc]

theorem walk_singleton (s : Step) : walk counts [s] = walkStep counts s := by
  simp only [walk, pure_bind, Trace.append_empty, bind_pure]

theorem walkCase_eq {blocks : List Block} {b : Block} (h : blocks[n]? = some b) :
    walkCase counts blocks n = walk counts b.steps := by
  induction blocks generalizing n with
  | nil => simp at h
  | cons c blocks ih =>
    cases n with
    | zero =>
      obtain rfl : c = b := by simpa using h
      obtain ⟨steps, results⟩ := c
      rfl
    | succ n =>
      obtain ⟨steps, results⟩ := c
      exact ih (by simpa using h)

theorem mapM_walk_run {steps : List Step} {ns : α → List Nat} {t : α → Trace}
    (h : ∀ x ∈ xs, ∀ rest, (walk counts steps).run (ns x ++ rest) = some (t x, rest))
    (rest : List Nat) :
    ((replicate xs.length ()).mapM fun _ => walk counts steps).run (xs.flatMap ns ++ rest)
      = some (xs.map t, rest) := by
  induction xs with
  | nil => rfl
  | cons x xs ih =>
    have first := h x mem_cons_self (xs.flatMap ns ++ rest)
    have others := ih fun y hy => h y (mem_cons_of_mem _ hy)
    rw [length_cons, replicate_succ, mapM_cons, flatMap_cons, List.append_assoc,
      StateT.run_bind, first, Option.bind_eq_bind, Option.bind_some, StateT.run_bind, others]
    rfl

namespace Walks

theorem pure (v : β) : Walks counts (pure v) [] .empty := fun _ _ => rfl

variable {f : γ → Code β}

theorem bind {x : Code γ} {ns' : List Nat} {t u : Trace} (hx : Walks counts x ns t)
    (hf : ∀ k, Walks counts (f (x.run k).value) ns' u) :
    Walks counts (x >>= f) (ns ++ ns') (t ++ u) := by
  intro k rest
  rw [bind_steps, walk_append, StateT.run_bind, List.append_assoc, hx k, Option.bind_eq_bind,
    Option.bind_some, StateT.run_bind, hf k]
  rfl

theorem run {x : Code β} {t : Trace} (h : Walks counts x ns t) (k : Reg) :
    (walk counts (x.run k).steps).run ns = some (t, []) := by
  have walks := h k []
  rwa [append_nil] at walks

theorem next {x : Code γ} {t u : Trace} (hx : Walks counts x [] t)
    (hf : ∀ k, Walks counts (f (x.run k).value) ns u) : Walks counts (x >>= f) ns (t ++ u) :=
  hx.bind hf

theorem after {x : Code γ} {t : Trace} (hx : Walks counts x [] .empty)
    (hf : ∀ k, Walks counts (f (x.run k).value) ns t) : Walks counts (x >>= f) ns t := by
  have walks := hx.next hf
  rwa [Trace.empty_append] at walks

theorem before {x : Code γ} {t : Trace} (hx : Walks counts x ns t)
    (hf : ∀ k, Walks counts (f (x.run k).value) [] .empty) : Walks counts (x >>= f) ns t := by
  have walks := hx.bind hf
  rwa [append_nil, Trace.append_empty] at walks

section

variable (hcases : i.ownsCases = false) (helems : i.movesElements = false)
include hcases helems

theorem emit (args : List Reg) :
    Walks counts (emit i args) [] ⟨if counts i then i.access?.toList else [], []⟩ := by
  intro k rest
  change (walk counts [_]).run rest = _
  rw [walk_singleton, walkStep, hcases, helems]
  rfl

theorem quiet (haccess : i.access? = none) (args : List Reg) :
    Walks counts (Code.emit i args) [] .empty := by
  have walks : Walks counts (Code.emit i args) [] _ := emit hcases helems args
  simp only [haccess, Option.toList_none, ite_self] at walks
  exact walks

theorem emitOne (haccess : i.access? = none) (args : List Reg) :
    Walks counts (emitOne i args) [] .empty :=
  (quiet hcases helems haccess args).after fun _ => pure _

theorem emitNone (haccess : i.access? = none) (args : List Reg) :
    Walks counts (emitNone i args) [] .empty :=
  (quiet hcases helems haccess args).after fun _ => pure _

end

theorem store (op : StoreOp) (value addr : Reg) (offset : UInt32) :
    Walks isStore (store op value addr offset) [] (.one ⟨offset, op.width⟩) :=
  (emit (i := .store op offset) rfl rfl _).before fun _ => pure _

theorem load (op : LoadOp) (addr : Reg) (offset : UInt32) :
    Walks isLoad (load op addr offset) [] (.one ⟨offset, op.width⟩) :=
  (emit (i := .load op offset) rfl rfl _).before fun _ => pure _

theorem ownCases (hi : i.ownsCases = true) {bodies : List (Code (List Reg))}
    {body : Code (List Reg)} (hbody : bodies[n]? = some body) {t : Trace}
    (h : Walks counts body ns t) (args : List Reg) :
    Walks counts (Code.blocks bodies >>= own i args) (n :: ns) t := by
  intro k rest
  obtain ⟨k', _, _, hget⟩ := getElem?_blocks hbody k
  rw [bind_steps, steps_blocks]
  change (walk counts [_]).run (n :: (ns ++ rest)) = _
  rw [walk_singleton, walkStep, if_pos hi]
  change (walkCase counts _ n).run (ns ++ rest) = _
  rw [walkCase_eq hget]
  exact h k' rest

theorem ownElements (hcases : i.ownsCases = false) (hi : i.movesElements = true)
    {body : Code (List Reg)} {ns : α → List Nat} {t : α → Trace}
    (h : ∀ x ∈ xs, Walks counts body (ns x) (t x)) (args : List Reg) :
    Walks counts (do
      let b ← Code.block body
      own i args [b]) (xs.length :: xs.flatMap ns) ⟨[], [some (xs.map t)]⟩ := by
  intro k rest
  change (walk counts [_]).run (xs.length :: (xs.flatMap ns ++ rest)) = _
  rw [walk_singleton, walkStep, hcases, if_neg (by decide), if_pos hi]
  change ((walkElements counts [.mk (body.run k).steps (body.run k).value] xs.length).run
    (xs.flatMap ns ++ rest) >>= fun p => some (Trace.mk [] [p.1], p.2)) = _
  rw [walkElements, StateT.run_map, mapM_walk_run (fun x hx => h x hx k)]
  rfl

theorem ownBytes (hcases : i.ownsCases = false) (hi : i.movesElements = true) (args : List Reg)
    (n : Nat) : Walks counts (Code.emit i args) [n] ⟨[], [none]⟩ := by
  intro k rest
  change (walk counts [_]).run (n :: rest) = _
  rw [walk_singleton, walkStep, hcases, if_neg (by decide), if_pos hi]
  rfl

end Walks

/-! ## Stored, read and freed values -/

/-- On a choice, what is read and what is freed at an offset is among what is stored there. -/
structure Covered (raw : RawRule) (realloc : String) (s : Shape) (choice : Choice)
    (offset : UInt32) (stored : Trace) : Prop where
  write : ∀ r addr, Walks isStore (write raw realloc s r addr offset)
    (s.decisions (.whole raw) choice) stored
  read : ∃ t, (∀ addr, Walks isLoad (read raw s addr offset)
    (s.decisions (.whole raw) choice) t) ∧ t.Within stored
  free : ∃ t, (∀ addr, Walks isLoad (free s addr offset)
    (s.decisions .owning choice) t) ∧ t.Within stored
  plain : s.ownsMemory = false → stored.lists = []

variable {raw : RawRule} {realloc : String}

/-! ### Memory -/

theorem storePair_walks (pair : List Reg) (addr : Reg) (offset : UInt32) :
    Walks isStore (storePair pair addr offset) []
      (.one ⟨offset + 4, .u32⟩ ++ .one ⟨offset, .u32⟩) :=
  (Walks.store .i32 _ _ _).next fun _ => Walks.store .i32 _ _ _

theorem loadPair_walks (addr : Reg) (offset : UInt32) :
    Walks isLoad (loadPair addr offset) []
      (.one ⟨offset, .u32⟩ ++ .one ⟨offset + 4, .u32⟩) :=
  (Walks.load .i32 _ _).next fun _ => (Walks.load .i32 _ _).before fun _ => .pure _

theorem pair_within (offset : UInt32) :
    (Trace.one ⟨offset, .u32⟩ ++ .one ⟨offset + 4, .u32⟩).Within
      (.one ⟨offset + 4, .u32⟩ ++ .one ⟨offset, .u32⟩) := by
  refine .of_subset rfl rfl ?_
  change [_, _] ⊆ [_, _]
  simp

theorem lanes_walk (n : Nat) (offset : UInt32) : ∃ t : Trace, t.lists = []
    ∧ (∀ regs addr, regs.length = n → Walks isStore (storeLanes addr offset regs) [] t)
    ∧ ∀ addr, Walks isLoad (loadLanes addr offset n) [] t := by
  induction n generalizing offset with
  | zero =>
    refine ⟨.empty, rfl, fun regs addr hregs => ?_, fun addr => .pure _⟩
    obtain rfl := eq_nil_of_length_eq_zero hregs
    exact .pure _
  | succ n ih =>
    obtain ⟨t, lists, stores, loads⟩ := ih (offset + 4)
    refine ⟨Trace.one ⟨offset, .u32⟩ ++ t, lists, fun regs addr hregs => ?_, fun addr => ?_⟩
    · obtain ⟨lane, regs, rfl⟩ := exists_cons_of_length_eq_add_one hregs
      exact (Walks.store .i32 _ _ _).next fun _ => stores regs addr (by simpa using hregs)
    · exact (Walks.load .i32 _ _).next fun _ => (loads addr).before fun _ => .pure _

theorem flags_walk (count : Nat) (offset : UInt32) : ∃ t : Trace, t.lists = []
    ∧ (∀ regs addr, regs.length = (FlagsStorage.ofCount count).lanes →
      Walks isStore (storeFlags count regs addr offset) [] t)
    ∧ ∀ addr, Walks isLoad (loadFlags count addr offset) [] t := by
  by_cases wide : (FlagsStorage.ofCount count).unit = .u32
  · obtain ⟨t, lists, stores, loads⟩ := lanes_walk (FlagsStorage.ofCount count).lanes offset
    refine ⟨t, lists, fun regs addr hregs => ?_, fun addr => ?_⟩
    · rw [storeFlags, if_pos wide]
      exact stores regs addr hregs
    · rw [loadFlags, if_pos wide]
      exact loads addr
  · refine ⟨.one ⟨offset, (FlagsStorage.ofCount count).unit⟩, rfl, fun regs addr _ => ?_,
      fun addr => ?_⟩
    · have walks := Walks.store (FlagsStorage.ofCount count).unit.storeOp (regs.headD 0) addr offset
      rw [IntWidth.width_storeOp _ (unit_ne count)] at walks
      rw [storeFlags, if_neg wide]
      exact walks
    · have walks := Walks.load (FlagsStorage.ofCount count).unit.loadOp addr offset
      rw [IntWidth.width_loadOp _ (unit_ne count)] at walks
      rw [loadFlags, if_neg wide]
      exact walks.before fun _ => .pure _

theorem storeTag_walks (cases : Nat) (value addr : Reg) (offset : UInt32) :
    Walks isStore (store (tagWidth cases).storeOp value addr offset) []
      (.one ⟨offset, tagWidth cases⟩) := by
  have walks := Walks.store (tagWidth cases).storeOp value addr offset
  rwa [IntWidth.width_storeOp _ (tagWidth_ne cases)] at walks

theorem loadTag_walks (cases : Nat) (addr : Reg) (offset : UInt32) :
    Walks isLoad (load (tagWidth cases).loadOp addr offset) []
      (.one ⟨offset, tagWidth cases⟩) := by
  have walks := Walks.load (tagWidth cases).loadOp addr offset
  rwa [IntWidth.width_loadOp _ (tagWidth_ne cases)] at walks

/-! ### Parts -/

variable {choice : Choice}

theorem Covered.of_plain {offset : UInt32} {t : Trace}
    (nothing : ∀ route, s.decisions route choice = []) (lists : t.lists = [])
    (hwrite : ∀ r addr, Walks isStore (Code.write raw realloc s r addr offset) [] t)
    (hread : ∀ addr, Walks isLoad (Code.read raw s addr offset) [] t)
    (hfree : ∀ addr, Code.free s addr offset = Pure.pure ()) :
    Covered raw realloc s choice offset t where
  write r addr := by
    rw [nothing]
    exact hwrite r addr
  read := by
    refine ⟨t, fun addr => ?_, .of_subset lists lists (Subset.refl _)⟩
    rw [nothing]
    exact hread addr
  free := by
    refine ⟨.empty, fun addr => ?_, Trace.empty_within lists⟩
    rw [nothing, hfree]
    exact .pure _
  plain _ := lists

/-- Values of a shape are covered at every offset, on every choice. -/
def Coverable (raw : RawRule) (realloc : String) (s : Shape) : Prop :=
  ∀ choice offset, s.Allows choice → ∃ stored, Covered raw realloc s choice offset stored

theorem Covered.freed {offset : UInt32} {stored : Trace}
    (h : Covered raw realloc s choice offset stored) :
    ∃ t, (∀ addr, Walks isLoad
        (if ownsMemory? (some s) then Code.free? (some s) addr offset else Pure.pure ())
        (if Route.owning.visits (some s) then decisions? .owning (some s) choice else []) t)
      ∧ t.Within stored := by
  change ∃ t, (∀ addr, Walks isLoad (if s.ownsMemory then Code.free s addr offset else _)
    (if s.ownsMemory then s.decisions .owning choice else []) t) ∧ _
  cases owns : s.ownsMemory with
  | true => exact h.free
  | false => exact ⟨.empty, fun _ => .pure _, Trace.empty_within (h.plain owns)⟩

variable {fields : Parts}

theorem fields_covered {choices : List Choice}
    {offsets : List UInt32} (hs : ∀ s, some s ∈ fields → Coverable raw realloc s)
    (passable : FieldsPassable fields) (allowed : FieldsAllow fields choices)
    (hlen : offsets.length = fields.length) (offset : UInt32) :
    ∃ stored : Trace,
      (∀ rs addr, rs.length = fields.length →
        Walks isStore (writeFields raw realloc fields rs offsets addr offset)
          (fieldDecisions (.whole raw) fields choices) stored)
      ∧ (∃ t, (∀ addr, Walks isLoad (readFields raw fields offsets addr offset)
          (fieldDecisions (.whole raw) fields choices) t) ∧ t.Within stored)
      ∧ (∃ t, (∀ addr, Walks isLoad (freeFields fields offsets addr offset)
          (fieldDecisions .owning fields choices) t) ∧ t.Within stored)
      ∧ (anyOwnsMemory fields = false → stored.lists = []) := by
  induction fields generalizing choices offsets with
  | nil =>
    refine ⟨.empty, fun rs addr _ => .pure _, ⟨.empty, fun _ => .pure _, Trace.empty_within rfl⟩,
      ⟨.empty, fun _ => .pure _, Trace.empty_within rfl⟩, fun _ => rfl⟩
  | cons f fields ih =>
    obtain ⟨s, rfl, _⟩ := passable?_iff.mp passable.1
    obtain ⟨o, offsets, rfl⟩ := exists_cons_of_length_eq_add_one hlen
    cases choices with
    | nil => exact allowed.elim
    | cons choice choices =>
      obtain ⟨first, covered⟩ := hs s mem_cons_self choice (offset + o) allowed.1
      obtain ⟨rest, write, ⟨r, read, rwithin⟩, ⟨u, free, uwithin⟩, plain⟩ :=
        ih (tail_parts hs) passable.2 allowed.2 (by simpa using hlen)
      obtain ⟨r', read', rwithin'⟩ := covered.read
      obtain ⟨u', free', uwithin'⟩ := covered.freed
      refine ⟨first ++ rest, fun rs addr hrs => ?_,
        ⟨r' ++ r, fun addr => ?_, rwithin'.append rwithin⟩,
        ⟨u' ++ u, fun addr => ?_, uwithin'.append uwithin⟩, fun owns => ?_⟩
      · obtain ⟨v, rs, rfl⟩ := exists_cons_of_length_eq_add_one hrs
        exact (covered.write v addr).bind fun _ => write rs addr (by simpa using hrs)
      · exact (read' addr).bind fun _ => (read addr).before fun _ => .pure _
      · have code : freeFields (some s :: fields) (o :: offsets) addr offset
            = (if ownsMemory? (some s) then Code.free? (some s) addr (offset + o) else Pure.pure ())
              >>= fun _ => freeFields fields offsets addr offset := by
          rw [freeFields]
          split <;> rfl
        rw [code]
        exact (free' addr).bind fun _ => free addr
      · simp only [anyOwnsMemory, Bool.or_eq_false_iff] at owns
        change first.lists ++ rest.lists = []
        rw [covered.plain owns.1, plain owns.2, append_nil]

/-! ### Sums -/

theorem CaseAllows.part (h : CaseAllows payloads n choice) :
    ∃ part, payloads[n]? = some part ∧ Allows? part choice ∧ ∀ route,
      caseDecisions route payloads n choice
        = if route.visits part then decisions? route part choice else [] := by
  induction payloads generalizing n with
  | nil => exact h.elim
  | cons p payloads ih =>
    cases n with
    | zero => exact ⟨p, rfl, h, fun _ => rfl⟩
    | succ n => exact ih h

theorem case_covered {part : Option Shape}
    (hs : ∀ s, part = some s → Coverable raw realloc s) (allowed : Allows? part choice)
    (cases : Nat) (offset start : UInt32) (n : Nat) :
    ∃ stored : Trace,
      (∀ addr, Walks isStore
        (writeCase raw realloc (tagWidth cases) addr offset start n part)
        (decisions? (.whole raw) part choice) (.one ⟨offset, tagWidth cases⟩ ++ stored))
      ∧ (∃ t, (∀ addr, Walks isLoad (readCase raw addr start part)
          (decisions? (.whole raw) part choice) t) ∧ t.Within stored)
      ∧ (∃ t, (∀ addr, Walks isLoad (freeCase addr start part)
          (if Route.owning.visits part then decisions? .owning part choice else []) t)
          ∧ t.Within stored)
      ∧ (ownsMemory? part = false → stored.lists = []) := by
  cases part with
  | none =>
    refine ⟨.empty, fun addr => ?_, ⟨.empty, fun _ => .pure _, Trace.empty_within rfl⟩,
      ⟨.empty, fun _ => .pure _, Trace.empty_within rfl⟩, fun _ => rfl⟩
    refine (Walks.emitOne rfl rfl rfl _).after fun _ =>
      (Walks.emitOne rfl rfl rfl _).after fun _ => ?_
    exact (storeTag_walks _ _ _ _).next fun _ => .pure _
  | some s =>
    obtain ⟨stored, covered⟩ := hs s rfl choice start allowed
    obtain ⟨r, read, rwithin⟩ := covered.read
    obtain ⟨u, free, uwithin⟩ := covered.freed
    refine ⟨stored, fun addr => ?_, ⟨r, fun addr => ?_, rwithin⟩, ⟨u, fun addr => ?_, uwithin⟩,
      covered.plain⟩
    · refine (Walks.emitOne rfl rfl rfl _).after fun _ =>
        (Walks.emitOne rfl rfl rfl _).after fun _ => ?_
      exact (storeTag_walks _ _ _ _).next fun _ => (covered.write _ _).before fun _ => .pure _
    · exact (read addr).before fun _ => .pure _
    · have code : freeCase addr start (some s)
          = (if ownsMemory? (some s) then Code.free? (some s) addr start else Pure.pure ())
            >>= fun _ => Pure.pure [] := by
        rw [freeCase]
        split <;> rfl
      rw [code]
      exact (free addr).before fun _ => .pure _

theorem sum_coverable {form : SumForm} (hs : ∀ s, some s ∈ payloads → Coverable raw realloc s) :
    Coverable raw realloc (.sum l form payloads) := by
  intro choice offset allowed
  cases choice with
  | case n choice =>
    obtain ⟨part, hpart, hallowed, hdecisions⟩ := CaseAllows.part allowed
    have mem : part ∈ payloads := mem_of_getElem? hpart
    obtain ⟨stored, write, ⟨r, read, rwithin⟩, ⟨u, free, uwithin⟩, plain⟩ :=
      case_covered (fun s e => hs s (e ▸ mem)) hallowed payloads.length offset
        (offset + placedPayload payloads) n
    have whole : (Shape.sum l form payloads).decisions (.whole raw) (.case n choice)
        = n :: decisions? (.whole raw) part choice := by
      rw [Shape.decisions, hdecisions]
      rfl
    have owning : (Shape.sum l form payloads).decisions .owning (.case n choice)
        = if anyOwnsMemory payloads then
            n :: if Route.owning.visits part then decisions? .owning part choice else []
          else [] := by
      rw [Shape.decisions, hdecisions]
      rfl
    have tag : (Trace.one ⟨offset, tagWidth payloads.length⟩).Within
        (.one ⟨offset, tagWidth payloads.length⟩) :=
      .of_subset rfl rfl (Subset.refl _)
    refine ⟨.one ⟨offset, tagWidth payloads.length⟩ ++ stored, fun _ addr => ?_,
      ⟨_, fun addr => ?_, tag.append rwithin⟩, ?_, fun owns => ?_⟩
    · rw [whole, Code.write, writeCases_eq, ← bind_assoc]
      refine Walks.before (.ownCases rfl ?_ (write addr) _) fun _ => .pure _
      rw [getElem?_mapIdx, hpart, Option.map_some, Nat.zero_add]
    · rw [whole, Code.read, readCases_eq]
      refine (loadTag_walks _ _ _).next fun _ => ?_
      rw [← bind_assoc]
      refine Walks.before (.ownCases rfl ?_ (read addr) _) fun _ => .pure _
      rw [getElem?_map, hpart, Option.map_some]
    · rw [owning]
      cases owns : anyOwnsMemory payloads with
      | false =>
        refine ⟨.empty, fun addr => ?_, Trace.empty_within
          (plain (ownsMemory?_eq_false_of_mem owns (mem_of_getElem? hpart)))⟩
        rw [Code.free, owns]
        exact .pure _
      | true =>
        refine ⟨_, fun addr => ?_, tag.append uwithin⟩
        rw [Code.free, owns, if_pos rfl, if_pos rfl, freeCases_eq]
        refine (loadTag_walks _ _ _).next fun _ => ?_
        rw [← bind_assoc]
        refine Walks.before (.ownCases rfl ?_ (free addr) _) fun _ => .pure _
        rw [getElem?_map, hpart, Option.map_some]
    · exact plain (ownsMemory?_eq_false_of_mem owns (mem_of_getElem? hpart))
  | _ => exact allowed.elim

/-! ### Lists -/

section Elements

variable {l : Label} {elem : Shape} {choices : List Choice} {t : Choice → Trace}

theorem list_decisions (h : raw (some elem) = true) :
    (Shape.list l (some elem)).decisions (.whole raw) (.elements choices) = [choices.length] := by
  simp [Shape.decisions, Route.whole, h]

theorem list_decisions_of_not (h : ¬ raw (some elem) = true) :
    (Shape.list l (some elem)).decisions (.whole raw) (.elements choices)
      = choices.length :: choices.flatMap (elem.decisions (.whole raw)) := by
  have enters : (Route.whole raw).enters (some elem) = true := by simpa [Route.whole] using h
  rw [Shape.decisions, if_pos enters]
  rfl

/-- What is known of the elements of a list from the way it is moved. -/
def elementTraces (raw : RawRule) (elem : Shape) (ts : List Trace) :
    Option (List Trace) :=
  if raw (some elem) then none else some ts

theorem elementTraces_within {t u : Choice → Trace} (h : ∀ c ∈ choices, (t c).Within (u c)) :
    Trace.ElementsWithin (elementTraces raw elem (choices.map t))
      (elementTraces raw elem (choices.map u)) := by
  rw [elementTraces, elementTraces]
  split
  · exact .bytes _
  · exact .map h

theorem map_within_elementTraces {t u : Choice → Trace} (h : ∀ c ∈ choices, (t c).Within (u c)) :
    Trace.ElementsWithin (some (choices.map t)) (elementTraces raw elem (choices.map u)) := by
  rw [elementTraces]
  split
  · exact .bytes _
  · exact .map h

theorem lowerList_walks (h : ∀ c ∈ choices, ∀ r addr,
      Walks isStore (write raw realloc elem r addr 0) (elem.decisions (.whole raw) c) (t c))
    (r : Reg) :
    Walks isStore (lowerList raw realloc l (some elem)
        (fun value addr => write? raw realloc (some elem) value addr 0) r)
      ((Shape.list l (some elem)).decisions (.whole raw) (.elements choices))
      ⟨[], [elementTraces raw elem (choices.map t)]⟩ := by
  rw [lowerList, elementTraces]
  split
  · next hraw =>
    rw [list_decisions hraw]
    exact .ownBytes rfl rfl _ _
  · next hraw =>
    rw [list_decisions_of_not hraw]
    refine Walks.ownElements (i := .lowerList l (some elem) realloc) rfl rfl (fun c hc => ?_) _
    refine (Walks.emitOne rfl rfl rfl _).after fun _ =>
      (Walks.emitOne rfl rfl rfl _).after fun _ => ?_
    exact (h c hc _ _).before fun _ => .pure _

theorem liftList_walks (h : ∀ c ∈ choices, ∀ addr,
      Walks isLoad (read raw elem addr 0) (elem.decisions (.whole raw) c) (t c))
    (pair : List Reg) :
    Walks isLoad (liftList raw l (some elem) (fun addr => read? raw (some elem) addr 0) pair)
      ((Shape.list l (some elem)).decisions (.whole raw) (.elements choices))
      ⟨[], [elementTraces raw elem (choices.map t)]⟩ := by
  rw [liftList, elementTraces]
  split
  · next hraw =>
    rw [list_decisions hraw]
    exact (Walks.ownBytes (i := .liftBytes l (some elem)) rfl rfl _ _).before fun _ => .pure _
  · next hraw =>
    rw [list_decisions_of_not hraw, ← bind_assoc]
    refine Walks.before (Walks.ownElements (i := .liftList l (some elem)) rfl rfl
      (fun c hc => ?_) _) fun _ => .pure _
    exact (Walks.emitOne rfl rfl rfl _).after fun _ => (h c hc _).before fun _ => .pure _

theorem freeList_walks (h : ∀ c ∈ choices, ∀ addr,
      Walks isLoad (free elem addr 0) (elem.decisions .owning c) (t c))
    (pair : List Reg) :
    Walks isLoad (do
        let body ← block do
          if ownsMemory? (some elem) then
            let base ← emitOne .iterBase []
            free? (some elem) base 0
          return []
        own (.freeList l (some elem)) pair [body])
      ((Shape.list l (some elem)).decisions .owning (.elements choices))
      ⟨[], [some (choices.map fun c => if elem.ownsMemory then t c else .empty)]⟩ := by
  have enters : Route.owning.enters (some elem) = elem.ownsMemory := rfl
  rw [Shape.decisions, enters, ownsMemory?]
  by_cases owns : elem.ownsMemory = true
  · simp only [if_pos owns]
    refine Walks.ownElements (i := .freeList l (some elem)) rfl rfl (fun c hc => ?_) _
    exact (Walks.emitOne rfl rfl rfl _).after fun _ => (h c hc _).before fun _ => .pure _
  · simp only [if_neg owns]
    have nothing : choices.flatMap (fun _ => ([] : List Nat)) = [] :=
      flatMap_eq_nil_iff.mpr fun _ _ => rfl
    rw [← nothing]
    exact Walks.ownElements (i := .freeList l (some elem)) rfl rfl (fun _ _ => .pure _) _

end Elements

theorem list_coverable {elem : Shape} (hs : Coverable raw realloc elem) :
    Coverable raw realloc (.list l (some elem)) := by
  intro choice offset allowed
  cases choice with
  | elements choices =>
    choose! stored covered using fun c hc => hs c 0 (allowed c hc)
    choose! r read rwithin using fun c hc => (covered c hc).read
    choose! u free uwithin using fun c hc => (covered c hc).free
    have both : ∀ {ls ls' : Option (List Trace)}, Trace.ElementsWithin ls ls' →
        (Trace.one ⟨offset, .u32⟩ ++ .one ⟨offset + 4, .u32⟩ ++ Trace.mk [] [ls]).Within
          (Trace.mk [] [ls'] ++ (.one ⟨offset + 4, .u32⟩ ++ .one ⟨offset, .u32⟩)) := by
      intro ls ls' h
      refine Trace.Within.mk ?_ (.cons h .nil)
      change [_, _] ⊆ [_, _]
      simp
    have freed : Trace.ElementsWithin
        (some (choices.map fun c => if elem.ownsMemory then u c else .empty))
        (elementTraces raw elem (choices.map stored)) := by
      refine map_within_elementTraces fun c hc => ?_
      split
      · exact uwithin c hc
      · next plain => exact Trace.empty_within ((covered c hc).plain (by simpa using plain))
    refine ⟨_, fun r addr => ?_, ⟨_, fun addr => ?_, both (elementTraces_within rwithin)⟩,
      ⟨_, fun addr => ?_, both freed⟩, nofun⟩
    · have walks := (lowerList_walks (l := l) (fun c hc => (covered c hc).write) r).bind
        (f := fun pair => storePair pair addr offset) fun _ => storePair_walks _ addr offset
      rwa [append_nil] at walks
    · exact (loadPair_walks addr offset).next fun _ => liftList_walks read _
    · refine (loadPair_walks addr offset).next fun _ => ?_
      exact (freeList_walks free _).before fun _ => .pure _
  | _ => exact allowed.elim

/-! ### All shapes -/

theorem string_coverable : Coverable raw realloc .string := by
  intro choice offset allowed
  cases choice with
  | leaf =>
    refine ⟨_, fun r addr => (Walks.quiet rfl rfl rfl _).after fun _ => storePair_walks _ _ _,
      ⟨_, fun addr => ?_, pair_within offset⟩, ⟨_, fun addr => ?_, pair_within offset⟩, nofun⟩
    · exact (loadPair_walks addr offset).before fun _ => .emitOne rfl rfl rfl _
    · exact (loadPair_walks addr offset).before fun _ => .emitNone rfl rfl rfl _
  | _ => exact allowed.elim

theorem product_coverable {form : ProductForm}
    (hs : ∀ s, some s ∈ fields → Coverable raw realloc s) (passable : FieldsPassable fields) :
    Coverable raw realloc (.product l form fields) := by
  intro choice offset allowed
  cases choice with
  | fields choices =>
    obtain ⟨stored, write, ⟨r, read, rwithin⟩, free, plain⟩ :=
      fields_covered hs passable allowed (length_placedOffsets fields) offset
    refine ⟨stored, fun v addr => ?_, ⟨r, fun addr => ?_, rwithin⟩, free, plain⟩
    · refine (Walks.quiet rfl rfl rfl _).after fun k => write _ addr ?_
      exact length_range'
    · exact (read addr).before fun _ => .emitOne rfl rfl rfl _
  | _ => exact allowed.elim

theorem coverable (h : s.Passable) : Coverable raw realloc s := by
  induction s with
  | scalar s =>
    intro choice offset allowed
    cases choice with
    | leaf =>
      refine ⟨.one ⟨offset, s.loadOp.width⟩, .of_plain (fun _ => rfl) rfl (fun r addr => ?_)
        (fun addr => ?_) fun _ => rfl⟩
      · have store := fun value => Walks.store s.storeOp value addr offset
        rw [Scalar.width_storeOp] at store
        exact (Walks.emitOne rfl rfl rfl _).after fun _ => store _
      · exact (Walks.load _ _ _).before fun _ => .emitOne rfl rfl rfl _
    | _ => exact allowed.elim
  | string => exact string_coverable
  | product l form fields ih =>
    refine product_coverable (fun s hs => ih s hs ?_) h
    exact fieldsPassable_iff.mp h (some s) hs
  | sum l form payloads ih =>
    exact sum_coverable fun s hs => ih s hs (payloadsPassable_iff.mp h s hs)
  | enum l cases =>
    intro choice offset allowed
    cases choice with
    | leaf =>
      refine ⟨.one ⟨offset, tagWidth cases⟩, .of_plain (fun _ => rfl) rfl (fun r addr => ?_)
        (fun addr => ?_) fun _ => rfl⟩
      · exact (Walks.emitOne rfl rfl rfl _).after fun _ => storeTag_walks _ _ _ _
      · exact (loadTag_walks _ _ _).before fun _ => .emitOne rfl rfl rfl _
    | _ => exact allowed.elim
  | flags l count =>
    intro choice offset allowed
    cases choice with
    | leaf =>
      obtain ⟨t, lists, stores, loads⟩ := flags_walk count offset
      refine ⟨t, .of_plain (fun _ => rfl) lists (fun r addr => ?_) (fun addr => ?_) fun _ => rfl⟩
      · exact (Walks.quiet rfl rfl rfl _).after fun k => stores _ addr length_range'
      · exact (loads addr).before fun _ => .emitOne rfl rfl rfl _
    | _ => exact allowed.elim
  | list l elem ih =>
    obtain ⟨e, rfl, he⟩ := passable?_iff.mp h
    exact list_coverable (ih e rfl he)
  | handle l form resource =>
    intro choice offset allowed
    cases choice with
    | leaf =>
      refine ⟨.one ⟨offset, .u32⟩, .of_plain (fun _ => rfl) rfl (fun r addr => ?_)
        (fun addr => ?_) fun _ => rfl⟩
      · exact (Walks.emitOne rfl rfl rfl _).after fun _ => Walks.store .i32 _ _ _
      · exact (Walks.load .i32 _ _).before fun _ => .emitOne rfl rfl rfl _
    | _ => exact allowed.elim
  | synonym l target ih =>
    obtain ⟨t, rfl, ht⟩ := passable?_iff.mp h
    intro choice offset allowed
    obtain ⟨stored, covered⟩ := ih t rfl ht choice offset allowed
    exact ⟨stored, covered.write, covered.read, covered.free, covered.plain⟩
  | channel | resource | unfinished => exact absurd h id

end Code

end CanonicalAbi
