import CanonicalAbi.Proofs.Programs
import CanonicalAbi.Stream.Listing

/-!
# Listings of programs

A listing is written line by line while a stream is made, and the program of the same stream is a
tree of blocks. Here the tree is printed: the blocks of a step in order before the step itself,
indented by their depth, with what they yield at their end.
-/

namespace CanonicalAbi

open List Listing

namespace Listing

/-! ## Printing a tree of blocks -/

def indented (depth : Nat) (s : String) : String := String.join (replicate depth "  ") ++ s

/-- How a register is shown where the first one is number `first`. -/
def valueName (first : Nat) (r : Reg) : String := "v" ++ toString (first + r)

/-- The words of the line that shows an instruction: the names of its results, its own name, its
attributes unless they have no text, and the names of its operands. -/
def words (first : Nat) (i : Instr) (outs args : List Reg) : List String :=
  (if outs = [] then [] else [commas (outs.map (valueName first)), "="])
    ++ ([i.name] ++ if " ".intercalate i.attributes = "" then [] else i.attributes)
    ++ if args = [] then [] else ["(" ++ commas (args.map (valueName first)) ++ ")"]

def yieldLines (first depth : Nat) (results : List Reg) : List String :=
  if results.isEmpty then []
  else [indented depth ("yield " ++ commas (results.map (valueName first)))]

mutual

def stepLines (first depth : Nat) : Step → List String
  | .exec i args outs blocks => blocksLines first depth blocks
      ++ [indented depth (" ".intercalate (words first i outs args))]
  | .scratch size align out =>
    [indented depth (valueName first out ++ " = return_pointer " ++ sizeAlign size align)]

def stepsLines (first depth : Nat) : List Step → List String
  | [] => []
  | s :: ss => stepLines first depth s ++ stepsLines first depth ss

/-- The lines of blocks one after another, each between braces and one level deeper. -/
def blocksLines (first depth : Nat) : List Block → List String
  | [] => []
  | .mk steps results :: blocks =>
    indented depth "block \x7b" :: (stepsLines first (depth + 1) steps
      ++ yieldLines first (depth + 1) results
      ++ indented depth "\x7d" :: blocksLines first depth blocks)

end

end Listing

def Program.lines (p : Program) : List String := stepsLines 0 0 p.body.steps

def Program.text (p : Program) : String := String.join (p.lines.map (· ++ "\n"))

/-! ## Listings of replayed steps -/

namespace Listing

/-- The names of the first `n` values. -/
def namesBelow (first n : Nat) : List String := (range n).map (valueName first)

/-- The listing with more lines, up to the value that follows `n` registers. -/
def extend (l : Listing) (lines : List String) (next : Nat) : Listing :=
  { l with lines := lines.reverse ++ l.lines, next }

theorem extend_extend (l : Listing) (lines more : List String) (m n : Nat) :
    (l.extend lines m).extend more n = l.extend (lines ++ more) n := by
  simp [extend]

theorem valueNames_eq (first k n : Nat) :
    valueNames (first + k) n = (range' k n).map (valueName first) := by
  simp [valueNames, valueName, range'_eq_map_range, Nat.add_assoc, Function.comp_def]

theorem namesBelow_append (first m n : Nat) :
    namesBelow first m ++ valueNames (first + m) n = namesBelow first (m + n) := by
  rw [valueNames_eq, namesBelow, ← map_append, range_append_range', namesBelow]

theorem named_namesBelow (first : Nat) {n : Nat} {regs : List Reg} (h : ∀ r ∈ regs, r < n) :
    Named (namesBelow first n) regs (regs.map (valueName first)) := by
  induction regs with
  | nil => exact .nil
  | cons r rs ih =>
    refine .cons ?_ (ih fun r' hr' => h r' (mem_cons_of_mem _ hr'))
    simp [namesBelow, h r mem_cons_self]

theorem intercalate_append {xs : List String} (h : xs ≠ []) (ys : List String) :
    " ".intercalate (xs ++ ys)
      = " ".intercalate xs ++ if ys = [] then "" else " " ++ " ".intercalate ys := by
  split
  · next none => simp [none]
  · next some => rw [String.intercalate_append_of_ne_nil h some, String.append_assoc]

theorem instrLine_eq (first : Nat) (i : Instr) (outs args : List Reg) :
    instrLine i (outs.map (valueName first)) (args.map (valueName first))
      = " ".intercalate (words first i outs args) := by
  have named : " ".intercalate ([i.name] ++ if " ".intercalate i.attributes = "" then []
      else i.attributes) = i.name ++ if (" ".intercalate i.attributes).isEmpty then ""
        else " " ++ " ".intercalate i.attributes := by
    rw [intercalate_append (by simp)]
    cases i.attributes <;> split_ifs <;> simp_all
  have opening (s : String) : " " ++ ("(" ++ s) = " (" ++ s := String.append_assoc.symm
  have equals (s : String) : " =" ++ (" " ++ s) = " = " ++ s := String.append_assoc.symm
  rw [words, intercalate_append (by simp)]
  cases outs with
  | nil =>
    rw [if_pos rfl, nil_append, named]
    cases args <;> simp [instrLine, opening, String.append_assoc]
  | cons out outs =>
    rw [intercalate_append (by simp), named]
    cases args <;> simp [instrLine, opening, equals, String.append_assoc]

theorem runFrom_issue (raw : RawRule) (first k : Nat) {l : Listing}
    (hl : l.next = first + k) (i : Instr) (args : List Reg) :
    runFrom ((backend raw).issue i (args.map (valueName first))) l
      = (.ok (valueNames (first + k) i.results),
          l.extend [indented l.depth (" ".intercalate (words first i (range' k i.results) args))]
            (first + (k + i.results))) := by
  have length : (valueNames (first + k) i.results).length = i.results := by simp [valueNames]
  rw [← instrLine_eq, ← valueNames_eq]
  simp only [runFrom, Backend.issue, backend, emit, hl, length, if_true]
  simp [extend, line, indented, Nat.add_assoc]

theorem closeBlock_eq (first : Nat) (l : Listing) (results : List Reg) (lines : List String)
    (next : Nat) :
    (l.openBlock.extend lines next).closeBlock (results.map (valueName first))
      = l.extend (indented l.depth "block \x7b" :: (lines ++ yieldLines first (l.depth + 1) results
          ++ [indented l.depth "\x7d"])) next := by
  by_cases none : results = []
  · simp [none, closeBlock, openBlock, extend, line, yieldLines, indented]
  · simp [none, closeBlock, openBlock, extend, line, yieldLines, indented]

end Listing

section Listed

variable (raw : RawRule) (first : Nat) {c : Contract}

mutual

theorem TypedSteps.listed {item : Item} {Γ Γ' : RegTypes} {steps : List Step} :
    TypedSteps c item Γ steps Γ' → ∀ l : Listing, l.next = first + Γ.length →
      runFrom ((backend raw).replay (namesBelow first Γ.length) steps) l
        = (.ok (namesBelow first Γ'.length),
            l.extend (stepsLines first l.depth steps) (first + Γ'.length))
  | .nil _ _, l, hl => by
    rw [← hl]
    rfl
  | @TypedSteps.exec _ _ _ Γ1 Γ' i args blocks steps _ outs _ hblocks hi hargs hrest, l, hl => by
    have hissue := runFrom_issue raw first Γ1.length
      (l := l.extend (blocksLines first l.depth blocks) (first + Γ1.length)) rfl i args
    have hnext := hrest.listed
      (l.extend (stepLines first l.depth
        (.exec i args (range' Γ1.length outs.length) blocks))
        (first + (Γ1.length + outs.length))) (by simp [extend])
    simp only [Backend.replay, Backend.replayStep, bind_assoc, pure_bind]
    rw [runFrom_bind_ok (hblocks.listed l hl),
      (named_namesBelow first hargs.lt_length).operandsOf_eq, runFrom_bind_ok hissue,
      ← hi.length_results, namesBelow_append, extend_extend]
    rw [extend_extend, length_append, length_map] at hnext
    exact hnext
  | @TypedSteps.scratch _ _ Γ Γ' size align steps hrest, l, hl => by
    have hnext := hrest.listed
      (l.extend (stepLines first l.depth (.scratch size align Γ.length))
        (first + (Γ.length + 1))) (by simp [extend])
    have hstep : runFrom ((backend raw).replayStep (namesBelow first Γ.length)
        (.scratch size align Γ.length)) l = (.ok (namesBelow first (Γ.length + 1)),
          l.extend (stepLines first l.depth (.scratch size align Γ.length))
            (first + (Γ.length + 1))) := by
      simp [runFrom, Backend.replayStep, backend, returnPointer, hl,
        namesBelow, range_succ, valueName, extend, stepLines,
        line, indented, Nat.add_assoc]
    simp only [Backend.replay]
    rw [runFrom_bind_ok hstep]
    rw [extend_extend, length_append, length_singleton] at hnext
    exact hnext

theorem TypedBlocks.listed {Γ Γ' : RegTypes} {blocks : List Block} {types : List BlockType} :
    TypedBlocks c Γ blocks types Γ' → ∀ l : Listing, l.next = first + Γ.length →
      runFrom ((backend raw).replayBlocks (namesBelow first Γ.length) blocks) l
        = (.ok (namesBelow first Γ'.length),
            l.extend (blocksLines first l.depth blocks) (first + Γ'.length))
  | .nil _, l, hl => by
    rw [← hl]
    rfl
  | @TypedBlocks.cons _ Γ made Γ' steps results blocks _ _ hsteps hresults hrest, l, hl => by
    have hbody := hsteps.listed l.openBlock hl
    have hclose := closeBlock_eq first l results
      (stepsLines first (l.depth + 1) steps) (first + (Γ ++ made).length)
    have hnext := hrest.listed
      (l.extend (indented l.depth "block \x7b"
          :: (stepsLines first (l.depth + 1) steps
            ++ yieldLines first (l.depth + 1) results
            ++ [indented l.depth "\x7d"])) (first + (Γ ++ made).length))
      (by simp [extend])
    simp only [Backend.replayBlocks]
    rw [runFrom_bind_ok (runFrom_modify _ _)]
    simp only [backend] at hbody hnext ⊢
    rw [runFrom_bind_ok hbody, (named_namesBelow first hresults.lt_length).operandsOf_eq,
      runFrom_bind_ok (runFrom_modify _ _)]
    rw [show l.openBlock.depth = l.depth + 1 from rfl, hclose]
    simpa [blocksLines, extend] using hnext

end

end Listed

/-! ## Braces -/

namespace Listing

def unindented (line : String) : List Char := line.toList.dropWhile (· = ' ')

def Opens (line : String) : Prop := unindented line = "block \x7b".toList

def Closes (line : String) : Prop := unindented line = "\x7d".toList

instance (line : String) : Decidable (Opens line) :=
  inferInstanceAs (Decidable (unindented line = _))

instance (line : String) : Decidable (Closes line) :=
  inferInstanceAs (Decidable (unindented line = _))

/-- The number of open blocks after some lines, if there are `depth` before them and no line closes
more than is open. -/
def depthAfter (depth : Nat) : List String → Option Nat
  | [] => some depth
  | line :: lines =>
    if Opens line then depthAfter (depth + 1) lines
    else if Closes line then if depth = 0 then none else depthAfter (depth - 1) lines
    else depthAfter depth lines

theorem depthAfter_append (depth : Nat) (lines more : List String) :
    depthAfter depth (lines ++ more)
      = (depthAfter depth lines).bind fun depth => depthAfter depth more := by
  induction lines generalizing depth with
  | nil => rfl
  | cons line lines ih =>
    simp only [cons_append, depthAfter]
    split
    · exact ih _
    · split
      · split
        · rfl
        · exact ih _
      · exact ih _

theorem unindented_indented (depth : Nat) (s : String) :
    unindented (indented depth s) = unindented s := by
  rw [unindented, indented, String.toList_append, String.toList_join]
  refine dropWhile_append_of_pos fun c hc => ?_
  obtain ⟨unit, hunit, hc⟩ := mem_flatMap.mp hc
  obtain rfl := eq_of_mem_replicate hunit
  simpa using hc

/-- The text begins neither with a blank nor as a line that opens or closes a block. -/
def startsPlain : List Char → Bool
  | [] => false
  | 'b' :: cs => cs.head?.any (· != 'l')
  | c :: _ => c != ' ' && c != '\x7d'

theorem startsPlain_append {cs : List Char} (h : startsPlain cs) (more : List Char) :
    startsPlain (cs ++ more) := by
  unfold startsPlain at h
  split at h
  · cases h
  · next cs =>
    cases cs with
    | nil => cases h
    | cons d cs => exact h
  · next c cs notB =>
    simp only [cons_append, startsPlain]
    exact h

theorem startsPlain_name (i : Instr) : startsPlain i.name.toList := by
  cases i with
  | load op offset => cases op <;> simp [Instr.name, LoadOp.name, startsPlain]
  | store op offset => cases op <;> simp [Instr.name, StoreOp.name, startsPlain]
  | lowerScalar s => cases s <;> simp [Instr.name, Instr.lowerName, startsPlain]
  | liftScalar s => cases s <;> simp [Instr.name, Instr.liftName, startsPlain]
  | lowerHandle form l r | liftHandle form l r => cases form <;> simp [Instr.name, startsPlain]
  | lowerProduct form l n | liftProduct form l n => cases form <;> simp [Instr.name, startsPlain]
  | lowerSum form l n rs => cases form <;> simp [Instr.name, startsPlain]
  | liftSum form l n => cases form <;> simp [Instr.name, startsPlain]
  | _ => simp [Instr.name, startsPlain]

theorem startsPlain_instrLine (i : Instr) (first : Nat) (outs : List Reg) (operands : List String) :
    startsPlain (instrLine i (outs.map (valueName first)) operands).toList := by
  cases outs with
  | nil =>
    simp only [instrLine, map_nil, isEmpty_nil, if_true, String.toList_append,
      append_assoc]
    exact startsPlain_append (startsPlain_name i) _
  | cons out outs =>
    have name : startsPlain (valueName first out).toList := by
      simp [valueName, String.toList_append, startsPlain]
    have head : ∃ more, (commas ((out :: outs).map (valueName first))).toList
        = (valueName first out).toList ++ more := by
      cases outs with
      | nil => exact ⟨[], by simp [commas]⟩
      | cons next outs =>
        refine ⟨(", " ++ commas ((next :: outs).map (valueName first))).toList, ?_⟩
        simp [commas]
    obtain ⟨more, head⟩ := head
    simp only [instrLine, map_cons, isEmpty_cons, Bool.false_eq_true, if_false,
      String.toList_append] at head ⊢
    rw [head]
    simp only [append_assoc]
    exact startsPlain_append name _

theorem depthAfter_plain {s : String} (h : startsPlain s.toList) (depth at' : Nat) :
    depthAfter depth [indented at' s] = some depth := by
  have kept : unindented s = s.toList := by
    rw [unindented]
    cases hs : s.toList with
    | nil => rfl
    | cons c cs =>
      have blank : c ≠ ' ' := by
        rintro rfl
        simp [hs, startsPlain] at h
      simp [blank]
  have notOpens : ¬ Opens (indented at' s) := by
    rw [Opens, unindented_indented, kept]
    intro eq
    rw [eq] at h
    simp [startsPlain] at h
  have notCloses : ¬ Closes (indented at' s) := by
    rw [Closes, unindented_indented, kept]
    intro eq
    rw [eq] at h
    simp [startsPlain] at h
  rw [depthAfter, if_neg notOpens, if_neg notCloses]
  rfl

theorem depthAfter_yieldLines (first level depth : Nat) (results : List Reg) :
    depthAfter depth (yieldLines first level results) = some depth := by
  rw [yieldLines]
  split
  · rfl
  · refine depthAfter_plain ?_ depth level
    simp [String.toList_append, startsPlain]

theorem depthAfter_open (level depth : Nat) (lines : List String) :
    depthAfter depth (indented level "block \x7b" :: lines) = depthAfter (depth + 1) lines := by
  have opens : Opens (indented level "block \x7b") := by
    rw [Opens, unindented_indented]
    simp [unindented]
  rw [depthAfter, if_pos opens]

theorem depthAfter_close (level depth : Nat) (lines : List String) :
    depthAfter (depth + 1) (indented level "\x7d" :: lines) = depthAfter depth lines := by
  have notOpens : ¬ Opens (indented level "\x7d") := by
    rw [Opens, unindented_indented]
    simp [unindented]
  have closes : Closes (indented level "\x7d") := by
    rw [Closes, unindented_indented]
    simp [unindented]
  rw [depthAfter, if_neg notOpens, if_pos closes, if_neg (Nat.succ_ne_zero depth),
    Nat.add_sub_cancel]

mutual

theorem depthAfter_stepLines (first level depth : Nat) :
    ∀ s : Step, depthAfter depth (stepLines first level s) = some depth
  | .exec i args outs blocks => by
    rw [stepLines, depthAfter_append, depthAfter_blocksLines first level depth blocks]
    rw [← instrLine_eq]
    exact depthAfter_plain (startsPlain_instrLine i first outs _) depth level
  | .scratch size align out => by
    refine depthAfter_plain ?_ depth level
    simp [valueName, String.toList_append, startsPlain]

theorem depthAfter_stepsLines (first level depth : Nat) :
    ∀ ss : List Step, depthAfter depth (stepsLines first level ss) = some depth
  | [] => rfl
  | s :: ss => by
    rw [stepsLines, depthAfter_append, depthAfter_stepLines first level depth s]
    exact depthAfter_stepsLines first level depth ss

theorem depthAfter_blocksLines (first level depth : Nat) :
    ∀ bs : List Block, depthAfter depth (blocksLines first level bs) = some depth
  | [] => rfl
  | .mk ss results :: bs => by
    rw [blocksLines, depthAfter_open, depthAfter_append, depthAfter_append,
      depthAfter_stepsLines first (level + 1) (depth + 1) ss, Option.bind_some,
      depthAfter_yieldLines, Option.bind_some, depthAfter_close]
    exact depthAfter_blocksLines first level depth bs

end

end Listing

/-! ## Listings and programs -/

namespace Program

/-- A listing that begins where `l` ended shows the program: its lines follow those of `l`, at the
depth of `l` and with the values numbered on from there. -/
def ListedAfter (p : Program) (l l' : Listing) : Prop :=
  l' = l.extend (stepsLines l.next l.depth p.body.steps) (l.next + p.registers)

def Balanced (p : Program) : Prop := depthAfter 0 p.lines = some 0

theorem balanced (p : Program) : p.Balanced := depthAfter_stepsLines 0 0 0 p.body.steps

theorem ListedAfter.text_eq {p : Program} {l : Listing} (h : p.ListedAfter .empty l) :
    l.text = p.text := by
  rw [h]
  simp [Listing.text, Listing.extend, Listing.empty, text, lines]

end Program

section Compile

variable (raw : RawRule) {g : Graph} (hg : g.Acyclic) {f : Function}
  (hf : validate g (some f) = [])

include hg hf

omit hg hf in
theorem Listing.answers : (backend raw).Answers :=
  fun i args l _ => ⟨(l.emit i args).1, (l.emit i args).2, rfl, by simp [emit, valueNames]⟩

theorem listed_call (dir : Direction) (mode : Mode) (l : Listing) :
    ∃ l' log, Generator.checked { dir, mode } (backend raw) (.ofGraph g (some f)) l
        = ⟨.ok (), l', log⟩
      ∧ ((Code.call raw { dir, mode } (g.shapes.function f)).program (g.shapes.function f) dir
          mode).ListedAfter l l' := by
  have hpass := passable_of_validate hg hf
  obtain ⟨⟨Γ, hsteps, hnext, _⟩, _⟩ := Code.call_reads raw { dir, mode } hpass
  have hcall := Gen.call_completes { dir, mode } (answers raw) hpass l
  have hrun := hsteps.listed raw l.next l rfl
  simp only [namesBelow, length_nil, range_zero, map_nil] at hrun
  rw [show (backend raw).movesRaw = raw from rfl, hrun] at hcall
  obtain ⟨log, hcall⟩ := hcall
  refine ⟨_, log, ?_, rfl⟩
  rw [Generator.checked_eq hf, hcall, hnext]
  rfl

theorem listed_postReturn (l : Listing) :
    ∃ l' log, Generator.checkedPostReturn (backend raw) "" (.ofGraph g (some f)) l
        = ⟨.ok (), l', log⟩
      ∧ ((Code.postReturn (g.shapes.function f)).program (g.shapes.function f) .exported
          .liftArgs).ListedAfter l l' := by
  have hpass := passable_of_validate hg hf
  obtain ⟨Γ, hsteps, hnext, _⟩ := Code.postReturn_hasType hpass
  have hpost := Gen.postReturn_completes { dir := .exported, mode := .liftArgs }
    (answers raw) rfl hpass l
  have hrun := hsteps.listed raw l.next l rfl
  simp only [namesBelow, length_nil, range_zero, map_nil] at hrun
  rw [hrun] at hpost
  obtain ⟨log, hpost⟩ := hpost
  refine ⟨_, log, ?_, rfl⟩
  rw [Generator.checkedPostReturn_eq hf, hpost, hnext]
  rfl

end Compile

/-- A text, and what is added to a listing, show a program: the text is the printed program, its
braces are balanced, and wherever a listing has got to, it goes on with the lines of the program and
comes back to the depth that it had. -/
structure Program.ShownBy (p : Program) (text : Except Failure String)
    (more : Listing → Checked Listing) : Prop where
  text : text = .ok p.text
  balanced : p.Balanced
  listed : ∀ l, (more l).result = .ok () ∧ p.ListedAfter l (more l).backend
  depth : ∀ l, (more l).backend.depth = l.depth

theorem Program.ShownBy.of_listed {p : Program} {more : Listing → Checked Listing}
    (h : ∀ l, ∃ l' log, more l = ⟨.ok (), l', log⟩ ∧ p.ListedAfter l l') :
    p.ShownBy ((more .empty).result.map fun _ => (more .empty).backend.text) more where
  text := by
    obtain ⟨l', log, eq, listed⟩ := h .empty
    rw [eq, ← listed.text_eq]
    rfl
  balanced := p.balanced
  listed l := by
    obtain ⟨l', log, eq, listed⟩ := h l
    rw [eq]
    exact ⟨rfl, listed⟩
  depth l := by
    obtain ⟨l', log, eq, listed⟩ := h l
    rw [eq, listed]
    rfl

/-- The listing of a validated function of an acyclic graph is its printed program, for both halves
of a call in both directions and for the function that frees the results of an export, whatever
lists are moved as bytes. -/
theorem listing_shows_program {g : Graph} (hg : g.Acyclic) {f : Function}
    (hf : validate g (some f) = []) (raw : RawRule) :
    (∀ dir mode, ∃ p, (Program.compile dir mode raw (.ofGraph g (some f))).1 = .ok p
      ∧ p.ShownBy (render { dir, mode } raw (.ofGraph g (some f))).1
          (Generator.checked { dir, mode } (Listing.backend raw) (.ofGraph g (some f))))
    ∧ ∃ p, (Program.compilePostReturn raw (.ofGraph g (some f))).1 = .ok p
      ∧ p.ShownBy (renderPostReturn "" raw (.ofGraph g (some f))).1
          (Generator.checkedPostReturn (Listing.backend raw) "" (.ofGraph g (some f))) :=
  ⟨fun dir mode => ⟨_, compile_eq raw hg hf dir mode, .of_listed (listed_call raw hg hf dir mode)⟩,
    _, compilePostReturn_eq raw hg hf, .of_listed (listed_postReturn raw hg hf)⟩

/-- The listings of swapping letters in a postbox show the programs. -/
theorem listing_shows_program_postbox :
    Postbox.graph.Acyclic ∧ validate Postbox.graph (some Postbox.swap) = []
    ∧ (∀ dir mode, ∃ p, (Program.compile dir mode Program.isByte Postbox.subject).1 = .ok p
      ∧ p.ShownBy (render { dir, mode } Program.isByte Postbox.subject).1
          (Generator.checked { dir, mode } (Listing.backend Program.isByte) Postbox.subject))
    ∧ ∃ p, (Program.compilePostReturn Program.isByte Postbox.subject).1 = .ok p
      ∧ p.ShownBy (renderPostReturn "" Program.isByte Postbox.subject).1
          (Generator.checkedPostReturn (Listing.backend Program.isByte) "" Postbox.subject) :=
  ⟨Postbox.acyclic, Postbox.validate_swap,
    listing_shows_program Postbox.acyclic Postbox.validate_swap Program.isByte⟩

end CanonicalAbi
