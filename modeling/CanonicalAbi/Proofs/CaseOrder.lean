import CanonicalAbi.Proofs.Repertoire

/-!
# The order of cases

An instruction on a sum owns one block for each case. The blocks stand in the order of the cases, at
every depth of a program: the one at each place is written for the payload that the type has there,
and, where values are lowered, it makes the number of that place.
-/

namespace CanonicalAbi

/-! ## Blocks of cases -/

def Instr.ownsCases : Instr → Bool
  | lowerSum _ _ _ _ | liftSum _ _ _ | freeSum _ _ => true
  | _ => false

/-- The blocks that an instruction on a sum owns are those of its cases, in order. The cases are
those of the definition that the instruction names. -/
def CasesInOrder (raw : RawRule) (table : ShapeTable) (i : Instr)
    (blocks : List Block) : Prop :=
  i.ownsCases → ∃ l form payloads body, table.shape (.defn l.id) = .sum l form payloads
    ∧ CaseBody raw l form payloads i body ∧ blocks.length = payloads.length
    ∧ ∀ n part, payloads[n]? = some part →
      ∃ k, blocks[n]? = some ((Code.block (body n part)).run k).value

section Steps

variable (raw : RawRule) (table : ShapeTable)

mutual

/-- Whether the blocks of cases are in order in some steps, also in their blocks. -/
def StepsInOrder : List Step → Prop
  | [] => True
  | s :: ss => s.InOrder ∧ StepsInOrder ss

def Step.InOrder : Step → Prop
  | .exec i _ _ blocks => CasesInOrder raw table i blocks ∧ BlocksInOrder blocks
  | .scratch _ _ _ => True

def BlocksInOrder : List Block → Prop
  | [] => True
  | .mk steps _ :: blocks => StepsInOrder steps ∧ BlocksInOrder blocks

end

end Steps

variable {raw : RawRule} {table : ShapeTable}

mutual

theorem StepsAll.inOrder : {steps : List Step} → StepsAll (CasesInOrder raw table) steps →
    StepsInOrder raw table steps
  | [], _ => trivial
  | _ :: _, h => ⟨Step.All.inOrder h.1, StepsAll.inOrder h.2⟩

theorem Step.All.inOrder : {s : Step} → s.All (CasesInOrder raw table) → s.InOrder raw table
  | .exec _ _ _ _, h => ⟨h.1, BlocksAll.inOrder h.2⟩
  | .scratch _ _ _, _ => trivial

theorem BlocksAll.inOrder : {blocks : List Block} → BlocksAll (CasesInOrder raw table) blocks →
    BlocksInOrder raw table blocks
  | [], _ => trivial
  | .mk _ _ :: _, h => ⟨StepsAll.inOrder h.1, BlocksAll.inOrder h.2⟩

end

theorem Instr.casesInOrder {i : Instr} (h : i.ownsCases = false) (blocks : List Block) :
    CasesInOrder raw table i blocks := fun owns => absurd owns (by simp [h])

theorem Instr.Plain.ownsCases {way : Way} {i : Instr} (h : i.Plain raw way) :
    i.ownsCases = false := by
  cases way <;> cases i <;> first | rfl | exact h.elim

theorem Instr.OnList.ownsCases {l : Label} {elem : Option Shape} {way : Way} {i : Instr}
    (h : i.OnList l elem way) : i.ownsCases = false := by
  cases way with
  | lower => exact h.elim
  | store =>
    obtain ⟨_, rfl⟩ := h
    rfl
  | lift | free =>
    cases h
    rfl

/-- Code for the shapes of a graph has the blocks of cases in order, since the table knows each sum
by its label. -/
theorem Graph.casesInOrder {g : Graph} (hg : g.Acyclic) :
    Repertoire raw (fun s => ∃ t, g.shapes.shape t = s) fun _ => CasesInOrder raw g.shapes where
  part := by
    rintro _ part ⟨t, rfl⟩ hpart
    exact g.exists_shape_of_mem_parts hg hpart
  stored _ _ h := h
  plain _ _ h := Instr.casesInOrder h.ownsCases _
  castUp _ := Instr.casesInOrder rfl _
  castDown _ _ _ := Instr.casesInOrder rfl _
  list _ _ _ _ _ _ _ h := Instr.casesInOrder h.ownsCases _
  sum := by
    rintro _ i l form payloads body blocks ⟨t, ht⟩ hbody _ cases _
    have known : t = .defn l.id := Graph.shape_label hg (by rw [ht]; rfl)
    exact ⟨l, form, payloads, body, known ▸ ht, hbody, cases.1, cases.2⟩

/-! ## Calls -/

namespace Code

/-- Wherever the code branches, the cases are in order. -/
abbrev InOrder (raw : RawRule) (table : ShapeTable) {β : Type} (code : Code β) : Prop :=
  Uses (CasesInOrder raw table) code

/-- Whatever moves the shape, the cases are in order. -/
abbrev MovesInOrder (raw : RawRule) (table : ShapeTable) (s : Shape) : Prop :=
  MovesWith raw (fun _ => CasesInOrder raw table) s

section Single

variable {i : Instr} (h : i.ownsCases = false) (args : List Reg)
include h

theorem emitOne_inOrder : InOrder raw table (emitOne i args) :=
  .emitOne (Instr.casesInOrder h _) args

theorem emitNone_inOrder : InOrder raw table (emitNone i args) :=
  .emitNone (Instr.casesInOrder h _) args

end Single

theorem scratch_inOrder (size align : UInt32) : InOrder raw table (scratch size align) :=
  .scratch (Instr.casesInOrder rfl _)

section Call

variable {f : FunctionShape} (gen : Generator)

section

variable {parts : Parts} (hs : ∀ s, some s ∈ parts → MovesInOrder raw table s)
include hs

theorem lowerParams_inOrder (index : Nat) :
    InOrder raw table (lowerParams raw gen index parts) := by
  induction parts generalizing index with
  | nil => exact .pure _
  | cons part parts ih =>
    refine (emitOne_inOrder rfl _).bind fun _ => ?_
    refine (lower?_uses (head_part hs) _ _).bind fun _ => ?_
    exact (ih (tail_parts hs) _).bind fun _ => .pure _

theorem writeParams_inOrder (addr : Reg) (index : Nat) (offsets : List UInt32) :
    InOrder raw table (writeParams raw gen addr index parts offsets) := by
  induction parts generalizing index offsets with
  | nil => exact .pure _
  | cons part parts ih =>
    cases offsets with
    | nil => exact .pure _
    | cons o offsets =>
      refine (emitOne_inOrder rfl _).bind fun _ => ?_
      exact (write?_uses (head_part hs) _ _ _ _).bind fun _ => ih (tail_parts hs) _ _

end

theorem lowerArgs_inOrder (hs : ∀ s, some s ∈ f.params → MovesInOrder raw table s) :
    InOrder raw table (lowerArgs raw gen f) := by
  have pointer : InOrder raw table (paramPointer gen f) := by
    rw [paramPointer]
    split
    · exact scratch_inOrder _ _
    · exact emitOne_inOrder rfl _
  have values : InOrder raw table (lowerArgValues raw gen f) :=
    .ite (fun _ => pointer.bind fun _ => (writeParams_inOrder gen hs _ _ _).bind fun _ => .pure _)
      fun _ => lowerParams_inOrder gen hs _
  exact values.bind fun _ =>
    .ite (fun _ => (scratch_inOrder _ _).bind fun _ => .pure _) fun _ => .pure _

theorem liftResults_inOrder (hs : ∀ s, some s ∈ f.results → MovesInOrder raw table s)
    (provided : Option Reg) (returned : List Reg) :
    InOrder raw table (liftResults raw gen f provided returned) := by
  rw [liftResults]
  split
  · exact (readFields_uses hs _ _ _).bind fun _ => emitNone_inOrder rfl _
  · exact (liftFields_uses hs _).bind fun _ => emitNone_inOrder rfl _

theorem lowerResults_inOrder (hs : ∀ s, some s ∈ f.results → MovesInOrder raw table s)
    (values : List Reg) : InOrder raw table (lowerResults raw gen f values) := by
  rw [lowerResults]
  split
  · split
    · refine (emitOne_inOrder rfl _).bind fun _ => ?_
      exact (writeFields_uses hs _ _ _ _ _).bind fun _ => emitNone_inOrder rfl _
    · refine (scratch_inOrder _ _).bind fun _ => ?_
      exact (writeFields_uses hs _ _ _ _ _).bind fun _ => emitNone_inOrder rfl _
  · exact (lowerFields_uses hs _ _).bind fun _ => emitNone_inOrder rfl _

end Call

section OfGraph

variable {g : Graph}

theorem exists_shape_of_mem {types : List (Option TypeRef)} {s : Shape}
    (hs : some s ∈ types.map g.shapes.shape?) : ∃ t, g.shapes.shape t = s := by
  obtain ⟨_, _, shape⟩ := List.mem_map.mp hs
  exact g.shapes.exists_shape_of_shape? shape

variable (hg : g.Acyclic) (f : Function)
include hg

theorem call_inOrder (gen : Generator) (k : Reg) :
    StepsInOrder raw g.shapes ((call raw gen (g.shapes.function f)).run k).steps := by
  have rep : Repertoire raw _ _ := Graph.casesInOrder hg
  have moved : ∀ {types : List (Option TypeRef)} s, some s ∈ types.map g.shapes.shape? →
      MovesInOrder raw g.shapes s := fun s hs => moves rep (exists_shape_of_mem hs)
  have uses : InOrder raw g.shapes (call raw gen (g.shapes.function f)) := by
    rw [call]
    split
    · refine (lowerArgs_inOrder gen moved).bind fun _ => ?_
      refine (Uses.emit (Instr.casesInOrder rfl _) _).bind fun _ => ?_
      exact liftResults_inOrder gen moved _ _
    · refine (liftArgs_uses rep gen fun s hs => exists_shape_of_mem hs).bind fun _ => ?_
      refine (Uses.emit (Instr.casesInOrder rfl _) _).bind fun _ => ?_
      exact lowerResults_inOrder gen moved _
    · exact .pure _
  exact (uses k).inOrder

theorem postReturn_inOrder (k : Reg) :
    StepsInOrder raw g.shapes ((postReturn (g.shapes.function f)).run k).steps := by
  have moved : ∀ s, some s ∈ (g.shapes.function f).results → MovesInOrder raw g.shapes s :=
    fun s hs => moves (Graph.casesInOrder hg) (exists_shape_of_mem hs)
  have uses : InOrder raw g.shapes (postReturn (g.shapes.function f)) := by
    rw [postReturn]
    split
    · refine (emitOne_inOrder rfl _).bind fun _ => ?_
      exact (freeFields_uses moved _ _ _).bind fun _ => emitNone_inOrder rfl _
    · exact emitNone_inOrder rfl _
  exact (uses k).inOrder

end OfGraph

end Code

end CanonicalAbi
