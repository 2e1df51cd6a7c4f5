import CanonicalAbi.Proofs.Coverage

/-!
# Memory use of generated code

The types whose values the generator can store are the passable ones. Main statement: the code that
it records to store, read and free such a value keeps to the layout of the type, and what it loads
was stored.
-/

namespace CanonicalAbi

variable {offset : UInt32} {fields : Parts}

namespace Gen

/-! ## What can be stored -/

section Gives

variable {σ ω α β : Type}

def Gives (work : Gen σ ω α) (v : α) : Prop := ∃ g g', runFrom work g = (.ok v, g')

theorem Gives.of_bind {x : Gen σ ω α} {f : α → Gen σ ω β} {v : β} (h : Gives (x >>= f) v) :
    ∃ u, Gives x u ∧ Gives (f u) v := by
  obtain ⟨g, g', run⟩ := h
  obtain ⟨u, t, first, rest⟩ := runFrom_bind_eq_ok.mp run
  exact ⟨u, ⟨g, t, first⟩, t, g', rest⟩

theorem not_gives_fail (f : Failure) (v : α) : ¬ Gives (fail f : Gen σ ω α) v := by
  rintro ⟨g, g', run⟩
  cases run

theorem Gives.ofExcept {e : Except Failure α} {v : α} (h : Gives (ofExcept e : Gen σ ω α) v) :
    e = .ok v := by
  cases e with
  | error f => exact absurd h (not_gives_fail f v)
  | ok u =>
    obtain ⟨g, g', run⟩ := h
    cases run
    rfl

theorem Gives.length_popN {n : Nat} {vs : List ω} (h : Gives (popN n : Gen σ ω (List ω)) vs) :
    vs.length = n := by
  obtain ⟨g, g', run⟩ := h
  rw [popN, runFrom_bind_ok (runFrom_get g), runFrom_ite] at run
  split at run
  · cases run
  · next deep =>
    split at run
    · cases run
    · cases run
      rw [List.length_reverse, List.length_take]
      omega

variable {b : Backend σ ω} {realloc : String}

theorem Gives.body {n : Nat} {body : Gen σ ω Unit} (h : Gives (block b n body) ()) :
    Gives body () := by
  obtain ⟨_, _, rest⟩ := h.of_bind
  obtain ⟨_, inner, _⟩ := rest.of_bind
  exact inner

def PassableIfStored (b : Backend σ ω) (realloc : String) (s : Shape) : Prop :=
  ∀ addr offset, Gives (write b realloc s addr offset) () → s.Passable

theorem passable?_of_write? {part : Option Shape}
    (hs : ∀ s, part = some s → PassableIfStored b realloc s) {addr : ω}
    (h : Gives (write? b realloc part addr offset) ()) : Passable? part := by
  cases part with
  | none => exact absurd h (not_gives_fail _ _)
  | some s => exact hs s rfl addr offset h

theorem fieldsPassable_of_writeFields (hs : ∀ s, some s ∈ fields → PassableIfStored b realloc s)
    {values : List ω} {offsets : List UInt32} (hvalues : values.length = fields.length)
    (hoffsets : offsets.length = fields.length) {addr : ω}
    (h : Gives (writeFields b realloc fields values offsets addr offset) ()) :
    FieldsPassable fields := by
  induction fields generalizing values offsets with
  | nil => trivial
  | cons f fields ih =>
    obtain ⟨v, values, rfl⟩ := List.exists_cons_of_length_eq_add_one hvalues
    obtain ⟨o, offsets, rfl⟩ := List.exists_cons_of_length_eq_add_one hoffsets
    obtain ⟨_, _, afterPush⟩ := h.of_bind
    obtain ⟨_, first, rest⟩ := afterPush.of_bind
    refine ⟨passable?_of_write? (head_part hs) first, ?_⟩
    exact ih (tail_parts hs) (by simpa using hvalues)
      (by simpa using hoffsets) rest

theorem payloadsPassable_of_writeCases {payloads : Parts}
    (hs : ∀ s, some s ∈ payloads → PassableIfStored b realloc s) {tag : IntWidth} {addr : ω}
    {start : UInt32} {index : Nat}
    (h : Gives (writeCases b realloc tag addr offset start index payloads) ()) :
    PayloadsPassable payloads := by
  induction payloads generalizing index with
  | nil => trivial
  | cons p payloads ih =>
    have parts : ∀ s, some s ∈ payloads → PassableIfStored b realloc s :=
      fun s m => hs s (List.mem_cons_of_mem _ m)
    cases p with
    | none =>
      obtain ⟨_, _, rest⟩ := h.of_bind
      exact ih parts rest
    | some p =>
      obtain ⟨_, first, rest⟩ := h.of_bind
      obtain ⟨_, _, first⟩ := first.body.of_bind
      obtain ⟨_, _, first⟩ := first.of_bind
      obtain ⟨_, _, first⟩ := first.of_bind
      obtain ⟨_, _, first⟩ := first.of_bind
      exact ⟨hs p List.mem_cons_self _ _ first, ih parts rest⟩

theorem length_fieldLayouts {layouts : List Layout} (h : fieldLayouts fields = .ok layouts) :
    layouts.length = fields.length := by
  induction fields generalizing layouts with
  | nil =>
    cases h
    rfl
  | cons f fields ih =>
    rw [fieldLayouts] at h
    cases first : optLayout f with
    | error failure => simp [first, bind, Except.bind] at h
    | ok layout =>
      cases rest : fieldLayouts fields with
      | error failure => simp [first, rest, bind, Except.bind] at h
      | ok others =>
        rw [first, rest] at h
        cases h
        exact congrArg (· + 1) (ih rest)

theorem length_fieldOffsets {offsets : List UInt32} (h : fieldOffsets fields = .ok offsets) :
    offsets.length = fields.length := by
  rw [fieldOffsets] at h
  cases layouts : fieldLayouts fields with
  | error failure => simp [layouts, bind, Except.bind] at h
  | ok places =>
    rw [layouts] at h
    cases h
    simp [Layout.product, length_placeFields, length_fieldLayouts layouts]

theorem passable_of_write (hraw : ∀ e, b.movesRaw e = true → Passable? e) (s : Shape) :
    PassableIfStored b realloc s := by
  induction s with
  | scalar | string | enum | flags | handle => exact fun _ _ _ => trivial
  | product l form fields ih =>
    intro addr offset h
    obtain ⟨_, _, h⟩ := h.of_bind
    obtain ⟨offsets, hoffsets, h⟩ := h.of_bind
    obtain ⟨values, hvalues, h⟩ := h.of_bind
    exact fieldsPassable_of_writeFields ih hvalues.length_popN
      (length_fieldOffsets hoffsets.ofExcept) h
  | sum l form payloads ih =>
    intro addr offset h
    obtain ⟨start, _, h⟩ := h.of_bind
    obtain ⟨_, cases, _⟩ := h.of_bind
    exact payloadsPassable_of_writeCases ih cases
  | list l elem ih =>
    intro addr offset h
    obtain ⟨_, list, _⟩ := h.of_bind
    rw [lowerList] at list
    split at list
    · next moved => exact hraw elem moved
    · obtain ⟨_, list, _⟩ := list.of_bind
      obtain ⟨_, _, list⟩ := list.body.of_bind
      obtain ⟨_, _, element⟩ := list.of_bind
      exact passable?_of_write? ih element
  | synonym l target ih => exact fun _ _ h => passable?_of_write? ih h
  | channel | resource | unfinished => exact fun _ _ h => absurd h (not_gives_fail _ _)

end Gives

/-- Values of the shape can be stored, element by element in their lists. -/
def CanStore (s : Shape) : Prop := ∃ realloc addr offset,
  Gives (write (Recording.backend fun _ => false) realloc s addr offset) ()

theorem CanStore.passable {s : Shape} (h : CanStore s) : s.Passable := by
  obtain ⟨realloc, addr, offset, stored⟩ := h
  exact passable_of_write (fun _ moved => absurd moved Bool.false_ne_true) s addr offset stored

/-! ## What is recorded -/

instance : Inhabited Contract := ⟨⟨[], [], ⟨"", [], []⟩, { params := [], results := [] }⟩⟩

/-- Generation on a recording that works at an address, on operands of some types, and succeeds with
steps of which `P` holds. -/
def EmitsAt (work : Reg → Gen Recording Reg Unit) (ins : List OperandType)
    (P : Reg → List Step → Prop) : Prop :=
  ∀ (Γ : RegTypes) (g : Generation Recording Reg) (addr : Reg) (args stk : List Reg),
    g.stack = args.reverse ++ stk → Typed Γ args ins → TypedReg Γ addr (.core .i32) →
    g.backend.registers = Γ.length → g.finished = 0 → Above g stk.length →
    ∃ steps results registers log, P addr steps ∧
      (work addr).run.run g = (.ok (), { g with
        stack := results ++ stk, backend := g.backend.extend steps registers, log })

variable (raw : RawRule) {P : Reg → List Step → Prop}

theorem EmitsAt.of_writes {β : Type} {work : Reg → Gen Recording Reg Unit} {ins : List OperandType}
    (code : List Reg → Reg → Code β) (R : Left Reg β Unit)
    (hwork : ∀ {Γ regs addr}, Typed Γ regs ins → TypedReg Γ addr (.core .i32) →
      Writes (Recording.backend raw) default .nothing (.ofTypes Γ) regs (work addr)
        (code regs addr) R)
    (h : ∀ regs addr k, P addr ((code regs addr).run k).steps) : EmitsAt work ins P := by
  intro Γ g addr args stk hstack hargs haddr hregs hfin habove
  obtain ⟨Γ', outs, log, _, _, _, hrun⟩ :=
    (hwork hargs haddr).recorded hstack hregs hfin habove
  exact ⟨_, outs.reverse, Γ'.length, log, h args addr Γ.length, hrun⟩

variable (realloc : String) {s : Shape} (hs : s.Passable) (offset : UInt32)
include hs

theorem write_emits
    (h : ∀ r addr k, P addr ((Code.write raw realloc s r addr offset).run k).steps) :
    EmitsAt (fun addr => write (Recording.backend raw) realloc s addr offset) [.of (some s)] P := by
  refine .of_writes raw (fun regs addr => Code.write raw realloc s (regs.headD 0) addr offset)
    .nothing (fun hargs haddr => ?_) fun _ => h _
  obtain ⟨r, _, rfl, hr, hnil⟩ := hargs.of_cons
  obtain rfl := hnil.of_nil
  exact (lowerWrites realloc hs).write offset hr.has haddr.has

theorem read_emits (h : ∀ addr k, P addr ((Code.read raw s addr offset).run k).steps) :
    EmitsAt (fun addr => read (Recording.backend raw) s addr offset) [] P := by
  refine .of_writes raw (fun _ addr => Code.read raw s addr offset) (.one (.of (some s)))
    (fun hargs haddr => ?_) fun _ => h
  obtain rfl := hargs.of_nil
  exact (liftWrites hs).read offset haddr.has

theorem free_emits (h : ∀ addr k, P addr ((Code.free s addr offset).run k).steps) :
    EmitsAt (fun addr => free (Recording.backend raw) s addr offset) [] P := by
  refine .of_writes raw (fun _ addr => Code.free s addr offset) .nothing
    (fun hargs haddr => ?_) fun _ => h
  obtain rfl := hargs.of_nil
  exact freeWrites hs offset haddr.has

omit hs in
theorem canStore_iff : CanStore s ↔ s.Passable := by
  refine ⟨CanStore.passable, fun hs => ?_⟩
  obtain ⟨_, _, _, _, _, run⟩ := write_emits (fun _ => false) "" hs 0
    (P := fun _ _ => True) (fun _ _ _ => trivial) [some (.of (some s)), some (.core .i32)]
    { backend := { Recording.empty with registers := 2 }, stack := [0] } 1 [0] [] rfl
    (Typed.one rfl) rfl rfl rfl nofun
  exact ⟨"", 1, 0, _, _, run⟩

end Gen

open Gen in
/-- Memory instructions respect the layout. Take a type whose values can be stored and whose exact
layout is below 2³² in all its parts, and an offset that is a multiple of its alignment, with room
behind it for its size. Storing, reading and freeing a value there records loads and stores inside
the memory that the layout gives to the value, at offsets that are multiples of their widths; in the
block of a list the same holds of the element. And on the path of every choice of cases and lengths,
what is read and what is freed was stored. -/
theorem memory_respects_layout {s : Shape} (hs : CanStore s) (hb : s.Bounded) {layout : Layout}
    (hlayout : s.layout = .ok layout) (offset : UInt32)
    (aligned : layout.align.toNat ∣ offset.toNat)
    (below : offset.toNat + layout.size.toNat < 2 ^ 32) (raw : RawRule)
    (realloc : String) :
    let stores := EmitsAt (fun addr => write (Recording.backend raw) realloc s addr offset)
      [.of (some s)]
    let reads := EmitsAt (fun addr => read (Recording.backend raw) s addr offset) []
    let frees := EmitsAt (fun addr => free (Recording.backend raw) s addr offset) []
    let inside := fun addr steps =>
      StepsStay steps ⟨addr, offset.toNat, offset.toNat + layout.size.toNat⟩
    (stores inside ∧ reads inside ∧ frees inside)
      ∧ ∀ choice, s.Allows choice → ∃ stored loaded freed,
        stores (fun _ steps => (walk Instr.isStore steps).run (s.decisions (.whole raw) choice)
          = some (stored, []))
        ∧ reads (fun _ steps => (walk Instr.isLoad steps).run (s.decisions (.whole raw) choice)
          = some (loaded, []))
        ∧ frees (fun _ steps => (walk Instr.isLoad steps).run (s.decisions .owning choice)
          = some (freed, []))
        ∧ loaded.Within stored ∧ freed.Within stored := by
  have passable := canStore_iff.mp hs
  obtain rfl : s.place = layout := by
    rw [Shape.layout_eq passable] at hlayout
    exact Except.ok.inj hlayout
  have exact := hb.place_exact
  have holds : ∀ addr, Area.Holds ⟨addr, offset.toNat, offset.toNat + s.place.size.toNat⟩ offset
      s.extent := by
    intro addr
    rw [exact.align] at aligned
    exact ⟨Nat.le_refl _, by rw [exact.size], below, aligned⟩
  have stays : Code.StaysInside raw s := Code.staysInside hb
  refine ⟨⟨?_, ?_, ?_⟩, fun choice allowed => ?_⟩
  · exact write_emits raw realloc passable offset fun r addr k =>
      stays.write (holds addr) realloc r k
  · exact read_emits raw passable offset fun addr k => stays.read (holds addr) k
  · exact free_emits raw passable offset fun addr k => stays.free (holds addr) k
  · obtain ⟨stored, covered⟩ := Code.coverable passable choice offset allowed
    obtain ⟨loaded, read, rwithin⟩ := covered.read
    obtain ⟨freed, free, uwithin⟩ := covered.free
    refine ⟨stored, loaded, freed, ?_, ?_, ?_, rwithin, uwithin⟩
    · exact write_emits raw realloc passable offset fun r addr k => (covered.write r addr).run k
    · exact read_emits raw passable offset fun addr k => (read addr).run k
    · exact free_emits raw passable offset fun addr k => (free addr).run k

/-- What is found in a box is stored behind eight other bytes. A letter with two pages is then read
and freed. -/
theorem memory_respects_layout_postbox :
    (Gen.CanStore Postbox.find ∧ Postbox.find.Bounded ∧ Postbox.find.layout = .ok Postbox.find.place
      ∧ Postbox.find.place.align.toNat ∣ (8 : UInt32).toNat
      ∧ (8 : UInt32).toNat + Postbox.find.place.size.toNat < 2 ^ 32
      ∧ Postbox.find.Allows (.case 1 (.fields [.leaf, .elements [.leaf, .leaf], .leaf])))
    ∧ Gen.EmitsAt
        (fun addr => Gen.write (Recording.backend Program.isByte) "" Postbox.find addr 8)
        [.of (some Postbox.find)] (fun addr steps => StepsStay steps ⟨addr, 8, 40⟩)
    ∧ ∃ stored loaded freed : Trace,
      Gen.EmitsAt (fun addr => Gen.write (Recording.backend Program.isByte) "" Postbox.find addr 8)
        [.of (some Postbox.find)] (fun _ steps => (walk Instr.isStore steps).run [1, 2]
          = some (stored, []))
      ∧ Gen.EmitsAt (fun addr => Gen.read (Recording.backend Program.isByte) Postbox.find addr 8) []
        (fun _ steps => (walk Instr.isLoad steps).run [1, 2] = some (loaded, []))
      ∧ Gen.EmitsAt (fun addr => Gen.free (Recording.backend Program.isByte) Postbox.find addr 8) []
        (fun _ steps => (walk Instr.isLoad steps).run [1, 2] = some (freed, []))
      ∧ loaded.Within stored ∧ freed.Within stored := by
  have passable : Postbox.find.Passable := ⟨⟨trivial, trivial, trivial, trivial⟩, trivial, trivial⟩
  have stored := Gen.canStore_iff.mpr passable
  have bounded : Postbox.find.Bounded := Postbox.measured_find.bounded Postbox.find rfl
  have pages : ∀ choice ∈ [Choice.leaf, .leaf], Allows? (some (.scalar .u8)) choice :=
    List.forall_mem_cons.mpr ⟨trivial, List.forall_mem_singleton.mpr trivial⟩
  have allowed : Postbox.find.Allows (.case 1 (.fields [.leaf, .elements [.leaf, .leaf], .leaf])) :=
    ⟨trivial, pages, trivial, trivial⟩
  obtain ⟨inside, paths⟩ := memory_respects_layout stored bounded (Shape.layout_eq passable) 8
    (by decide) (by decide) Program.isByte ""
  exact ⟨⟨stored, bounded, Shape.layout_eq passable, by decide, by decide, allowed⟩, inside.1,
    paths _ allowed⟩

end CanonicalAbi
