import CanonicalAbi.Proofs.Framing
import CanonicalAbi.Proofs.Passage

/-!
# Raw shapes

A shape is raw if any bytes in its place are a value of it: it is made of integers and floats only.
Reading such a value never fails.
-/

namespace CanonicalAbi

open List Memory Recording Shape Program

variable {offsets : List UInt32} {start stop : Nat} {a b x : UInt32} {source m : Memory}
  {fields : Parts} {s : Shape}

/-- A number of some bytes, loaded and lifted as an integer or a float, is lowered to a core value
with these bytes. -/
theorem Scalar.exists_value_of_raw {s : Scalar} (raw : (scalar s).isRaw = true) (n : UInt64) :
    ∃ v x, s.liftValue (s.loadOp.extend n) = .ok v ∧ s.lowerValue v = .ok (.u64 x)
      ∧ toBytes s.loadOp.width.size.toNat x = toBytes s.loadOp.width.size.toNat n := by
  have low8 : ∀ x y : UInt64, x.toUInt8 = y.toUInt8 → toBytes 1 x = toBytes 1 y :=
    fun x y same => congrArg (fun b => [b]) same
  have low16 : ∀ x y : UInt64, x.toUInt16 = y.toUInt16 → toBytes 2 x = toBytes 2 y :=
    fun x y same => toBytes_congr (by omega) (by simpa using congrArg UInt16.toNat same)
  have low32 : ∀ x y : UInt64, x.toUInt32 = y.toUInt32 → toBytes 4 x = toBytes 4 y :=
    fun x y same => toBytes_congr (by omega) (by simpa using congrArg UInt32.toNat same)
  cases s with
  | bool | char => simp [isRaw] at raw
  | u8 => exact ⟨_, _, rfl, rfl, low8 _ _ (UInt8.toUInt8_toUInt64 _)⟩
  | s8 =>
    exact ⟨_, _, rfl, rfl,
      low8 _ _ (congrArg Int8.toUInt8 ((toInt8_extend _).trans (toInt8_extend _)))⟩
  | u16 => exact ⟨_, _, rfl, rfl, low16 _ _ (UInt16.toUInt16_toUInt64 _)⟩
  | s16 =>
    exact ⟨_, _, rfl, rfl,
      low16 _ _ (congrArg Int16.toUInt16 ((toInt16_extend _).trans (toInt16_extend _)))⟩
  | u32 | s32 | f32 => exact ⟨_, _, rfl, rfl, low32 _ _ (UInt32.toUInt32_toUInt64 _)⟩
  | u64 | f64 => exact ⟨_, _, rfl, rfl, rfl⟩
  | s64 => exact ⟨_, _, rfl, rfl, by simp [loadOp, LoadOp.extend]⟩

/-! ## Values in memory -/

def Scalar.valueOf (s : Scalar) (n : UInt64) : Value :=
  (s.liftValue (s.loadOp.extend n)).toOption.getD .nothing

theorem Scalar.liftValue_of_raw {s : Scalar} (raw : (scalar s).isRaw = true) (n : UInt64) :
    s.liftValue (s.loadOp.extend n) = .ok (s.valueOf n) := by
  obtain ⟨v, _, lift, _⟩ := Scalar.exists_value_of_raw raw n
  rw [Scalar.valueOf, lift]
  rfl

theorem Scalar.lowerValue_of_raw {s : Scalar} (raw : (scalar s).isRaw = true) (n : UInt64) :
    ∃ x, s.lowerValue (s.valueOf n) = .ok (.u64 x)
      ∧ toBytes s.loadOp.width.size.toNat x = toBytes s.loadOp.width.size.toNat n := by
  obtain ⟨v, x, lift, lower, bytes⟩ := Scalar.exists_value_of_raw raw n
  rw [Scalar.liftValue_of_raw raw] at lift
  cases lift
  exact ⟨x, lower, bytes⟩

mutual

def Shape.valueAt (m : Memory) : Shape → UInt32 → Value
  | .scalar s, a => s.valueOf (toNumber (m.slice a.toNat s.loadOp.width.size.toNat))
  | .product _ _ fields, a => .list (valuesAt m fields (placedOffsets fields) a)
  | .synonym _ target, a => valueAt? m target a
  | _, _ => .nothing

def valueAt? (m : Memory) : Option Shape → UInt32 → Value
  | none, _ => .nothing
  | some s, a => s.valueAt m a

def valuesAt (m : Memory) : Parts → List UInt32 → UInt32 → List Value
  | f :: fields, o :: offsets, a => valueAt? m f (a + o) :: valuesAt m fields offsets a
  | _, _, _ => []

end

mutual

/-- Whether the byte at an offset belongs to a scalar of the shape, so that it is no padding. -/
def Shape.fills : Shape → Nat → Bool
  | .scalar s, k => k < s.loadOp.width.size.toNat
  | .product _ _ fields, k => fieldsFill fields (placedOffsets fields) k
  | .synonym _ target, k => fills? target k
  | _, _ => false

def fills? : Option Shape → Nat → Bool
  | none, _ => false
  | some s, k => s.fills k

def fieldsFill : Parts → List UInt32 → Nat → Bool
  | f :: fields, o :: offsets, k =>
    (o.toNat ≤ k && fills? f (k - o.toNat)) || fieldsFill fields offsets k
  | _, _, _ => false

end

theorem length_valuesAt (m : Memory) (h : offsets.length = fields.length) (a : UInt32) :
    (valuesAt m fields offsets a).length = fields.length := by
  induction fields generalizing offsets with
  | nil => rfl
  | cons f fields ih =>
    obtain ⟨o, offsets, rfl⟩ := exists_cons_of_length_eq_add_one h
    exact congrArg (· + 1) (ih (by simpa using h))

theorem isRaw_of_mem (h : areRaw fields = true) {f : Option Shape} (hf : f ∈ fields) :
    ∃ s, f = some s ∧ s.isRaw = true := by
  induction fields with
  | nil => cases hf
  | cons f' fields ih =>
    rw [areRaw, Bool.and_eq_true] at h
    rcases mem_cons.mp hf with rfl | hf
    · cases f with
      | none => cases h.1
      | some s => exact ⟨s, rfl, h.1⟩
    · exact ih h.2 hf

/-! ## Areas -/

namespace Memory

/-- The bytes at an address are in the memory, and no address wraps around. -/
def Spans (m : Memory) (a : UInt32) (n : Nat) : Prop :=
  n = 0 ∨ a.toNat + n ≤ m.size ∧ a.toNat + n ≤ 2 ^ 32

variable {m m' : Memory} {a b o : UInt32} {n k : Nat}

theorem Spans.of_size (h : a.toNat + n ≤ m.size) (size : m.size ≤ 2 ^ 32) : m.Spans a n :=
  .inr ⟨h, Nat.le_trans h size⟩

theorem Spans.congr (h : m.Spans a n) (size : m'.size = m.size) : m'.Spans a n := by
  rwa [Spans, size]

theorem Spans.toNat_add (h : m.Spans a n) (part : o.toNat + k ≤ n) (solid : 0 < k) :
    (a + o).toNat = a.toNat + o.toNat := by
  rcases h with rfl | ⟨_, below⟩
  · omega
  · rw [UInt32.toNat_add, Nat.mod_eq_of_lt (by omega)]

theorem Spans.part (h : m.Spans a n) (part : o.toNat + k ≤ n) : m.Spans (a + o) k := by
  rcases Nat.eq_zero_or_pos k with empty | solid
  · exact .inl empty
  · rw [Spans, h.toNat_add part solid]
    rcases h with rfl | ⟨inside, below⟩
    · omega
    · exact .inr ⟨by omega, by omega⟩

/-- Two memories have the same `n` bytes, at `a` and at `b`. -/
structure Same (m : Memory) (a : UInt32) (m' : Memory) (b : UInt32) (n : Nat) : Prop where
  left : m.Spans a n
  right : m'.Spans b n
  bytes : ∀ i < n, m'.bytes[b.toNat + i]? = m.bytes[a.toNat + i]?

theorem Same.part (h : m.Same a m' b n) (part : o.toNat + k ≤ n) :
    m.Same (a + o) m' (b + o) k := by
  refine ⟨h.left.part part, h.right.part part, fun i hi => ?_⟩
  rw [h.left.toNat_add part (by omega), h.right.toNat_add part (by omega), Nat.add_assoc,
    Nat.add_assoc]
  exact h.bytes _ (by omega)

theorem Same.slice_eq (h : m.Same a m' b n) : m'.slice b.toNat n = m.slice a.toNat n := by
  rcases Nat.eq_zero_or_pos n with rfl | solid
  · simp [slice]
  · have left : a.toNat + n ≤ m.size := by rcases h.left with e | e <;> omega
    have right : b.toNat + n ≤ m'.size := by rcases h.right with e | e <;> omega
    have here := at_slice left
    have length := length_slice left
    have there : m'.At b.toNat (m.slice a.toNat n) := by
      refine ⟨by rwa [length], fun i hi => ?_⟩
      rw [length] at hi
      rw [h.bytes i hi, here.bytes i (by omega)]
    rw [← there.slice_eq, length]

end Memory

/-! ## What the same bytes say -/

section Shapes

variable {m m' : Memory}

def SameValue (s : Shape) : Prop :=
  s.isRaw = true → s.Bounded → ∀ {m m' : Memory} {a b : UInt32},
    m.Same a m' b s.place.size.toNat → s.valueAt m' b = s.valueAt m a

theorem valuesAt_eq_of_same (hs : ∀ s, some s ∈ fields → SameValue s) (raw : areRaw fields = true)
    (bounded : ∀ s, some s ∈ fields → s.Bounded)
    (between : Layout.Between start stop offsets (fieldPlaces fields)) (same : m.Same a m' b stop) :
    valuesAt m' fields offsets b = valuesAt m fields offsets a := by
  induction fields generalizing offsets start with
  | nil => cases offsets <;> rfl
  | cons f fields ih =>
    obtain ⟨s, rfl, hraw⟩ := isRaw_of_mem raw mem_cons_self
    cases offsets with
    | nil => exact between.elim
    | cons o offsets =>
      rw [areRaw, Bool.and_eq_true] at raw
      have stops := between.2.start_le
      have first : s.valueAt m' (b + o) = s.valueAt m (a + o) :=
        hs s mem_cons_self hraw (bounded s mem_cons_self) (same.part stops)
      have rest := ih (tail_parts hs) raw.2
        (tail_parts bounded) between.2
      rw [valuesAt, valuesAt, valueAt?, valueAt?, first, rest]

theorem Shape.Bounded.between {l : Label} {form : ProductForm}
    (h : (product l form fields).Bounded) :
    Layout.Between 0 (product l form fields).place.size.toNat (placedOffsets fields)
      (fieldPlaces fields) :=
  (Layout.product_exact (fieldPlaces_exact_of_parts fun _ hs => (h.part hs).place_exact) h.size).2

theorem valueAt_eq_of_same (s : Shape) : SameValue s := by
  induction s with
  | scalar s =>
    intro _ _ m m' a b same
    rw [place, s.size_eq] at same
    rw [valueAt, valueAt, same.slice_eq]
  | product l form fields ih =>
    intro raw bounded m m' a b same
    rw [valueAt, valueAt,
      valuesAt_eq_of_same ih raw (fun s hs => bounded.part hs) bounded.between same]
  | synonym l target ih =>
    intro raw bounded m m' a b same
    cases target with
    | none => cases raw
    | some t => exact ih t rfl raw (bounded.part mem_cons_self) same
  | _ => exact fun raw => absurd raw Bool.false_ne_true

def FillsInside (s : Shape) : Prop := s.Bounded → ∀ {k}, s.fills k = true → k < s.place.size.toNat

theorem fieldsFill_lt (hs : ∀ s, some s ∈ fields → FillsInside s)
    (bounded : ∀ s, some s ∈ fields → s.Bounded) {k : Nat}
    (between : Layout.Between start stop offsets (fieldPlaces fields))
    (fills : fieldsFill fields offsets k = true) : start ≤ k ∧ k < stop := by
  induction fields generalizing offsets start with
  | nil => cases offsets <;> cases fills
  | cons f fields ih =>
    cases offsets with
    | nil => exact between.elim
    | cons o offsets =>
      have stops := between.2.start_le
      have starts := between.1
      rw [fieldsFill, Bool.or_eq_true, Bool.and_eq_true, decide_eq_true_eq] at fills
      rcases fills with ⟨behind, fills⟩ | fills
      · cases f with
        | none => cases fills
        | some s =>
          have inside : k - o.toNat < s.place.size.toNat :=
            hs s mem_cons_self (bounded s mem_cons_self) fills
          have place : (place? (some s)).size.toNat = s.place.size.toNat := rfl
          omega
      · have rest := ih (tail_parts hs)
          (tail_parts bounded) between.2 fills
        omega

theorem fills_lt (s : Shape) : FillsInside s := by
  induction s with
  | scalar s =>
    intro _ k fills
    rw [Shape.fills, decide_eq_true_eq] at fills
    rwa [Shape.place, s.size_eq]
  | product l form fields ih =>
    intro bounded k fills
    exact (fieldsFill_lt ih (fun s hs => bounded.part hs) bounded.between fills).2
  | synonym l target ih =>
    intro bounded k fills
    cases target with
    | none => cases fills
    | some t => exact ih t rfl (bounded.part mem_cons_self) fills
  | _ => exact fun _ _ fills => absurd fills Bool.false_ne_true

end Shapes

/-! ## Reading -/

section Running

variable {α : Type} [Allocator α] {E : Failure → Prop} {moved : RawRule}
  {realloc : String} {c : Setting α} {scope : Scope} {p : Point α} {ra r : Reg} {a offset : UInt32}

theorem loadInside_runs {op : LoadOp} (ha : p.Holds ra (.ofU32 a))
    (inside : (a + offset).toNat + op.width.size.toNat ≤ p.machine.world.memory.size) :
    (Code.load op ra offset).Runs E c scope p fun r q =>
      q.Holds r (.u64 (op.extend (Memory.toNumber
        (p.machine.world.memory.slice (a + offset).toNat op.width.size.toNat))))
        ∧ q.machine.Alike p.machine := by
  have loaded : runFrom (Exec.load op (a + offset)) p.machine
      = (.ok (.u64 (op.extend (Memory.toNumber
          (p.machine.world.memory.slice (a + offset).toNat op.width.size.toNat)))), p.machine) := by
    have covered : p.machine.world.memory.covers (a + offset) op.width.size.toNat = true := by
      simpa [Memory.covers] using inside
    rw [Exec.load_eq_map, runFrom_map, Exec.runFrom_act]
    simp only [Action.load, runFrom_bind, runFrom_get, continueWith_ok, Memory.load, Memory.read,
      covered, if_true]
    rfl
  refine emitOne_runs rfl (.cons ha .nil) ?_
  rw [instr_load, runFrom_bind_ok loaded]
  rfl

variable (E moved c) in
def ReadsValue (s : Shape) : Prop :=
  s.isRaw = true → s.Bounded → ∀ {scope : Scope} {p : Point α} {ra : Reg} {a offset : UInt32},
    p.Holds ra (.ofU32 a) → p.machine.world.memory.Spans (a + offset) s.place.size.toNat →
    (Code.read moved s ra offset).Runs E c scope p fun r q =>
      q.Holds r (s.valueAt p.machine.world.memory (a + offset)) ∧ q.machine.Alike p.machine

theorem readFields_values (hs : ∀ s, some s ∈ fields → ReadsValue E moved c s)
    (raw : areRaw fields = true) (bounded : ∀ s, some s ∈ fields → s.Bounded)
    (between : Layout.Between start stop offsets (fieldPlaces fields)) (ha : p.Holds ra (.ofU32 a))
    (spans : p.machine.world.memory.Spans (a + offset) stop) :
    (Code.readFields moved fields offsets ra offset).Runs E c scope p fun rs q =>
      q.HoldsAll rs (valuesAt p.machine.world.memory fields offsets (a + offset))
        ∧ q.machine.Alike p.machine := by
  induction fields generalizing p offsets start with
  | nil => cases offsets <;> exact Code.Runs.pure ⟨.nil, .refl _⟩
  | cons f fields ih =>
    obtain ⟨s, rfl, hraw⟩ := isRaw_of_mem raw mem_cons_self
    cases offsets with
    | nil => exact between.elim
    | cons o offsets =>
      rw [areRaw, Bool.and_eq_true] at raw
      have first := spans.part between.2.start_le
      rw [UInt32.add_assoc] at first
      refine (hs s mem_cons_self hraw (bounded s mem_cons_self) ha first).bind ?_
      rintro r q1 h1 ⟨hr, alike1⟩
      refine (ih (tail_parts hs) raw.2
        (tail_parts bounded) between.2 (ha.extend h1)
        (alike1.world ▸ spans)).bind ?_
      rintro rs q2 h2 ⟨hrs, alike2⟩
      rw [alike1.world] at hrs
      rw [← UInt32.add_assoc] at hr
      exact Code.Runs.pure ⟨.cons (hr.extend h2) hrs, alike2.trans alike1⟩

theorem read_value (s : Shape) : ReadsValue E moved c s := by
  induction s with
  | scalar s =>
    intro raw _ scope p ra a offset ha spans
    have solid : 0 < s.loadOp.width.size.toNat := by cases s <;> decide
    rw [place, s.size_eq] at spans
    refine (loadInside_runs ha (by rcases spans with e | e <;> omega)).bind ?_
    rintro r q1 _ ⟨hr, alike1⟩
    refine (emitOne_runs (v := (scalar s).valueAt p.machine.world.memory (a + offset)) rfl
      (.cons hr .nil) ?_).imp ?_
    · simp only [Exec.instr, headD_cons, Value.core, Scalar.liftValue_of_raw raw]
      rfl
    · rintro r' q2 _ ⟨hr', alike2⟩
      exact ⟨hr', alike2.trans alike1⟩
  | product l form fields ih =>
    intro raw bounded scope p ra a offset ha spans
    refine (readFields_values ih raw (fun s hs => bounded.part hs) bounded.between ha spans).bind ?_
    rintro rs q1 _ ⟨hrs, alike1⟩
    refine (liftProduct_runs hrs).imp ?_
    rintro r q2 _ ⟨hr, alike2⟩
    exact ⟨hr, alike2.trans alike1⟩
  | synonym l target ih =>
    intro raw bounded
    cases target with
    | none => cases raw
    | some t => exact ih t rfl raw (bounded.part mem_cons_self)
  | _ => exact fun raw => absurd raw Bool.false_ne_true

/-! ## Storing -/

omit [Allocator α] in
def Machine.withMemory (m : Machine α) (memory : Memory) : Machine α :=
  { m with world := { m.world with memory } }

omit [Allocator α] in
theorem Machine.Alike.withMemory {m m' : Machine α} (h : m.Alike m') (memory : Memory) :
    (m.withMemory memory).Alike (m'.withMemory memory) where
  world := by rw [Machine.withMemory, Machine.withMemory, h.world]
  borrowed := h.borrowed
  scratch := h.scratch
  lent := h.lent
  results := h.results

/-- Bytes from `start` to `stop` behind an address were set, and those that `fills` tells to what
they are behind `x` in another memory. -/
structure Refilled (fills : Nat → Bool) (start stop : Nat) (source : Memory) (x b : UInt32)
    (m m' : Memory) : Prop where
  agree : Memory.AgreeOn (fun i => i < b.toNat + start ∨ b.toNat + stop ≤ i) m m'
  bytes : ∀ k, fills k = true → m'.bytes[b.toNat + k]? = source.bytes[x.toNat + k]?

theorem Refilled.cons {o : UInt32} {m1 m2 : Memory} (bounded : s.Bounded)
    (first : Refilled s.fills 0 s.place.size.toNat source (x + o) (b + o) m m1)
    (rest : Refilled (fieldsFill fields offsets) (o.toNat + s.place.size.toNat) stop source x b
      m1 m2)
    (starts : start ≤ o.toNat) (stops : o.toNat + s.place.size.toNat ≤ stop)
    (hsource : source.Spans x stop) (htarget : m.Spans b stop) :
    Refilled (fieldsFill (some s :: fields) (o :: offsets)) start stop source x b m m2 := by
  refine ⟨⟨rest.agree.size.trans first.agree.size, fun i hi => ?_⟩, fun k fills => ?_⟩
  · rw [rest.agree.bytes i (by omega)]
    rcases Nat.eq_zero_or_pos s.place.size.toNat with empty | solid
    · exact first.agree.bytes i (by omega)
    · exact first.agree.bytes i (by rw [htarget.toNat_add stops solid]; omega)
  · rw [fieldsFill, Bool.or_eq_true, Bool.and_eq_true, decide_eq_true_eq] at fills
    rcases fills with ⟨behind, fills⟩ | fills
    · have inside : k - o.toNat < s.place.size.toNat := fills_lt s bounded fills
      have set := first.bytes _ fills
      rw [htarget.toNat_add stops (by omega), hsource.toNat_add stops (by omega), Nat.add_assoc,
        Nat.add_assoc, Nat.add_sub_cancel' behind] at set
      rw [rest.agree.bytes _ (by omega), set]
    · exact rest.bytes k fills

theorem storeInside_runs {op : StoreOp} {x : UInt64} (hr : p.Holds r (.u64 x))
    (ha : p.Holds ra (.ofU32 a))
    (inside : (a + offset).toNat + op.width.size.toNat ≤ p.machine.world.memory.size) :
    (Code.store op r ra offset).Runs E c scope p fun _ q =>
      q.machine.Alike (p.machine.withMemory (p.machine.world.memory.splice (a + offset).toNat
        (toBytes op.width.size.toNat x))) := by
  have stored : runFrom (Exec.store op (a + offset) x) p.machine
      = (.ok (), p.machine.withMemory (p.machine.world.memory.splice (a + offset).toNat
          (toBytes op.width.size.toNat x))) := by
    have covered : p.machine.world.memory.covers (a + offset)
        (toBytes op.width.size.toNat x).length = true := by
      simpa [covers] using inside
    rw [Exec.store_eq_write, Exec.runFrom_act]
    simp only [Action.write, runFrom_bind, runFrom_get, continueWith_ok, write, covered,
      if_true]
    rfl
  refine Code.Runs.emitNone rfl (.cons hr (.cons ha .nil)) ?_
  rw [instr_store]
  exact Does.of_ok (runFrom_bind_ok stored) ⟨rfl, rfl, fun q _ alike => alike⟩

variable (E moved realloc c) in
/-- Storing the value that is somewhere at an address brings its bytes there. -/
def WritesValue (s : Shape) : Prop :=
  s.isRaw = true → s.Bounded → ∀ {source : Memory} {x : UInt32} {scope : Scope} {p : Point α}
    {r ra : Reg} {a offset : UInt32}, source.Spans x s.place.size.toNat →
    p.Holds r (s.valueAt source x) → p.Holds ra (.ofU32 a) →
    p.machine.world.memory.Spans (a + offset) s.place.size.toNat →
    (Code.write moved realloc s r ra offset).Runs E c scope p fun _ q => ∃ memory,
      q.machine.Alike (p.machine.withMemory memory)
        ∧ Refilled s.fills 0 s.place.size.toNat source x (a + offset) p.machine.world.memory memory

theorem writeFields_values (hs : ∀ s, some s ∈ fields → WritesValue E moved realloc c s)
    (raw : areRaw fields = true) (bounded : ∀ s, some s ∈ fields → s.Bounded)
    (between : Layout.Between start stop offsets (fieldPlaces fields))
    (hsource : source.Spans x stop) {rs : List Reg}
    (hrs : p.HoldsAll rs (valuesAt source fields offsets x)) (ha : p.Holds ra (.ofU32 a))
    (htarget : p.machine.world.memory.Spans (a + offset) stop) :
    (Code.writeFields moved realloc fields rs offsets ra offset).Runs E c scope p fun _ q =>
      ∃ memory, q.machine.Alike (p.machine.withMemory memory)
        ∧ Refilled (fieldsFill fields offsets) start stop source x (a + offset)
          p.machine.world.memory memory := by
  induction fields generalizing p offsets start rs with
  | nil =>
    have done : Refilled (fieldsFill [] offsets) start stop source x (a + offset)
        p.machine.world.memory p.machine.world.memory :=
      ⟨.mono (.refl (fun _ => True) _) fun _ _ => trivial,
        fun k fills => by cases offsets <;> cases fills⟩
    exact Code.Runs.pure ⟨_, .refl _, done⟩
  | cons f fields ih =>
    obtain ⟨s, rfl, hraw⟩ := isRaw_of_mem raw mem_cons_self
    cases offsets with
    | nil => exact between.elim
    | cons o offsets =>
      rw [areRaw, Bool.and_eq_true] at raw
      cases hrs with
      | cons hr hrs =>
        have stops := between.2.start_le
        have first := htarget.part stops
        rw [UInt32.add_assoc] at first
        refine (hs s mem_cons_self hraw (bounded s mem_cons_self) (hsource.part stops) hr ha
          first).bind ?_
        rintro _ q1 h1 ⟨m1, alike1, refilled1⟩
        have memory1 : q1.machine.world.memory = m1 := by rw [alike1.world]; rfl
        refine (ih (tail_parts hs) raw.2
          (tail_parts bounded) between.2
          (Point.HoldsAll.extend hrs h1) (ha.extend h1)
          (htarget.congr (by rw [memory1, refilled1.agree.size]))).imp ?_
        rintro _ q2 _ ⟨m2, alike2, refilled2⟩
        rw [memory1] at refilled2
        rw [← UInt32.add_assoc] at refilled1
        exact ⟨m2, alike2.trans (alike1.withMemory m2),
          refilled1.cons (bounded s mem_cons_self) refilled2 between.1 stops hsource htarget⟩

theorem write_value (s : Shape) : WritesValue E moved realloc c s := by
  induction s with
  | scalar s =>
    intro raw _ source x scope p r ra a offset hsource hr ha htarget
    have solid : 0 < s.loadOp.width.size.toNat := by cases s <;> decide
    rw [Shape.place, s.size_eq] at hsource htarget ⊢
    have here : x.toNat + s.loadOp.width.size.toNat ≤ source.size := by
      rcases hsource with e | e <;> omega
    have there : (a + offset).toNat + s.loadOp.width.size.toNat ≤ p.machine.world.memory.size := by
      rcases htarget with e | e <;> omega
    have length := length_slice here
    obtain ⟨y, lower, bytes⟩ := Scalar.lowerValue_of_raw raw
      (toNumber (source.slice x.toNat s.loadOp.width.size.toNat))
    have brought := toBytes_toNumber
      (Nat.le_trans (Nat.le_of_eq length) (size_le_eight s.loadOp.width))
    rw [length, ← bytes] at brought
    refine (emitOne_runs (v := .u64 y) rfl (.cons hr .nil) ?_).bind ?_
    · simp only [Exec.instr, headD_cons, Shape.valueAt, lower]
      rfl
    · rintro r' q1 h1 ⟨hr', alike1⟩
      rw [← s.width_storeOp] at there brought length
      refine (storeInside_runs hr' (ha.extend h1) (by rwa [alike1.world])).imp ?_
      intro _ q2 _ alike2
      rw [brought, alike1.world] at alike2
      refine ⟨_, alike2.trans (alike1.withMemory _), ⟨size_splice _ _, fun i hi => ?_⟩,
        fun k fills => ?_⟩
      · rcases hi with hi | hi
        · exact getElem?_splice_of_lt hi _
        · exact getElem?_splice_of_ge (by rw [length, s.width_storeOp]; exact hi)
      · rw [Shape.fills, decide_eq_true_eq, ← s.width_storeOp] at fills
        rw [← s.width_storeOp] at here
        have put := at_splice (m := p.machine.world.memory) (by rwa [length])
        rw [put.bytes k (by rwa [length]), ← (at_slice here).bytes k (by rwa [length])]
  | product l form fields ih =>
    intro raw bounded source x scope p r ra a offset hsource hr ha htarget
    have count := length_valuesAt source (length_placedOffsets fields) x
    refine (lowerProduct_runs count hr).bind ?_
    rintro rs q1 h1 ⟨hrs, alike1⟩
    refine (writeFields_values ih raw (fun s hs => bounded.part hs) bounded.between hsource hrs
      (ha.extend h1) (alike1.world ▸ htarget)).imp ?_
    rintro _ q2 _ ⟨memory, alike2, refilled⟩
    rw [alike1.world] at refilled
    exact ⟨memory, alike2.trans (alike1.withMemory memory), refilled⟩
  | synonym l target ih =>
    intro raw bounded
    cases target with
    | none => cases raw
    | some t => exact ih t rfl raw (bounded.part mem_cons_self)
  | _ => exact fun raw => absurd raw Bool.false_ne_true

/-! ## Lists -/

def elemsAt (m : Memory) (s : Shape) : UInt32 → Nat → List Value
  | _, 0 => []
  | a, count + 1 => s.valueAt m a :: elemsAt m s (a + s.place.size) count

section

variable (raw : s.isRaw = true) (bounded : s.Bounded)
include raw bounded

theorem elemsAt_eq_of_same {m' : Memory} {count : Nat}
    (same : m.Same a m' b (s.place.size.toNat * count)) :
    elemsAt m' s b count = elemsAt m s a count := by
  induction count generalizing a b with
  | zero => rfl
  | succ count ih =>
    rw [Nat.mul_succ] at same
    have first := same.part (o := 0) (k := s.place.size.toNat)
      (by rw [UInt32.toNat_zero]; omega)
    have rest := same.part (o := s.place.size) (k := s.place.size.toNat * count) (by omega)
    rw [UInt32.add_zero, UInt32.add_zero] at first
    rw [elemsAt, elemsAt, valueAt_eq_of_same s raw bounded first, ih rest]

theorem liftElems_values {m : Machine α} {before : List Value} {k count : Nat} {base : UInt32}
    (spans : m.world.memory.Spans base (s.place.size.toNat * count))
    (hsize : ((Code.blocks [Code.readElem moved (some s)]).run k).next ≤ m.registers.size) :
    Does E (Exec.liftElems
      (fun sc => Exec.nth c sc 0 ((Code.blocks [Code.readElem moved (some s)]).run k).value)
      s.place.size before base count) m fun out m' => Kept k m m' ∧ m'.Alike m
        ∧ out = before.reverse ++ elemsAt m.world.memory s base count := by
  induction count generalizing m base before with
  | zero => exact Does.of_ok rfl ⟨.of_eq rfl, .refl _, (append_nil _).symm⟩
  | succ count ih =>
    rw [Nat.mul_succ] at spans
    have first := spans.part (o := 0) (k := s.place.size.toNat)
      (by rw [UInt32.toNat_zero]; omega)
    have head : Does E (Exec.nth c { base } 0
        ((Code.blocks [Code.readElem moved (some s)]).run k).value) m fun out m' => Kept k m m'
          ∧ m'.Alike m ∧ out = [s.valueAt m.world.memory base] := by
      refine (Code.Runs.nth (n := 0) rfl (Q := fun rs q =>
        q.HoldsAll rs [s.valueAt m.world.memory base] ∧ q.machine.Alike m)
        (fun k' _ => ?_) hsize).imp ?_
      · refine (emitOne_runs rfl .nil rfl).bind ?_
        rintro ra q1 _ ⟨hra, alike1⟩
        refine (read_value s raw bounded hra (alike1.world ▸ first)).bind ?_
        rintro r q2 _ ⟨hr, alike2⟩
        rw [UInt32.add_zero, alike1.world] at hr
        exact Code.Runs.pure ⟨.cons hr .nil, alike2.trans alike1⟩
      · rintro _ m' ⟨kept, rs, n, ⟨holds, alike⟩, rfl⟩
        exact ⟨kept, alike, holds.map_reg⟩
    refine head.bind ?_
    rintro _ m1 ⟨kept, alike, rfl⟩
    have rest := spans.part (o := s.place.size) (k := s.place.size.toNat * count) (by omega)
    refine (ih (alike.world ▸ rest) (kept.size ▸ hsize)).imp ?_
    rintro _ m2 ⟨kept', alike', rfl⟩
    refine ⟨kept.trans kept' (Nat.le_refl _), alike'.trans alike, ?_⟩
    rw [headD_cons, reverse_cons, append_assoc, singleton_append, alike.world]
    rfl

theorem liftList_values (passable : s.Passable) (apart : moved (some s) = false) (l : Label)
    {rs : List Reg} {ptr count : UInt32} (hrs : p.HoldsAll rs [.ofU32 ptr, .ofU32 count])
    (spans : p.machine.world.memory.Spans ptr (s.place.size.toNat * count.toNat)) :
    (Code.lift moved (.list l (some s)) rs).Runs E c scope p fun r q =>
      q.Holds r (.list (elemsAt p.machine.world.memory s ptr count.toNat)) := by
  rw [Code.lift, Code.liftList, apart]
  change (Code.blocks [Code.readElem moved (some s)] >>= fun blocks =>
    Code.own (.liftList l (some s)) rs blocks >>= fun outs => pure (outs.headD 0)).Runs _ _ _ _ _
  rw [← bind_assoc]
  refine Code.Runs.bind (Q := fun outs q =>
      q.HoldsAll outs [.list (elemsAt p.machine.world.memory s ptr count.toNat)])
    (Code.Runs.ownBlocks (Code.steps_blocks _) hrs fun hsize => ?_) ?_
  · rw [Exec.instr_liftList (show Passable? (some s) from passable)]
    refine (liftElems_values raw bounded spans hsize).bind ?_
    rintro _ m1 ⟨kept, _, rfl⟩
    -- Freeing changes the allocator at most.
    have freed : ∃ m2, runFrom (Exec.freeOwned c ptr (s.place.size * count) s.place.align) m1
        = (.ok (), m2) ∧ m2.registers = m1.registers := by
      rw [Exec.freeOwned, Exec.free]
      split_ifs
      · exact ⟨_, rfl, rfl⟩
      · exact ⟨_, Exec.runFrom_act _ _, rfl⟩
      · exact ⟨_, rfl, rfl⟩
    obtain ⟨m2, ran, hregs⟩ := freed
    exact Does.of_ok (runFrom_bind_ok ran)
      ⟨kept.trans (.of_eq hregs) (Nat.le_refl _), rfl, fun outs q _ _ holds => holds⟩
  · intro outs q _ holds
    cases holds with
    | cons holds rest => exact Code.Runs.pure holds

end

end Running

/-! ## Programs that read and store -/

namespace Gen

variable {σ ω : Type} (b : Backend σ ω) (realloc : String) (s : Shape)

/-- Returns what is at the address that is the argument. -/
def fetch : Gen σ ω Unit := do
  let addr ← emitOne b (.getArg 0)
  read b s addr 0
  emit b (.ret 1)

/-- Stores the second argument at the address that is the first. -/
def deposit : Gen σ ω Unit := do
  let addr ← emitOne b (.getArg 0)
  emit b (.getArg 1)
  write b realloc s addr 0
  emit b (.ret 0)

/-- Returns the list of which pointer and length are the arguments. -/
def fetchList (l : Label) : Gen σ ω Unit := do
  emit b (.getArg 0)
  emit b (.getArg 1)
  lift b (.list l (some s))
  emit b (.ret 1)

end Gen

namespace Code

variable (moved : RawRule) (realloc : String) (s : Shape)

def fetch : Code Unit := do
  let addr ← emitOne (.getArg 0) []
  let value ← read moved s addr 0
  emitNone (.ret 1) [value]

def deposit : Code Unit := do
  let addr ← emitOne (.getArg 0) []
  let value ← emitOne (.getArg 1) []
  write moved realloc s value addr 0
  emitNone (.ret 0) []

def fetchList (l : Label) : Code Unit := do
  let ptr ← emitOne (.getArg 0) []
  let length ← emitOne (.getArg 1) []
  let value ← lift moved (.list l (some s)) [ptr, length]
  emitNone (.ret 1) [value]

end Code

section Record

variable {moved : RawRule} {realloc : String} {f : FunctionShape} {s : Shape}

open Gen in
theorem fetch_record (hp : s.Passable) (dir : Direction) (mode : Mode) :
    ofWork f dir mode (Gen.fetch (backend moved) s)
      = .ok ((Code.fetch moved s).program f dir mode) := by
  refine ofWork_eq moved ⟨[.core .i32], [.of (some s)], f, f.coreSignature dir⟩ ?_ dir mode
  refine (Writes.emitOne (.getArg rfl) .nil).bind [] <| .taken fun q1 _ _ _ haddr => ?_
  refine ((liftWrites hp).read 0 haddr).bind [] <| .one fun q2 _ _ _ hv => ?_
  exact ret_writes rfl rfl (.one hv)

open Gen in
theorem deposit_record (hp : s.Passable) (dir : Direction) (mode : Mode) :
    ofWork f dir mode (Gen.deposit (backend moved) realloc s)
      = .ok ((Code.deposit moved realloc s).program f dir mode) := by
  refine ofWork_eq moved ⟨[.core .i32, .of (some s)], [], f, f.coreSignature dir⟩ ?_ dir mode
  refine (Writes.emitOne (.getArg rfl) .nil).bind [] <| .taken fun q1 _ _ _ haddr => ?_
  refine (Writes.emitPush (.getArg rfl) .nil).bind [] <| .one fun q2 _ _ h2 harg => ?_
  exact ((lowerWrites realloc hp).write 0 harg (haddr.mono h2)).bind [] <| .nothing
    fun q3 _ => ret_writes rfl rfl .nil

open Gen in
theorem fetchList_record (hp : s.Passable) (l : Label) (dir : Direction) (mode : Mode) :
    ofWork f dir mode (Gen.fetchList (backend moved) s l)
      = .ok ((Code.fetchList moved s l).program f dir mode) := by
  let c : Contract :=
    ⟨[.core .i32, .core .i32], [.of (some (.list l (some s)))], f, f.coreSignature dir⟩
  have list : (list l (some s)).Passable := hp
  refine ofWork_eq moved c ?_ dir mode
  refine (Writes.emitPush (.getArg rfl) .nil).bind [] <| .one fun q1 _ x _ hptr => ?_
  refine (Writes.emitPush (.getArg rfl) .nil).bind [x] <| .one fun q2 _ _ h2 hlength => ?_
  refine ((liftWrites list).lift (.cons (hptr.mono h2) (.one hlength))).bind [] <| .one
    fun q3 _ _ _ hv => ?_
  exact ret_writes rfl rfl (.one hv)

end Record

section Run

variable {α : Type} [Allocator α] {moved : RawRule} {realloc : String}
  {f : FunctionShape} {dir : Direction} {mode : Mode} {s : Shape} (raw : s.isRaw = true)
  (bounded : s.Bounded) (host : Host α)

theorem Shape.passable_of_raw (raw : s.isRaw = true) : s.Passable := by
  induction s with
  | scalar => trivial
  | product l form fields ih =>
    refine fieldsPassable_iff.mpr fun f hf => ?_
    obtain ⟨s, rfl, hs⟩ := isRaw_of_mem raw hf
    exact ih s hf hs
  | synonym l target ih =>
    cases target with
    | none => cases raw
    | some t => exact ih t rfl raw
  | _ => cases raw

theorem Program.exists_run {code : Code Unit} {args results : List Value} {w : World α}
    (P : Memory → Prop) (h : code.Runs (fun _ => False)
      ⟨host, (code.program f dir mode).ownsLifted⟩ { args }
      ⟨0, (code.program f dir mode).startOn args.length w⟩ fun _ q =>
        q.machine.results = results ∧ P q.machine.world.memory) :
    ∃ w', runFrom ((code.program f dir mode).run host args) w = (.ok results, w')
      ∧ P w'.memory := by
  obtain ⟨_, w', ran, m, ⟨rfl, memory⟩, rfl, cleaned⟩ := (run_does
    (Q := fun m => m.results = results ∧ P m.world.memory) h).exists_ok
  exact ⟨w', ran, cleaned.memory ▸ memory⟩

variable (moved realloc f dir mode)

include raw bounded

theorem fetch_run {w : World α} (spans : w.memory.Spans a s.place.size.toNat) :
    ∃ w', runFrom (((Code.fetch moved s).program f dir mode).run host [.ofU32 a]) w
      = (.ok [s.valueAt w.memory a], w') ∧ w'.memory = w.memory := by
  refine exists_run host (· = w.memory) ?_
  refine (getArg_runs (v := .ofU32 a) rfl).bind ?_
  rintro addr q1 _ ⟨haddr, alike1⟩
  have memory1 : q1.machine.world.memory = w.memory := by rw [alike1.world]; rfl
  have spans1 : q1.machine.world.memory.Spans (a + 0) s.place.size.toNat := by
    rwa [memory1, UInt32.add_zero]
  refine (read_value s raw bounded haddr spans1).bind ?_
  rintro r q2 _ ⟨hr, alike2⟩
  rw [memory1, UInt32.add_zero] at hr
  refine (ret_runs (.cons hr .nil)).imp ?_
  intro _ q3 _ alike3
  refine ⟨alike3.results, ?_⟩
  rw [alike3.world]
  rw [alike2.world, memory1]

theorem deposit_run {w : World α} (hsource : source.Spans x s.place.size.toNat)
    (spans : w.memory.Spans b s.place.size.toNat) :
    ∃ w', runFrom (((Code.deposit moved realloc s).program f dir mode).run host
        [.ofU32 b, s.valueAt source x]) w = (.ok [], w')
      ∧ Refilled s.fills 0 s.place.size.toNat source x b w.memory w'.memory := by
  refine exists_run host (Refilled s.fills 0 s.place.size.toNat source x b w.memory) ?_
  refine (getArg_runs (v := .ofU32 b) rfl).bind ?_
  rintro addr q1 _ ⟨haddr, alike1⟩
  refine (getArg_runs (v := s.valueAt source x) rfl).bind ?_
  rintro r q2 h2 ⟨hr, alike2⟩
  have memory2 : q2.machine.world.memory = w.memory := by rw [alike2.world, alike1.world]; rfl
  have spans2 : q2.machine.world.memory.Spans (b + 0) s.place.size.toNat := by
    rwa [memory2, UInt32.add_zero]
  refine (write_value s raw bounded hsource hr (haddr.extend h2) spans2).bind ?_
  rintro _ q3 _ ⟨memory, alike3, refilled⟩
  rw [memory2, UInt32.add_zero] at refilled
  refine (ret_runs .nil).imp ?_
  intro _ q4 _ alike4
  refine ⟨alike4.results, ?_⟩
  have memory4 : q4.machine.world.memory = memory := by
    rw [alike4.world]
    rw [alike3.world]
    rfl
  rwa [memory4]

theorem fetchList_run {w : World α} (apart : moved (some s) = false) (l : Label) {count : UInt32}
    (spans : w.memory.Spans a (s.place.size.toNat * count.toNat)) :
    ∃ w', runFrom (((Code.fetchList moved s l).program f dir mode).run host
        [.ofU32 a, .ofU32 count]) w
      = (.ok [.list (elemsAt w.memory s a count.toNat)], w') := by
  refine (exists_run host (fun _ => True) ?_).imp fun _ h => h.1
  refine (getArg_runs (v := .ofU32 a) rfl).bind ?_
  rintro ptr q1 _ ⟨hptr, alike1⟩
  refine (getArg_runs (v := .ofU32 count) rfl).bind ?_
  rintro length q2 h2 ⟨hlength, alike2⟩
  have memory2 : q2.machine.world.memory = w.memory := by rw [alike2.world, alike1.world]; rfl
  refine (liftList_values raw bounded (passable_of_raw raw) apart l
    (.cons (hptr.extend h2) (.cons hlength .nil)) (by rwa [memory2])).bind ?_
  intro r q3 _ hr
  rw [memory2] at hr
  exact (ret_runs (.cons hr .nil)).imp fun _ q4 _ alike4 => ⟨alike4.results, trivial⟩

end Run

theorem Memory.same_copy {n : Nat} (size : m.size ≤ 2 ^ 32) (ha : a.toNat + n ≤ m.size)
    (hb : b.toNat + n ≤ m.size) : m.Same a (m.splice b.toNat (m.slice a.toNat n)) b n := by
  have length := length_slice ha
  have put : (m.splice b.toNat (m.slice a.toNat n)).At b.toNat (m.slice a.toNat n) :=
    at_splice (by rwa [length])
  refine ⟨.of_size ha size, .of_size ?_ ?_, fun i hi => ?_⟩
  · rwa [size_splice]
  · rwa [size_splice]
  · rw [put.bytes i (by rwa [length]), ← (at_slice ha).bytes i (by rwa [length])]

/-- Any bytes are a value of a raw shape. In a memory of at most 2³² bytes, reading such a value
never fails. Storing what was read in another place brings there all bytes that are not padding and
changes nothing else. Reading bytes that were copied gives the same value; and so does lifting a
list, element by element, whose bytes were copied all at once. -/
theorem raw_values_are_bytes {s : Shape} (raw : s.isRaw = true) (bounded : s.Bounded)
    {layout : Layout} (hlayout : s.layout = .ok layout) (moved : RawRule)
    (realloc : String) (f : FunctionShape) (dir : Direction) (mode : Mode) (l : Label) :
    ∃ fetch deposit fetchList,
      Program.ofWork f dir mode (Gen.fetch (Recording.backend moved) s) = .ok fetch
      ∧ Program.ofWork f dir mode (Gen.deposit (Recording.backend moved) realloc s) = .ok deposit
      ∧ Program.ofWork f dir mode (Gen.fetchList (Recording.backend moved) s l) = .ok fetchList
      ∧ ∀ {α : Type} [Allocator α] (host : Host α) (w : World α), w.memory.size ≤ 2 ^ 32 →
        ∀ a b : UInt32,
        (a.toNat + layout.size.toNat ≤ w.memory.size → b.toNat + layout.size.toNat ≤ w.memory.size →
          ∃ v w₁, runFrom (fetch.run host [.ofU32 a]) w = (.ok [v], w₁) ∧ w₁.memory = w.memory
            ∧ (∃ w₂, runFrom (deposit.run host [.ofU32 b, v]) w₁ = (.ok [], w₂)
              ∧ (∀ k, s.fills k = true →
                w₂.memory.bytes[b.toNat + k]? = w.memory.bytes[a.toNat + k]?)
              ∧ w.memory.AgreeOn (fun i => ¬ Region b layout.size.toNat i) w₂.memory)
            ∧ ∃ w₃, runFrom (fetch.run host [.ofU32 b]) { w with
                memory := w.memory.splice b.toNat (w.memory.slice a.toNat layout.size.toNat) }
              = (.ok [v], w₃))
        ∧ (moved (some s) = false → ∀ count : UInt32,
          a.toNat + layout.size.toNat * count.toNat ≤ w.memory.size →
          b.toNat + layout.size.toNat * count.toNat ≤ w.memory.size →
          ∃ v w₁ w₂, runFrom (fetchList.run host [.ofU32 a, .ofU32 count]) w = (.ok [v], w₁)
            ∧ runFrom (fetchList.run host [.ofU32 b, .ofU32 count]) { w with
                memory := w.memory.splice b.toNat
                  (w.memory.slice a.toNat (layout.size.toNat * count.toNat)) }
                    = (.ok [v], w₂)) := by
  have passable := Shape.passable_of_raw raw
  obtain rfl : s.place = layout := by
    rw [Shape.layout_eq passable] at hlayout
    exact Except.ok.inj hlayout
  refine ⟨_, _, _, fetch_record passable dir mode, deposit_record passable dir mode,
    fetchList_record passable l dir mode, ?_⟩
  intro α _ host w size a b
  refine ⟨fun ha hb => ?_, fun apart count ha hb => ?_⟩
  · have here : w.memory.Spans a s.place.size.toNat := .of_size ha size
    have copied := Memory.same_copy size ha hb
    obtain ⟨w₁, fetched, memory₁⟩ := fetch_run moved f dir mode raw bounded host here
    obtain ⟨w₂, deposited, refilled⟩ := deposit_run moved realloc f dir mode raw bounded host
      here
      (show w₁.memory.Spans b _ from memory₁ ▸ .of_size hb size)
    obtain ⟨w₃, refetched, _⟩ := fetch_run moved f dir mode (w := { w with memory := _ })
      raw bounded host copied.right
    rw [memory₁] at refilled
    refine ⟨_, w₁, fetched, memory₁, ⟨w₂, deposited, refilled.bytes, refilled.agree.mono ?_⟩,
      w₃, ?_⟩
    · intro i outside
      rw [Region, not_and_or] at outside
      omega
    · rw [refetched, valueAt_eq_of_same s raw bounded copied]
  · have copied := Memory.same_copy size ha hb
    obtain ⟨w₁, fetched⟩ := fetchList_run moved f dir mode raw bounded host apart l copied.left
    obtain ⟨w₂, refetched⟩ := fetchList_run moved f dir mode (w := { w with memory := _ })
      raw bounded host apart l copied.right
    refine ⟨_, w₁, w₂, fetched, ?_⟩
    rw [refetched, elemsAt_eq_of_same raw bounded copied]

namespace Canvas

def graph : Graph where
  defs := #[
    { name := "pixel",
      kind := some (.record [⟨"alpha", some (.scalar .u8)⟩, ⟨"depth", some (.scalar .s16)⟩,
        ⟨"mark", some (.scalar .u8)⟩]) }]

def pixel : Shape :=
  .product (graph.label 0) .record [some (.scalar .u8), some (.scalar .s16), some (.scalar .u8)]

def paint : FunctionShape := ⟨"paint", [], []⟩

def world : World Bump :=
  { memory := ⟨#[1, 2, 255, 9, 254, 255, 7, 9, 0, 0, 0, 0, 0, 0, 0, 0]⟩, allocator := none,
    table := none }

end Canvas

open Canvas in
/-- The pixel is stored again in the zeros. Its second and last byte are padding. -/
theorem raw_values_are_bytes_pixel :
    (pixel.isRaw = true ∧ pixel.Bounded ∧ pixel.layout = .ok pixel.place
      ∧ (List.range 6).map pixel.fills = [true, false, true, true, true, false])
    ∧ ∃ fetch deposit,
      Program.ofWork paint .imported .lowerArgs (Gen.fetch (Recording.backend Program.isByte) pixel)
        = .ok fetch
      ∧ Program.ofWork paint .imported .lowerArgs (Gen.deposit (Recording.backend Program.isByte) ""
        pixel) = .ok deposit
      ∧ ∃ v w₁ w₂, runFrom (fetch.run {} [.ofU32 2]) world = (.ok [v], w₁)
        ∧ runFrom (deposit.run {} [.ofU32 8, v]) w₁ = (.ok [], w₂)
        ∧ w₂.memory.bytes[11]? = some 255 := by
  have raw : pixel.isRaw = true := by decide
  have fits : pixel.Fits := ⟨⟨trivial, trivial, trivial, trivial⟩, by decide⟩
  have bounded : pixel.Bounded := fits.bounded
  have layout : pixel.layout = .ok pixel.place := Shape.layout_eq (Shape.passable_of_raw raw)
  refine ⟨⟨raw, bounded, layout, by decide⟩, ?_⟩
  obtain ⟨fetch, deposit, _, hfetch, hdeposit, _, runs⟩ := raw_values_are_bytes raw bounded layout
    Program.isByte "" paint .imported .lowerArgs (graph.label 0)
  obtain ⟨v, w₁, fetched, _, ⟨w₂, deposited, bytes, _⟩, _⟩ :=
    (runs {} world (by decide) 2 8).1 (by decide) (by decide)
  exact ⟨fetch, deposit, hfetch, hdeposit, v, w₁, w₂, fetched, deposited, bytes 3 (by decide)⟩

end CanonicalAbi
