import CanonicalAbi.Machine.Scalars
import CanonicalAbi.Proofs.Bytes
import CanonicalAbi.Proofs.Joins

/-!
# Encodings

Scalars, flags and case numbers as core values and as bytes. Lifting takes back what lowering makes,
loading what storing leaves, and the casts of a sum what they did to a payload.
-/

namespace CanonicalAbi

open List Memory

variable {x : UInt64} {xs : List UInt64}

theorem toNat_lt_of_lt_ofNat {i : UInt32} {n : Nat} (h : i < .ofNat n) : i.toNat < n := by
  rw [UInt32.lt_iff_toNat_lt, UInt32.toNat_ofNat'] at h
  exact Nat.lt_of_lt_of_le h (Nat.mod_le _ _)

theorem lt_ofNat_of_toNat_lt {i : UInt32} {n : Nat} (hn : n < 2 ^ 32) (h : i.toNat < n) :
    i < .ofNat n := by
  rwa [UInt32.lt_iff_toNat_lt, UInt32.toNat_ofNat_of_lt' hn]

/-! ## Core values of a core type -/

/-- Whether a core value can be one of a core type: the narrow types have zeros in front. -/
def CoreType.Holds (t : CoreType) (x : UInt64) : Prop :=
  match t with
  | .i32 | .f32 => x.toNat < 2 ^ 32
  | .i64 | .f64 => True

theorem CoreType.holds_toUInt64 (t : CoreType) (n : UInt32) : t.Holds n.toUInt64 := by
  have narrow : n.toUInt64.toNat < 2 ^ 32 := by simpa using n.toNat_lt
  cases t
  · exact narrow
  · trivial
  · exact narrow
  · trivial

def applyCasts (source target : List CoreType) (xs : List UInt64) : List UInt64 :=
  zipWith Bitcast.apply (castsBetween source target) xs

theorem Bitcast.down_up {own slot : CoreType} (h : own.join slot = slot) (hx : own.Holds x) :
    (Bitcast.total slot own).apply ((Bitcast.total own slot).apply x) = x := by
  have narrow : x.toNat < 2 ^ 32 → x.toUInt32.toUInt64 = x := fun hlt => by
    apply UInt64.toNat_inj.mp
    simpa using hlt
  cases own <;> cases slot <;> first
    | rfl
    | exact narrow hx
    | exact absurd h (by decide)

theorem applyCasts_down_up {own slots : List CoreType} (h : FitSlots own slots) {rest : List UInt64}
    (hx : Forall₂ CoreType.Holds own xs) :
    applyCasts (slots.take own.length) own ((applyCasts own slots xs ++ rest).take own.length)
      = xs := by
  induction hx generalizing slots with
  | nil => simp [applyCasts, castsBetween]
  | @cons a x as xs hax hrest ih =>
    cases slots with
    | nil => exact h.elim
    | cons b bs =>
      have tail := ih h.2
      simp only [applyCasts, castsBetween, length_cons, take_succ_cons,
        zipWith_cons_cons, cons_append] at tail ⊢
      rw [Bitcast.down_up h.1 hax, tail]

theorem Bitcast.holds_up {own slot : CoreType} (h : own.join slot = slot) (hx : own.Holds x) :
    slot.Holds ((Bitcast.total own slot).apply x) := by
  cases own <;> cases slot <;> first
    | exact hx
    | trivial

theorem CoreType.holds_zero (t : CoreType) : t.Holds 0 := t.holds_toUInt64 0

/-- What a payload puts into the slots, with zeros behind, are core values of the slots' types. -/
theorem holds_applyCasts_up {own slots : List CoreType} (h : FitSlots own slots)
    (hx : Forall₂ CoreType.Holds own xs) :
    Forall₂ CoreType.Holds slots
      (applyCasts own slots xs ++ (slots.drop own.length).map fun _ => 0) := by
  induction hx generalizing slots with
  | nil =>
    induction slots with
    | nil => exact .nil
    | cons slot slots ih => exact .cons slot.holds_zero (ih trivial)
  | @cons a x as xs hax hrest ih =>
    cases slots with
    | nil => exact h.elim
    | cons b bs => exact .cons (Bitcast.holds_up h.1 hax) (ih h.2)

theorem applyCasts_eq_self {source target : List CoreType}
    (h : (castsBetween source target).any (· ≠ .none) = false)
    (hl : (castsBetween source target).length = xs.length) : applyCasts source target xs = xs := by
  rw [applyCasts]
  generalize castsBetween source target = casts at h hl
  induction casts generalizing xs with
  | nil => simpa using hl.symm
  | cons cast casts ih =>
    cases xs with
    | nil => simp at hl
    | cons x xs =>
      simp only [any_cons, Bool.or_eq_false_iff, decide_eq_false_iff_not, not_not] at h
      rw [zipWith_cons_cons, ih h.2 (by simpa using hl), h.1]
      rfl

/-! ## Loading and storing -/

def LoadOp.width : LoadOp → IntWidth
  | i32From8U | i32From8S => .u8
  | i32From16U | i32From16S => .u16
  | i32 | f32 => .u32
  | i64 | f64 => .u64

def LoadOp.extend : LoadOp → UInt64 → UInt64
  | i32From8S, n => n.toUInt8.toInt8.toInt32.toUInt32.toUInt64
  | i32From16S, n => n.toUInt16.toInt16.toInt32.toUInt32.toUInt64
  | _, n => n

def StoreOp.width : StoreOp → IntWidth
  | i32To8 => .u8
  | i32To16 => .u16
  | i32 | f32 => .u32
  | i64 | f64 => .u64

def LoadOp.reload (op : LoadOp) (x : UInt64) : UInt64 :=
  op.extend (toNumber (toBytes op.width.size.toNat x))

/-- Whether a load brings back a core value from its lowest bytes. -/
def LoadOp.Recovers (op : LoadOp) (x : UInt64) : Prop :=
  op.extend (toNumber (toBytes op.width.size.toNat x)) = x

theorem recovers_of_lt {op : LoadOp} (h : ∀ n, op.extend n = n)
    (hx : x.toNat < 2 ^ (8 * op.width.size.toNat)) : op.Recovers x := by
  rw [LoadOp.Recovers, h, toNumber_toBytes (size_le_eight _) hx]

theorem recovers_i32 (n : UInt32) : LoadOp.i32.Recovers n.toUInt64 :=
  recovers_of_lt (fun _ => rfl) (by simpa [LoadOp.width, IntWidth.size] using n.toNat_lt)

theorem recovers_tag {cases : Nat} {n : UInt32} (h : n.toNat < cases) :
    (tagWidth cases).loadOp.Recovers n.toUInt64 := by
  have := n.toNat_lt
  simp only [tagWidth]
  split_ifs <;> refine recovers_of_lt (fun _ => rfl) ?_
  · simp [IntWidth.loadOp, LoadOp.width, IntWidth.size]
    omega
  · simp [IntWidth.loadOp, LoadOp.width, IntWidth.size]
    omega
  · simpa [IntWidth.loadOp, LoadOp.width, IntWidth.size] using this

theorem IntWidth.width_loadOp (w : IntWidth) : w ≠ .u64 → w.loadOp.width = w := by
  cases w <;> simp [loadOp, LoadOp.width]

theorem IntWidth.toNat_reload {w : IntWidth} (h : w ≠ .u64) (x : UInt64) :
    (w.loadOp.reload x).toNat = x.toNat % 2 ^ (8 * w.size.toNat) := by
  have plain : w.loadOp.reload x = toNumber (toBytes w.size.toNat x) := by
    rw [LoadOp.reload, IntWidth.width_loadOp w h]
    cases w <;> rfl
  rw [plain, toNat_toNumber_toBytes (size_le_eight w)]

theorem IntWidth.width_storeOp (w : IntWidth) : w ≠ .u64 → w.storeOp.width = w := by
  cases w <;> simp [storeOp, StoreOp.width]

theorem tagWidth_ne (cases : Nat) : tagWidth cases ≠ .u64 := by
  rw [tagWidth]
  split_ifs <;> decide

theorem unit_ne (count : Nat) : (FlagsStorage.ofCount count).unit ≠ .u64 := by
  simp only [FlagsStorage.ofCount]
  split_ifs <;> exact IntWidth.noConfusion

/-! ## Scalars -/

/-- Whether a value is one of a scalar type. Characters are numbers, but not all of them. -/
def Scalar.Admits : Scalar → Value → Prop
  | .bool, .bool _ | .u8, .u8 _ | .s8, .s8 _ | .u16, .u16 _ | .s16, .s16 _ | .u32, .u32 _
  | .s32, .s32 _ | .u64, .u64 _ | .s64, .s64 _ | .f32, .f32 _ | .f64, .f64 _ => True
  | .char, .s32 n => n.toUInt32.toNat.isValidChar
  | _, _ => False

theorem toInt8_extend (n : Int8) : n.toInt32.toUInt32.toUInt64.toUInt8.toInt8 = n := by
  apply Int8.toBitVec_inj.mp
  apply BitVec.eq_of_getLsbD_eq
  intro i hi
  have : i < 32 := by omega
  simp [hi, this, BitVec.getElem_signExtend]

theorem toInt16_extend (n : Int16) : n.toInt32.toUInt32.toUInt64.toUInt16.toInt16 = n := by
  apply Int16.toBitVec_inj.mp
  apply BitVec.eq_of_getLsbD_eq
  intro i hi
  have : i < 32 := by omega
  simp [hi, this, BitVec.getElem_signExtend]

/-- Core value `x` is scalar value `v`, and loads bring it back. -/
structure Scalar.Encodes (s : Scalar) (v : Value) (x : UInt64) : Prop where
  lower : s.lowerValue v = .ok (.u64 x)
  lift : s.liftValue x = .ok v
  holds : s.coreType.Holds x
  recovers : s.loadOp.Recovers x

theorem Scalar.Admits.encodes {s : Scalar} {v : Value} (h : s.Admits v) : ∃ x, s.Encodes v x := by
  have trunc8 : ∀ x : UInt64, (toNumber (toBytes 1 x)).toUInt8 = x.toUInt8 := by
    intro x
    apply UInt8.toNat_inj.mp
    simp [toNat_toNumber_toBytes]
  have trunc16 : ∀ x : UInt64, (toNumber (toBytes 2 x)).toUInt16 = x.toUInt16 := by
    intro x
    apply UInt16.toNat_inj.mp
    simp [toNat_toNumber_toBytes]
  have wide : ∀ x : UInt64, toNumber (toBytes 8 x) = x := fun x =>
    toNumber_toBytes (by omega) x.toNat_lt
  unfold Scalar.Admits at h
  split at h
  · next b =>
    refine ⟨_, rfl, ?_, ?_, ?_⟩
    · cases b <;> rfl
    · cases b <;> simp [coreType, CoreType.Holds]
    · exact recovers_of_lt (fun _ => rfl)
        (by cases b <;> simp [loadOp, LoadOp.width, IntWidth.size])
  · next n =>
    refine ⟨_, rfl, by simp [liftValue], ?_, ?_⟩
    · have := n.toNat_lt
      simp [coreType, CoreType.Holds]
      omega
    · exact recovers_of_lt (fun _ => rfl)
        (by simpa [loadOp, LoadOp.width, IntWidth.size] using n.toNat_lt)
  · next n =>
    refine ⟨n.toInt32.toUInt32.toUInt64, rfl, by simp only [liftValue, toInt8_extend],
      CoreType.holds_toUInt64 _ _, ?_⟩
    change (toNumber (toBytes 1 _)).toUInt8.toInt8.toInt32.toUInt32.toUInt64 = _
    rw [trunc8, toInt8_extend]
  · next n =>
    refine ⟨_, rfl, by simp [liftValue], ?_, ?_⟩
    · have := n.toNat_lt
      simp [coreType, CoreType.Holds]
      omega
    · exact recovers_of_lt (fun _ => rfl)
        (by simpa [loadOp, LoadOp.width, IntWidth.size] using n.toNat_lt)
  · next n =>
    refine ⟨n.toInt32.toUInt32.toUInt64, rfl, by simp only [liftValue, toInt16_extend],
      CoreType.holds_toUInt64 _ _, ?_⟩
    change (toNumber (toBytes 2 _)).toUInt16.toInt16.toInt32.toUInt32.toUInt64 = _
    rw [trunc16, toInt16_extend]
  · exact ⟨_, rfl, by simp [liftValue], CoreType.holds_toUInt64 _ _, recovers_i32 _⟩
  · exact ⟨_, rfl, by simp [liftValue], CoreType.holds_toUInt64 _ _, recovers_i32 _⟩
  · exact ⟨_, rfl, rfl, trivial, wide _⟩
  · exact ⟨_, rfl, by simp [liftValue], trivial, wide _⟩
  · exact ⟨_, rfl, by simp [liftValue], CoreType.holds_toUInt64 _ _, recovers_i32 _⟩
  · exact ⟨_, rfl, rfl, trivial, wide _⟩
  · next n =>
    exact ⟨_, rfl, by simp [liftValue, h], CoreType.holds_toUInt64 _ _, recovers_i32 _⟩
  · exact h.elim

theorem Scalar.width_storeOp (s : Scalar) : s.storeOp.width = s.loadOp.width := by
  cases s <;> rfl

theorem Scalar.size_eq (s : Scalar) : (Layout.scalar s).size = s.loadOp.width.size := by
  cases s <;> rfl

/-! ## Flags -/

theorem testBit_packFlags (fs : List Bool) {k : Nat} (hk : k < 32) :
    (packFlags fs).toNat.testBit k = fs.getD k false := by
  induction fs generalizing k with
  | nil => simp [packFlags]
  | cons f fs ih =>
    rw [packFlags, UInt32.toNat_or, UInt32.toNat_shiftLeft, Nat.testBit_or]
    cases k with
    | zero => cases f <;> simp
    | succ k =>
      have low : (if f then (1 : UInt32) else 0).toNat.testBit (k + 1) = false := by
        cases f <;> simp [Nat.testBit_succ]
      have rest := ih (show k < 32 by omega)
      have high : ((packFlags fs).toNat <<< ((1 : UInt32).toNat % 32) % 2 ^ 32).testBit (k + 1)
          = (packFlags fs).toNat.testBit k := by
        rw [Nat.testBit_mod_two_pow]
        simp [hk]
      rw [low, high, rest]
      rfl

theorem length_flagLanes (fs : List Bool) (lanes : Nat) : (flagLanes fs lanes).length = lanes := by
  induction lanes generalizing fs with
  | zero => rfl
  | succ lanes ih => simp [flagLanes, ih]

theorem getD_flagLanes (fs : List Bool) {lanes j : Nat} (hj : j < lanes) :
    (flagLanes fs lanes).getD j 0 = packFlags ((fs.drop (32 * j)).take 32) := by
  induction lanes generalizing fs j with
  | zero => omega
  | succ lanes ih =>
    cases j with
    | zero => simp [flagLanes]
    | succ j =>
      rw [flagLanes, getD_cons_succ, ih _ (by omega), drop_drop,
        show 32 + 32 * j = 32 * (j + 1) by omega]

theorem laneFlag_eq_testBit (lanes : List UInt32) (k : Nat) :
    laneFlag lanes k = (lanes.getD (k / 32) 0).toNat.testBit (k % 32) := by
  have hk : k % 32 < 32 := Nat.mod_lt _ (by omega)
  rw [laneFlag]
  generalize lanes.getD (k / 32) 0 = x
  have shifted : ((x >>> UInt32.ofNat (k % 32)) &&& 1).toNat = x.toNat >>> (k % 32) % 2 := by
    rw [UInt32.toNat_and, UInt32.toNat_shiftRight,
      UInt32.toNat_ofNat_of_lt' (show k % 32 < 2 ^ 32 by omega),
      Nat.mod_eq_of_lt hk]
    exact Nat.and_one_is_mod _
  have bit : x.toNat.testBit (k % 32) = (x.toNat >>> (k % 32) % 2 != 0) := by
    rw [Nat.testBit, Nat.and_comm, Nat.and_one_is_mod]
  rw [bit, ← shifted]
  apply Bool.eq_iff_iff.mpr
  simp only [bne_iff_ne, ne_eq, ← UInt32.toNat_inj, UInt32.toNat_zero]

theorem laneFlags_flagLanes {fs : List Bool} {lanes : Nat} (h : fs.length ≤ 32 * lanes) :
    laneFlags (flagLanes fs lanes) fs.length = fs := by
  apply ext_getElem (by simp [laneFlags])
  intro k hk hk'
  have inside : k / 32 < lanes := by omega
  simp only [laneFlags, getElem_map, getElem_range]
  rw [laneFlag_eq_testBit, getD_flagLanes _ inside, testBit_packFlags _ (Nat.mod_lt _ (by omega))]
  rw [getD_eq_getElem?_getD, getElem?_take_of_lt (Nat.mod_lt _ (by omega)),
    getElem?_drop, Nat.div_add_mod, getElem?_eq_getElem hk']
  rfl

theorem le_lanes (count : Nat) : count ≤ 32 * (FlagsStorage.ofCount count).lanes := by
  simp only [FlagsStorage.ofCount, FlagsStorage.lanes]
  split_ifs <;> simp <;> omega

end CanonicalAbi
