import CanonicalAbi.Machine.Memory
import Mathlib.Tactic.NormNum
import Mathlib.Tactic.Ring

/-!
# Bytes in memory

What lies at an address, what a write leaves there and what it leaves alone. Numbers are stored by
their lowest bytes, and a number that the bytes can hold is read back as it was.
-/

namespace CanonicalAbi

variable {offset : UInt32} {start count length i : Nat} {n : UInt64} {w : IntWidth}

namespace Memory

/-- The bytes `data` are in memory at `addr`. -/
structure At (m : Memory) (addr : Nat) (data : List UInt8) : Prop where
  inside : addr + data.length ≤ m.size
  bytes : ∀ i < data.length, m.bytes[addr + i]? = data[i]?

/-- Two memories of one size have the same bytes at the addresses in `S`. -/
structure AgreeOn (S : Nat → Prop) (m m' : Memory) : Prop where
  size : m'.size = m.size
  bytes : ∀ i, S i → m'.bytes[i]? = m.bytes[i]?

variable {m m' m'' : Memory} {S T : Nat → Prop} {addr : Nat} {data : List UInt8}

namespace AgreeOn

theorem refl (S : Nat → Prop) (m : Memory) : AgreeOn S m m := ⟨rfl, fun _ _ => rfl⟩

theorem mono (h : AgreeOn S m m') (hT : ∀ i, T i → S i) : AgreeOn T m m' :=
  ⟨h.size, fun i hi => h.bytes i (hT i hi)⟩

theorem trans (h : AgreeOn S m m') (h' : AgreeOn T m' m'') : AgreeOn (fun i => S i ∧ T i) m m'' :=
  ⟨h'.size.trans h.size, fun i hi => (h'.bytes i hi.2).trans (h.bytes i hi.1)⟩

end AgreeOn

theorem At.congr (h : m.At addr data)
    (hm : AgreeOn (fun i => addr ≤ i ∧ i < addr + data.length) m m') : m'.At addr data :=
  ⟨hm.size ▸ h.inside, fun i hi => (hm.bytes _ (by omega)).trans (h.bytes i hi)⟩

/-! ## Reading and writing -/

theorem length_slice (h : start + length ≤ m.size) : (m.slice start length).length = length := by
  have h' : start + length ≤ m.bytes.size := h
  simp only [slice, Array.length_toList, Array.size_extract]
  omega

theorem at_slice (h : start + length ≤ m.size) : m.At start (m.slice start length) := by
  refine ⟨by rwa [length_slice h], fun i hi => ?_⟩
  rw [length_slice h] at hi
  have h' : start + length ≤ m.bytes.size := h
  rw [slice, Array.getElem?_toList, Array.getElem?_extract_of_lt (by omega),
    ← Array.getElem?_eq_getElem]

theorem At.slice_eq (h : m.At addr data) : m.slice addr data.length = data := by
  apply List.ext_getElem?
  intro i
  by_cases hi : i < data.length
  · have inside : addr + data.length ≤ m.bytes.size := h.inside
    rw [slice, Array.getElem?_toList, Array.getElem?_extract_of_lt (by omega),
      ← Array.getElem?_eq_getElem, h.bytes i hi]
  · have short := length_slice h.inside
    rw [List.getElem?_eq_none (by omega), List.getElem?_eq_none (by omega)]

theorem At.read_eq {length : UInt32} (h : m.At offset.toNat data)
    (hl : length.toNat = data.length) : m.read offset length = .ok data := by
  rw [read, if_pos, hl, h.slice_eq]
  simp only [covers, decide_eq_true_eq, hl]
  exact h.inside

theorem size_splice (start : Nat) (data : List UInt8) : (m.splice start data).size = m.size := by
  induction data generalizing m start with
  | nil => rfl
  | cons b bs ih =>
    rw [splice, ih]
    simp [size]

theorem getElem?_splice_of_lt (hi : i < start) (data : List UInt8) :
    (m.splice start data).bytes[i]? = m.bytes[i]? := by
  induction data generalizing m start with
  | nil => rfl
  | cons b bs ih =>
    rw [splice, ih (by omega)]
    exact Array.getElem?_setIfInBounds_ne (by omega)

theorem getElem?_splice_of_ge (hi : start + data.length ≤ i) :
    (m.splice start data).bytes[i]? = m.bytes[i]? := by
  induction data generalizing m start with
  | nil => rfl
  | cons b bs ih =>
    simp only [List.length_cons] at hi
    rw [splice, ih (by omega)]
    exact Array.getElem?_setIfInBounds_ne (by omega)

theorem at_splice (h : addr + data.length ≤ m.size) : (m.splice addr data).At addr data := by
  refine ⟨by rw [size_splice]; exact h, fun i hi => ?_⟩
  induction data generalizing m addr i with
  | nil => simp at hi
  | cons b bs ih =>
    simp only [List.length_cons] at h hi
    rw [splice]
    cases i with
    | zero =>
      rw [getElem?_splice_of_lt (by omega)]
      exact Array.getElem?_setIfInBounds_self_of_lt (show addr < m.size by omega)
    | succ i =>
      have inside : addr + 1 + bs.length ≤ size ⟨m.bytes.setIfInBounds addr b⟩ := by
        simp only [size, Array.size_setIfInBounds] at h ⊢
        omega
      rw [show addr + (i + 1) = addr + 1 + i by omega]
      exact ih inside i (by omega)

theorem exists_write (h : offset.toNat + data.length ≤ m.size) :
    ∃ m', m.write offset data = .ok m' ∧ m'.At offset.toNat data
      ∧ AgreeOn (fun i => i < offset.toNat ∨ offset.toNat + data.length ≤ i) m m' := by
  refine ⟨m.splice offset.toNat data, if_pos (by simpa [covers] using h), at_splice h,
    size_splice _ _, fun i hi => ?_⟩
  rcases hi with hi | hi
  · exact getElem?_splice_of_lt hi data
  · exact getElem?_splice_of_ge hi

theorem size_write (h : m.write offset data = .ok m') : m'.size = m.size := by
  rw [write] at h
  split at h
  · cases h
    exact size_splice _ _
  · cases h

/-! ## Numbers -/

@[simp] theorem length_toBytes (count : Nat) (n : UInt64) : (toBytes count n).length = count := by
  induction count generalizing n with
  | zero => rfl
  | succ count ih => simp [toBytes, ih]

theorem toNat_toNumber_lt (h : data.length ≤ 8) :
    (toNumber data).toNat < 2 ^ (8 * data.length) := by
  induction data with
  | nil => simp [toNumber]
  | cons b data ih =>
    rw [List.length_cons] at h ⊢
    have byte : b.toNat < 2 ^ (8 * (data.length + 1)) := calc
      b.toNat < 2 ^ 8 := b.toNat_lt
      _ ≤ 2 ^ (8 * (data.length + 1)) := Nat.pow_le_pow_right (by omega) (by omega)
    have shifted : (toNumber data).toNat <<< 8 < 2 ^ (8 * (data.length + 1)) := by
      rw [Nat.shiftLeft_eq, Nat.mul_add, Nat.pow_add]
      omega
    exact Nat.or_lt_two_pow (by simpa using byte) (Nat.lt_of_le_of_lt (Nat.mod_le _ _) shifted)

theorem toNat_toNumber_cons (b : UInt8) (h : data.length < 8) :
    (toNumber (b :: data)).toNat = 2 ^ 8 * (toNumber data).toNat + b.toNat := by
  have high : (toNumber data).toNat < 2 ^ 56 := calc
    (toNumber data).toNat < 2 ^ (8 * data.length) := toNat_toNumber_lt (by omega)
    _ ≤ 2 ^ 56 := Nat.pow_le_pow_right (by omega) (by omega)
  rw [toNumber, UInt64.toNat_or, UInt64.toNat_shiftLeft, Nat.or_comm,
    Nat.two_pow_add_eq_or_of_lt (by simpa using b.toNat_lt), Nat.shiftLeft_eq, Nat.mod_eq_of_lt]
  · simp [Nat.mul_comm]
  · change _ * 2 ^ 8 < 2 ^ 64
    omega

theorem toNat_toNumber_toBytes (h : count ≤ 8) (n : UInt64) :
    (toNumber (toBytes count n)).toNat = n.toNat % 2 ^ (8 * count) := by
  induction count generalizing n with
  | zero => simp [toBytes, toNumber, Nat.mod_one]
  | succ count ih =>
    have shifted : (n >>> 8).toNat = n.toNat / 2 ^ 8 := by
      simp [Nat.shiftRight_eq_div_pow]
    rw [toBytes, toNat_toNumber_cons _ (by simp; omega), ih (by omega), shifted,
      show 8 * (count + 1) = 8 + 8 * count by ring, Nat.pow_add, Nat.mod_mul, Nat.add_comm]
    simp

theorem toNumber_toBytes (h : count ≤ 8) (hn : n.toNat < 2 ^ (8 * count)) :
    toNumber (toBytes count n) = n := by
  apply UInt64.toNat_inj.mp
  rw [toNat_toNumber_toBytes h, Nat.mod_eq_of_lt hn]

theorem size_le_eight (w : IntWidth) : w.size.toNat ≤ 8 := by
  cases w <;> decide

theorem toBytes_toNumber (h : data.length ≤ 8) : toBytes data.length (toNumber data) = data := by
  induction data with
  | nil => rfl
  | cons b data ih =>
    rw [List.length_cons] at h
    have whole := toNat_toNumber_cons b h
    have byte := b.toNat_lt
    have low : (toNumber (b :: data)).toUInt8 = b := by
      apply UInt8.toNat_inj.mp
      rw [UInt64.toNat_toUInt8, whole]
      omega
    have shifted : toNumber (b :: data) >>> 8 = toNumber data := by
      apply UInt64.toNat_inj.mp
      rw [UInt64.toNat_shiftRight, whole, Nat.shiftRight_eq_div_pow]
      change _ / 2 ^ 8 = _
      omega
    rw [List.length_cons, toBytes, low, shifted, ih (by omega)]

theorem toBytes_congr (h : count ≤ 8) {n' : UInt64}
    (same : n.toNat % 2 ^ (8 * count) = n'.toNat % 2 ^ (8 * count)) :
    toBytes count n = toBytes count n' := by
  have number : toNumber (toBytes count n) = toNumber (toBytes count n') := by
    apply UInt64.toNat_inj.mp
    rw [toNat_toNumber_toBytes h, toNat_toNumber_toBytes h, same]
  have back : ∀ n, toBytes count (toNumber (toBytes count n)) = toBytes count n := by
    intro n
    have whole := toBytes_toNumber (show (toBytes count n).length ≤ 8 by rwa [length_toBytes])
    rwa [length_toBytes] at whole
  rw [← back n, number, back n']

theorem load_lt (h : m.load w offset = .ok n) : n.toNat < 2 ^ (8 * w.size.toNat) := by
  rw [load, read] at h
  split at h
  · next covered =>
    cases h
    have length : (m.slice offset.toNat w.size.toNat).length = w.size.toNat :=
      length_slice (by simpa [covers] using covered)
    have bound := toNat_toNumber_lt (Nat.le_trans (Nat.le_of_eq length) (size_le_eight w))
    rwa [length] at bound
  · cases h

theorem At.load_eq (h : m.At offset.toNat (toBytes w.size.toNat n)) :
    m.load w offset = .ok (toNumber (toBytes w.size.toNat n)) := by
  rw [load, h.read_eq (by simp)]
  rfl

end Memory

end CanonicalAbi
