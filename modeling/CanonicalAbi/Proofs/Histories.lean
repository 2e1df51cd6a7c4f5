import CanonicalAbi.Proofs.Bytes
import Mathlib.Data.Nat.Digits.Defs

/-!
# Histories of a memory

Reads and writes of any width, one after another. A read finds at each address the byte that was
written there last.
-/

namespace CanonicalAbi.Memory

open List

/-- A number is read from its bytes with the lowest first. -/
theorem toNat_toNumber {data : List UInt8} (h : data.length ≤ 8) :
    (toNumber data).toNat = Nat.ofDigits 256 (data.map (·.toNat)) := by
  induction data with
  | nil => rfl
  | cons b data ih =>
    rw [toNat_toNumber_cons b h, ih (Nat.le_of_lt h), map_cons, Nat.ofDigits_cons]
    exact Nat.add_comm _ _

/-- A byte of a number, counted from the lowest. -/
def byteOf (n : UInt64) (k : Nat) : UInt8 := .ofNat (n.toNat / 256 ^ k)

theorem toBytes_eq_map (count : Nat) (n : UInt64) :
    toBytes count n = (range count).map (byteOf n) := by
  induction count generalizing n with
  | zero => rfl
  | succ count ih =>
    have higher : byteOf (n >>> 8) = byteOf n ∘ Nat.succ := by
      funext k
      simp [byteOf, Nat.shiftRight_eq_div_pow, Nat.div_div_eq_div_mul, Nat.pow_succ, Nat.mul_comm]
    have lowest : n.toUInt8 = byteOf n 0 := by simp [byteOf]
    rw [toBytes, ih, range_succ_eq_map, map_cons, map_map, higher, lowest]

/-! ## Accesses -/

/-- The byte at an address that data have when they start at another. -/
def placed (start : Nat) (data : List UInt8) (i : Nat) : Option UInt8 :=
  if start ≤ i then data[i - start]? else none

/-- Whether the bytes of a memory are as given. -/
def Shows (m : Memory) (size : Nat) (bytes : Nat → UInt8) : Prop :=
  m.size = size ∧ ∀ i < size, m.bytes[i]? = some (bytes i)

/-- An access to memory. -/
inductive Access where
  | read (offset length : UInt32)
  | write (offset : UInt32) (data : List UInt8)
  | load (width : IntWidth) (offset : UInt32)
  | store (width : IntWidth) (offset : UInt32) (value : UInt64)

/-- What an access gives. -/
inductive Answer where
  | done
  | bytes (data : List UInt8)
  | number (n : UInt64)

namespace Access

def perform (m : Memory) : Access → Except Failure (Answer × Memory)
  | read offset length => (m.read offset length).map (.bytes ·, m)
  | write offset data => (m.write offset data).map (.done, ·)
  | load width offset => (m.load width offset).map (.number ·, m)
  | store width offset value => (m.store width offset value).map (.done, ·)

def offset : Access → UInt32
  | read o _ | write o _ | load _ o | store _ o _ => o

/-- The number of bytes that an access is about. -/
def extent : Access → Nat
  | read _ length => length.toNat
  | write _ data => data.length
  | load width _ | store width _ _ => width.size.toNat

/-- The bytes that an access leaves in memory. -/
def data : Access → List UInt8
  | write _ data => data
  | store width _ value => (range width.size.toNat).map (byteOf value)
  | _ => []

/-- The access lies inside a memory of this size. -/
abbrev InBounds (size : Nat) (a : Access) : Prop := a.offset.toNat + a.extent ≤ size

/-- What an access puts at an address of a memory of some size. -/
def puts (size : Nat) (a : Access) (i : Nat) : Option UInt8 :=
  if a.InBounds size then placed a.offset.toNat a.data i else none

/-- Whether an answer is the one to an access if the bytes of the memory are as given. -/
def Answers (bytes : Nat → UInt8) : Access → Answer → Prop
  | read offset length, .bytes data =>
    data = (range length.toNat).map fun k => bytes (offset.toNat + k)
  | load width offset, .number n => n.toNat
    = Nat.ofDigits 256 ((range width.size.toNat).map fun k => (bytes (offset.toNat + k)).toNat)
  | write _ _, .done | store _ _ _, .done => True
  | _, _ => False

end Access

variable {m : Memory} {size : Nat} {bytes : Nat → UInt8} {a : Access}

namespace Shows

theorem read_eq (h : m.Shows size bytes) {offset length : UInt32}
    (inside : offset.toNat + length.toNat ≤ size) :
    m.read offset length = .ok ((range length.toNat).map fun k => bytes (offset.toNat + k)) := by
  obtain ⟨rfl, h⟩ := h
  rw [read, if_pos (by simpa [covers] using inside)]
  have count := length_slice inside
  refine congrArg _ (ext_getElem? fun k => ?_)
  by_cases hk : k < length.toNat
  · rw [← (at_slice inside).bytes k (by omega), h _ (by omega)]
    simp [hk]
  · rw [getElem?_eq_none (by omega), getElem?_eq_none (by simpa using hk)]

theorem write_eq (h : m.Shows size bytes) {offset : UInt32} {data : List UInt8}
    (inside : offset.toNat + data.length ≤ size) :
    ∃ m', m.write offset data = .ok m'
      ∧ m'.Shows size fun i => (placed offset.toNat data i).getD (bytes i) := by
  obtain ⟨rfl, h⟩ := h
  obtain ⟨m', written, there, others⟩ := exists_write inside
  refine ⟨m', written, others.size, fun i hi => ?_⟩
  by_cases low : offset.toNat ≤ i
  · by_cases high : i - offset.toNat < data.length
    · have here := there.bytes _ high
      rw [Nat.add_sub_of_le low] at here
      simp [placed, low, here, high]
    · simp [placed, low, high, others.bytes i (by omega), h i hi]
  · simp [placed, low, others.bytes i (by omega), h i hi]

/-- An access within bounds has the right answer and puts its bytes into place. -/
theorem perform (h : m.Shows size bytes) (inside : a.InBounds size) :
    ∃ answer m', a.perform m = .ok (answer, m') ∧ a.Answers bytes answer
      ∧ m'.Shows size fun i => (placed a.offset.toNat a.data i).getD (bytes i) := by
  cases a with
  | read offset length =>
    have found : m.read offset length = .ok _ := h.read_eq inside
    refine ⟨.bytes _, m, by rw [Access.perform, found]; rfl, rfl, ?_⟩
    simpa [placed, Access.data] using h
  | write offset data =>
    obtain ⟨m', written, shown⟩ : ∃ m', m.write offset data = .ok m' ∧ _ := h.write_eq inside
    exact ⟨.done, m', by rw [Access.perform, written]; rfl, trivial, shown⟩
  | load width offset =>
    have found : m.read offset width.size = .ok _ := h.read_eq inside
    refine ⟨.number _, m, by rw [Access.perform, load, found]; rfl, ?_, ?_⟩
    · rw [Access.Answers, toNat_toNumber (by simpa using size_le_eight width), map_map]
      rfl
    · simpa [placed, Access.data] using h
  | store width offset value =>
    have inside : offset.toNat + (toBytes width.size.toNat value).length ≤ size := by
      rwa [length_toBytes]
    obtain ⟨m', written, shown⟩ := h.write_eq inside
    rw [toBytes_eq_map] at shown
    exact ⟨.done, m', by rw [Access.perform, store, written]; rfl, trivial, shown⟩

theorem perform_error (h : m.Shows size bytes) (outside : ¬ a.InBounds size) :
    a.perform m = .error (.outOfBounds .eval [] a.offset (.ofNat a.extent)) := by
  obtain ⟨rfl, _⟩ := h
  have uncovered : m.covers a.offset a.extent = false := decide_eq_false outside
  cases a with
  | read offset length => simp_all [Access.perform, read, Access.offset, Access.extent, Except.map]
  | write offset data => simp_all [Access.perform, write, Access.offset, Access.extent, Except.map]
  | load width offset =>
    simp_all [Access.perform, load, read, Access.offset, Access.extent, Except.map]
  | store width offset value =>
    simp_all [Access.perform, store, write, Access.offset, Access.extent, Except.map]

end Shows

/-! ## Histories -/

/-- The memory after an access, the same as before if it fails. -/
def next (m : Memory) (a : Access) : Memory :=
  match a.perform m with
  | .ok (_, m') => m'
  | .error _ => m

def after (m : Memory) (past : List Access) : Memory := past.foldl next m

/-- The byte that was written last at an address, or zero. -/
def lastWritten (size : Nat) (past : List Access) (i : Nat) : UInt8 :=
  (past.reverse.findSome? (·.puts size i)).getD 0

theorem shows_zeros (size : Nat) : (zeros size).Shows size fun _ => 0 :=
  ⟨by simp [zeros, Memory.size], fun i hi => by simp [zeros, hi]⟩

theorem Shows.next (h : m.Shows size bytes) (a : Access) :
    (m.next a).Shows size fun i => (a.puts size i).getD (bytes i) := by
  by_cases inside : a.InBounds size
  · obtain ⟨_, m', done, _, shown⟩ := h.perform inside
    simpa only [Access.puts, if_pos inside, Memory.next, done] using shown
  · simpa only [Access.puts, if_neg inside, Option.getD_none, Memory.next,
      h.perform_error inside] using h

theorem Shows.after (h : m.Shows size bytes) (past : List Access) :
    (m.after past).Shows size fun i => (past.reverse.findSome? (·.puts size i)).getD (bytes i) := by
  induction past generalizing m bytes with
  | nil => exact h
  | cons a past ih =>
    have rest := ih (h.next a)
    refine ⟨rest.1, fun i hi => (rest.2 i hi).trans ?_⟩
    simp only [reverse_cons, findSome?_append, findSome?_singleton]
    cases past.reverse.findSome? (·.puts size i) <;> rfl

/-- A memory holds what was written last. After any history of reads and writes of any widths, each
byte of a memory is the one that was last written there, or zero. The next access fails exactly if
it reaches beyond the end. Otherwise it finds these bytes, lowest first, and puts its own bytes,
lowest first, exactly into their places. -/
theorem memory_holds_last_writes (size : Nat) (past : List Access) (a : Access) :
    ((zeros size).after past).Shows size (lastWritten size past)
    ∧ (size < a.offset.toNat + a.extent → a.perform ((zeros size).after past)
        = .error (.outOfBounds .eval [] a.offset (.ofNat a.extent)))
    ∧ (a.offset.toNat + a.extent ≤ size → ∃ answer m',
        a.perform ((zeros size).after past) = .ok (answer, m')
        ∧ a.Answers (lastWritten size past) answer
        ∧ m'.Shows size fun i =>
          (placed a.offset.toNat a.data i).getD (lastWritten size past i)) := by
  have shown := (shows_zeros size).after past
  exact ⟨shown, fun outside => shown.perform_error (Nat.not_le.mpr outside), shown.perform⟩

end CanonicalAbi.Memory
