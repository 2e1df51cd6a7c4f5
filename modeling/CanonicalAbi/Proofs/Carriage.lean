import CanonicalAbi.Proofs.Mirroring
import CanonicalAbi.Proofs.Storing

/-!
# Parcels on their way

How a parcel is carried: spread over core values, or laid down in memory, with the blocks of memory
that belong to it.
-/

namespace CanonicalAbi

open List

variable {s : Shape} {addr : UInt32}

/-! ## Carried parcels -/

section Carried

variable (raw : RawRule) (mem : Memory)

/-- Bytes in a block of their own, as the parcel `pack` makes of them. -/
def PackLies (pack : List UInt8 → Parcel) (ptr count : UInt32) (p : Parcel)
    (blocks : List Allocation) : Prop :=
  ∃ data, p = pack data ∧ BytesLie mem data ptr count ∧ blocks = [⟨ptr, count, 1⟩]

/-- Parcels at every `size` bytes, each as `laid` says. -/
def RowLies (laid : Parcel → UInt32 → List Allocation → Prop) (size : UInt32) :
    UInt32 → List Parcel → List Allocation → Prop
  | _, [], blocks => blocks = []
  | addr, p :: ps, blocks => ∃ first rest, laid p addr first
      ∧ RowLies laid size (addr + size) ps rest ∧ blocks = first ++ rest

/-- A list at a pointer, whose elements are as `laid` says. -/
def ListLies (elem : Option Shape) (laid : Parcel → UInt32 → List Allocation → Prop)
    (ptr count : UInt32) (p : Parcel) (blocks : List Allocation) : Prop :=
  if raw elem then Program.isByte elem = true ∧ PackLies mem .bytes ptr count p blocks
  else ∃ ps elems, p = .parts ps ∧ ps.length = count.toNat
    ∧ RowLies laid (place? elem).size ptr ps elems
    ∧ blocks = elems ++ [⟨ptr, (place? elem).size * count, (place? elem).align⟩]

def Shape.SpreadSingle (s : Shape) (p : Parcel) (xs : List UInt64) (blocks : List Allocation) :
    Prop :=
  ∃ x, xs = [x] ∧ Forall₂ CoreType.Holds s.slots [x] ∧ p = s.opened x ∧ blocks = []

def Shape.LaidSingle (s : Shape) (p : Parcel) (addr : UInt32) (blocks : List Allocation) : Prop :=
  ∃ x, mem.At addr.toNat (Memory.toBytes s.loadOp.width.size.toNat x)
    ∧ p = s.opened (s.loadOp.reload x) ∧ blocks = []

mutual

def Shape.Spread : Shape → Parcel → List UInt64 → List Allocation → Prop
  | .scalar s, p, xs, blocks => Shape.SpreadSingle (.scalar s) p xs blocks
  | .enum l cases, p, xs, blocks => Shape.SpreadSingle (.enum l cases) p xs blocks
  | .handle l form type, p, xs, blocks => Shape.SpreadSingle (.handle l form type) p xs blocks
  | .string, p, xs, blocks => ∃ ptr count : UInt32, xs = [ptr.toUInt64, count.toUInt64]
      ∧ PackLies mem .text ptr count p blocks
  | .product _ _ fields, p, xs, blocks => ∃ ps, p = .parts ps ∧ FieldsSpread fields ps xs blocks
  | .sum _ _ payloads, p, xs, blocks => ∃ (index : UInt32) (payload : Parcel) (rest : List UInt64),
      p = .case index payload ∧ index < .ofNat payloads.length ∧ xs = index.toUInt64 :: rest
        ∧ Forall₂ CoreType.Holds (flatSum (payloadSlots payloads)).tail rest
        ∧ CaseSpread (flatSum (payloadSlots payloads)).tail payloads index.toNat payload rest blocks
  | .flags _ count, p, xs, blocks => ∃ lanes : List UInt32,
      lanes.length = (FlagsStorage.ofCount count).lanes ∧ xs = lanes.map (·.toUInt64)
        ∧ p = .flags count lanes ∧ blocks = []
  | .list _ elem, p, xs, blocks => ∃ ptr count : UInt32, xs = [ptr.toUInt64, count.toUInt64]
      ∧ ListLies raw mem elem (fun p addr blocks => Laid? elem p addr blocks) ptr count p blocks
  | .synonym _ target, p, xs, blocks => Spread? target p xs blocks
  | .channel _ _, _, _, _ | .resource _, _, _, _ | .unfinished _, _, _, _ => False

def Spread? : Option Shape → Parcel → List UInt64 → List Allocation → Prop
  | none, _, _, _ => False
  | some s, p, xs, blocks => s.Spread p xs blocks

def FieldsSpread : Parts → List Parcel → List UInt64 → List Allocation → Prop
  | [], [], xs, blocks => xs = [] ∧ blocks = []
  | s :: shapes, p :: ps, xs, blocks => ∃ ys zs first rest, Spread? s p ys first
      ∧ FieldsSpread shapes ps zs rest ∧ xs = ys ++ zs ∧ blocks = first ++ rest
  | _, _, _, _ => False

/-- The payload of the case with a number, in the first of the shared slots. -/
def CaseSpread (slots : List CoreType) :
    Parts → Nat → Parcel → List UInt64 → List Allocation → Prop
  | [], _, _, _, _ => False
  | none :: _, 0, p, _, blocks => p = .leaf (some .nothing) ∧ blocks = []
  | some s :: _, 0, p, rest, blocks => s.Spread p
      (applyCasts (slots.take s.slots.length) s.slots (rest.take s.slots.length)) blocks
  | _ :: payloads, index + 1, p, rest, blocks => CaseSpread slots payloads index p rest blocks

def Shape.Laid : Shape → Parcel → UInt32 → List Allocation → Prop
  | .scalar s, p, addr, blocks => Shape.LaidSingle mem (.scalar s) p addr blocks
  | .enum l cases, p, addr, blocks => Shape.LaidSingle mem (.enum l cases) p addr blocks
  | .handle l form type, p, addr, blocks => Shape.LaidSingle mem (.handle l form type) p addr blocks
  | .string, p, addr, blocks => ∃ ptr count, PairLies mem addr ptr count
      ∧ PackLies mem .text ptr count p blocks
  | .product _ _ fields, p, addr, blocks => ∃ ps, p = .parts ps
      ∧ FieldsLaid fields (placedOffsets fields) ps addr blocks
  | .sum _ _ payloads, p, addr, blocks => ∃ (index : UInt32) (payload : Parcel),
      p = .case index payload ∧ index < .ofNat payloads.length
        ∧ mem.At addr.toNat
          (Memory.toBytes (tagWidth payloads.length).size.toNat index.toUInt64)
        ∧ CaseLaid payloads index.toNat payload (addr + placedPayload payloads) blocks
  | .flags _ count, p, addr, blocks => ∃ lanes : List UInt32,
      lanes.length = (FlagsStorage.ofCount count).lanes ∧ FlagsLie mem count addr lanes
        ∧ p = .flags count (reloadLanes count lanes) ∧ blocks = []
  | .list _ elem, p, addr, blocks => ∃ ptr count, PairLies mem addr ptr count
      ∧ ListLies raw mem elem (fun p addr blocks => Laid? elem p addr blocks) ptr count p blocks
  | .synonym _ target, p, addr, blocks => Laid? target p addr blocks
  | .channel _ _, _, _, _ | .resource _, _, _, _ | .unfinished _, _, _, _ => False

def Laid? : Option Shape → Parcel → UInt32 → List Allocation → Prop
  | none, _, _, _ => False
  | some s, p, addr, blocks => s.Laid p addr blocks

def FieldsLaid :
    Parts → List UInt32 → List Parcel → UInt32 → List Allocation → Prop
  | [], _, [], _, blocks => blocks = []
  | s :: shapes, offset :: offsets, p :: ps, addr, blocks => ∃ first rest,
      Laid? s p (addr + offset) first ∧ FieldsLaid shapes offsets ps addr rest
        ∧ blocks = first ++ rest
  | _, _, _, _, _ => False

def CaseLaid : Parts → Nat → Parcel → UInt32 → List Allocation → Prop
  | [], _, _, _, _ => False
  | none :: _, 0, p, _, blocks => p = .leaf (some .nothing) ∧ blocks = []
  | some s :: _, 0, p, addr, blocks => s.Laid p addr blocks
  | _ :: payloads, index + 1, p, addr, blocks => CaseLaid payloads index p addr blocks

end

variable {raw mem} {payloads fields : Parts} {slots : List CoreType} {index : Nat}
  {p : Parcel} {ps : List Parcel} {xs : List UInt64} {blocks : List Allocation}

theorem caseSpread_iff {rest : List UInt64} :
    CaseSpread raw mem slots payloads index p rest blocks ↔
      (payloads[index]? = some none ∧ p = .leaf (some .nothing) ∧ blocks = [])
        ∨ ∃ s, payloads[index]? = some (some s) ∧ s.Spread raw mem p
          (applyCasts (slots.take s.slots.length) s.slots (rest.take s.slots.length)) blocks := by
  induction payloads generalizing index with
  | nil => simp [CaseSpread]
  | cons s payloads ih =>
    cases index with
    | zero => cases s <;> simp [CaseSpread]
    | succ index => cases s <;> simpa [CaseSpread] using ih

theorem caseLaid_iff : CaseLaid raw mem payloads index p addr blocks ↔
    (payloads[index]? = some none ∧ p = .leaf (some .nothing) ∧ blocks = [])
      ∨ ∃ s, payloads[index]? = some (some s) ∧ s.Laid raw mem p addr blocks := by
  induction payloads generalizing index with
  | nil => simp [CaseLaid]
  | cons s payloads ih =>
    cases index with
    | zero => cases s <;> simp [CaseLaid]
    | succ index => cases s <;> simpa [CaseLaid] using ih

/-! ## The core types -/

private theorem fieldsSpread_holds_of_parts
    (hs : ∀ s, some s ∈ fields → ∀ p xs blocks, s.Spread raw mem p xs blocks →
      Forall₂ CoreType.Holds s.slots xs) (h : FieldsSpread raw mem fields ps xs blocks) :
    Forall₂ CoreType.Holds (fieldSlots fields) xs := by
  induction fields generalizing ps xs blocks with
  | nil =>
    cases ps with
    | nil => exact h.1 ▸ .nil
    | cons => exact h.elim
  | cons s shapes ih =>
    cases ps with
    | nil => exact h.elim
    | cons p ps =>
      obtain ⟨ys, zs, first, rest, head, tail, rfl, _⟩ := h
      refine rel_append ?_ (ih (tail_parts hs) tail)
      cases s with
      | none => exact head.elim
      | some s => exact hs s mem_cons_self p ys first head

theorem Shape.Spread.holds (h : s.Spread raw mem p xs blocks) :
    Forall₂ CoreType.Holds s.slots xs := by
  have narrow : ∀ n : UInt32, CoreType.i32.Holds n.toUInt64 := CoreType.holds_toUInt64 _
  induction s generalizing p xs blocks with
  | scalar | enum | handle =>
    obtain ⟨x, rfl, holds, _⟩ := h
    exact holds
  | string | list =>
    obtain ⟨ptr, count, rfl, _⟩ := h
    exact .cons (narrow ptr) (.cons (narrow count) .nil)
  | product l form fields ih =>
    obtain ⟨ps, _, spread⟩ := h
    exact fieldsSpread_holds_of_parts (fun s m p xs blocks h => ih s m h) spread
  | sum l form payloads ih =>
    obtain ⟨index, payload, rest, _, _, rfl, holds, _⟩ := h
    exact .cons (narrow index) holds
  | flags l count =>
    obtain ⟨lanes, length, rfl, _⟩ := h
    have holds := holds_words lanes
    rwa [length] at holds
  | synonym l target ih =>
    cases target with
    | none => exact h.elim
    | some s => exact ih s rfl h
  | channel | resource | unfinished => exact h.elim

theorem FieldsSpread.holds (h : FieldsSpread raw mem fields ps xs blocks) :
    Forall₂ CoreType.Holds (fieldSlots fields) xs :=
  fieldsSpread_holds_of_parts (fun _ _ _ _ _ h => h.holds) h

/-! ## Shapes that own nothing -/

/-- What a shape without texts and lists owns, as the hypothesis of its parts. -/
private def OwnsNothing (raw : RawRule) (mem : Memory) (s : Shape) : Prop :=
  s.ownsMemory = false → (∀ p xs blocks, s.Spread raw mem p xs blocks → blocks = [])
    ∧ ∀ p addr blocks, s.Laid raw mem p addr blocks → blocks = []

section

variable (hs : ∀ s, some s ∈ fields → OwnsNothing raw mem s) (h : anyOwnsMemory fields = false)
include hs h

private theorem fieldsSpread_blocks_of_parts (spread : FieldsSpread raw mem fields ps xs blocks) :
    blocks = [] := by
  induction fields generalizing ps xs blocks with
  | nil =>
    cases ps with
    | nil => exact spread.2
    | cons => exact spread.elim
  | cons s shapes ih =>
    cases ps with
    | nil => exact spread.elim
    | cons p ps =>
      obtain ⟨ys, zs, first, rest, head, tail, _, rfl⟩ := spread
      rw [anyOwnsMemory, Bool.or_eq_false_iff] at h
      rw [ih (tail_parts hs) h.2 tail, append_nil]
      cases s with
      | none => exact head.elim
      | some s => exact (hs s mem_cons_self h.1).1 p ys first head

private theorem fieldsLaid_blocks_of_parts {offsets : List UInt32} {addr : UInt32}
    (laid : FieldsLaid raw mem fields offsets ps addr blocks) : blocks = [] := by
  induction fields generalizing offsets ps blocks with
  | nil =>
    cases ps with
    | nil => cases offsets <;> exact laid
    | cons => cases offsets <;> exact laid.elim
  | cons s shapes ih =>
    cases offsets with
    | nil => cases ps <;> exact laid.elim
    | cons offset offsets =>
      cases ps with
      | nil => exact laid.elim
      | cons p ps =>
        obtain ⟨first, rest, head, tail, rfl⟩ := laid
        rw [anyOwnsMemory, Bool.or_eq_false_iff] at h
        rw [ih (tail_parts hs) h.2 tail, append_nil]
        cases s with
        | none => exact head.elim
        | some s => exact (hs s mem_cons_self h.1).2 p _ first head

end

private theorem ownsNothing (s : Shape) : OwnsNothing raw mem s := by
  induction s with
  | scalar | enum | handle =>
    refine fun _ => ⟨?_, ?_⟩
    · rintro p xs blocks ⟨_, _, _, _, none⟩
      exact none
    · rintro p addr blocks ⟨_, _, _, none⟩
      exact none
  | flags l count =>
    refine fun _ => ⟨?_, ?_⟩
    · rintro p xs blocks ⟨_, _, _, _, none⟩
      exact none
    · rintro p addr blocks ⟨_, _, _, _, none⟩
      exact none
  | string | list => exact fun h => absurd h (by simp [Shape.ownsMemory])
  | product l form fields ih =>
    refine fun h => ⟨?_, ?_⟩
    · rintro p xs blocks ⟨ps, _, spread⟩
      exact fieldsSpread_blocks_of_parts ih h spread
    · rintro p addr blocks ⟨ps, _, laid⟩
      exact fieldsLaid_blocks_of_parts ih h laid
  | sum l form payloads ih =>
    refine fun h => ⟨?_, ?_⟩
    · rintro p xs blocks ⟨index, payload, rest, _, _, _, _, spread⟩
      rcases caseSpread_iff.mp spread with ⟨_, _, none⟩ | ⟨s, hpart, spread⟩
      · exact none
      · have mem := mem_of_getElem? hpart
        exact (ih s mem (ownsMemory?_eq_false_of_mem h mem)).1 _ _ _ spread
    · rintro p addr blocks ⟨index, payload, _, _, _, laid⟩
      rcases caseLaid_iff.mp laid with ⟨_, _, none⟩ | ⟨s, hpart, laid⟩
      · exact none
      · have mem := mem_of_getElem? hpart
        exact (ih s mem (ownsMemory?_eq_false_of_mem h mem)).2 _ _ _ laid
  | synonym l target ih =>
    cases target with
    | none => exact fun _ => ⟨fun _ _ _ h => h.elim, fun _ _ _ h => h.elim⟩
    | some s => exact ih s rfl
  | channel | resource | unfinished =>
    exact fun _ => ⟨fun _ _ _ h => h.elim, fun _ _ _ h => h.elim⟩

theorem Shape.Laid.blocks_eq_nil (h : s.ownsMemory = false) (laid : s.Laid raw mem p addr blocks) :
    blocks = [] :=
  (ownsNothing s h).2 _ _ _ laid

theorem Laid?.blocks_eq_nil {part : Option Shape} (h : ownsMemory? part = false)
    (laid : Laid? raw mem part p addr blocks) : blocks = [] := by
  cases part with
  | none => exact laid.elim
  | some s => exact Shape.Laid.blocks_eq_nil h laid

theorem FieldsSpread.blocks_eq_nil (h : anyOwnsMemory fields = false)
    (spread : FieldsSpread raw mem fields ps xs blocks) : blocks = [] :=
  fieldsSpread_blocks_of_parts (fun s _ => ownsNothing s) h spread

end Carried

/-! ## Shapes that own memory -/

theorem exists_of_anyOwnsMemory {parts : Parts} (h : anyOwnsMemory parts = true) :
    ∃ s, some s ∈ parts ∧ s.ownsMemory = true := by
  rw [anyOwnsMemory_eq_any, any_eq_true] at h
  obtain ⟨_ | s, mem, owns⟩ := h
  · cases owns
  · exact ⟨s, mem, owns⟩

theorem length_slots_le_of_mem {fields : Parts} (h : some s ∈ fields) :
    s.slots.length ≤ (fieldSlots fields).length := by
  induction fields with
  | nil => simp at h
  | cons f fs ih =>
    rw [fieldSlots, length_append]
    rcases mem_cons.mp h with rfl | h
    · exact Nat.le_add_right _ _
    · exact Nat.le_trans (ih h) (Nat.le_add_left _ _)

theorem Shape.two_le_slots (h : s.ownsMemory = true) : 2 ≤ s.slots.length := by
  induction s with
  | string | list => exact Nat.le_refl 2
  | product l form fields ih =>
    obtain ⟨s, mem, h⟩ := exists_of_anyOwnsMemory h
    exact Nat.le_trans (ih s mem h) (length_slots_le_of_mem mem)
  | sum l form payloads ih =>
    obtain ⟨s, mem, h⟩ := exists_of_anyOwnsMemory h
    exact Nat.le_trans (ih s mem h) (Nat.le_succ_of_le (FitSlots.of_mem mem).length_le)
  | synonym l target ih =>
    cases target with
    | none => exact absurd h nofun
    | some s => exact ih s rfl h
  | scalar | enum | flags | handle | channel | resource | unfinished => exact absurd h nofun

theorem anyOwnsMemory_eq_false {fields : Parts}
    (h : (fieldSlots fields).length ≤ 1) : anyOwnsMemory fields = false := by
  by_contra owns
  obtain ⟨s, mem, owns⟩ := exists_of_anyOwnsMemory (Bool.eq_true_of_not_eq_false owns)
  have := Shape.two_le_slots owns
  have := length_slots_le_of_mem mem
  omega

theorem Layout.Between.size_le {start stop : Nat} {offsets : List UInt32} {layouts : List Layout}
    (h : Between start stop offsets layouts) {l : Layout} (hl : l ∈ layouts) :
    l.size.toNat ≤ stop := by
  induction layouts generalizing start offsets with
  | nil => simp at hl
  | cons l' layouts ih =>
    cases offsets with
    | nil => exact h.elim
    | cons o offsets =>
      rcases mem_cons.mp hl with rfl | hl
      · have := h.2.start_le
        omega
      · exact ih h.2 hl

theorem Shape.size_pos (hfit : s.Fits) (h : s.ownsMemory = true) : 0 < s.place.size.toNat := by
  induction s with
  | string | list => exact Nat.succ_pos 7
  | product l form fields ih =>
    obtain ⟨s, mem, h⟩ := exists_of_anyOwnsMemory h
    have between := placedOffsets_between hfit.1 hfit.2
    refine Nat.lt_of_lt_of_le (ih s mem (hfit.1.of_mem mem) h) (between.size_le ?_)
    rw [fieldPlaces_eq_map]
    exact mem_map_of_mem mem
  | sum l form payloads ih =>
    have tag := tag_le_placedPayload hfit.1 hfit.2
    have : 0 < (tagWidth payloads.length).size.toNat := by
      cases tagWidth payloads.length <;> decide
    exact Nat.lt_of_lt_of_le this (tag.1.trans tag.2)
  | synonym l target ih =>
    cases target with
    | none => exact absurd h nofun
    | some s => exact ih s rfl hfit h
  | scalar | enum | flags | handle | channel | resource | unfinished => exact absurd h nofun

end CanonicalAbi
