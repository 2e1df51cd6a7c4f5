import CanonicalAbi.Stream.Generator
import Mathlib.Tactic.SplitIfs

/-!
# Passable shapes

Flattening and layout are partial: a type that is left out, an unfinished definition or a resource
outside a handle has neither.
-/

namespace CanonicalAbi

variable {payloads fields : Parts} {part : Option Shape}

/-! ## Induction on shapes -/

@[elab_as_elim, induction_eliminator]
theorem Shape.induct {P : Shape → Prop} (scalar : ∀ s, P (.scalar s)) (string : P .string)
    (product : ∀ l form fields, (∀ s, some s ∈ fields → P s) → P (.product l form fields))
    (sum : ∀ l form payloads, (∀ s, some s ∈ payloads → P s) → P (.sum l form payloads))
    (enum : ∀ l cases, P (.enum l cases)) (flags : ∀ l count, P (.flags l count))
    (list : ∀ l elem, (∀ s, elem = some s → P s) → P (.list l elem))
    (handle : ∀ l form resource, P (.handle l form resource))
    (channel : ∀ l form, P (.channel l form)) (resource : ∀ l, P (.resource l))
    (synonym : ∀ l target, (∀ s, target = some s → P s) → P (.synonym l target))
    (unfinished : ∀ l, P (.unfinished l)) (s : Shape) : P s :=
  @Shape.rec P (fun fields => ∀ s, some s ∈ fields → P s) (fun part => ∀ s, part = some s → P s)
    scalar string product sum enum flags list handle channel resource synonym unfinished
    (fun _ h => absurd h List.not_mem_nil)
    (fun _ _ head tail s h => (List.mem_cons.mp h).elim (fun e => head s e.symm) (tail s))
    (fun _ h => nomatch h)
    (fun _ h _ e => Option.some.inj e ▸ h) s

section Parts

variable {α β : Type} {f : α → β} {x : β} {xs : List β} {P : α → Prop}

theorem head_part (h : ∀ a, f a ∈ x :: xs → P a) : ∀ a, x = f a → P a :=
  fun a e => h a (e ▸ List.mem_cons_self)

theorem tail_parts (h : ∀ a, f a ∈ x :: xs → P a) : ∀ a, f a ∈ xs → P a :=
  fun a m => h a (List.mem_cons_of_mem _ m)

end Parts

/-! ## Passability -/

mutual

/-- Whether values of the shape can be passed: no part that a value needs is left out, unfinished,
still to arrive, or a resource by value. -/
def Shape.Passable : Shape → Prop
  | .scalar _ | .string | .enum _ _ | .flags _ _ | .handle _ _ _ => True
  | .product _ _ fields => FieldsPassable fields
  | .sum _ _ payloads => PayloadsPassable payloads
  | .list _ elem => Passable? elem
  | .synonym _ target => Passable? target
  | .channel _ _ | .resource _ | .unfinished _ => False

def Passable? : Option Shape → Prop
  | none => False
  | some s => s.Passable

def FieldsPassable : Parts → Prop
  | [] => True
  | f :: fs => Passable? f ∧ FieldsPassable fs

def PayloadsPassable : Parts → Prop
  | [] => True
  | none :: ps => PayloadsPassable ps
  | some p :: ps => p.Passable ∧ PayloadsPassable ps

end

theorem passable?_iff : Passable? part ↔ ∃ s, part = some s ∧ s.Passable := by
  cases part <;> simp [Passable?]

theorem fieldsPassable_iff : FieldsPassable fields ↔ ∀ f ∈ fields, Passable? f := by
  induction fields with
  | nil => simp [FieldsPassable]
  | cons f fs ih => simp [FieldsPassable, ih]

theorem payloadsPassable_iff : PayloadsPassable payloads ↔ ∀ p, some p ∈ payloads → p.Passable := by
  induction payloads with
  | nil => simp [PayloadsPassable]
  | cons p ps ih =>
    cases p with
    | none => simp [PayloadsPassable, ih]
    | some p => simp [PayloadsPassable, ih]

/-! ## Memory that values own -/

theorem anyOwnsMemory_eq_any (parts : Parts) :
    anyOwnsMemory parts = parts.any ownsMemory? := by
  induction parts with
  | nil => rfl
  | cons p ps ih => rw [anyOwnsMemory, ih, List.any_cons]

theorem ownsMemory?_eq_false_of_mem (h : anyOwnsMemory fields = false) (hp : part ∈ fields) :
    ownsMemory? part = false := by
  rw [anyOwnsMemory_eq_any, List.any_eq_false] at h
  exact Bool.eq_false_iff.mpr (h part hp)

/-! ## Flattening passable shapes -/

mutual

def Shape.slots : Shape → List CoreType
  | .scalar s => [s.coreType]
  | .string | .list _ _ => [.i32, .i32]
  | .product _ _ fields => fieldSlots fields
  | .sum _ _ payloads => flatSum (payloadSlots payloads)
  | .enum _ _ | .handle _ _ _ => [.i32]
  | .flags _ count => List.replicate (FlagsStorage.ofCount count).lanes .i32
  | .synonym _ target => slots? target
  | .channel _ _ | .resource _ | .unfinished _ => []

def slots? : Option Shape → List CoreType
  | none => []
  | some s => s.slots

def fieldSlots : Parts → List CoreType
  | [] => []
  | f :: fs => slots? f ++ fieldSlots fs

def payloadSlots : Parts → List (List CoreType)
  | [] => []
  | none :: ps => payloadSlots ps
  | some p :: ps => p.slots :: payloadSlots ps

end

theorem mem_payloadSlots {p : Shape} (h : some p ∈ payloads) : p.slots ∈ payloadSlots payloads := by
  have slots : payloadSlots payloads = payloads.filterMap (·.map Shape.slots) := by
    clear h
    induction payloads with
    | nil => rfl
    | cons q ps ih => cases q <;> simp [payloadSlots, ih]
  exact slots ▸ List.mem_filterMap.mpr ⟨some p, h, rfl⟩

section Flat

/-- What flattening owes to a shape, as the hypothesis of its parts. -/
private def FlatTotal (s : Shape) : Prop := s.Passable → s.flat = .ok s.slots

private theorem flat?_of_parts {part : Option Shape} (hs : ∀ s, part = some s → FlatTotal s)
    (h : Passable? part) : flat? part = .ok (slots? part) := by
  cases part with
  | none => exact absurd h (by simp [Passable?])
  | some s => exact hs s rfl h

private theorem flatFields_of_parts {fields : Parts}
    (hs : ∀ s, some s ∈ fields → FlatTotal s) (h : FieldsPassable fields) :
    flatFields fields = .ok (fieldSlots fields) := by
  induction fields with
  | nil => rfl
  | cons f fs ih =>
    have hf : flat? f = .ok (slots? f) :=
      flat?_of_parts (head_part hs) h.1
    have hfs := ih (tail_parts hs) h.2
    simp only [flatFields, hf, hfs]
    rfl

private theorem flatPayloads_of_parts {payloads : Parts}
    (hs : ∀ s, some s ∈ payloads → FlatTotal s) (h : PayloadsPassable payloads) :
    flatPayloads payloads = .ok (payloadSlots payloads) := by
  induction payloads with
  | nil => rfl
  | cons p ps ih =>
    have hps := ih (tail_parts hs)
    cases p with
    | none => exact hps h
    | some p =>
      have hp : p.flat = .ok p.slots := hs p List.mem_cons_self h.1
      simp only [flatPayloads, hp, hps h.2]
      rfl

theorem Shape.flat_eq {s : Shape} (h : s.Passable) : s.flat = .ok s.slots := by
  suffices FlatTotal s from this h
  clear h
  induction s with
  | scalar | string | enum | flags | handle => intro _; rfl
  | product l form fields ih => exact flatFields_of_parts ih
  | sum l form payloads ih =>
    intro h
    simp only [Shape.flat, flatPayloads_of_parts ih h]
    rfl
  | list => intro _; rfl
  | synonym l target ih => exact flat?_of_parts ih
  | channel | resource | unfinished => exact fun h => absurd h (by simp [Shape.Passable])

theorem flat?_eq (h : Passable? part) : flat? part = .ok (slots? part) :=
  flat?_of_parts (fun _ _ => Shape.flat_eq) h

theorem flatFields_eq (h : FieldsPassable fields) : flatFields fields = .ok (fieldSlots fields) :=
  flatFields_of_parts (fun _ _ => Shape.flat_eq) h

theorem flatPayloads_eq (h : PayloadsPassable payloads) :
    flatPayloads payloads = .ok (payloadSlots payloads) :=
  flatPayloads_of_parts (fun _ _ => Shape.flat_eq) h

end Flat

/-! ## Placing passable shapes -/

mutual

def Shape.place : Shape → Layout
  | .scalar s => .scalar s
  | .string | .list _ _ => .pointerPair
  | .product _ _ fields => .product (fieldPlaces fields)
  | .sum _ _ payloads => .sum (tagWidth payloads.length) (payloadPlaces payloads)
  | .enum _ cases => .enum cases
  | .flags _ count => .flags count
  | .handle _ _ _ | .channel _ _ | .resource _ | .unfinished _ => .handle
  | .synonym _ target => place? target

def place? : Option Shape → Layout
  | none => .handle
  | some s => s.place

def fieldPlaces : Parts → List Layout
  | [] => []
  | f :: fs => place? f :: fieldPlaces fs

/-- The layouts of the payloads of a sum, without the cases that have none. -/
def payloadPlaces : Parts → List Layout
  | [] => []
  | none :: ps => payloadPlaces ps
  | some p :: ps => p.place :: payloadPlaces ps

end

theorem fieldPlaces_eq_map (fields : Parts) :
    fieldPlaces fields = fields.map place? := by
  induction fields with
  | nil => rfl
  | cons f fs ih => simp [fieldPlaces, ih]

theorem fieldLayouts_of_parts (h : ∀ f ∈ fields, optLayout f = .ok (place? f)) :
    fieldLayouts fields = .ok (fieldPlaces fields) := by
  induction fields with
  | nil => rfl
  | cons f fs ih =>
    have hf := h f List.mem_cons_self
    have hfs := ih fun f' hf' => h f' (List.mem_cons_of_mem _ hf')
    simp only [fieldLayouts, hf, hfs]
    rfl

theorem payloadLayouts_of_parts (h : ∀ p, some p ∈ payloads → p.layout = .ok p.place) :
    payloadLayouts payloads = .ok (payloadPlaces payloads) := by
  induction payloads with
  | nil => rfl
  | cons p ps ih =>
    have hps := ih fun p' hp' => h p' (List.mem_cons_of_mem _ hp')
    cases p with
    | none => exact hps
    | some p =>
      have hp := h p List.mem_cons_self
      simp only [payloadLayouts, hp, hps]
      rfl

theorem Shape.layout_eq {s : Shape} (h : s.Passable) : s.layout = .ok s.place := by
  induction s with
  | scalar | string | enum | flags | handle => rfl
  | product l form fields ih =>
    have parts : fieldLayouts fields = .ok (fieldPlaces fields) := by
      refine fieldLayouts_of_parts fun f hf => ?_
      obtain ⟨s, rfl, hs⟩ := passable?_iff.mp (fieldsPassable_iff.mp h f hf)
      exact ih s hf hs
    simp only [Shape.layout, parts]
    rfl
  | sum l form payloads ih =>
    have parts := payloadLayouts_of_parts fun p hp => ih p hp (payloadsPassable_iff.mp h p hp)
    simp only [Shape.layout, parts]
    rfl
  | list => rfl
  | synonym l target ih =>
    obtain ⟨s, rfl, hs⟩ := passable?_iff.mp h
    exact ih s rfl hs
  | channel | resource | unfinished => exact absurd h (by simp [Shape.Passable])

theorem optLayout_eq (h : Passable? part) : optLayout part = .ok (place? part) := by
  obtain ⟨s, rfl, hs⟩ := passable?_iff.mp h
  exact s.layout_eq hs

theorem fieldLayouts_eq (h : FieldsPassable fields) :
    fieldLayouts fields = .ok (fieldPlaces fields) :=
  fieldLayouts_of_parts fun f hf => optLayout_eq (fieldsPassable_iff.mp h f hf)

theorem payloadLayouts_eq (h : PayloadsPassable payloads) :
    payloadLayouts payloads = .ok (payloadPlaces payloads) :=
  payloadLayouts_of_parts fun p hp => p.layout_eq (payloadsPassable_iff.mp h p hp)

def placedOffsets (fields : Parts) : List UInt32 :=
  (Layout.product (fieldPlaces fields)).offsets

def placedPayload (payloads : Parts) : UInt32 :=
  (Layout.sum (tagWidth payloads.length) (payloadPlaces payloads)).payload

theorem fieldOffsets_eq (h : FieldsPassable fields) :
    fieldOffsets fields = .ok (placedOffsets fields) := by
  simp only [fieldOffsets, fieldLayouts_eq h]
  rfl

theorem payloadOffset_eq (h : PayloadsPassable payloads) :
    payloadOffset payloads = .ok (placedPayload payloads) := by
  simp only [payloadOffset, payloadLayouts_eq h]
  rfl

theorem length_placeFields (offset : UInt32) (fields : List Layout) :
    (Layout.placeFields offset fields).1.length = fields.length := by
  induction fields generalizing offset with
  | nil => rfl
  | cons f fs ih => simp [Layout.placeFields, ih]

theorem length_placedOffsets (fields : Parts) :
    (placedOffsets fields).length = fields.length := by
  simp [placedOffsets, Layout.product, length_placeFields, fieldPlaces_eq_map]

theorem lanes_eq_one {count : Nat} (h : (FlagsStorage.ofCount count).unit ≠ .u32) :
    (FlagsStorage.ofCount count).lanes = 1 := by
  simp only [FlagsStorage.ofCount] at h ⊢
  split_ifs at h ⊢ <;> first | rfl | exact absurd rfl h

end CanonicalAbi
