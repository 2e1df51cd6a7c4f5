import CanonicalAbi.Proofs.Execution
import CanonicalAbi.Proofs.Typing

/-!
# Values of a type

When a value of the interface is one of its type, and when a register holds an operand of its type.
-/

namespace CanonicalAbi

open OperandType

variable {v : Value} {s : Scalar} {x : UInt64}

section IsValue

variable (raw : RawRule)

mutual

/-- Whether a value is one of the shape for the side that receives it: scalars of the type, texts
that are well formed, case numbers in range, one truth value for each flag, nothing for a case
without payload, and bytes for a list that is moved as such. -/
def Shape.IsValue : Shape → Value → Prop
  | .scalar s, v => s.Admits v
  | .string, v => ∃ data, v = .string data ∧ Text.Utf8.isValid data
  | .product _ _ fields, v => ∃ vs, v = .list vs ∧ FieldsAre fields vs
  | .sum _ _ payloads, v => ∃ index payload, v = .case index payload
      ∧ CaseIs payloads index.toNat payload
  | .enum _ cases, v => ∃ n : UInt32, v = .u32 n ∧ n.toNat < cases
  | .flags _ count, v => ∃ fs : List Bool, v = .flags fs ∧ fs.length = count
  | .list _ elem, v =>
    if raw elem then ∃ data : List UInt8, v = .bytes data
    else ∃ vs : List Value, v = .list vs ∧ ∀ x ∈ vs, IsValue? elem x
  | .handle _ .own _, v => ∃ rep, v = .own rep
  | .handle _ .borrow _, v => ∃ rep, v = .borrow rep 0
  | .synonym _ target, v => IsValue? target v
  | .channel _ _, _ | .resource _, _ | .unfinished _, _ => False

def IsValue? : Option Shape → Value → Prop
  | none, v => v = .nothing
  | some s, v => s.IsValue v

def FieldsAre : Parts → List Value → Prop
  | [], vs => vs = []
  | _ :: _, [] => False
  | f :: fs, v :: vs => IsValue? f v ∧ FieldsAre fs vs

def CaseIs : Parts → Nat → Value → Prop
  | [], _, _ => False
  | p :: _, 0, v => IsValue? p v
  | _ :: ps, n + 1, v => CaseIs ps n v

end

end IsValue

variable {raw : RawRule}

theorem fieldsAre_iff {fields : Parts} {vs : List Value} :
    FieldsAre raw fields vs ↔ List.Forall₂ (IsValue? raw) fields vs := by
  induction fields generalizing vs with
  | nil => simp [FieldsAre]
  | cons f fs ih =>
    cases vs with
    | nil => simp [FieldsAre]
    | cons v vs => simp [FieldsAre, ih]

theorem caseIs_iff {payloads : Parts} {n : Nat} :
    CaseIs raw payloads n v ↔ ∃ p, payloads[n]? = some p ∧ IsValue? raw p v := by
  induction payloads generalizing n with
  | nil => simp [CaseIs]
  | cons p ps ih =>
    cases n with
    | zero => simp [CaseIs]
    | succ n => simp [CaseIs, ih]

theorem Shape.isValue?_exposed (s : Shape) (v : Value) :
    IsValue? raw s.exposed v ↔ s.IsValue raw v := by
  induction s with
  | synonym l target ih =>
    cases target with
    | none => simp [Shape.exposed, exposed?, IsValue, IsValue?]
    | some s => simpa [Shape.exposed, exposed?, IsValue, IsValue?] using ih s rfl
  | _ => rfl

theorem isValue?_exposed? (part : Option Shape) (v : Value) :
    IsValue? raw (exposed? part) v ↔ IsValue? raw part v := by
  cases part with
  | none => rfl
  | some s => exact s.isValue?_exposed v

/-! ## Operands -/

/-- What is known about a run, for operands that were not made by the run may be anything. -/
structure Assurance where
  typed : Prop
  ranged : Prop
  reported : Prop

def Assurance.loose : Assurance := ⟨False, False, False⟩

def Assurance.Allows (a : Assurance) (e : Failure) : Prop := a.reported → e.report?.isSome

section Means

variable (raw) (a : Assurance)

/-- Whether a value is an operand of the type, as far as is known. -/
def OperandType.Means : OperandType → Value → Prop
  | .source part, v => a.typed → IsValue? raw part v
  | .core t, v => ∃ n, v = .u64 n ∧ (a.ranged → t.Holds n)

def Mean (types : List OperandType) (vs : List Value) : Prop :=
  List.Forall₂ (OperandType.Means raw a) types vs

/-- Whether a block that is run for something finds it in its scope. -/
def Item.Means : Item → Scope → Prop
  | .nothing, _ | .address, _ => True
  | .payload part, scope => (of part).Means raw a scope.payload
  | .element part, scope => (of part).Means raw a scope.elem

/-- Whether the arguments in a scope are operands of some types, as far as there are any. -/
def ArgsMean (types : List OperandType) (scope : Scope) : Prop :=
  ∀ (index : Nat) (t : OperandType) v, types[index]? = some t → scope.args[index]? = some v →
    t.Means raw a v

def RegsMean {α : Type} (Γ : RegTypes) (m : Machine α) : Prop :=
  ∀ (r : Reg) (t : OperandType), Γ[r]? = some (some t) → t.Means raw a (m.reg r)

end Means

variable {a : Assurance}

theorem RegsMean.nil {α : Type} {m : Machine α} : RegsMean raw a [] m := by
  intro r t hr
  cases hr

@[simp] theorem OperandType.means_of {part : Option Shape} {v : Value} :
    (of part).Means raw a v ↔ (a.typed → IsValue? raw part v) := by
  rw [of, OperandType.Means, isValue?_exposed?]

theorem OperandType.means_core (t : CoreType) {n : UInt64} (h : t.Holds n) :
    (core t).Means raw a (.u64 n) := ⟨n, rfl, fun _ => h⟩

theorem OperandType.means_ofU32 (t : CoreType) (n : UInt32) :
    (core t).Means raw a (.ofU32 n) := means_core t (t.holds_toUInt64 n)

namespace Mean

variable {types : List OperandType} {vs : List Value}

theorem nil : Mean raw a [] [] := List.Forall₂.nil

theorem one {t : OperandType} (h : t.Means raw a v) : Mean raw a [t] [v] :=
  .cons h .nil

theorem source {part : Option Shape} (h : a.typed → IsValue? raw part v) :
    Mean raw a [.source part] [v] := one (t := .source part) h

theorem of_one {t : OperandType} (h : Mean raw a [t] vs) : ∃ v, vs = [v] ∧ t.Means raw a v := by
  cases h with
  | cons hv hrest =>
    cases hrest
    exact ⟨_, rfl, hv⟩

theorem length_eq (h : Mean raw a types vs) : vs.length = types.length :=
  (List.Forall₂.length_eq h).symm

theorem pair (t t' : CoreType) (n n' : UInt32) :
    Mean raw a [.core t, .core t'] [.ofU32 n, .ofU32 n'] :=
  .cons (means_ofU32 t n) (one (means_ofU32 t' n'))

theorem lanes (lanes : List UInt32) :
    Mean raw a (List.replicate lanes.length (.core .i32)) (lanes.map .ofU32) := by
  induction lanes with
  | nil => exact .nil
  | cons n lanes ih => exact .cons (means_ofU32 .i32 n) ih

theorem zeros (types : List CoreType) :
    Mean raw a (types.map .core) (types.map fun _ => .u64 0) := by
  induction types with
  | nil => exact .nil
  | cons t types ih => exact .cons (means_core t (by cases t <;> simp [CoreType.Holds])) ih

theorem of_parts {parts : Parts} :
    Mean raw a (parts.map .of) vs → a.typed → FieldsAre raw parts vs := by
  intro h typed
  rw [fieldsAre_iff]
  rw [Mean, List.forall₂_map_left_iff] at h
  exact h.imp fun _ _ h => means_of.mp h typed

theorem parts {parts : Parts} (hlen : vs.length = parts.length)
    (h : a.typed → FieldsAre raw parts vs) : Mean raw a (parts.map .of) vs := by
  rw [Mean, List.forall₂_map_left_iff]
  by_cases typed : a.typed
  · exact (fieldsAre_iff.mp (h typed)).imp fun _ _ h => means_of.mpr fun _ => h
  · exact List.forall₂_iff_get.mpr ⟨hlen.symm, fun i _ _ =>
      means_of.mpr fun t => absurd t typed⟩

end Mean

/-! ## Conversions of single values -/

theorem Bitcast.Converts.holds {cast : Bitcast} {own slot : CoreType} (h : Converts cast own slot)
    (hx : own.Holds x) : slot.Holds (cast.apply x) := by
  cases h with
  | none => exact hx
  | i64ToI32 => exact CoreType.holds_toUInt64 .i32 _
  | i64ToF32 => exact CoreType.holds_toUInt64 .f32 _
  | i32ToF32 => exact hx
  | f32ToI32 => exact hx
  | _ => trivial

theorem Bitcast.ConvertsAll.means {casts : List Bitcast} {own slots : List CoreType}
    (h : ConvertsAll casts own slots) {vs : List Value} (hv : Mean raw a (own.map .core) vs) :
    Mean raw a (slots.map .core)
      (List.zipWith (fun cast v => .u64 (cast.apply v.core)) casts vs) := by
  induction h generalizing vs with
  | nil =>
    cases hv
    exact .nil
  | cons first rest ih =>
    cases hv with
    | cons hv hvs =>
      obtain ⟨n, rfl, hn⟩ := hv
      exact .cons ⟨_, rfl, fun ranged => first.holds (hn ranged)⟩ (ih hvs)

theorem Scalar.means_lowerValue {x : Value} (h : s.lowerValue v = .ok x) :
    (core s.coreType).Means raw a x := by
  unfold Scalar.lowerValue at h
  split at h
  · next b =>
    cases h
    exact means_core _ (by cases b <;> simp [coreType, CoreType.Holds])
  all_goals first
    | (cases h; exact means_core _ (CoreType.holds_toUInt64 _ _))
    | (cases h; exact means_core _ trivial)
    | skip
  · next n =>
    cases h
    refine means_core _ ?_
    have := n.toNat_lt
    simp [coreType, CoreType.Holds]
    omega
  · next n =>
    cases h
    refine means_core _ ?_
    have := n.toNat_lt
    simp [coreType, CoreType.Holds]
    omega
  · cases h

theorem Scalar.admits_liftValue (h : s.liftValue x = .ok v) : s.Admits v := by
  cases s <;> simp only [liftValue] at h
  case char =>
    split at h
    · next valid =>
      cases h
      simpa [Admits] using valid
    · cases h
  all_goals
    cases h
    trivial

theorem Scalar.report_liftValue {e : Failure} (h : s.liftValue x = .error e) :
    e.report?.isSome := by
  cases s <;> simp only [liftValue] at h
  case char =>
    split at h
    · cases h
    · cases h
      rfl
  all_goals cases h

theorem Scalar.report_lowerValue {e : Failure} (h : s.lowerValue v = .error e) :
    e.report?.isSome := by
  unfold Scalar.lowerValue at h
  split at h
  all_goals
    cases h
  rfl

end CanonicalAbi
