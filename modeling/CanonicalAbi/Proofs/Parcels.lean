import CanonicalAbi.Proofs.Representation

/-!
# Parcels

What is on its way when a value is passed, without registers and addresses. Sending a value makes a
parcel, and receiving the parcel makes a value again; both may fail, and both work on handles.
-/

namespace CanonicalAbi

open List Shape

variable {β γ : Type} {s : Shape}

/-! ## Handles -/

/-- The handle table, if there is one, and the loans of a run, the newest first. -/
structure Custody where
  table : Option HandleTable
  lent : List Handle

/-- A transfer under the custody of handles, which can fail. -/
abbrev Passing := StateT Custody Option

namespace Passing

theorem run_bind_none {x : Passing β} {f : β → Passing γ} {c : Custody} (h : x.run c = none) :
    (x >>= f).run c = none := by
  rw [StateT.run_bind, h]
  rfl

theorem run_bind_some {x : Passing β} {f : β → Passing γ} {c c' : Custody} {a : β}
    (h : x.run c = some (a, c')) : (x >>= f).run c = (f a).run c' := by
  rw [StateT.run_bind, h]
  rfl

theorem run_bind_eq_some {x : Passing β} {f : β → Passing γ} {c c' : Custody} {b : γ} :
    (x >>= f).run c = some (b, c') ↔
      ∃ a c1, x.run c = some (a, c1) ∧ (f a).run c1 = some (b, c') := by
  rw [StateT.run_bind]
  rcases x.run c with _ | ⟨a, c1⟩
  · simp
  · simp

def onTable (op : TableOp β) : Passing β := fun c =>
  match c.table with
  | none => none
  | some t =>
    match runFrom op t with
    | (.ok b, t) => some (b, { c with table := some t })
    | (.error _, _) => none

def sendHandle (form : HandleForm) (type : Option Label) (v : Value) : Passing Handle :=
  match form, v with
  | .own, .own rep => onTable (.addOwned type rep)
  | .borrow, .borrow rep lender => do
    let h ← onTable (if lender = 0 then .addBorrowed type rep else .lend lender type)
    modify fun c => { c with lent := h :: c.lent }
    return h
  | _, _ => failure

def receiveHandle (form : HandleForm) (type : Option Label) (h : Handle) : Passing Value :=
  match form with
  | .own => .own <$> onTable (.take h type)
  | .borrow => (.borrow · 0) <$> onTable (.rep h type)

end Passing

/-! ## Words in memory -/

/-- What loads bring back of the integers of `count` flags. -/
def reloadLanes (count : Nat) (lanes : List UInt32) : List UInt32 :=
  if (FlagsStorage.ofCount count).unit = .u32 then lanes
  else lanes.map fun lane =>
    ((FlagsStorage.ofCount count).unit.loadOp.reload lane.toUInt64).toUInt32

/-! ## Parcels -/

/-- A value on its way, with handles in place of resources. -/
inductive Parcel where
  | leaf (v : Option Value)
  | handle (form : HandleForm) (type : Option Label) (h : Handle)
  | parts (ps : List Parcel)
  | case (index : UInt32) (payload : Parcel)

namespace Parcel

def text (data : List UInt8) : Parcel :=
  leaf (if Text.Utf8.isValid data then some (.string data) else none)

def bytes (data : List UInt8) : Parcel := leaf (some (.bytes data))

def flags (count : Nat) (lanes : List UInt32) : Parcel :=
  leaf (some (.flags (laneFlags lanes count)))

mutual

def receive : Parcel → Passing Value
  | leaf v => StateT.lift v
  | handle form type h => Passing.receiveHandle form type h
  | parts ps => .list <$> receiveAll ps
  | case index payload => .case index <$> receive payload

def receiveAll : List Parcel → Passing (List Value)
  | [] => return []
  | p :: ps => do
    let v ← receive p
    let vs ← receiveAll ps
    return v :: vs

end

end Parcel

def Shape.sendWord : Shape → Value → Passing UInt64
  | .scalar s, v =>
    match s.lowerValue v with
    | .ok x => return x.core
    | .error _ => failure
  | .enum _ _, v =>
    match v with
    | .u32 n => return n.toUInt64
    | _ => failure
  | .handle _ form type, v => UInt32.toUInt64 <$> Passing.sendHandle form type v
  | _, _ => failure

def Shape.opened : Shape → UInt64 → Parcel
  | .scalar s, x => .leaf (s.liftValue x).toOption
  | .enum _ cases, x =>
    .leaf (if x.toUInt32 < .ofNat cases then some (.u32 x.toUInt32) else none)
  | .handle _ form type, x => .handle form type x.toUInt32
  | _, _ => .leaf none

section Send

variable (raw : RawRule)

/-- The parcel of a value that is one core value, which may be stored on its way. -/
def Shape.sendSingle (stored : Bool) (s : Shape) (v : Value) : Passing Parcel := do
  let x ← s.sendWord v
  return s.opened (if stored then s.loadOp.reload x else x)

mutual

/-- The parcel of a value, which may be stored on its way. What a list holds always is. A receiver
takes as many elements as the length says, which is a number below 2^32. -/
def Shape.send (stored : Bool) : Shape → Value → Passing Parcel
  | .scalar s, v => sendSingle stored (.scalar s) v
  | .enum l cases, v => sendSingle stored (.enum l cases) v
  | .handle l form type, v => sendSingle stored (.handle l form type) v
  | .string, v =>
    match v with
    | .string data => return .text data
    | _ => failure
  | .product _ _ fields, v =>
    match v with
    | .list vs => .parts <$> sendFields stored fields vs
    | _ => failure
  | .sum _ _ payloads, v =>
    match v with
    | .case index payload =>
      if index < .ofNat payloads.length then
        .case index <$> sendCase stored payloads index.toNat payload
      else failure
    | _ => failure
  | .flags _ count, v =>
    match v with
    | .flags fs =>
      let lanes := flagLanes fs (FlagsStorage.ofCount count).lanes
      return .flags count (if stored then reloadLanes count lanes else lanes)
    | _ => failure
  | .list _ elem, v =>
    if raw elem then
      match v with
      | .bytes data => if Program.isByte elem then return .bytes data else failure
      | _ => failure
    else
      match v with
      | .list vs => do
        let ps ← vs.mapM fun v => send? true elem v
        return .parts (ps.take (UInt32.ofNat vs.length).toNat)
      | _ => failure
  | .synonym _ target, v => send? stored target v
  | .channel _ _, _ | .resource _, _ | .unfinished _, _ => failure

def send? (stored : Bool) : Option Shape → Value → Passing Parcel
  | none, _ => failure
  | some s, v => s.send stored v

def sendFields (stored : Bool) : Parts → List Value → Passing (List Parcel)
  | [], [] => return []
  | s :: shapes, v :: vs => do
    let p ← send? stored s v
    let ps ← sendFields stored shapes vs
    return p :: ps
  | _, _ => failure

def sendCase (stored : Bool) : Parts → Nat → Value → Passing Parcel
  | [], _, _ => failure
  | none :: _, 0, _ => return .leaf (some .nothing)
  | some p :: _, 0, v => p.send stored v
  | _ :: payloads, index + 1, v => sendCase stored payloads index v

end

section Cases

variable {raw} {stored : Bool} {payloads : Parts} {index : Nat} {v : Value}

theorem sendCase_eq : sendCase raw stored payloads index v
    = match payloads[index]? with
      | none => failure
      | some none => return .leaf (some .nothing)
      | some (some s) => s.send raw stored v := by
  induction payloads generalizing index with
  | nil => rfl
  | cons part payloads ih =>
    cases index with
    | zero => cases part <;> rfl
    | succ index => cases part <;> exact ih

end Cases

end Send

/-! ## Values that can be passed -/

section Sized

mutual

/-- Whether the texts and lists of a value take less than 2^32 bytes each. Nothing is asked of parts
that are not of the shape. -/
def Shape.Sized : Shape → Value → Prop
  | .string, v => ∀ data, v = .string data → data.length < 2 ^ 32
  | .product _ _ fields, v => ∀ vs, v = .list vs → FieldsSized fields vs
  | .sum _ _ payloads, v =>
    ∀ index payload, v = .case index payload → CaseSized payloads index.toNat payload
  | .list _ elem, v => (∀ data, v = .bytes data → data.length < 2 ^ 32)
      ∧ ∀ vs, v = .list vs → (extent? elem).size * vs.length < 2 ^ 32 ∧ ∀ x ∈ vs, Sized? elem x
  | .synonym _ target, v => Sized? target v
  | .scalar _, _ | .enum _ _, _ | .flags _ _, _ | .handle _ _ _, _ | .channel _ _, _
  | .resource _, _ | .unfinished _, _ => True

def Sized? : Option Shape → Value → Prop
  | none, _ => True
  | some s, v => s.Sized v

def FieldsSized : Parts → List Value → Prop
  | s :: shapes, v :: vs => Sized? s v ∧ FieldsSized shapes vs
  | _, _ => True

def CaseSized : Parts → Nat → Value → Prop
  | [], _, _ => True
  | none :: _, 0, _ => True
  | some p :: _, 0, v => p.Sized v
  | _ :: payloads, index + 1, v => CaseSized payloads index v

end

mutual

/-- Whether no number that the shape has no case of becomes the number of a case when it is cut down
to the bits that are stored. What lists hold is of no concern: it is always stored. -/
def Shape.EnumsKept : Shape → Value → Prop
  | .enum _ cases, v => ∀ n : UInt32, v = .u32 n →
      n.toNat % 2 ^ (8 * (tagWidth cases).size.toNat) < cases → n.toNat < cases
  | .product _ _ fields, v => ∀ vs, v = .list vs → FieldsKept fields vs
  | .sum _ _ payloads, v =>
    ∀ index payload, v = .case index payload → CaseKept payloads index.toNat payload
  | .synonym _ target, v => EnumsKept? target v
  | .scalar _, _ | .string, _ | .flags _ _, _ | .list _ _, _ | .handle _ _ _, _ | .channel _ _, _
  | .resource _, _ | .unfinished _, _ => True

def EnumsKept? : Option Shape → Value → Prop
  | none, _ => True
  | some s, v => s.EnumsKept v

def FieldsKept : Parts → List Value → Prop
  | s :: shapes, v :: vs => EnumsKept? s v ∧ FieldsKept shapes vs
  | _, _ => True

def CaseKept : Parts → Nat → Value → Prop
  | [], _, _ => True
  | none :: _, 0, _ => True
  | some p :: _, 0, v => p.EnumsKept v
  | _ :: payloads, index + 1, v => CaseKept payloads index v

end

variable {payloads : Parts} {index : Nat} {v : Value}

theorem caseSized_iff :
    CaseSized payloads index v ↔ ∀ s, payloads[index]? = some (some s) → s.Sized v := by
  induction payloads generalizing index with
  | nil => simp [CaseSized]
  | cons part payloads ih =>
    cases index with
    | zero => cases part <;> simp [CaseSized]
    | succ index => cases part <;> exact ih

theorem caseKept_iff :
    CaseKept payloads index v ↔ ∀ s, payloads[index]? = some (some s) → s.EnumsKept v := by
  induction payloads generalizing index with
  | nil => simp [CaseKept]
  | cons part payloads ih =>
    cases index with
    | zero => cases part <;> simp [CaseKept]
    | succ index => cases part <;> exact ih

end Sized

/-! ## Words on both ways -/

/-- Lowered scalars are core values of their type, and loads bring them back, also those that the
receiver refuses. -/
theorem Scalar.lowered {s : Scalar} {v w : Value} (h : s.lowerValue v = .ok w) :
    ∃ x, w = .u64 x ∧ s.coreType.Holds x ∧ s.loadOp.Recovers x := by
  by_cases hv : s.Admits v
  · obtain ⟨x, encodes⟩ := hv.encodes
    rw [encodes.lower] at h
    cases h
    exact ⟨x, rfl, encodes.holds, encodes.recovers⟩
  · -- Only a number that is no character is lowered without being admitted.
    unfold lowerValue at h
    split at h <;> cases h
    case h_2 n => exact ⟨_, rfl, CoreType.holds_toUInt64 _ _, recovers_i32 _⟩
    all_goals exact absurd trivial hv

theorem le_size_unit {count : Nat} (h : (FlagsStorage.ofCount count).unit ≠ .u32) :
    count ≤ 8 * (FlagsStorage.ofCount count).unit.size.toNat := by
  simp only [FlagsStorage.ofCount] at h ⊢
  split_ifs at h ⊢ <;> simp [IntWidth.size] at h ⊢ <;> omega

theorem laneFlags_reloadLanes {count : Nat} {lanes : List UInt32}
    (h : lanes.length = (FlagsStorage.ofCount count).lanes) :
    laneFlags (reloadLanes count lanes) count = laneFlags lanes count := by
  rw [reloadLanes]
  split_ifs with unit
  · rfl
  · have one := lanes_eq_one unit
    rw [one] at h
    obtain ⟨lane, rfl⟩ := length_eq_one_iff.mp h
    have narrow := unit_ne count
    have enough := le_size_unit unit
    simp only [map_cons, map_nil]
    generalize (FlagsStorage.ofCount count).unit = w at narrow enough
    have small : 8 * w.size.toNat ≤ 32 := by cases w <;> simp [IntWidth.size] at narrow ⊢
    refine map_congr_left fun k hk => ?_
    rw [mem_range] at hk
    have first : k / 32 = 0 := by omega
    have bit : k % 32 = k := by omega
    rw [laneFlag_eq_testBit, laneFlag_eq_testBit, first, bit, getD_cons_zero,
      getD_cons_zero, UInt64.toNat_toUInt32, IntWidth.toNat_reload narrow,
      UInt32.toNat_toUInt64, Nat.testBit_mod_two_pow, Nat.testBit_mod_two_pow]
    simp only [show k < 32 by omega, show k < 8 * w.size.toNat by omega, decide_true,
      Bool.true_and]

theorem opened_enum_reload {l : Label} {cases : Nat} (hfit : cases < 2 ^ 32) {n : UInt32}
    (h : n.toNat % 2 ^ (8 * (tagWidth cases).size.toNat) < cases → n.toNat < cases) :
    (enum l cases).opened ((tagWidth cases).loadOp.reload n.toUInt64)
      = (enum l cases).opened n.toUInt64 := by
  have cut := IntWidth.toNat_reload (tagWidth_ne cases) n.toUInt64
  by_cases hn : n.toNat < cases
  · have same : (tagWidth cases).loadOp.reload n.toUInt64 = n.toUInt64 := recovers_tag hn
    rw [same]
  · have out : cases ≤ ((tagWidth cases).loadOp.reload n.toUInt64).toNat := by
      rw [cut]
      exact Nat.le_of_not_lt fun h' => hn (h h')
    have bounded : ((tagWidth cases).loadOp.reload n.toUInt64).toNat < 2 ^ 32 := by
      rw [cut]
      exact Nat.lt_of_le_of_lt (Nat.mod_le _ _) n.toNat_lt
    have refused : ∀ y : UInt64, cases ≤ y.toNat → y.toNat < 2 ^ 32 →
        (enum l cases).opened y = .leaf none := by
      intro y hy hy'
      rw [opened, if_neg]
      rw [UInt32.lt_iff_toNat_lt, UInt32.toNat_ofNat_of_lt' hfit, UInt64.toNat_toUInt32,
        Nat.mod_eq_of_lt hy']
      omega
    rw [refused _ out bounded, refused _ (by rw [UInt32.toNat_toUInt64]; omega)
      (by rw [UInt32.toNat_toUInt64]; exact n.toNat_lt)]

/-! ## Both ways agree -/

section Agree

variable {raw : RawRule}

theorem Shape.sendSingle_stored {v : Value}
    (h : ∀ c x c', (s.sendWord v).run c = some (x, c') →
      s.opened (s.loadOp.reload x) = s.opened x) :
    s.sendSingle true v = s.sendSingle false v := by
  refine StateT.ext fun c => ?_
  rw [sendSingle, sendSingle]
  rcases hx : (s.sendWord v).run c with _ | ⟨x, c'⟩
  · rw [Passing.run_bind_none hx, Passing.run_bind_none hx]
  · rw [Passing.run_bind_some hx, Passing.run_bind_some hx]
    simp only [if_true, h c x c' hx]
    rfl

/-- That a shape is sent alike on both ways, as the hypothesis of its parts. -/
private def SentAlike (raw : RawRule) (s : Shape) : Prop :=
  ∀ v, s.Fits → s.EnumsKept v → s.send raw true v = s.send raw false v

private theorem sendFields_alike_of_parts {fields : Parts}
    (hs : ∀ s, some s ∈ fields → SentAlike raw s) (hfit : FieldsFit fields) {vs : List Value}
    (h : FieldsKept fields vs) :
    sendFields raw true fields vs = sendFields raw false fields vs := by
  induction fields generalizing vs with
  | nil => cases vs <;> rfl
  | cons s shapes ih =>
    cases vs with
    | nil => rfl
    | cons v vs =>
      rw [sendFields, sendFields, ih (tail_parts hs) hfit.2 h.2]
      cases s with
      | none => rfl
      | some s => rw [send?, send?, hs s mem_cons_self v hfit.1 h.1]

private theorem sendCase_alike_of_parts {payloads : Parts}
    (hs : ∀ s, some s ∈ payloads → SentAlike raw s) (hfit : PayloadsFit payloads) {index : Nat}
    {v : Value} (h : CaseKept payloads index v) :
    sendCase raw true payloads index v = sendCase raw false payloads index v := by
  rcases hpart : payloads[index]? with _ | _ | s
  · rw [sendCase_eq, sendCase_eq, hpart]
  · rw [sendCase_eq, sendCase_eq, hpart]
  · have mem := mem_of_getElem? hpart
    rw [sendCase_eq, sendCase_eq, hpart]
    exact hs s mem v (hfit.of_mem mem) (caseKept_iff.mp h s hpart)

theorem Shape.send_stored {v : Value} (hfit : s.Fits) (h : s.EnumsKept v) :
    s.send raw true v = s.send raw false v := by
  suffices SentAlike raw s from this v hfit h
  clear hfit h v
  induction s with
  | scalar s =>
    intro v _ _
    refine sendSingle_stored fun c x c' hx => ?_
    rw [sendWord] at hx
    split at hx
    · next w hw =>
      obtain ⟨y, rfl, _, recovers⟩ := Scalar.lowered hw
      cases hx
      exact congrArg _ recovers
    · cases hx
  | enum l cases =>
    intro v hfit h
    refine sendSingle_stored fun c x c' hx => ?_
    cases v with
    | u32 n =>
      cases hx
      exact opened_enum_reload hfit (h n rfl)
    | _ => cases hx
  | handle l form type =>
    intro v _ _
    refine sendSingle_stored fun c x c' hx => ?_
    rw [sendWord, StateT.run_map] at hx
    obtain ⟨⟨n, c1⟩, _, hn⟩ := Option.map_eq_some_iff.mp hx
    cases hn
    exact congrArg _ (recovers_i32 n)
  | string => exact fun _ _ _ => rfl
  | flags l count =>
    intro v _ _
    simp only [send]
    split
    · simp only [if_true, Bool.false_eq_true, if_false, Parcel.flags,
        laneFlags_reloadLanes (length_flagLanes _ _)]
    · rfl
  | product l form fields ih =>
    intro v hfit h
    simp only [send]
    split
    · next vs => rw [sendFields_alike_of_parts ih hfit.1 (h vs rfl)]
    · rfl
  | sum l form payloads ih =>
    intro v hfit h
    simp only [send]
    split
    · next index payload => rw [sendCase_alike_of_parts ih hfit.1 (h index payload rfl)]
    · rfl
  | list => exact fun _ _ _ => rfl
  | synonym l target ih =>
    intro v hfit h
    cases target with
    | none => rfl
    | some s => exact ih s rfl v hfit h
  | channel | resource | unfinished => exact fun _ _ _ => rfl

end Agree

/-! ## What is refused -/

def Parcel.Refused (p : Parcel) : Prop := ∀ c, p.receive.run c = none

theorem Parcel.refused_parts {ps : List Parcel} (h : ∃ p ∈ ps, p.Refused) :
    (Parcel.parts ps).Refused := by
  suffices ∀ c, (receiveAll ps).run c = none by
    intro c
    rw [receive, StateT.run_map, this c]
    rfl
  induction ps with
  | nil => simp at h
  | cons p ps ih =>
    intro c
    rw [receiveAll]
    rcases hv : p.receive.run c with _ | ⟨v, c1⟩
    · exact Passing.run_bind_none hv
    · obtain ⟨q, hq, refused⟩ := h
      rcases mem_cons.mp hq with rfl | hq
      · rw [refused c] at hv
        cases hv
      · rw [Passing.run_bind_some hv]
        exact Passing.run_bind_none (ih ⟨q, hq, refused⟩ c1)

theorem Parcel.refused_case {index : UInt32} {p : Parcel} (h : p.Refused) :
    (Parcel.case index p).Refused := by
  intro c
  rw [receive, StateT.run_map, h c]
  rfl

section Refused

variable {raw : RawRule}

/-- That numbers which are not kept are refused, as the hypothesis of the parts of a shape. -/
private def RefusesRest (raw : RawRule) (s : Shape) : Prop :=
  ∀ v c p c', s.Fits → ¬ s.EnumsKept v → (s.send raw false v).run c = some (p, c') → p.Refused

private theorem sendFields_refused_of_parts {fields : Parts}
    (hs : ∀ s, some s ∈ fields → RefusesRest raw s) (hfit : FieldsFit fields) {vs : List Value}
    (h : ¬ FieldsKept fields vs) {c c' : Custody} {ps : List Parcel}
    (sent : (sendFields raw false fields vs).run c = some (ps, c')) : ∃ p ∈ ps, p.Refused := by
  induction fields generalizing vs c ps with
  | nil => exact absurd trivial h
  | cons s shapes ih =>
    cases vs with
    | nil => exact absurd trivial h
    | cons v vs =>
      rw [sendFields, Passing.run_bind_eq_some] at sent
      obtain ⟨p, c1, first, sent⟩ := sent
      obtain ⟨ps', c2, rest, sent⟩ := Passing.run_bind_eq_some.mp sent
      cases sent
      by_cases hv : EnumsKept? s v
      · obtain ⟨q, hq, refused⟩ := ih (tail_parts hs) hfit.2
          (fun hvs => h ⟨hv, hvs⟩) rest
        exact ⟨q, mem_cons_of_mem _ hq, refused⟩
      · cases s with
        | none => exact absurd trivial hv
        | some s =>
          exact ⟨p, mem_cons_self, hs s mem_cons_self v c p c1 hfit.1 hv first⟩

theorem Shape.send_refused {v : Value} (hfit : s.Fits) (h : ¬ s.EnumsKept v) {c c' : Custody}
    {p : Parcel} (sent : (s.send raw false v).run c = some (p, c')) : p.Refused := by
  suffices RefusesRest raw s from this v c p c' hfit h sent
  clear sent hfit h c c' p v
  induction s with
  | enum l cases =>
    intro v c p c' hfit h sent
    simp only [Shape.EnumsKept, not_forall] at h
    obtain ⟨n, rfl, _, out⟩ := h
    cases sent
    intro c
    have outside : ¬ n < .ofNat cases := by
      rw [UInt32.lt_iff_toNat_lt, UInt32.toNat_ofNat_of_lt' hfit]
      exact out
    simp only [opened, Bool.false_eq_true, if_false, UInt32.toUInt32_toUInt64, if_neg outside]
    rfl
  | product l form fields ih =>
    intro v c p c' hfit h sent
    simp only [Shape.EnumsKept, not_forall] at h
    obtain ⟨vs, rfl, h⟩ := h
    rw [send, StateT.run_map] at sent
    obtain ⟨⟨ps, c1⟩, inner, hp⟩ := Option.map_eq_some_iff.mp sent
    cases hp
    exact Parcel.refused_parts (sendFields_refused_of_parts ih hfit.1 h inner)
  | sum l form payloads ih =>
    intro v c p c' hfit h sent
    simp only [Shape.EnumsKept, not_forall] at h
    obtain ⟨index, payload, rfl, h⟩ := h
    rw [send] at sent
    split at sent
    case isFalse => cases sent
    rw [StateT.run_map] at sent
    obtain ⟨⟨q, c1⟩, inner, hp⟩ := Option.map_eq_some_iff.mp sent
    cases hp
    rw [caseKept_iff] at h
    push Not at h
    obtain ⟨s, hpart, h⟩ := h
    have mem := mem_of_getElem? hpart
    rw [sendCase_eq, hpart] at inner
    exact Parcel.refused_case (ih s mem payload c q c1 (hfit.1.of_mem mem) h inner)
  | synonym l target ih =>
    intro v c p c' hfit h sent
    cases target with
    | none => exact absurd trivial h
    | some s => exact ih s rfl v c p c' hfit h sent
  | scalar | string | flags | list | handle | channel | resource | unfinished =>
    exact fun _ _ _ _ _ h _ => absurd trivial h

end Refused

end CanonicalAbi
