import CanonicalAbi.Machine.Program
import CanonicalAbi.Proofs.Encodings
import CanonicalAbi.Proofs.Extents
import CanonicalAbi.Proofs.Tables
import CanonicalAbi.Text.Utf8

/-!
# Values of a shape

Which values a shape admits, and what is received for them. All is received as it was sent, except
that a loan of an owned handle arrives as a borrow of the resource behind the handle.
-/

namespace CanonicalAbi

/-! ## Received values -/

/-- The representation that a borrow passes on: its own, or that of the owned handle it is a loan
of. -/
def lentRep (owners : Option HandleTable) (rep lender : UInt32) : UInt32 :=
  if lender = 0 then rep else ((owners.bind (·.get? lender)).map (·.rep)).getD rep

namespace Value

mutual

/-- What is received for a value, if `owners` has the handles that it lends. -/
def received (owners : Option HandleTable) : Value → Value
  | list vs => list (receivedAll owners vs)
  | case index payload => case index (received owners payload)
  | borrow rep lender => borrow (lentRep owners rep lender) 0
  | v => v

def receivedAll (owners : Option HandleTable) : List Value → List Value
  | [] => []
  | v :: vs => received owners v :: receivedAll owners vs

end

mutual

def handles : Value → Nat
  | list vs => handlesAll vs
  | case _ payload => handles payload
  | own _ | borrow _ _ => 1
  | _ => 0

def handlesAll : List Value → Nat
  | [] => 0
  | v :: vs => handles v + handlesAll vs

end

mutual

def Loanless : Value → Prop
  | list vs => LoanlessAll vs
  | case _ payload => Loanless payload
  | borrow _ lender => lender = 0
  | _ => True

def LoanlessAll : List Value → Prop
  | [] => True
  | v :: vs => Loanless v ∧ LoanlessAll vs

end

variable (owners : Option HandleTable)

@[simp] theorem length_receivedAll (vs : List Value) :
    (receivedAll owners vs).length = vs.length := by
  induction vs with
  | nil => rfl
  | cons v vs ih => simp [receivedAll, ih]

mutual

theorem Loanless.received_eq : (v : Value) → v.Loanless → v.received owners = v
  | list vs, h => by rw [received, LoanlessAll.receivedAll_eq vs h]
  | case index payload, h => by rw [received, Loanless.received_eq payload h]
  | borrow rep lender, h => by
    have h : lender = 0 := h
    rw [received, lentRep, if_pos h, h]
  | nothing, _ | bool _, _ | s8 _, _ | u8 _, _ | s16 _, _ | u16 _, _ | s32 _, _ | u32 _, _
  | s64 _, _ | u64 _, _ | f32 _, _ | f64 _, _ | string _, _ | bytes _, _ | flags _, _
  | own _, _ => rfl

theorem LoanlessAll.receivedAll_eq : (vs : List Value) → LoanlessAll vs →
    receivedAll owners vs = vs
  | [], _ => rfl
  | v :: vs, h => by
    rw [receivedAll, Loanless.received_eq v h.1, LoanlessAll.receivedAll_eq vs h.2]

end

end Value

/-! ## Admitted values -/

section Admits

variable (raw : RawRule) (owners : Option HandleTable)

mutual

/-- Whether a value is one of the shape: scalars of the type, texts that are well formed, case
numbers in range, one truth value for each flag, nothing for a case without payload, bytes for a
list that is moved as such, and borrows of which a loan names an owned handle in `owners`. Lengths
and the sizes of lists are below 2^32. So are case numbers, and the cases are counted modulo 2^32:
every case of a type with fewer cases than that is in range. -/
def Shape.Admits : Shape → Value → Prop
  | .scalar s, v => s.Admits v
  | .string, v => ∃ data, v = .string data ∧ Text.Utf8.isValid data ∧ data.length < 2 ^ 32
  | .product _ _ fields, v => ∃ vs, v = .list vs ∧ FieldsAdmit fields vs
  | .sum _ _ payloads, v => ∃ index payload, v = .case index payload
      ∧ index < .ofNat payloads.length ∧ CaseAdmits payloads index.toNat payload
  | .enum _ cases, v => ∃ n : UInt32, v = .u32 n ∧ n.toNat < cases
  | .flags _ count, v => ∃ fs : List Bool, v = .flags fs ∧ fs.length = count
  | .list _ elem, v =>
    if raw elem then ∃ data : List UInt8, v = .bytes data ∧ data.length < 2 ^ 32
    else ∃ vs : List Value, v = .list vs ∧ vs.length < 2 ^ 32
      ∧ (extent? elem).size * vs.length < 2 ^ 32 ∧ ∀ x ∈ vs, Admits? elem x
  | .handle _ .own _, v => ∃ rep, v = .own rep
  | .handle _ .borrow resource, v => ∃ rep lender, v = .borrow rep lender
      ∧ (lender ≠ 0 → ∀ t ∈ owners, ∃ e, t.get? lender = some e ∧ e.owned = true
          ∧ SameResource resource e.resource)
  | .synonym _ target, v => Admits? target v
  | .channel _ _, _ | .resource _, _ | .unfinished _, _ => False

def Admits? : Option Shape → Value → Prop
  | none, _ => False
  | some s, v => s.Admits v

def FieldsAdmit : Parts → List Value → Prop
  | [], [] => True
  | s :: shapes, v :: vs => Admits? s v ∧ FieldsAdmit shapes vs
  | _, _ => False

def CaseAdmits : Parts → Nat → Value → Prop
  | [], _, _ => False
  | none :: _, 0, v => v = .nothing
  | some p :: _, 0, v => p.Admits v
  | _ :: payloads, index + 1, v => CaseAdmits payloads index v

end

theorem FieldsAdmit.length_eq : {fields : Parts} → {vs : List Value} →
    FieldsAdmit raw owners fields vs → vs.length = fields.length
  | [], [], _ => rfl
  | _ :: _, _ :: _, h => congrArg (· + 1) (length_eq h.2)

variable {raw owners}

theorem CaseAdmits.cases {payloads : Parts} {index : Nat} {v : Value}
    (h : CaseAdmits raw owners payloads index v) :
    (payloads[index]? = some none ∧ v = .nothing)
      ∨ ∃ p, payloads[index]? = some (some p) ∧ p.Admits raw owners v := by
  induction payloads generalizing index with
  | nil => exact h.elim
  | cons p payloads ih =>
    cases index with
    | zero =>
      cases p with
      | none => exact .inl ⟨rfl, h⟩
      | some p => exact .inr ⟨p, rfl, h⟩
    | succ index =>
      cases p with
      | none => exact ih h
      | some p => exact ih h

end Admits

/-! ## Shapes without borrows -/

mutual

/-- Whether no value of the shape is a borrow or has one inside. -/
def Shape.Borrowless : Shape → Prop
  | .product _ _ fields => AllBorrowless fields
  | .sum _ _ payloads => AllBorrowless payloads
  | .list _ elem => Borrowless? elem
  | .synonym _ target => Borrowless? target
  | .handle _ form _ => form = .own
  | .scalar _ | .string | .enum _ _ | .flags _ _ | .channel _ _ | .resource _ | .unfinished _ =>
    True

def Borrowless? : Option Shape → Prop
  | none => True
  | some s => s.Borrowless

def AllBorrowless : Parts → Prop
  | [] => True
  | s :: shapes => Borrowless? s ∧ AllBorrowless shapes

end

theorem allBorrowless_iff {parts : Parts} :
    AllBorrowless parts ↔ ∀ s, some s ∈ parts → s.Borrowless := by
  induction parts with
  | nil => simp [AllBorrowless]
  | cons p ps ih => cases p <;> simp [AllBorrowless, Borrowless?, ih]

section Loanless

variable {raw : RawRule} {owners : Option HandleTable}

/-- That values of a shape without borrows have no loans inside, as the hypothesis of its parts. -/
private def HasNoLoans (raw : RawRule) (owners : Option HandleTable) (s : Shape) :
    Prop :=
  s.Borrowless → ∀ v, s.Admits raw owners v → v.Loanless

private theorem fieldsAdmit_loanless_of_parts {fields : Parts}
    (hs : ∀ s, some s ∈ fields → HasNoLoans raw owners s) (h : AllBorrowless fields)
    {vs : List Value} (hvs : FieldsAdmit raw owners fields vs) : Value.LoanlessAll vs := by
  induction fields generalizing vs with
  | nil =>
    cases vs with
    | nil => trivial
    | cons => exact hvs.elim
  | cons f fs ih =>
    cases vs with
    | nil => exact hvs.elim
    | cons v vs =>
      refine ⟨?_, ih (tail_parts hs) h.2 hvs.2⟩
      cases f with
      | none => exact hvs.1.elim
      | some s => exact hs s List.mem_cons_self h.1 v hvs.1

private theorem hasNoLoans (s : Shape) : HasNoLoans raw owners s := by
  induction s with
  | scalar s =>
    intro _ v hv
    have hv : s.Admits v := hv
    unfold Scalar.Admits at hv
    split at hv <;> trivial
  | string =>
    rintro _ v ⟨data, rfl, _⟩
    trivial
  | enum l cases =>
    rintro _ v ⟨n, rfl, _⟩
    trivial
  | flags l count =>
    rintro _ v ⟨fs, rfl, _⟩
    trivial
  | handle l form type =>
    intro h v hv
    obtain rfl : form = .own := h
    obtain ⟨rep, rfl⟩ := hv
    trivial
  | product l form fields ih =>
    rintro h v ⟨vs, rfl, hvs⟩
    exact fieldsAdmit_loanless_of_parts ih h hvs
  | sum l form payloads ih =>
    rintro h v ⟨index, payload, rfl, _, hcase⟩
    rcases hcase.cases with ⟨_, rfl⟩ | ⟨s, hpart, hpayload⟩
    · trivial
    · have mem := List.mem_of_getElem? hpart
      exact ih s mem (allBorrowless_iff.mp h s mem) payload hpayload
  | list l elem ih =>
    intro h v hv
    rw [Shape.Admits] at hv
    split_ifs at hv
    · obtain ⟨data, rfl, _⟩ := hv
      trivial
    · obtain ⟨vs, rfl, _, _, hvs⟩ := hv
      clear * - ih h hvs
      induction vs with
      | nil => trivial
      | cons v vs rest =>
        refine ⟨?_, rest fun x hx => hvs x (List.mem_cons_of_mem _ hx)⟩
        have hv := hvs v List.mem_cons_self
        cases elem with
        | none => exact hv.elim
        | some s => exact ih s rfl h v hv
  | synonym l target ih =>
    intro h v hv
    cases target with
    | none => exact hv.elim
    | some s => exact ih s rfl h v hv
  | channel | resource | unfinished => exact fun _ _ hv => hv.elim

theorem FieldsAdmit.loanless {fields : Parts} (h : AllBorrowless fields)
    {vs : List Value} (hvs : FieldsAdmit raw owners fields vs) : Value.LoanlessAll vs :=
  fieldsAdmit_loanless_of_parts (fun s _ => hasNoLoans s) h hvs

end Loanless

end CanonicalAbi
