import CanonicalAbi.Proofs.Mirroring

/-!
# Delivery

Values of a shape arrive. Sending such a value takes handles for its resources and makes a parcel
that means what is to be received; receiving a parcel gives what it means and gives back the handles
that are owned. Neither fails, unless nothing is known of the handle table.
-/

namespace CanonicalAbi

/-- The failures that are left if the handle table is in order: refusals of memory. -/
def Excused (owners : Option HandleTable) (e : Failure) : Prop := owners.isSome → e.IsRefusal

/-- The handle table is in order, as far as it matters: the handles `uses` are being passed, and
numbers are left for `room` more. -/
def Custody.Passes (owners : Option HandleTable) (uses : List HandleUse) (room : Nat)
    (c : Custody) : Prop :=
  ∀ origin ∈ owners, ∃ t, c.table = some t ∧ Holding origin uses room t

def World.Passes {α : Type} (owners : Option HandleTable) (uses : List HandleUse) (room : Nat)
    (w : World α) : Prop :=
  Custody.Passes owners uses room ⟨w.table, []⟩

theorem Custody.Passes.perm {owners : Option HandleTable} {uses uses' : List HandleUse} {room : Nat}
    {c : Custody} (h : c.Passes owners uses room) (hp : uses.Perm uses') :
    c.Passes owners uses' room := by
  intro origin horigin
  obtain ⟨t, ht, holding⟩ := h origin horigin
  exact ⟨t, ht, holding.perm hp⟩

/-! ## Work that does not fail -/

namespace Passing

variable {owners : Option HandleTable} {β γ : Type} {x : Passing β} {c c' : Custody}
  {Q : β → Custody → Prop}

/-- Work on handles that ends as `Q` says. It fails only if nothing is known of the table. -/
def Yields (owners : Option HandleTable) (x : Passing β) (c : Custody) (Q : β → Custody → Prop) :
    Prop :=
  (x.run c = none → owners = none) ∧ ∀ b c', x.run c = some (b, c') → Q b c'

namespace Yields

theorem of_run {b : β} (h : x.run c = some (b, c')) (hQ : Q b c') : Yields owners x c Q := by
  refine ⟨fun failed => ?_, fun b' c1 ran => ?_⟩
  · rw [h] at failed
    cases failed
  · rw [h] at ran
    cases ran
    exact hQ

theorem pure {b : β} (hQ : Q b c) : Yields owners (pure b) c Q := of_run rfl hQ

theorem imp {Q' : β → Custody → Prop} (h : Yields owners x c Q) (hQ : ∀ b c', Q b c' → Q' b c') :
    Yields owners x c Q' :=
  ⟨h.1, fun b c' ran => hQ b c' (h.2 b c' ran)⟩

theorem bind {f : β → Passing γ} {R : γ → Custody → Prop} (h : Yields owners x c Q)
    (hf : ∀ b c', Q b c' → Yields owners (f b) c' R) : Yields owners (x >>= f) c R := by
  rcases hx : x.run c with _ | ⟨b, c1⟩
  · rw [Yields, run_bind_none hx]
    exact ⟨fun _ => h.1 hx, nofun⟩
  · rw [Yields, run_bind_some hx]
    exact hf b c1 (h.2 b c1 hx)

theorem map (g : β → γ) {R : γ → Custody → Prop}
    (h : Yields owners x c fun b c' => R (g b) c') : Yields owners (g <$> x) c R := by
  exact h.bind fun b c' hr => .pure hr

end Yields

/-! ## Handles -/

variable {uses : List HandleUse} {room : Nat}

/-- A change of the table that works on tables in order, where it gives what `good` says and turns
the handles `uses` that are being passed into those that `uses'` says. -/
theorem onTable_yields (op : TableOp β) (good : β → Prop) (uses' : β → List HandleUse)
    (room' : Nat) (passes : c.Passes owners uses room)
    (hop : ∀ origin ∈ owners, ∀ t, Holding origin uses room t →
      ∃ b t', runFrom op t = (.ok b, t') ∧ good b ∧ Holding origin (uses' b) room' t') :
    Yields owners (onTable op) c fun b c' => (owners.isSome → good b)
      ∧ c'.Passes owners (uses' b) room' ∧ c'.lent = c.lent := by
  cases owners with
  | none =>
    refine ⟨fun _ => rfl, fun b c' ran => ⟨nofun, nofun, ?_⟩⟩
    simp only [StateT.run, onTable] at ran
    split at ran
    · cases ran
    · split at ran <;> cases ran
      rfl
  | some origin =>
    obtain ⟨t, ht, holding⟩ := passes origin rfl
    obtain ⟨b, t', run, result, holding'⟩ := hop origin rfl t holding
    have ran : (onTable op).run c = some (b, { c with table := some t' }) := by
      simp only [StateT.run, onTable, ht, run]
    refine .of_run ran ⟨fun _ => result, ?_, rfl⟩
    rintro _ ⟨⟩
    exact ⟨t', rfl, holding'⟩

theorem sendHandle_yields {raw : RawRule} {l : Label} {form : HandleForm}
    {type : Option Label} {v : Value} (hv : (Shape.handle l form type).Admits raw owners v)
    (passes : c.Passes owners uses (v.handles + room)) :
    Yields owners (sendHandle form type v) c fun h c' => ∃ rep,
      v.received owners = (⟨h, form, type, rep⟩ : HandleUse).value
        ∧ c'.Passes owners (⟨h, form, type, rep⟩ :: uses) room
        ∧ (form = .own → c'.lent = c.lent) := by
  cases form with
  | own =>
    obtain ⟨rep, rfl⟩ := hv
    rw [Value.handles, Nat.add_comm] at passes
    refine (onTable_yields _ (fun _ => True) (fun h => ⟨h, .own, type, rep⟩ :: uses) room passes
      ?_).imp ?_
    · intro origin _ t holding
      obtain ⟨h, t', run, holding'⟩ := holding.addOwned type rep
      exact ⟨h, t', run, trivial, holding'⟩
    · exact fun h c' ⟨_, passes', lent⟩ => ⟨rep, rfl, passes', fun _ => lent⟩
  | borrow =>
    obtain ⟨rep, lender, rfl, hlender⟩ := hv
    rw [Value.handles, Nat.add_comm] at passes
    refine (onTable_yields _ (fun _ => True)
      (fun h => ⟨h, .borrow, type, lentRep owners rep lender⟩ :: uses) room passes ?_).bind ?_
    · intro origin horigin t holding
      by_cases hz : lender = 0
      · rw [if_pos hz, lentRep, if_pos hz]
        obtain ⟨h, t', run, holding'⟩ := holding.addBorrowed type rep
        exact ⟨h, t', run, trivial, holding'⟩
      · obtain ⟨e, he, owned, same⟩ := hlender hz origin horigin
        have hrep : lentRep owners rep lender = e.rep := by
          rw [Option.mem_def] at horigin
          simp [lentRep, hz, horigin, he]
        rw [if_neg hz, hrep]
        obtain ⟨h, t', run, holding'⟩ := holding.lend he owned same
        exact ⟨h, t', run, trivial, holding'⟩
    · exact fun h c' ⟨_, passes', _⟩ => .of_run rfl ⟨_, rfl, passes', nofun⟩

theorem receiveHandle_yields {u : HandleUse} (passes : c.Passes owners (u :: uses) room) :
    Yields owners (receiveHandle u.form u.resource u.handle) c fun w c' =>
      (owners.isSome → w = u.value) ∧ c'.Passes owners uses room := by
  obtain ⟨h, form, type, rep⟩ := u
  cases form with
  | own =>
    refine .map _ ((onTable_yields _ (fun found => found = rep) (fun _ => uses) room passes
      ?_).imp ?_)
    · intro origin _ t holding
      obtain ⟨t', run, holding'⟩ := holding.take rfl
      exact ⟨rep, t', run, rfl, holding'⟩
    · exact fun found c' ⟨hfound, passes', _⟩ => ⟨fun strict => by rw [hfound strict]; rfl, passes'⟩
  | borrow =>
    refine .map _ ((onTable_yields _ (fun found => found = rep) (fun _ => uses) room passes
      ?_).imp ?_)
    · exact fun origin _ t holding => ⟨rep, t, holding.rep, rfl, holding.forget⟩
    · exact fun found c' ⟨hfound, passes', _⟩ => ⟨fun strict => by rw [hfound strict]; rfl, passes'⟩

end Passing

/-! ## What a parcel means -/

mutual

def Parcel.Means : Parcel → Value → List HandleUse → Prop
  | .leaf v, w, uses => v = some w ∧ uses = []
  | .handle form type h, w, uses => ∃ rep, w = (⟨h, form, type, rep⟩ : HandleUse).value
      ∧ uses = [⟨h, form, type, rep⟩]
  | .parts ps, w, uses => ∃ ws, w = .list ws ∧ PartsMean ps ws uses
  | .case index payload, w, uses => ∃ inner, w = .case index inner ∧ payload.Means inner uses

def PartsMean : List Parcel → List Value → List HandleUse → Prop
  | [], [], uses => uses = []
  | p :: ps, w :: ws, uses => ∃ first rest, p.Means w first ∧ PartsMean ps ws rest
      ∧ uses = first ++ rest
  | _, _, _ => False

end

theorem PartsMean.length_eq {ps : List Parcel} {ws : List Value} {uses : List HandleUse}
    (h : PartsMean ps ws uses) : ps.length = ws.length := by
  induction ps generalizing ws uses with
  | nil =>
    cases ws with
    | nil => rfl
    | cons => exact h.elim
  | cons p ps ih =>
    cases ws with
    | nil => exact h.elim
    | cons w ws =>
      obtain ⟨_, _, _, others, _⟩ := h
      exact congrArg (· + 1) (ih others)

open Passing (Yields)

/-! ## Receiving -/

section Receive

variable {owners : Option HandleTable} {room : Nat}

mutual

theorem Parcel.Means.receive_yields : (p : Parcel) → ∀ {w : Value} {own uses : List HandleUse}
    {c : Custody}, p.Means w own → c.Passes owners (own ++ uses) room →
    Yields owners p.receive c fun w' c' => (owners.isSome → w' = w) ∧ c'.Passes owners uses room
  | .leaf _, _, _, _, _, h, passes => by
    obtain ⟨rfl, rfl⟩ := h
    exact .of_run rfl ⟨fun _ => rfl, passes⟩
  | .handle _ _ _, _, _, _, _, h, passes => by
    obtain ⟨rep, rfl, rfl⟩ := h
    exact Passing.receiveHandle_yields passes
  | .parts ps, _, _, _, _, h, passes => by
    obtain ⟨ws, rfl, parts⟩ := h
    refine .map _ ((PartsMean.receiveAll_yields ps parts passes).imp ?_)
    exact fun ws' c' ⟨same, passes'⟩ => ⟨fun strict => by rw [same strict], passes'⟩
  | .case index payload, _, _, _, _, h, passes => by
    obtain ⟨inner, rfl, means⟩ := h
    refine .map _ ((Parcel.Means.receive_yields payload means passes).imp ?_)
    exact fun w' c' ⟨same, passes'⟩ => ⟨fun strict => by rw [same strict], passes'⟩

theorem PartsMean.receiveAll_yields : (ps : List Parcel) → ∀ {ws : List Value}
    {own uses : List HandleUse} {c : Custody}, PartsMean ps ws own →
    c.Passes owners (own ++ uses) room →
    Yields owners (Parcel.receiveAll ps) c fun ws' c' =>
      (owners.isSome → ws' = ws) ∧ c'.Passes owners uses room
  | [], [], _, _, _, h, passes => by
    cases h
    exact .pure ⟨fun _ => rfl, passes⟩
  | p :: ps, w :: ws, _, _, _, h, passes => by
    obtain ⟨first, rest, means, others, rfl⟩ := h
    rw [List.append_assoc] at passes
    refine (Parcel.Means.receive_yields p means passes).bind ?_
    rintro w' c1 ⟨same, passes1⟩
    refine (PartsMean.receiveAll_yields ps others passes1).bind ?_
    rintro ws' c2 ⟨same', passes2⟩
    exact .pure ⟨fun strict => by rw [same strict, same' strict], passes2⟩
  | [], _ :: _, _, _, _, h, _ | _ :: _, [], _, _, _, h, _ => h.elim

end

end Receive

/-! ## Sending -/

section Send

variable {raw : RawRule} {owners : Option HandleTable} {uses : List HandleUse}
  {room : Nat} {c : Custody} {s : Shape} {v : Value} {stored : Bool}

theorem Scalar.Admits.received_eq {s : Scalar} (h : s.Admits v) : v.received owners = v := by
  unfold Scalar.Admits at h
  split at h <;> first | rfl | exact h.elim

theorem Scalar.Admits.handles_eq {s : Scalar} (h : s.Admits v) : v.handles = 0 := by
  unfold Scalar.Admits at h
  split at h <;> first | rfl | exact h.elim

def Dispatched (owners : Option HandleTable) (uses : List HandleUse) (room : Nat) (c : Custody)
    (borrowless : Prop) (means : List HandleUse → Prop) (c' : Custody) : Prop :=
  ∃ own, means own ∧ c'.Passes owners (own ++ uses) room ∧ (borrowless → c'.lent = c.lent)

def Dispatches (raw : RawRule) (owners : Option HandleTable) (s : Shape) : Prop :=
  s.Fits → ∀ ⦃stored : Bool⦄ ⦃v : Value⦄ ⦃uses : List HandleUse⦄ ⦃room : Nat⦄ ⦃c : Custody⦄,
    s.Admits raw owners v → c.Passes owners uses (v.handles + room) →
    Yields owners (s.send raw stored v) c fun p c' =>
      Dispatched owners uses room c s.Borrowless (fun own => p.Means (v.received owners) own) c'

theorem Dispatched.none {borrowless : Prop} {means : List HandleUse → Prop} (h : means [])
    (passes : c.Passes owners uses (0 + room)) :
    Dispatched owners uses room c borrowless means c :=
  ⟨[], h, Nat.zero_add room ▸ passes, fun _ => rfl⟩

theorem sendSingle_yields {R : Parcel → Custody → Prop}
    (h : Yields owners (s.sendWord v) c fun x c' => s.loadOp.Recovers x ∧ R (s.opened x) c') :
    Yields owners (s.sendSingle stored v) c R := by
  refine h.bind fun x c' ⟨recovers, hr⟩ => .pure ?_
  have same : (if stored then s.loadOp.reload x else x) = x := by
    split
    · exact recovers
    · rfl
  rwa [same]

theorem send?_yields {part : Option Shape} (hs : ∀ s, part = some s → Dispatches raw owners s)
    (hfit : Fits? part) (hv : Admits? raw owners part v)
    (passes : c.Passes owners uses (v.handles + room)) :
    Yields owners (send? raw stored part v) c fun p c' =>
      Dispatched owners uses room c (Borrowless? part)
        (fun own => p.Means (v.received owners) own) c' := by
  cases part with
  | none => exact hv.elim
  | some s => exact hs s rfl hfit hv passes

theorem Dispatched.cons {p : Parcel} {ps : List Parcel} {w : Value} {ws : List Value}
    {first others : Prop} {own : List HandleUse} {c1 c2 : Custody}
    (tail : Dispatched owners (own ++ uses) room c1 others (fun own => PartsMean ps ws own) c2)
    (means : p.Means w own) (lent : first → c1.lent = c.lent) :
    Dispatched owners uses room c (first ∧ others) (fun own => PartsMean (p :: ps) (w :: ws) own)
      c2 := by
  obtain ⟨own', means', passes', lent'⟩ := tail
  refine ⟨own ++ own', ⟨own, own', means, means', rfl⟩, passes'.perm ?_,
    fun h => (lent' h.2).trans (lent h.1)⟩
  rw [List.append_assoc]
  exact List.perm_append_comm_assoc _ _ _

variable {fields : Parts} {vs : List Value}

theorem sendFields_yields
    (hs : ∀ s, some s ∈ fields → Dispatches raw owners s) (hfit : FieldsFit fields)
    (hvs : FieldsAdmit raw owners fields vs)
    (passes : c.Passes owners uses (Value.handlesAll vs + room)) :
    Yields owners (sendFields raw stored fields vs) c fun ps c' =>
      Dispatched owners uses room c (AllBorrowless fields)
        (fun own => PartsMean ps (Value.receivedAll owners vs) own) c' := by
  induction fields generalizing vs uses c with
  | nil =>
    cases vs with
    | nil => exact .pure (.none rfl passes)
    | cons => exact hvs.elim
  | cons part fields ih =>
    cases vs with
    | nil => exact hvs.elim
    | cons v vs =>
      rw [Value.handlesAll, Nat.add_assoc] at passes
      refine (send?_yields (head_part hs) hfit.1 hvs.1 passes).bind ?_
      rintro p c1 ⟨own, means, passes1, lent⟩
      refine (ih (tail_parts hs) hfit.2 hvs.2 passes1).bind fun ps c2 tail => .pure ?_
      exact tail.cons means lent

theorem sendElems_yields {elem : Option Shape} (hs : ∀ s, elem = some s → Dispatches raw owners s)
    (hfit : Fits? elem) (hvs : ∀ x ∈ vs, Admits? raw owners elem x)
    (passes : c.Passes owners uses (Value.handlesAll vs + room)) :
    Yields owners (vs.mapM fun v => send? raw true elem v) c fun ps c' =>
      Dispatched owners uses room c (Borrowless? elem)
        (fun own => PartsMean ps (Value.receivedAll owners vs) own) c' := by
  induction vs generalizing uses c with
  | nil => exact .pure (.none rfl passes)
  | cons v vs ih =>
    rw [Value.handlesAll, Nat.add_assoc] at passes
    rw [List.mapM_cons]
    refine (send?_yields hs hfit (hvs v List.mem_cons_self) passes).bind ?_
    rintro p c1 ⟨own, means, passes1, lent⟩
    refine (ih (tail_parts hvs) passes1).bind fun ps c2 tail => .pure ?_
    obtain ⟨own', means', passes', lent'⟩ := tail.cons means lent
    exact ⟨own', means', passes', fun h => lent' ⟨h, h⟩⟩

theorem Shape.dispatches (hraw : ∀ e, raw e = true → Program.isByte e = true) (s : Shape) :
    Dispatches raw owners s := by
  induction s with
  | scalar s =>
    intro _ stored v uses room c hv passes
    have hv : s.Admits v := hv
    obtain ⟨x, encodes⟩ := hv.encodes
    refine sendSingle_yields ?_
    simp only [sendWord, encodes.lower]
    refine .pure ⟨encodes.recovers, .none ⟨?_, rfl⟩ (hv.handles_eq ▸ passes)⟩
    have lifts : s.liftValue x = .ok v := encodes.lift
    rw [hv.received_eq]
    exact congrArg Except.toOption lifts
  | enum l cases =>
    rintro hfit stored _ uses room c ⟨n, rfl, hn⟩ passes
    refine sendSingle_yields (.pure ⟨recovers_tag hn, .none ⟨?_, rfl⟩ passes⟩)
    rw [UInt32.toUInt32_toUInt64, if_pos]
    · rfl
    · exact lt_ofNat_of_toNat_lt hfit hn
  | handle l form type =>
    intro _ stored v uses room c hv passes
    refine sendSingle_yields (.map _ ((Passing.sendHandle_yields hv passes).imp ?_))
    rintro h c' ⟨rep, same, passes', lent⟩
    refine ⟨recovers_i32 h, [⟨h, form, type, rep⟩], ⟨rep, ?_, ?_⟩, passes', lent⟩
    · rw [same, UInt32.toUInt32_toUInt64]
    · rw [UInt32.toUInt32_toUInt64]
  | string =>
    rintro _ stored _ uses room c ⟨data, rfl, valid, _⟩ passes
    exact .pure (.none ⟨if_pos valid, rfl⟩ passes)
  | flags l count =>
    rintro _ stored _ uses room c ⟨fs, rfl, rfl⟩ passes
    refine .pure (.none ⟨congrArg (some <| Value.flags ·) ?_, rfl⟩ passes)
    split
    · rw [laneFlags_reloadLanes (length_flagLanes _ _), laneFlags_flagLanes (le_lanes _)]
    · exact laneFlags_flagLanes (le_lanes _)
  | product l form fields ih =>
    rintro hfit stored _ uses room c ⟨vs, rfl, hvs⟩ passes
    refine .map _ ((sendFields_yields ih hfit.1 hvs passes).imp ?_)
    rintro ps c' ⟨own, means, rest⟩
    exact ⟨own, ⟨_, rfl, means⟩, rest⟩
  | sum l form payloads ih =>
    rintro hfit stored _ uses room c ⟨index, payload, rfl, hcount, hcase⟩ passes
    rw [send, if_pos hcount]
    refine .map _ ?_
    rcases hcase.cases with ⟨hpart, rfl⟩ | ⟨s, hpart, hpayload⟩
    · rw [sendCase_eq, hpart]
      exact .pure (.none ⟨_, rfl, rfl, rfl⟩ passes)
    · have mem := List.mem_of_getElem? hpart
      rw [sendCase_eq, hpart]
      refine (ih s mem (hfit.1.of_mem mem) hpayload passes).imp ?_
      rintro p c' ⟨own, means, passes', lent⟩
      exact ⟨own, ⟨_, rfl, means⟩, passes', fun h => lent (allBorrowless_iff.mp h s mem)⟩
  | list l elem ih =>
    intro hfit stored v uses room c hv passes
    rw [Admits] at hv
    split_ifs at hv with hbytes
    · obtain ⟨data, rfl, _⟩ := hv
      simp only [send, if_pos hbytes, if_pos (hraw elem hbytes)]
      exact .pure (.none ⟨rfl, rfl⟩ passes)
    · obtain ⟨vs, rfl, short, _, hvs⟩ := hv
      simp only [send, if_neg hbytes]
      refine (sendElems_yields ih hfit hvs passes).bind ?_
      rintro ps c' ⟨own, means, rest⟩
      have length : ps.length = vs.length := by rw [means.length_eq, Value.length_receivedAll]
      rw [UInt32.toNat_ofNat_of_lt' short, ← length, List.take_length]
      exact .pure ⟨own, ⟨_, rfl, means⟩, rest⟩
  | synonym l target ih =>
    exact fun hfit stored v uses room c hv passes => send?_yields ih hfit hv passes
  | channel | resource | unfinished => exact fun _ _ _ _ _ _ hv => hv.elim

/-! ## Sizes -/

private theorem fieldsAdmit_sized_of_parts {fields : Parts}
    (hs : ∀ s, some s ∈ fields → ∀ v, s.Admits raw owners v → s.Sized v) {vs : List Value}
    (hvs : FieldsAdmit raw owners fields vs) : FieldsSized fields vs := by
  induction fields generalizing vs with
  | nil => cases vs <;> trivial
  | cons part fields ih =>
    cases vs with
    | nil => trivial
    | cons v vs =>
      refine ⟨?_, ih (tail_parts hs) hvs.2⟩
      cases part with
      | none => trivial
      | some s => exact hs s List.mem_cons_self v hvs.1

theorem Shape.Admits.sized {s : Shape} (hv : s.Admits raw owners v) : s.Sized v := by
  induction s generalizing v with
  | string =>
    obtain ⟨data, rfl, _, short⟩ := hv
    rintro _ ⟨⟩
    exact short
  | product l form fields ih =>
    obtain ⟨vs, rfl, hvs⟩ := hv
    rintro _ ⟨⟩
    exact fieldsAdmit_sized_of_parts (fun s mem v hv => ih s mem hv) hvs
  | sum l form payloads ih =>
    obtain ⟨index, payload, rfl, _, hcase⟩ := hv
    rintro _ _ ⟨⟩
    refine caseSized_iff.mpr fun s hs => ?_
    rcases hcase.cases with ⟨hpart, _⟩ | ⟨s', hpart, hpayload⟩
    · rw [hpart] at hs
      cases hs
    · rw [hpart] at hs
      cases hs
      exact ih s (List.mem_of_getElem? hpart) hpayload
  | list l elem ih =>
    rw [Shape.Admits] at hv
    split_ifs at hv
    · obtain ⟨data, rfl, short⟩ := hv
      refine ⟨?_, fun vs hvs => (by cases hvs)⟩
      rintro _ ⟨⟩
      exact short
    · obtain ⟨vs, rfl, _, bounded, hvs⟩ := hv
      refine ⟨fun data hdata => (by cases hdata), ?_⟩
      rintro _ ⟨⟩
      refine ⟨bounded, fun x hx => ?_⟩
      cases elem with
      | none => trivial
      | some s => exact ih s rfl (hvs x hx)
  | synonym l target ih =>
    cases target with
    | none => trivial
    | some s => exact ih s rfl hv
  | scalar | enum | flags | handle => trivial
  | channel | resource | unfinished => exact hv.elim

theorem FieldsAdmit.sized
    (hvs : FieldsAdmit raw owners fields vs) : FieldsSized fields vs :=
  fieldsAdmit_sized_of_parts (fun _ _ _ hv => hv.sized) hvs

end Send

/-! ## Code that delivers -/

theorem Code.Mirrors.delivers {α β γ : Type} [Allocator α] {owners : Option HandleTable}
    {c : Setting α} {scope : Scope} {p : Point α} {code : Code β} {x : Passing γ}
    {Q : γ → β → Point α → Prop} {R : γ → Custody → Prop} (h : code.Mirrors c scope p x Q)
    (yields : Yields owners x p.machine.custody R) :
    code.Runs (Excused owners) c scope p fun b q => ∃ a, Q a b q ∧ R a q.machine.custody := by
  refine Runs.imp (Runs.weaken h ?_) ?_
  · rintro e (refusal | failed) strict
    · exact refusal
    · rw [yields.1 failed] at strict
      cases strict
  · rintro b q _ ⟨a, ran, hq⟩
    exact ⟨a, hq, yields.2 a _ ran⟩

end CanonicalAbi
