import CanonicalAbi.Proofs.Tables

/-!
# Loans and free numbers

The invariant of a handle table, kept by everything that can be done to it. The free list has the
numbers without an entry, each once.
-/

namespace CanonicalAbi

/-- Whether the entry is a loan of the handle `h`. -/
def HandleEntry.isLoanOf (h : Handle) (e : HandleEntry) : Bool := !e.owned && e.lender == h

/-- One for a loan of the handle `h`, zero for all else. -/
def loanCount (h : Handle) (e : Option HandleEntry) : Nat := if e.any (·.isLoanOf h) then 1 else 0

namespace HandleTable

variable {t t' t'' : HandleTable} {h h' o : Handle} {e e' : HandleEntry}

/-- The number of loans of the handle `h`. -/
def loansOf (t : HandleTable) (h : Handle) : Nat := t.entries.countP (·.any (·.isLoanOf h))

/-- The freed handles are those of the vacant entries. -/
structure Numbered (t : HandleTable) : Prop where
  nodup : t.freed.Nodup
  mem_freed : ∀ h, h ∈ t.freed ↔ h ≠ 0 ∧ h.toNat ≤ t.entries.size ∧ t.get? h = none
  few : t.entries.size < 2 ^ 32
  cleared : t.closed = true → t.entries = #[]

/-- Loans are counted, and their owners are live. -/
structure Consistent (t : HandleTable) : Prop extends Numbered t where
  owner : ∀ h e, t.get? h = some e → e.owned = true → e.lender = 0 ∧ e.loans = t.loansOf h
  /-- A borrow has no loans, and if it has a lender, that owns the same resource. -/
  borrow : ∀ h e, t.get? h = some e → e.owned = false → e.loans = 0 ∧ (e.lender ≠ 0 →
    ∃ l, t.get? e.lender = some l ∧ l.owned = true ∧ l.resource = e.resource ∧ l.rep = e.rep)

/-! ## Entries and loans -/

theorem getElem?_of_get? (he : t.get? h = some e) : t.entries[h.toNat - 1]? = some (some e) := by
  have nonzero := (le_size_of_get? he).1
  rw [get?, if_neg nonzero] at he
  exact Option.join_eq_some_iff.mp he

theorem get?_of_getElem? {n : Nat} (few : t.entries.size < 2 ^ 32)
    (hn : t.entries[n]? = some (some e)) : t.get? (UInt32.ofNat (n + 1)) = some e := by
  have bound : n < t.entries.size := (Array.getElem?_eq_some_iff.mp hn).1
  have number : (UInt32.ofNat (n + 1)).toNat = n + 1 :=
    UInt32.toNat_ofNat_of_lt' (show n + 1 < 2 ^ 32 by omega)
  have nonzero : UInt32.ofNat (n + 1) ≠ 0 := by
    intro hz
    rw [hz] at number
    simp at number
  rw [get?, if_neg nonzero, number, Nat.add_sub_cancel, hn]
  rfl

theorem loansOf_pos (he : t.get? h = some e) (hl : e.isLoanOf o = true) : 0 < t.loansOf o := by
  refine Array.countP_pos_iff.mpr ⟨some e, ?_, hl⟩
  exact Array.mem_iff_getElem?.mpr ⟨_, getElem?_of_get? he⟩

theorem loansOf_eq_zero (few : t.entries.size < 2 ^ 32)
    (none : ∀ h e, t.get? h = some e → e.isLoanOf o = false) : t.loansOf o = 0 := by
  refine Array.countP_eq_zero.mpr fun slot hslot => ?_
  obtain ⟨n, hn⟩ := Array.mem_iff_getElem?.mp hslot
  cases slot with
  | none => simp
  | some e => simp [none _ e (get?_of_getElem? few hn)]

theorem Consistent.isLoanOf_iff (ht : t.Consistent) (he : t.get? h = some e) (nonzero : o ≠ 0) :
    e.isLoanOf o = true ↔ e.lender = o := by
  constructor
  · intro hl
    simp only [HandleEntry.isLoanOf, Bool.and_eq_true, beq_iff_eq] at hl
    exact hl.2
  · rintro rfl
    cases owned : e.owned with
    | true => exact absurd (ht.owner h e he owned).1 nonzero
    | false => simp [HandleEntry.isLoanOf, owned]

theorem Consistent.loansOf_eq_zero_of_none (ht : t.Consistent) (vacant : t.get? o = none)
    (nonzero : o ≠ 0) : t.loansOf o = 0 := by
  refine loansOf_eq_zero ht.few fun h e he => ?_
  rw [Bool.eq_false_iff]
  intro hl
  have lender : e.lender = o := (ht.isLoanOf_iff he nonzero).mp hl
  have owned : e.owned = false := by
    simp only [HandleEntry.isLoanOf, Bool.and_eq_true, Bool.not_eq_true'] at hl
    exact hl.1
  obtain ⟨l, hl, _⟩ := (ht.borrow h e he owned).2 (lender ▸ nonzero)
  rw [lender, vacant] at hl
  cases hl

/-! ## Changing one entry -/

/-- The entry of the handle `h` became `e`, and no other did. -/
structure Changed (t : HandleTable) (h : Handle) (e : Option HandleEntry) (t' : HandleTable) :
    Prop where
  self : t'.get? h = e
  others : ∀ h' ≠ h, t'.get? h' = t.get? h'
  loans : ∀ o, t'.loansOf o + loanCount o (t.get? h) = t.loansOf o + loanCount o e

theorem countP_put (p : Option HandleEntry → Bool) (nonzero : h ≠ 0)
    (inside : h.toNat ≤ t.entries.size) (e : Option HandleEntry) :
    (t.put h e).entries.countP p + (if p (t.get? h) then 1 else 0)
      = t.entries.countP p + if p e then 1 else 0 := by
  have pos : h.toNat ≠ 0 := fun hn => nonzero (UInt32.toNat_inj.mp hn)
  have bound : h.toNat - 1 < t.entries.size := by omega
  have old : t.get? h = t.entries[h.toNat - 1] := by
    rw [get?, if_neg nonzero, Array.getElem?_eq_getElem bound]
    rfl
  have counted : (if p (t.entries[h.toNat - 1]) then 1 else 0) ≤ t.entries.countP p := by
    split
    · next hp => exact Array.countP_pos_iff.mpr ⟨_, Array.getElem_mem bound, hp⟩
    · exact Nat.zero_le _
  rw [old, put, Array.setIfInBounds_def, dif_pos bound, Array.countP_set]
  omega

theorem changed_put (nonzero : h ≠ 0) (inside : h.toNat ≤ t.entries.size)
    (e : Option HandleEntry) : t.Changed h e (t.put h e) :=
  ⟨get?_put_self nonzero inside, fun _ ne => get?_put_ne nonzero ne,
    fun o => countP_put (·.any (HandleEntry.isLoanOf o)) nonzero inside e⟩

theorem changed_push (few : t.entries.size + 1 < 2 ^ 32) (e : Option HandleEntry) :
    t.Changed (UInt32.ofNat (t.entries.size + 1)) e
      { t with entries := t.entries.push e } := by
  refine ⟨get?_push_self few, fun h' ne => get?_push_ne few ne, fun o => ?_⟩
  rw [get?_next few, loansOf, loansOf, Array.countP_push]
  rfl

theorem loansOf_put_loans (he : t.get? h = some e) (n : Nat) (o : Handle) :
    (t.put h (some { e with loans := n })).loansOf o = t.loansOf o := by
  obtain ⟨nonzero, inside⟩ := le_size_of_get? he
  have counted := (changed_put nonzero inside (some { e with loans := n })).loans o
  rw [he] at counted
  exact Nat.add_right_cancel counted

theorem Changed.of_entries {e : Option HandleEntry} (hc : t.Changed h e t')
    (same : t''.entries = t'.entries) : t.Changed h e t'' := by
  have lookup : ∀ h', t''.get? h' = t'.get? h' := fun h' => by simp only [get?, same]
  have loans : ∀ o, t''.loansOf o = t'.loansOf o := fun o => by simp only [loansOf, same]
  refine ⟨(lookup h).trans hc.self, fun h' ne => (lookup h').trans (hc.others h' ne), fun o => ?_⟩
  rw [loans]
  exact hc.loans o

/-! ## The free list -/

theorem isOpen_of_get? (cleared : t.closed = true → t.entries = #[]) (he : t.get? h = some e) :
    t.closed = false := by
  rw [Bool.eq_false_iff]
  intro closed
  obtain ⟨nonzero, inside⟩ := le_size_of_get? he
  rw [cleared closed, Array.size_empty] at inside
  exact nonzero (UInt32.toNat_inj.mp (Nat.le_zero.mp inside))

theorem Numbered.isOpen (ht : t.Numbered) (he : t.get? h = some e) : t.closed = false :=
  isOpen_of_get? ht.cleared he

theorem Numbered.put (ht : t.Numbered) (he : t.get? h = some e) (e' : HandleEntry) :
    (t.put h (some e')).Numbered := by
  obtain ⟨nonzero, inside⟩ := le_size_of_get? he
  refine ⟨ht.nodup, fun f => ?_, by rw [size_put]; exact ht.few, fun closed => ?_⟩
  · have same : (t.put h (some e')).get? f = none ↔ t.get? f = none := by
      by_cases hf : f = h
      · rw [hf, get?_put_self nonzero inside, he]
        simp
      · rw [get?_put_ne nonzero hf]
    rw [size_put, same]
    exact ht.mem_freed f
  · have closed : t.closed = true := closed
    rw [ht.isOpen he] at closed
    cases closed

/-- The entry was added under a handle that was not in use. -/
structure Added (t : HandleTable) (h : Handle) (e : HandleEntry) (t' : HandleTable) : Prop extends
    Changed t h (some e) t' where
  nonzero : h ≠ 0
  fresh : t.get? h = none
  numbered : t'.Numbered

theorem Numbered.insert (ht : t.Numbered) {kind : HandleEventKind}
    (ran : runFrom (TableOp.insert e kind) t = (.ok h, t')) (few : t'.entries.size < 2 ^ 32) :
    t.Added h e t' := by
  have isOpen : t.closed = false := by
    cases closed : t.closed with
    | false => rfl
    | true =>
      simp only [TableOp.insert, runFrom_bind, runFrom_get, continueWith_ok, closed] at ran
      cases (Prod.mk.inj ran).1
  cases hf : t.freed with
  | cons number freed =>
    rw [TableOp.insert_reusing isOpen hf] at ran
    obtain rfl : number = h := by cases ran; rfl
    have entries : t'.entries = (t.put number (some e)).entries := by cases ran; rfl
    have rest : t'.freed = freed := by cases ran; rfl
    have closed : t'.closed = t.closed := by cases ran; rfl
    obtain ⟨nonzero, inside, fresh⟩ := (ht.mem_freed number).mp (hf ▸ List.mem_cons_self)
    obtain ⟨unlisted, nodup⟩ := List.nodup_cons.mp (hf ▸ ht.nodup)
    have changed : t.Changed number (some e) t' :=
      (changed_put nonzero inside (some e)).of_entries entries
    refine ⟨changed, nonzero, fresh, rest ▸ nodup, fun f => ?_, few, fun hc => ?_⟩
    · rw [rest, entries, size_put]
      by_cases hfh : f = number
      · rw [hfh, changed.self]
        simpa using unlisted
      · rw [changed.others f hfh, ← ht.mem_freed f, hf]
        simp [hfh]
    · rw [closed, isOpen] at hc
      cases hc
  | nil =>
    rw [TableOp.insert_growing isOpen hf] at ran
    obtain rfl : UInt32.ofNat (t.entries.size + 1) = h := by cases ran; rfl
    have entries : t'.entries = t.entries.push (some e) := by cases ran; rfl
    have rest : t'.freed = [] := by cases ran; exact hf
    have closed : t'.closed = t.closed := by cases ran; rfl
    have grows : t.entries.size + 1 < 2 ^ 32 := by
      rwa [entries, Array.size_push] at few
    have changed : t.Changed (UInt32.ofNat (t.entries.size + 1)) (some e) t' :=
      (changed_push grows (some e)).of_entries entries
    refine ⟨changed, next_ne_zero grows, get?_next grows, rest ▸ List.nodup_nil, fun f => ?_, few,
      fun hc => ?_⟩
    · rw [rest, entries, Array.size_push]
      simp only [List.not_mem_nil, false_iff, not_and]
      intro nonzero inside vacant
      by_cases hfn : f = UInt32.ofNat (t.entries.size + 1)
      · rw [hfn, changed.self] at vacant
        cases vacant
      · have ne : f.toNat ≠ t.entries.size + 1 := fun hn =>
          hfn (UInt32.toNat_inj.mp (hn.trans (toNat_next grows).symm))
        rw [changed.others f hfn] at vacant
        have listed := (ht.mem_freed f).mpr ⟨nonzero, by omega, vacant⟩
        rw [hf] at listed
        cases listed
    · rw [closed, isOpen] at hc
      cases hc

theorem Numbered.remove (ht : t.Numbered) (he : t.get? h = some e) :
    ({ t.put h none with freed := h :: t.freed } : HandleTable).Numbered := by
  obtain ⟨nonzero, inside⟩ := le_size_of_get? he
  have unlisted : h ∉ t.freed := by
    intro hm
    have vacant := ((ht.mem_freed h).mp hm).2.2
    rw [he] at vacant
    cases vacant
  refine ⟨List.nodup_cons.mpr ⟨unlisted, ht.nodup⟩, fun f => ?_, ?_, fun closed => ?_⟩
  · change f ∈ h :: t.freed ↔ f ≠ 0 ∧ f.toNat ≤ (t.put h none).entries.size
      ∧ (t.put h none).get? f = none
    rw [size_put, List.mem_cons]
    by_cases hf : f = h
    · rw [hf, get?_put_self nonzero inside]
      simp [nonzero, inside]
    · rw [get?_put_ne nonzero hf, ht.mem_freed f]
      simp [hf]
  · rw [size_put]
    exact ht.few
  · have closed : t.closed = true := closed
    rw [ht.isOpen he] at closed
    cases closed

/-! ## Making and ending loans -/

theorem loanCount_none (o : Handle) : loanCount o none = 0 := rfl

theorem loanCount_of_owned (o : Handle) (owned : e.owned = true) : loanCount o (some e) = 0 := by
  simp [loanCount, HandleEntry.isLoanOf, owned]

theorem loanCount_of_borrowed (o : Handle) (owned : e.owned = false) :
    loanCount o (some e) = if e.lender = o then 1 else 0 := by
  simp [loanCount, HandleEntry.isLoanOf, owned]

theorem loanCount_eq (owner : e.owned = true → e.lender = 0) (nonzero : o ≠ 0) :
    loanCount o (some e) = if e.lender = o then 1 else 0 := by
  cases owned : e.owned with
  | false => exact loanCount_of_borrowed o owned
  | true => rw [loanCount_of_owned o owned, owner owned, if_neg (Ne.symm nonzero)]

/-- A new entry under the number `h`, which its lender counts. -/
structure Joined (t : HandleTable) (h : Handle) (e : HandleEntry) (t' : HandleTable) : Prop where
  numbered : t'.Numbered
  nonzero : h ≠ 0
  fresh : t.get? h = none
  self : t'.get? h = some e
  others : ∀ h' ≠ h, t'.get? h' = (t.get? h').map fun e' =>
    if h' = e.lender then { e' with loans := e'.loans + 1 } else e'
  loans : ∀ o ≠ 0, t'.loansOf o = t.loansOf o + if e.lender = o then 1 else 0

/-- The entry `e` of the handle `h` is gone, and its lender does not count it any more. -/
structure Released (t : HandleTable) (h : Handle) (e : HandleEntry) (t' : HandleTable) : Prop where
  numbered : t'.Numbered
  size : t'.entries.size = t.entries.size
  self : t'.get? h = none
  others : ∀ h' ≠ h, t'.get? h' = (t.get? h').map fun e' =>
    if h' = e.lender then { e' with loans := e'.loans - 1 } else e'
  loans : ∀ o ≠ 0, t'.loansOf o = t.loansOf o - if e.lender = o then 1 else 0

theorem Added.joined (added : t.Added h e t') (lenderless : e.lender = 0) : t.Joined h e t' := by
  refine ⟨added.numbered, added.nonzero, added.fresh, added.self, fun h' ne => ?_, fun o ho => ?_⟩
  · rw [added.others h' ne]
    cases he : t.get? h' with
    | none => rfl
    | some e' =>
      have nonzero := (le_size_of_get? he).1
      rw [Option.map_some, if_neg (lenderless ▸ nonzero)]
  · have loans := added.loans o
    rw [added.fresh, loanCount_none, loanCount_eq (fun _ => lenderless) ho] at loans
    exact loans

theorem Added.joined_lent {l : HandleEntry} (hl : t.get? o = some l)
    (added : (t.put o (some { l with loans := l.loans + 1 })).Added h e t')
    (borrowed : e.owned = false) (lender : e.lender = o) : t.Joined h e t' := by
  obtain ⟨nonzero, inside⟩ := le_size_of_get? hl
  have counted := changed_put nonzero inside (some { l with loans := l.loans + 1 })
  have ne : h ≠ o := by
    rintro rfl
    have fresh := added.fresh
    rw [counted.self] at fresh
    cases fresh
  have fresh : t.get? h = none := by
    rw [← counted.others h ne]
    exact added.fresh
  refine ⟨added.numbered, added.nonzero, fresh, added.self, fun h' ne' => ?_, fun o' ho' => ?_⟩
  · rw [added.others h' ne', lender]
    by_cases hh : h' = o
    · rw [hh, counted.self, hl, Option.map_some, if_pos rfl]
    · rw [counted.others h' hh]
      cases t.get? h' with
      | none => rfl
      | some e' => rw [Option.map_some, if_neg hh]
  · have loans := added.loans o'
    rw [added.fresh, loanCount_none, loansOf_put_loans hl, loanCount_of_borrowed o' borrowed]
      at loans
    exact loans

theorem Consistent.of_joined (ht : t.Consistent) (joined : t.Joined h e t') (unlent : e.loans = 0)
    (owner : e.owned = true → e.lender = 0)
    (lender : e.lender ≠ 0 → ∃ l, t.get? e.lender = some l ∧ l.owned = true
      ∧ l.resource = e.resource ∧ l.rep = e.rep) : t'.Consistent := by
  -- Entries from before are still there, but for the number of loans of the lender.
  have kept : ∀ h' e', t.get? h' = some e' → ∃ n, t'.get? h' = some { e' with loans := n } := by
    intro h' e' he'
    have ne : h' ≠ h := by
      rintro rfl
      rw [joined.fresh] at he'
      cases he'
    rw [joined.others h' ne, he', Option.map_some]
    by_cases hh : h' = e.lender
    · exact ⟨e'.loans + 1, by rw [if_pos hh]⟩
    · exact ⟨e'.loans, by rw [if_neg hh]⟩
  refine ⟨joined.numbered, fun h' e' he' owned => ?_, fun h' e' he' borrowed => ?_⟩
  · by_cases hh : h' = h
    · subst hh
      rw [joined.self] at he'
      cases he'
      have none := ht.loansOf_eq_zero_of_none joined.fresh joined.nonzero
      have unused : e.lender ≠ h' := by
        rw [owner owned]
        exact Ne.symm joined.nonzero
      rw [joined.loans h' joined.nonzero, none, if_neg unused, unlent]
      exact ⟨owner owned, rfl⟩
    · have nonzero := (le_size_of_get? he').1
      rw [joined.others h' hh] at he'
      obtain ⟨e0, he0, rfl⟩ := Option.map_eq_some_iff.mp he'
      by_cases hl : h' = e.lender
      · rw [if_pos hl] at owned ⊢
        obtain ⟨lenderless, count⟩ := ht.owner h' e0 he0 owned
        rw [joined.loans h' nonzero, if_pos hl.symm]
        exact ⟨lenderless, congrArg (· + 1) count⟩
      · rw [if_neg hl] at owned ⊢
        obtain ⟨lenderless, count⟩ := ht.owner h' e0 he0 owned
        rw [joined.loans h' nonzero, if_neg (Ne.symm hl)]
        exact ⟨lenderless, count⟩
  · by_cases hh : h' = h
    · subst hh
      rw [joined.self] at he'
      cases he'
      refine ⟨unlent, fun lent => ?_⟩
      obtain ⟨l, hl, facts⟩ := lender lent
      obtain ⟨n, hl'⟩ := kept _ l hl
      exact ⟨_, hl', facts⟩
    · have nonzero := (le_size_of_get? he').1
      rw [joined.others h' hh] at he'
      obtain ⟨e0, he0, rfl⟩ := Option.map_eq_some_iff.mp he'
      by_cases hl : h' = e.lender
      · -- The lender is an owner.
        obtain ⟨l, hlender, owned, _⟩ := lender (hl ▸ nonzero)
        rw [← hl, he0] at hlender
        cases hlender
        rw [if_pos hl] at borrowed
        rw [show e0.owned = false from borrowed] at owned
        cases owned
      · rw [if_neg hl] at borrowed ⊢
        obtain ⟨none, old⟩ := ht.borrow h' e0 he0 borrowed
        refine ⟨none, fun lent => ?_⟩
        obtain ⟨l, hl, facts⟩ := old lent
        obtain ⟨n, hl'⟩ := kept _ l hl
        exact ⟨_, hl', facts⟩

theorem Consistent.of_released (ht : t.Consistent) (he : t.get? h = some e)
    (unlent : e.owned = true → e.loans = 0) (released : t.Released h e t') : t'.Consistent := by
  have nonzero := (le_size_of_get? he).1
  have unloaned : ∀ b eb, t.get? b = some eb → eb.lender ≠ h := by
    intro b eb hb lender
    have owned : eb.owned = false := by
      rw [Bool.eq_false_iff]
      intro owned
      exact nonzero (lender ▸ (ht.owner b eb hb owned).1)
    obtain ⟨l, hl, lowned, _⟩ := (ht.borrow b eb hb owned).2 (lender ▸ nonzero)
    rw [lender, he] at hl
    cases hl
    have count := (ht.owner h e he lowned).2
    have pos := loansOf_pos hb ((ht.isLoanOf_iff hb nonzero).mpr lender)
    rw [unlent lowned] at count
    omega
  have gone : ∀ h' e', t'.get? h' = some e' → h' ≠ h := by
    rintro h' e' he' rfl
    rw [released.self] at he'
    cases he'
  refine ⟨released.numbered, fun h' e' he' owned => ?_, fun h' e' he' borrowed => ?_⟩
  · have hh := gone h' e' he'
    have nonzero' := (le_size_of_get? he').1
    rw [released.others h' hh] at he'
    obtain ⟨e0, he0, rfl⟩ := Option.map_eq_some_iff.mp he'
    by_cases hl : h' = e.lender
    · rw [if_pos hl] at owned ⊢
      obtain ⟨lenderless, count⟩ := ht.owner h' e0 he0 owned
      rw [released.loans h' nonzero', if_pos hl.symm]
      exact ⟨lenderless, congrArg (· - 1) count⟩
    · rw [if_neg hl] at owned ⊢
      obtain ⟨lenderless, count⟩ := ht.owner h' e0 he0 owned
      rw [released.loans h' nonzero', if_neg (Ne.symm hl)]
      exact ⟨lenderless, count⟩
  · have hh := gone h' e' he'
    rw [released.others h' hh] at he'
    obtain ⟨e0, he0, rfl⟩ := Option.map_eq_some_iff.mp he'
    have borrowed0 : e0.owned = false := by
      revert borrowed
      split <;> exact id
    obtain ⟨none, old⟩ := ht.borrow h' e0 he0 borrowed0
    have lent : ∀ lender, lender = e0.lender → lender ≠ 0 → ∃ l, t'.get? lender = some l
        ∧ l.owned = true ∧ l.resource = e0.resource ∧ l.rep = e0.rep := by
      rintro _ rfl hne
      obtain ⟨l, hl, facts⟩ := old hne
      rw [released.others _ (unloaned h' e0 he0), hl, Option.map_some]
      refine ⟨_, rfl, ?_⟩
      split <;> exact facts
    split
    · exact ⟨by simp only [none], lent _ rfl⟩
    · exact ⟨none, lent _ rfl⟩

/-- The table in which the handle `o` is lent once less. -/
def repaid (t : HandleTable) (o : Handle) : HandleTable :=
  match t.get? o with
  | some l => if l.loans > 0 then t.put o (some { l with loans := l.loans - 1 }) else t
  | none => t

theorem release_eq (t : HandleTable) (h : Handle) (e : HandleEntry) (kind : HandleEventKind) :
    t.release h e kind = (⟨kind, h, e.resource, e.rep⟩,
      { (t.repaid e.lender).put h none with freed := h :: (t.repaid e.lender).freed }) := rfl

theorem repaid_cases (t : HandleTable) (o : Handle) :
    (t.repaid o = t ∧ ∀ l, t.get? o = some l → l.loans = 0)
    ∨ ∃ l, t.get? o = some l ∧ t.repaid o = t.put o (some { l with loans := l.loans - 1 }) := by
  cases hl : t.get? o with
  | none =>
    refine .inl ⟨by simp only [repaid, hl], fun l hl' => ?_⟩
    cases hl'
  | some l =>
    by_cases counted : l.loans > 0
    · exact .inr ⟨l, rfl, by simp only [repaid, hl, if_pos counted]⟩
    · refine .inl ⟨by simp only [repaid, hl, if_neg counted], fun l' hl' => ?_⟩
      cases hl'
      omega

theorem get?_repaid (t : HandleTable) (o h : Handle) :
    (t.repaid o).get? h = (t.get? h).map fun e =>
      if h = o then { e with loans := e.loans - 1 } else e := by
  by_cases hh : h = o
  · subst hh
    simp only [if_true]
    rcases t.repaid_cases h with ⟨same, unlent⟩ | ⟨l, hl, repaid⟩
    · rw [same]
      cases he : t.get? h with
      | none => rfl
      | some e =>
        obtain ⟨resource, rep, owned, loans, lender⟩ := e
        obtain rfl : loans = 0 := unlent _ he
        rfl
    · obtain ⟨nonzero, inside⟩ := le_size_of_get? hl
      rw [repaid, get?_put_self nonzero inside, hl, Option.map_some]
  · simp only [if_neg hh, Option.map_id_fun', id]
    rcases t.repaid_cases o with ⟨same, _⟩ | ⟨l, hl, repaid⟩
    · rw [same]
    · rw [repaid, get?_put_ne (le_size_of_get? hl).1 hh]

@[simp] theorem size_repaid (t : HandleTable) (o : Handle) :
    (t.repaid o).entries.size = t.entries.size := by
  rcases t.repaid_cases o with ⟨same, _⟩ | ⟨l, hl, repaid⟩
  · rw [same]
  · rw [repaid, size_put]

theorem loansOf_repaid (t : HandleTable) (o o' : Handle) :
    (t.repaid o).loansOf o' = t.loansOf o' := by
  rcases t.repaid_cases o with ⟨same, _⟩ | ⟨l, hl, repaid⟩
  · rw [same]
  · rw [repaid, loansOf_put_loans hl]

theorem Numbered.repaid (ht : t.Numbered) (o : Handle) : (t.repaid o).Numbered := by
  rcases t.repaid_cases o with ⟨same, _⟩ | ⟨l, hl, repaid⟩
  · rwa [same]
  · rw [repaid]
    exact ht.put hl _

theorem size_release (t : HandleTable) (h : Handle) (e : HandleEntry) (kind : HandleEventKind) :
    (t.release h e kind).2.entries.size = t.entries.size :=
  (size_put _ h none).trans (size_repaid t e.lender)

theorem get?_release_self (he : t.get? h = some e) (kind : HandleEventKind) :
    (t.release h e kind).2.get? h = none := by
  obtain ⟨nonzero, inside⟩ := le_size_of_get? he
  rw [← size_repaid t e.lender] at inside
  exact get?_put_self nonzero inside

theorem get?_release_ne (he : t.get? h = some e) (kind : HandleEventKind) (ne : h' ≠ h) :
    (t.release h e kind).2.get? h' = (t.get? h').map fun e' =>
      if h' = e.lender then { e' with loans := e'.loans - 1 } else e' :=
  (get?_put_ne (le_size_of_get? he).1 ne).trans (t.get?_repaid e.lender h')

theorem Consistent.lender_ne (ht : t.Consistent) (he : t.get? h = some e) : h ≠ e.lender := by
  intro heq
  have nonzero := (le_size_of_get? he).1
  cases owned : e.owned with
  | true => exact nonzero (heq.trans (ht.owner h e he owned).1)
  | false =>
    obtain ⟨l, hl, lowned, _⟩ := (ht.borrow h e he owned).2 (heq ▸ nonzero)
    rw [← heq, he] at hl
    cases hl
    rw [owned] at lowned
    cases lowned

theorem Consistent.released (ht : t.Consistent) (he : t.get? h = some e)
    (kind : HandleEventKind) : t.Released h e (t.release h e kind).2 := by
  have owner : e.owned = true → e.lender = 0 := fun owned => (ht.owner h e he owned).1
  have he' : (t.repaid e.lender).get? h = some e := by
    rw [get?_repaid, he, Option.map_some, if_neg (ht.lender_ne he)]
  obtain ⟨nonzero, inside⟩ := le_size_of_get? he'
  refine ⟨(ht.toNumbered.repaid _).remove he', t.size_release h e kind, get?_release_self he kind,
    fun h' ne => get?_release_ne he kind ne, fun o ho => ?_⟩
  have counted := (changed_put nonzero inside none).loans o
  rw [he', loanCount_none, loanCount_eq owner ho, loansOf_repaid] at counted
  exact Nat.eq_sub_of_add_eq counted

theorem Consistent.notify (ht : t.Consistent) (event : HandleEvent) :
    (t.notify event).Consistent :=
  ⟨⟨ht.nodup, ht.mem_freed, ht.few, ht.cleared⟩, ht.owner, ht.borrow⟩

theorem consistent_of_no_entries (entries : t.entries = #[]) (freed : t.freed = []) :
    t.Consistent := by
  have vacant : ∀ h, t.get? h = none := by
    intro h
    simp [get?, entries]
  refine ⟨⟨freed ▸ List.nodup_nil, fun h => ?_, by simp [entries], fun _ => entries⟩,
    fun h e he => ?_, fun h e he => ?_⟩
  · simp only [freed, entries, List.not_mem_nil, false_iff, not_and]
    intro nonzero inside
    exact absurd (UInt32.toNat_inj.mp (Nat.le_zero.mp inside)) nonzero
  · rw [vacant h] at he
    cases he
  · rw [vacant h] at he
    cases he

end HandleTable

end CanonicalAbi
