import CanonicalAbi.Proofs.Effects
import Mathlib.Algebra.Group.Nat.Defs
import Mathlib.Data.List.Perm.Lattice

/-!
# Handles in a table

The operations of a handle table, by what each does to the entry of every handle.
-/

namespace CanonicalAbi

open List

namespace HandleTable

variable {t : HandleTable} {h h' : Handle} {e : Option HandleEntry}

theorem get?_zero (t : HandleTable) : t.get? 0 = none := rfl

theorem get?_put_self (hz : h ≠ 0) (hs : h.toNat ≤ t.entries.size) : (t.put h e).get? h = e := by
  have pos : h.toNat ≠ 0 := fun hn => hz (UInt32.toNat_inj.mp hn)
  rw [get?, if_neg hz, put, Array.getElem?_setIfInBounds_self_of_lt (by omega)]
  rfl

theorem get?_put_ne (hz : h ≠ 0) (hne : h' ≠ h) : (t.put h e).get? h' = t.get? h' := by
  simp only [get?, put]
  split
  · rfl
  · next hz' =>
    have pos : h.toNat ≠ 0 := fun hn => hz (UInt32.toNat_inj.mp hn)
    have pos' : h'.toNat ≠ 0 := fun hn => hz' (UInt32.toNat_inj.mp hn)
    have ne : h'.toNat ≠ h.toNat := fun hn => hne (UInt32.toNat_inj.mp hn)
    rw [Array.getElem?_setIfInBounds_ne (by omega)]

theorem le_size_of_get? {e : HandleEntry} (he : t.get? h = some e) :
    h ≠ 0 ∧ h.toNat ≤ t.entries.size := by
  have nonzero : h ≠ 0 := by
    rintro rfl
    cases he
  refine ⟨nonzero, Nat.le_of_not_lt fun hlt => ?_⟩
  rw [get?, if_neg nonzero, Array.getElem?_eq_none (by omega)] at he
  cases he

section

variable (few : t.entries.size + 1 < 2 ^ 32)
include few

theorem toNat_next : (UInt32.ofNat (t.entries.size + 1)).toNat = t.entries.size + 1 :=
  UInt32.toNat_ofNat_of_lt' few

theorem next_ne_zero : UInt32.ofNat (t.entries.size + 1) ≠ 0 := by
  intro hz
  have number := toNat_next few
  rw [hz] at number
  simp at number

theorem get?_next : t.get? (UInt32.ofNat (t.entries.size + 1)) = none := by
  rw [get?, if_neg (next_ne_zero few), toNat_next few, Array.getElem?_eq_none (by omega)]
  rfl

theorem get?_push_self :
    ({ t with entries := t.entries.push e } : HandleTable).get? (UInt32.ofNat (t.entries.size + 1))
      = e := by
  rw [get?, if_neg (next_ne_zero few), toNat_next few]
  simp

theorem get?_push_ne (ne : h' ≠ UInt32.ofNat (t.entries.size + 1)) :
    ({ t with entries := t.entries.push e } : HandleTable).get? h' = t.get? h' := by
  by_cases hz : h' = 0
  · rw [hz, get?_zero, get?_zero]
  · have pos : h'.toNat ≠ 0 := fun hn => hz (UInt32.toNat_inj.mp hn)
    have ne' : h'.toNat ≠ t.entries.size + 1 := fun hn =>
      ne (UInt32.toNat_inj.mp (hn.trans (toNat_next few).symm))
    rw [get?, get?, if_neg hz, if_neg hz, Array.getElem?_push, if_neg (by omega)]

end

@[simp] theorem get?_notify (t : HandleTable) (event : HandleEvent) (h : Handle) :
    (t.notify event).get? h = t.get? h := rfl

@[simp] theorem size_put (t : HandleTable) (h : Handle) (e : Option HandleEntry) :
    (t.put h e).entries.size = t.entries.size := by
  simp [put]

/-- An open table, whose freed handles are vacant. -/
structure Sound (t : HandleTable) : Prop where
  isOpen : t.closed = false
  nodup : t.freed.Nodup
  vacant : ∀ h ∈ t.freed, h ≠ 0 ∧ h.toNat ≤ t.entries.size ∧ t.get? h = none

theorem sound_empty : empty.Sound := ⟨rfl, nodup_nil, fun _ h => absurd h not_mem_nil⟩

theorem Sound.put (ht : t.Sound) {e e' : HandleEntry} (he : t.get? h = some e) :
    (t.put h (some e')).Sound := by
  refine ⟨ht.isOpen, ht.nodup, fun f hf => ?_⟩
  obtain ⟨nonzero, inside, none⟩ := ht.vacant f hf
  have ne : f ≠ h := by
    rintro rfl
    rw [none] at he
    cases he
  exact ⟨nonzero, by rw [size_put]; exact inside,
    by rw [get?_put_ne (le_size_of_get? he).1 ne]; exact none⟩

end HandleTable

/-! ## Inserting -/

namespace TableOp

open HandleTable

variable {t : HandleTable}

theorem insert_reusing {h : Handle} {freed : List Handle} (isOpen : t.closed = false)
    (hf : t.freed = h :: freed) (e : HandleEntry) (kind : HandleEventKind) :
    runFrom (insert e kind) t = (.ok h,
      ({ t.put h (some e) with freed } : HandleTable).notify ⟨kind, h, e.resource, e.rep⟩) := by
  simp only [insert, runFrom_bind, runFrom_get, continueWith_ok, isOpen, hf]
  rfl

theorem insert_growing (isOpen : t.closed = false) (hf : t.freed = []) (e : HandleEntry)
    (kind : HandleEventKind) :
    runFrom (insert e kind) t = (.ok (UInt32.ofNat (t.entries.size + 1)),
      ({ t with entries := t.entries.push (some e) } : HandleTable).notify
        ⟨kind, UInt32.ofNat (t.entries.size + 1), e.resource, e.rep⟩) := by
  simp only [insert, runFrom_bind, runFrom_get, continueWith_ok, isOpen, hf]
  rfl

end TableOp

namespace HandleTable

variable {t : HandleTable} {h : Handle}

/-- The entry is new, and all others are as before. -/
structure Inserted (t : HandleTable) (h : Handle) (e : HandleEntry) (t' : HandleTable) : Prop where
  sound : t'.Sound
  fresh : t.get? h = none
  self : t'.get? h = some e
  others : ∀ h' ≠ h, t'.get? h' = t.get? h'
  size : t'.entries.size ≤ t.entries.size + 1

theorem Sound.insert (ht : t.Sound) (hsize : t.entries.size + 1 < 2 ^ 32) (e : HandleEntry)
    (kind : HandleEventKind) :
    ∃ h t', runFrom (TableOp.insert e kind) t = (.ok h, t') ∧ t.Inserted h e t' := by
  cases hf : t.freed with
  | cons h freed =>
    obtain ⟨nonzero, inside, fresh⟩ := ht.vacant h (hf ▸ mem_cons_self)
    have nodup := hf ▸ ht.nodup
    refine ⟨h, _, TableOp.insert_reusing ht.isOpen hf e kind,
      ⟨⟨ht.isOpen, (nodup_cons.mp nodup).2, fun f hm => ?_⟩, fresh,
        get?_put_self nonzero inside, fun h' ne => get?_put_ne nonzero ne, ?_⟩⟩
    · obtain ⟨nonzero', inside', vacant⟩ := ht.vacant f (hf ▸ mem_cons_of_mem _ hm)
      have ne : f ≠ h := fun he => (nodup_cons.mp nodup).1 (he ▸ hm)
      refine ⟨nonzero', by simpa [notify, HandleTable.put] using inside', ?_⟩
      exact (get?_put_ne nonzero ne).trans vacant
    · simp [notify, HandleTable.put]
  | nil =>
    refine ⟨_, _, TableOp.insert_growing ht.isOpen hf e kind,
      ⟨⟨ht.isOpen, hf ▸ nodup_nil, fun f hm => ?_⟩, get?_next hsize, get?_push_self hsize,
        fun h' ne => get?_push_ne hsize ne, ?_⟩⟩
    · have hm : f ∈ t.freed := hm
      rw [hf] at hm
      cases hm
    · simp [notify]

end HandleTable

/-! ## Looking up and taking -/

/-- Whether an entry whose resource type is `found` passes for one whose type is `wanted`: types
that are known have to be the same. -/
def SameResource (wanted found : Option Label) : Prop :=
  ∀ r ∈ wanted, ∀ r' ∈ found, r.id = r'.id

theorem SameResource.refl (resource : Option Label) : SameResource resource resource := by
  intro r hr r' hr'
  rw [hr] at hr'
  cases hr'
  rfl

namespace TableOp

open HandleTable

variable {t : HandleTable} {h : Handle} {e : HandleEntry} {resource : Option Label}

theorem lookup_eq (he : t.get? h = some e) (hr : SameResource resource e.resource) :
    runFrom (lookup h resource) t = (.ok e, t) := by
  simp only [lookup, runFrom_bind, runFrom_get, continueWith_ok, he]
  split
  · next r r' hrr' =>
    rw [if_pos (hr r rfl r' (by simp [hrr']))]
    rfl
  · rfl

theorem rep_eq (he : t.get? h = some e) (hr : SameResource resource e.resource) :
    runFrom (rep h resource) t = (.ok e.rep, t) := by
  rw [rep, runFrom_bind_ok (lookup_eq he hr)]
  rfl

theorem take_eq (ht : t.Sound) (he : t.get? h = some e) (hr : SameResource resource e.resource)
    (owned : e.owned = true) (loans : e.loans = 0) (lender : e.lender = 0) :
    ∃ t', runFrom (take h resource) t = (.ok e.rep, t') ∧ t'.Sound ∧ t'.get? h = none
      ∧ (∀ h' ≠ h, t'.get? h' = t.get? h') ∧ t'.entries.size = t.entries.size := by
  obtain ⟨nonzero, inside⟩ := le_size_of_get? he
  refine ⟨({ t.put h none with freed := h :: t.freed } : HandleTable).notify
    ⟨.dropped, h, e.resource, e.rep⟩, ?_, ⟨ht.isOpen, ?_, fun f hf => ?_⟩,
    get?_put_self nonzero inside, fun h' ne => get?_put_ne nonzero ne, size_put t h none⟩
  · rw [take, runFrom_bind_ok (lookup_eq he hr)]
    simp only [owned, refuseLent, loans, remove, release, lender, get?_zero]
    rfl
  · refine nodup_cons.mpr ⟨fun hm => ?_, ht.nodup⟩
    rw [(ht.vacant h hm).2.2] at he
    cases he
  · rcases mem_cons.mp hf with rfl | hf
    · exact ⟨nonzero, by simpa [notify, HandleTable.put] using inside,
        get?_put_self nonzero inside⟩
    · obtain ⟨nonzero', inside', vacant⟩ := ht.vacant f hf
      have ne : f ≠ h := by
        rintro rfl
        rw [vacant] at he
        cases he
      exact ⟨nonzero', by simpa [notify, HandleTable.put] using inside',
        (get?_put_ne nonzero ne).trans vacant⟩

end TableOp

/-! ## Handles in use -/

/-- A handle, and what it has to stand for. -/
structure HandleUse where
  handle : Handle
  form : HandleForm
  resource : Option Label
  rep : UInt32

namespace HandleUse

def value (u : HandleUse) : Value :=
  match u.form with
  | .own => .own u.rep
  | .borrow => .borrow u.rep 0

/-- The entry is what the use asks for. -/
structure MatchedBy (u : HandleUse) (e : HandleEntry) : Prop where
  rep : e.rep = u.rep
  resource : SameResource u.resource e.resource
  own : u.form = .own → e.owned = true ∧ e.loans = 0 ∧ e.lender = 0

end HandleUse

/-- A table in which the handles `uses` are being passed, with numbers left for `room` more;
`origin` is the table as it was when the call began, whose entries are all still there. -/
structure Holding (origin : HandleTable) (uses : List HandleUse) (room : Nat) (t : HandleTable) :
    Prop where
  sound : t.Sound
  room : t.entries.size + room < 2 ^ 32
  nodup : (uses.map (·.handle)).Nodup
  live : ∀ u ∈ uses, ∃ e, t.get? u.handle = some e ∧ u.MatchedBy e
  apart : ∀ u ∈ uses, origin.get? u.handle = none
  kept : ∀ h e, origin.get? h = some e → ∃ loans, t.get? h = some { e with loans }

namespace Holding

variable {origin t : HandleTable} {uses uses' : List HandleUse} {room : Nat} {u : HandleUse}

theorem start (h : origin.Sound) (hroom : origin.entries.size + room < 2 ^ 32) :
    Holding origin [] room origin :=
  ⟨h, hroom, nodup_nil, fun _ h => absurd h not_mem_nil,
    fun _ h => absurd h not_mem_nil, fun _ e he => ⟨e.loans, he⟩⟩

theorem perm (h : Holding origin uses room t) (hp : uses.Perm uses') :
    Holding origin uses' room t where
  sound := h.sound
  room := h.room
  nodup := (hp.map _).nodup h.nodup
  live u hu := h.live u (hp.mem_iff.mpr hu)
  apart u hu := h.apart u (hp.mem_iff.mpr hu)
  kept := h.kept

theorem forget (h : Holding origin (u :: uses) room t) : Holding origin uses room t where
  sound := h.sound
  room := h.room
  nodup := (nodup_cons.mp h.nodup).2
  live u hu := h.live u (mem_cons_of_mem _ hu)
  apart u hu := h.apart u (mem_cons_of_mem _ hu)
  kept := h.kept

theorem less_room {room' : Nat} (h : Holding origin uses room t) (hr : room' ≤ room) :
    Holding origin uses room' t :=
  { h with room := by have := h.room; omega }

section

variable (h : Holding origin uses (room + 1) t)
include h

theorem insert (form : HandleForm) (resource : Option Label) (e : HandleEntry)
    (kind : HandleEventKind)
    (he : ∀ handle, (⟨handle, form, resource, e.rep⟩ : HandleUse).MatchedBy e) :
    ∃ handle t', runFrom (TableOp.insert e kind) t = (.ok handle, t')
      ∧ Holding origin (⟨handle, form, resource, e.rep⟩ :: uses) room t' := by
  have hroom := h.room
  obtain ⟨handle, t', run, inserted⟩ := h.sound.insert (by omega) e kind
  have unused : ∀ u ∈ uses, u.handle ≠ handle := by
    intro u hu heq
    obtain ⟨e', he', _⟩ := h.live u hu
    rw [heq, inserted.fresh] at he'
    cases he'
  have old : ∀ h' e', origin.get? h' = some e' → h' ≠ handle := by
    rintro h' e' he' rfl
    obtain ⟨_, kept⟩ := h.kept h' e' he'
    rw [inserted.fresh] at kept
    cases kept
  refine ⟨handle, t', run, ⟨inserted.sound, ?_, ?_, ?_, ?_, ?_⟩⟩
  · have := inserted.size
    omega
  · refine nodup_cons.mpr ⟨fun hm => ?_, h.nodup⟩
    obtain ⟨u, hu, heq⟩ := mem_map.mp hm
    exact unused u hu heq
  · intro u hu
    rcases mem_cons.mp hu with rfl | hu
    · exact ⟨e, inserted.self, he handle⟩
    · rw [inserted.others _ (unused u hu)]
      exact h.live u hu
  · intro u hu
    rcases mem_cons.mp hu with rfl | hu
    · exact Option.eq_none_iff_forall_ne_some.mpr fun e' he' => old _ e' he' rfl
    · exact h.apart u hu
  · intro h' e' he'
    rw [inserted.others _ (old h' e' he')]
    exact h.kept h' e' he'

theorem addOwned (resource : Option Label) (rep : UInt32) :
    ∃ handle t', runFrom (TableOp.addOwned resource rep) t = (.ok handle, t')
      ∧ Holding origin (⟨handle, .own, resource, rep⟩ :: uses) room t' :=
  h.insert .own resource { resource, rep, owned := true } .created
    fun _ => ⟨rfl, .refl _, fun _ => ⟨rfl, rfl, rfl⟩⟩

theorem addBorrowed (resource : Option Label) (rep : UInt32) :
    ∃ handle t', runFrom (TableOp.addBorrowed resource rep) t = (.ok handle, t')
      ∧ Holding origin (⟨handle, .borrow, resource, rep⟩ :: uses) room t' :=
  h.insert .borrow resource { resource, rep, owned := false } .borrowed
    fun _ => ⟨rfl, .refl _, nofun⟩

theorem lend {owner : Handle} {e : HandleEntry} {resource : Option Label}
    (he : origin.get? owner = some e) (owned : e.owned = true)
    (hr : SameResource resource e.resource) :
    ∃ handle t', runFrom (TableOp.lend owner resource) t = (.ok handle, t')
      ∧ Holding origin (⟨handle, .borrow, resource, e.rep⟩ :: uses) room t' := by
  obtain ⟨loans, kept⟩ := h.kept owner e he
  have nonzero := (HandleTable.le_size_of_get? kept).1
  have inside := (HandleTable.le_size_of_get? kept).2
  have counted : Holding origin uses (room + 1)
      (t.put owner (some { e with loans := loans + 1 })) := by
    refine ⟨h.sound.put kept, by rw [HandleTable.size_put]; exact h.room, h.nodup, ?_, h.apart, ?_⟩
    · intro u hu
      have ne : u.handle ≠ owner := by
        intro heq
        rw [← heq, h.apart u hu] at he
        cases he
      rw [HandleTable.get?_put_ne nonzero ne]
      exact h.live u hu
    · intro h' e' he'
      by_cases heq : h' = owner
      · subst heq
        rw [he] at he'
        cases he'
        exact ⟨loans + 1, HandleTable.get?_put_self nonzero inside⟩
      · rw [HandleTable.get?_put_ne nonzero heq]
        exact h.kept h' e' he'
  obtain ⟨handle, t', run, holding⟩ := counted.insert .borrow resource
    { resource := e.resource, rep := e.rep, owned := false, lender := owner } .borrowed
    fun _ => ⟨rfl, hr, nofun⟩
  refine ⟨handle, t', ?_, holding⟩
  rw [TableOp.lend, runFrom_bind_ok (TableOp.lookup_eq kept hr), runFrom_ite, if_pos owned]
  exact run

end

theorem take (h : Holding origin (u :: uses) room t) (hu : u.form = .own) :
    ∃ t', runFrom (TableOp.take u.handle u.resource) t = (.ok u.rep, t')
      ∧ Holding origin uses room t' := by
  obtain ⟨e, he, matched⟩ := h.live u mem_cons_self
  obtain ⟨owned, loans, lender⟩ := matched.own hu
  obtain ⟨t', run, sound, _, others, size⟩ :=
    TableOp.take_eq h.sound he matched.resource owned loans lender
  have others_live : ∀ u' ∈ uses, u'.handle ≠ u.handle := fun u' hu' heq =>
    (nodup_cons.mp h.nodup).1 (mem_map.mpr ⟨u', hu', heq⟩)
  refine ⟨t', by rw [run, matched.rep], ⟨sound, size ▸ h.room, (nodup_cons.mp h.nodup).2, ?_,
    fun u' hu' => h.apart u' (mem_cons_of_mem _ hu'), ?_⟩⟩
  · intro u' hu'
    rw [others _ (others_live u' hu')]
    exact h.live u' (mem_cons_of_mem _ hu')
  · intro h' e' he'
    have ne : h' ≠ u.handle := by
      rintro rfl
      rw [h.apart u mem_cons_self] at he'
      cases he'
    rw [others _ ne]
    exact h.kept h' e' he'

theorem rep (h : Holding origin (u :: uses) room t) :
    runFrom (TableOp.rep u.handle u.resource) t = (.ok u.rep, t) := by
  obtain ⟨e, he, matched⟩ := h.live u mem_cons_self
  rw [TableOp.rep_eq he matched.resource, matched.rep]

end Holding

end CanonicalAbi
