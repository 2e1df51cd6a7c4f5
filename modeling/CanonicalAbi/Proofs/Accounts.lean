import CanonicalAbi.Proofs.Transfers

/-!
# Accounts of memory

Which blocks are in use after some calls of an allocator. A block must be in use when it is given
back, with exactly the pointer, the size and the alignment that it was handed out with.
-/

namespace CanonicalAbi

/-! ## Blocks in use -/

/-- Empty blocks are not counted. -/
def solid (blocks : List Allocation) : List Allocation := blocks.filter (·.size ≠ 0)

@[simp] theorem solid_append (bs bs' : List Allocation) :
    solid (bs ++ bs') = solid bs ++ solid bs' := List.filter_append ..

theorem mem_solid {b : Allocation} {blocks : List Allocation} :
    b ∈ solid blocks ↔ b ∈ blocks ∧ b.size ≠ 0 := by
  simp [solid]

theorem solid_erase {b : Allocation} (hb : b.size ≠ 0) (blocks : List Allocation) :
    solid (blocks.erase b) = (solid blocks).erase b := by
  induction blocks with
  | nil => rfl
  | cons x xs ih =>
    by_cases hx : x = b
    · subst hx
      simp [solid, hb]
    · by_cases hz : x.size = 0 <;> simp_all [solid]

/-- The blocks that are in use after some calls, the newest first. There is no answer if a block is
given back that is not in use, or one of size zero. -/
def outstanding (live : List Allocation) : List AllocatorCall → Option (List Allocation)
  | [] => some live
  | .alloc b :: calls => outstanding (b :: live) calls
  | .free b :: calls =>
    if b.size ≠ 0 ∧ b ∈ live then outstanding (live.erase b) calls else none

theorem outstanding_append (live : List Allocation) (calls calls' : List AllocatorCall) :
    outstanding live (calls ++ calls')
      = (outstanding live calls).bind (outstanding · calls') := by
  induction calls generalizing live with
  | nil => rfl
  | cons call calls ih =>
    cases call with
    | alloc b => exact ih (b :: live)
    | free b =>
      simp only [List.cons_append, outstanding]
      split
      · exact ih (live.erase b)
      · rfl

theorem outstanding_of_perm {live live' left : List Allocation} {calls : List AllocatorCall}
    (h : (solid live).Perm (solid live')) (ho : outstanding live calls = some left) :
    ∃ left', outstanding live' calls = some left' ∧ (solid left).Perm (solid left') := by
  induction calls generalizing live live' with
  | nil =>
    cases ho
    exact ⟨live', rfl, h⟩
  | cons call calls ih =>
    cases call with
    | alloc b =>
      refine ih ?_ ho
      have : (solid ([b] ++ live)).Perm (solid ([b] ++ live')) := by
        simpa only [solid_append] using h.append_left _
      exact this
    | free b =>
      simp only [outstanding] at ho ⊢
      split at ho
      · next hb =>
        have mem : b ∈ live' :=
          (mem_solid.mp (h.mem_iff.mp (mem_solid.mpr ⟨hb.2, hb.1⟩))).1
        rw [if_pos ⟨hb.1, mem⟩]
        refine ih ?_ ho
        rw [solid_erase hb.1, solid_erase hb.1]
        exact h.erase b
      · exact absurd ho nofun

/-! ## Balances -/

/-- Calls after which the blocks `live'` are in use, if the blocks `live` were before. -/
def Balances (calls : List AllocatorCall) (live live' : List Allocation) : Prop :=
  ∃ left, outstanding live calls = some left ∧ (solid left).Perm (solid live')

namespace Balances

variable {calls calls' : List AllocatorCall} {live live' live'' : List Allocation}

theorem nil (live : List Allocation) : Balances [] live live := ⟨live, rfl, .refl _⟩

theorem perm_left (h : Balances calls live live') (hp : (solid live).Perm (solid live'')) :
    Balances calls live'' live' := by
  obtain ⟨left, ho, hleft⟩ := h
  obtain ⟨left', ho', hleft'⟩ := outstanding_of_perm hp ho
  exact ⟨left', ho', hleft'.symm.trans hleft⟩

theorem perm_right (h : Balances calls live live') (hp : (solid live').Perm (solid live'')) :
    Balances calls live live'' := by
  obtain ⟨left, ho, hleft⟩ := h
  exact ⟨left, ho, hleft.trans hp⟩

theorem append (h : Balances calls live live') (h' : Balances calls' live' live'') :
    Balances (calls ++ calls') live live'' := by
  obtain ⟨left, ho, hleft⟩ := h
  obtain ⟨left', ho', hleft'⟩ := h'.perm_left hleft.symm
  refine ⟨left', ?_, hleft'⟩
  rw [outstanding_append, ho]
  exact ho'

theorem allocs (blocks live : List Allocation) :
    Balances (blocks.map .alloc) live (blocks ++ live) := by
  induction blocks generalizing live with
  | nil => exact nil live
  | cons b blocks ih =>
    obtain ⟨left, ho, hleft⟩ := ih (b :: live)
    refine ⟨left, ho, hleft.trans ?_⟩
    have : (solid (blocks ++ ([b] ++ live))).Perm (solid ([b] ++ (blocks ++ live))) := by
      simp only [solid_append]
      exact List.perm_append_comm_assoc _ _ _
    exact this

theorem frees (blocks live : List Allocation) :
    Balances (freeCalls blocks) (blocks ++ live) live := by
  induction blocks with
  | nil => exact nil live
  | cons b blocks ih =>
    by_cases hb : b.size = 0
    · have same : freeCalls (b :: blocks) = freeCalls blocks := by simp [freeCalls, hb]
      rw [same]
      refine ih.perm_left ?_
      rw [List.cons_append, solid, solid, List.filter_cons_of_neg (by simpa using hb)]
    · have first : freeCalls (b :: blocks) = .free b :: freeCalls blocks := by
        simp [freeCalls, hb]
      obtain ⟨left, ho, hleft⟩ := ih
      refine ⟨left, ?_, hleft⟩
      rw [first, outstanding, if_pos ⟨hb, List.mem_cons_self⟩, List.cons_append,
        List.erase_cons_head]
      exact ho

end Balances

/-! ## Worlds -/

variable {α : Type} [BumpLike α]

/-- The allocator was called in such a way that the blocks `live'` are in use, if the blocks `live`
were before. -/
def World.Balances (w : World α) (live : List Allocation) (w' : World α)
    (live' : List Allocation) : Prop :=
  ∃ calls, w.Calls calls w' ∧ CanonicalAbi.Balances calls live live'

namespace World.Balances

variable {w w' w'' : World α} {live live' live'' : List Allocation}

theorem trans (h : w.Balances live w' live') (h' : w'.Balances live' w'' live'') :
    w.Balances live w'' live'' := by
  obtain ⟨calls, ran, balances⟩ := h
  obtain ⟨calls', ran', balances'⟩ := h'
  exact ⟨calls ++ calls', ran.trans ran', balances.append balances'⟩

theorem perm_left (h : w.Balances live w' live') (hp : (solid live).Perm (solid live'')) :
    w.Balances live'' w' live' := by
  obtain ⟨calls, ran, balances⟩ := h
  exact ⟨calls, ran, balances.perm_left hp⟩

theorem perm_right (h : w.Balances live w' live') (hp : (solid live').Perm (solid live'')) :
    w.Balances live w' live'' := by
  obtain ⟨calls, ran, balances⟩ := h
  exact ⟨calls, ran, balances.perm_right hp⟩

theorem idle (ready : w.Ready) (h : w'.allocator = w.allocator) (live : List Allocation) :
    w.Balances live w' live :=
  ⟨[], ready.calls_nil h, .nil live⟩

variable {m m' : Machine α} {blocks : List Allocation}

theorem lowered {realloc : String} {area : Nat → Prop} (h : Lowered realloc area blocks m m')
    (live : List Allocation) : m.world.Balances live m'.world (blocks ++ live) := by
  obtain ⟨bs, hbs, calls⟩ := h.calls
  refine ⟨_, calls, (CanonicalAbi.Balances.allocs bs live).perm_right ?_⟩
  exact (hbs.append_right live).filter _

theorem lifted (h : Lifted true blocks m m') (live : List Allocation) :
    m.world.Balances (blocks ++ live) m'.world live :=
  ⟨_, h.calls, CanonicalAbi.Balances.frees blocks live⟩

theorem read (h : Lifted false blocks m m') (live : List Allocation) :
    m.world.Balances live m'.world live :=
  ⟨_, h.calls, .nil live⟩

end World.Balances

end CanonicalAbi
