import CanonicalAbi.Proofs.WellTyped

/-!
# Operations of a machine

What the operations behind the instructions give and how they fail, on every machine. None of them
touches the registers.
-/

namespace CanonicalAbi

variable {α β γ : Type} {raw : RawRule} {a : Assurance}

namespace Exec

/-- On every machine the computation leaves the registers alone and gives what `R` says, or fails in
one of the ways that are left. -/
def Gives (a : Assurance) (x : Exec α β) (R : β → Prop) : Prop :=
  ∀ m, Does a.Allows x m fun b m' => m'.registers = m.registers ∧ R b

variable {e : Failure}

namespace Gives

variable {x : Exec α β} {R : β → Prop} {S : γ → Prop}

theorem pure {b : β} (h : R b) : Gives a (pure b : Exec α β) R := fun _ => ⟨rfl, h⟩

theorem throw (h : a.Allows e) : Gives a (throw e : Exec α β) R := fun _ => h

theorem imp {R' : β → Prop} (h : Gives a x R) (hR : ∀ b, R b → R' b) : Gives a x R' :=
  fun m => (h m).imp fun b _ ⟨same, hb⟩ => ⟨same, hR b hb⟩

theorem bind {f : β → Exec α γ} (hx : Gives a x R) (hf : ∀ b, R b → Gives a (f b) S) :
    Gives a (x >>= f) S := by
  intro m
  refine (hx m).bind fun b m1 ⟨same, hb⟩ => ?_
  exact (hf b hb m1).imp fun c m2 ⟨same', hc⟩ => ⟨same'.trans same, hc⟩

theorem modify {f : Machine α → Machine α} (h : ∀ m, (f m).registers = m.registers) :
    Gives a (modify f : Exec α Unit) fun _ => True := fun m => ⟨h m, trivial⟩

theorem ofExcept {y : Except Failure β} (ok : ∀ b, y = .ok b → R b)
    (error : ∀ e, y = .error e → a.Allows e) : Gives a (Exec.ofExcept y : Exec α β) R := by
  cases y with
  | ok b => exact pure (ok b rfl)
  | error e => exact throw (error e rfl)

theorem act {y : Action α β} (ok : ∀ w b w', runFrom y w = (.ok b, w') → R b)
    (error : ∀ w e w', runFrom y w = (.error e, w') → a.Allows e) : Gives a (Exec.act y) R := by
  intro m
  rw [Does, runFrom_act]
  have hok := ok m.world
  have herror := error m.world
  revert hok herror
  rcases runFrom y m.world with ⟨e | b, w⟩
  · exact fun _ herror => herror e w rfl
  · exact fun hok _ => ⟨rfl, hok b w rfl⟩

theorem act_modify (f : World α → World α) :
    Gives a (Exec.act (MonadState.modifyGet fun w => ((), f w)) : Exec α Unit) fun _ => True :=
  fun _ => ⟨rfl, trivial⟩

theorem act_read {f : Memory → Except Failure β} (ok : ∀ mem b, f mem = .ok b → R b)
    (error : ∀ mem e, f mem = .error e → e.report?.isSome) :
    Gives a (Exec.act (do Action.ofExcept (f (← get).memory)) : Exec α β) R := by
  have outcome : ∀ w : World α,
      runFrom (do Action.ofExcept (f (← get).memory) : Action α β) w = (f w.memory, w) := by
    intro w
    rw [runFrom_bind_ok (runFrom_get w)]
    rcases f w.memory with e | b <;> rfl
  refine act (fun w b w' h => ?_) (fun w e w' h _ => ?_)
  · rw [outcome] at h
    exact ok w.memory b (Prod.mk.inj h).1
  · rw [outcome] at h
    exact error w.memory e (Prod.mk.inj h).1

end Gives

theorem report_of_read {mem : Memory} {offset length : UInt32}
    (h : mem.read offset length = .error e) : e.report?.isSome := by
  rw [Memory.read] at h
  split at h <;> cases h
  rfl

theorem report_of_load {mem : Memory} {width : IntWidth} {offset : UInt32}
    (h : mem.load width offset = .error e) : e.report?.isSome := by
  rw [Memory.load] at h
  cases hr : mem.read offset width.size with
  | error e' =>
    rw [hr] at h
    cases h
    exact report_of_read hr
  | ok data =>
    rw [hr] at h
    cases h

theorem load_gives (op : LoadOp) (addr : UInt32) :
    Gives a (load op addr : Exec α Value) ((OperandType.core op.coreType).Means raw a) := by
  rw [load_eq_map, map_eq_pure_bind]
  have loaded : Gives a (act (.load op.width addr) : Exec α UInt64)
      fun n => n.toNat < 2 ^ (8 * op.width.size.toNat) :=
    Gives.act_read (f := fun mem => mem.load op.width addr) (fun _ _ h => Memory.load_lt h)
      fun _ _ h => report_of_load h
  refine loaded.bind fun n hn => Gives.pure (OperandType.means_core _ ?_)
  cases op with
  | i32From8S => exact CoreType.holds_toUInt64 .i32 _
  | i32From16S => exact CoreType.holds_toUInt64 .i32 _
  | i64 => trivial
  | f64 => trivial
  | _ =>
    exact Nat.lt_of_lt_of_le hn (by decide)

theorem store_gives (op : StoreOp) (addr : UInt32) (x : UInt64) :
    Gives a (store op addr x : Exec α Unit) fun _ => True := by
  have stored : ∀ width, Gives a (act (.store width addr x) : Exec α Unit) fun _ => True := by
    intro width
    have outcome : ∀ w : World α, runFrom (Action.store width addr x : Action α Unit) w
        = match w.memory.store width addr x with
          | .ok memory => (.ok (), { w with memory })
          | .error e => (.error e, w) := by
      intro w
      rw [Action.store, runFrom_bind_ok (runFrom_get w), runFrom_bind]
      rcases w.memory.store width addr x with e | memory <;> rfl
    refine Gives.act (fun _ _ _ _ => trivial) (fun w e w' h _ => ?_)
    rw [outcome, Memory.store, Memory.write] at h
    split_ifs at h <;> cases h
    rfl
  cases op <;> exact stored _

section Memory

variable [Allocator α]

theorem free_gives (ptr size align : UInt32) :
    Gives a (free ptr size align : Exec α Unit) fun _ => True := by
  rw [free]
  split
  · exact Gives.pure trivial
  · exact Gives.act_modify _

theorem freeOwned_gives (c : Setting α) (ptr size align : UInt32) :
    Gives a (freeOwned c ptr size align) fun _ => True := by
  rw [freeOwned]
  split
  · exact free_gives _ _ _
  · exact Gives.pure trivial

theorem alloc_gives (h : ¬ a.reported) (size align : UInt32) :
    Gives a (act (.alloc size align) : Exec α UInt32) fun _ => True :=
  Gives.act (fun _ _ _ _ => trivial) fun _ _ _ _ reported => absurd reported h

theorem allocFor_gives (h : ¬ a.reported) (realloc : String) (size align : UInt32) :
    Gives a (allocFor realloc size align : Exec α UInt32) fun _ => True := by
  refine (alloc_gives h size align).bind fun ptr _ => ?_
  have done : Gives a (pure ptr : Exec α UInt32) fun _ => True := Gives.pure trivial
  split
  · exact (Gives.modify fun _ => rfl).bind fun _ _ => done
  · exact done

theorem putBytes_gives (h : ¬ a.reported) (realloc : String) (data : List UInt8) :
    Gives a (putBytes realloc data : Exec α (List Value))
      (Mean raw a [.core .i32, .core .i32]) := by
  refine (allocFor_gives h realloc _ 1).bind fun ptr _ => ?_
  have done : Gives a (pure [.ofU32 ptr, .ofU32 (UInt32.ofNat data.length)] : Exec α (List Value))
      (Mean raw a [.core .i32, .core .i32]) := Gives.pure (Mean.pair .i32 .i32 ptr _)
  split
  · exact done
  · refine Gives.bind (R := fun _ => True) ?_ fun _ _ => done
    exact Gives.act (fun _ _ _ _ => trivial) fun _ _ _ _ reported => absurd reported h

omit [Allocator α] in
theorem bytesAt_gives (ptr length : UInt32) :
    Gives a (bytesAt ptr length : Exec α (List UInt8)) fun _ => True := by
  rw [bytesAt]
  split
  · exact Gives.pure trivial
  · exact Gives.act_read (f := fun mem => mem.read ptr length) (fun _ _ _ => trivial)
      fun _ _ h => report_of_read h

theorem liftString_gives (c : Setting α) (ptr length : UInt32) :
    Gives a (liftString c ptr length) ((OperandType.source (some .string)).Means raw a) := by
  refine (bytesAt_gives ptr length).bind fun data _ => ?_
  split
  · next valid =>
    exact (freeOwned_gives c ptr length 1).bind fun _ _ => Gives.pure fun _ => ⟨data, rfl, valid⟩
  · exact Gives.throw fun _ => rfl

omit [Allocator α] in
theorem requireBytes_gives (elem : Option Shape) :
    Gives a (requireBytes elem : Exec α Unit) fun _ => True := by
  rw [requireBytes]
  split
  · exact Gives.pure trivial
  · exact Gives.throw fun _ => rfl

end Memory

/-! ## Handles -/

theorem requireTable_gives : Gives a (requireTable : Exec α Unit) fun _ => True := by
  intro m
  refine Does.after (runFrom_get m) ?_
  split
  · exact fun _ => rfl
  · exact ⟨rfl, trivial⟩

theorem onTable_gives {op : TableOp β}
    (h : ∀ t e t', runFrom op t = (.error e, t') → a.Allows e) :
    Gives a (act (.onTable op) : Exec α β) fun _ => True := by
  refine Gives.act (fun _ _ _ _ => trivial) fun w e w' herror => ?_
  simp only [Action.onTable, runFrom_bind, runFrom_get, continueWith_ok] at herror
  cases ht : w.table with
  | none =>
    rw [ht] at herror
    cases herror
    exact fun _ => rfl
  | some t =>
    have outcome := h t
    simp only [ht, run_run_eq] at herror
    revert outcome herror
    rcases runFrom op t with ⟨e' | b, t'⟩
    · intro outcome herror
      obtain rfl : e' = e := Except.error.inj (Prod.mk.inj herror).1
      exact outcome e' t' rfl
    · intro _ herror
      cases herror

variable {resource : Option Label}

theorem report_of_lookup {h : Handle} {t t' : HandleTable}
    (failed : runFrom (TableOp.lookup h resource) t = (.error e, t')) : e.report?.isSome := by
  rw [TableOp.lookup, runFrom_bind_ok (runFrom_get t)] at failed
  split at failed
  · cases failed
    rfl
  · split at failed
    · split at failed <;> cases failed
      rfl
    · cases failed

theorem report_of_take {h : Handle} {t t' : HandleTable}
    (failed : runFrom (TableOp.take h resource) t = (.error e, t')) : e.report?.isSome := by
  rw [TableOp.take, runFrom_bind] at failed
  revert failed
  rcases hl : runFrom (TableOp.lookup h resource) t with ⟨e' | entry, t1⟩
  · intro failed
    cases failed
    exact report_of_lookup hl
  · rw [continueWith_ok, TableOp.refuseLent]
    intro failed
    by_cases owned : entry.owned = true
    · by_cases lent : entry.loans > 0
      · simp only [owned, lent, if_true] at failed
        cases failed
        rfl
      · simp only [owned, lent, if_true, if_false] at failed
        cases failed
    · simp only [owned] at failed
      cases failed
      rfl

theorem liftHandle_gives (form : HandleForm) (l : Label) (resource : Option Label) (h : Handle) :
    Gives a (liftHandle form resource h : Exec α Value)
      ((OperandType.source (some (.handle l form resource))).Means raw a) := by
  refine requireTable_gives.bind fun _ _ => ?_
  cases form with
  | own =>
    refine (onTable_gives fun _ _ _ failed _ => report_of_take failed).bind fun rep _ => ?_
    exact Gives.pure fun _ => ⟨rep, rfl⟩
  | borrow =>
    have looked : Gives a (act (.onTable (.rep h resource)) : Exec α UInt32) fun _ => True := by
      refine onTable_gives fun t e t' failed _ => ?_
      rw [TableOp.rep, runFrom_bind] at failed
      revert failed
      rcases hl : runFrom (TableOp.lookup h resource) t with ⟨e' | entry, t1⟩
      · intro failed
        cases failed
        exact report_of_lookup hl
      · intro failed
        cases failed
    exact looked.bind fun rep _ => Gives.pure fun _ => ⟨rep, rfl⟩

theorem lowerHandle_gives (hr : ¬ a.reported) (form : HandleForm) (l : Label)
    (resource : Option Label) (v : Value) :
    Gives a (lowerHandle form l resource v : Exec α Value)
      ((OperandType.core .i32).Means raw a) := by
  have added : ∀ op : TableOp Handle, Gives a (act (.onTable op) : Exec α Handle) fun _ => True :=
    fun op => onTable_gives fun _ _ _ _ reported => absurd reported hr
  refine requireTable_gives.bind fun _ _ => ?_
  split
  · exact (added _).bind fun h _ => Gives.pure (OperandType.means_ofU32 .i32 h)
  · refine (added _).bind fun h _ => ?_
    refine Gives.bind (R := fun _ => True) (Gives.modify fun _ => rfl) fun _ _ => ?_
    exact Gives.pure (OperandType.means_ofU32 .i32 h)
  · exact Gives.throw fun _ => rfl

/-! ## Calls -/

theorem outcome_gives (name : String) (count : Nat) (call : Action α (List β)) :
    Gives a (outcome name count call) fun results => results.length = count := by
  intro m
  refine Does.after (runFrom_get m) ?_
  simp only [run_run_eq]
  rcases runFrom call m.world with ⟨e | results, w⟩
  · exact fun _ => rfl
  · refine Does.after (runFrom_set m { m with world := w }) ?_
    dsimp only
    split
    · exact fun _ => rfl
    · next h => exact ⟨rfl, not_not.mp h⟩

theorem callCore_gives (hr : ¬ a.ranged) (c : Setting α) (name : String)
    (signature : CoreSignature) (args : List Value) :
    Gives a (callCore c name signature args) (Mean raw a (signature.results.map .core)) := by
  rw [callCore]
  split
  · exact Gives.throw fun _ => rfl
  · next f _ =>
    refine (outcome_gives name signature.results.length _).bind fun results length => ?_
    refine Gives.pure ?_
    rw [Mean, Value.ofCore, List.forall₂_map_left_iff, List.forall₂_map_right_iff]
    exact List.forall₂_iff_get.mpr ⟨length.symm, fun i _ _ =>
      ⟨_, rfl, fun ranged => absurd ranged hr⟩⟩

theorem callInterface_gives (ht : ¬ a.typed) (c : Setting α) (f : FunctionShape)
    (args : List Value) : Gives a (callInterface c f args) (Mean raw a (f.results.map .of)) := by
  rw [callInterface]
  split
  · exact Gives.throw fun _ => rfl
  · exact (outcome_gives f.name f.results.length _).imp fun results length =>
      Mean.parts length fun typed => absurd typed ht

end Exec

end CanonicalAbi
