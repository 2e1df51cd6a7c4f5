import CanonicalAbi.Machine.World
import CanonicalAbi.Stream.Generator

/-!
# Running computations with failure and state

Generators, table operations, actions and programs are all computations that may fail and that keep
the state in which they failed.
-/

namespace CanonicalAbi

variable {ε τ α β : Type} {x : ExceptT ε (StateM τ) α} {f : α → ExceptT ε (StateM τ) β} {s s' : τ}

/-- The outcome of a computation from a state: its result or failure, and the state it ends in. -/
def runFrom (x : ExceptT ε (StateM τ) α) (s : τ) : Except ε α × τ := x s

/-- Goes on with `f` after a result; a failure ends the computation. -/
def continueWith (f : α → τ → Except ε β × τ) : Except ε α × τ → Except ε β × τ
  | (.ok a, s) => f a s
  | (.error e, s) => (.error e, s)

@[simp] theorem continueWith_ok (f : α → τ → Except ε β × τ) (a : α) (s : τ) :
    continueWith f (.ok a, s) = f a s := rfl

@[simp] theorem continueWith_error (f : α → τ → Except ε β × τ) (e : ε) (s : τ) :
    continueWith f (.error e, s) = (.error e, s) := rfl

theorem run_run_eq (x : ExceptT ε (StateM τ) α) (s : τ) : x.run.run s = runFrom x s := rfl

theorem runFrom_bind (x : ExceptT ε (StateM τ) α) (f : α → ExceptT ε (StateM τ) β) (s : τ) :
    runFrom (x >>= f) s = continueWith (fun a => runFrom (f a)) (runFrom x s) := by
  simp only [runFrom, bind, ExceptT.bind, ExceptT.mk, StateT.bind]
  rcases x s with ⟨_ | _, _⟩ <;> rfl

theorem runFrom_bind_ok {a : α} (h : runFrom x s = (.ok a, s')) :
    runFrom (x >>= f) s = runFrom (f a) s' := by
  rw [runFrom_bind, h]
  rfl

theorem runFrom_bind_error {e : ε} (h : runFrom x s = (.error e, s')) :
    runFrom (x >>= f) s = (.error e, s') := by
  rw [runFrom_bind, h]
  rfl

theorem runFrom_bind_eq_ok {b : β} : runFrom (x >>= f) s = (.ok b, s') ↔
      ∃ a t, runFrom x s = (.ok a, t) ∧ runFrom (f a) t = (.ok b, s') := by
  rw [runFrom_bind]
  rcases runFrom x s with ⟨e | a, t⟩
  · simp
  · constructor
    · intro h
      exact ⟨a, t, rfl, h⟩
    · rintro ⟨a', t', h, h'⟩
      cases h
      exact h'

@[simp] theorem runFrom_pure (a : α) (s : τ) :
    runFrom (pure a : ExceptT ε (StateM τ) α) s = (.ok a, s) := rfl

@[simp] theorem runFrom_throw (e : ε) (s : τ) :
    runFrom (throw e : ExceptT ε (StateM τ) α) s = (.error e, s) := rfl

@[simp] theorem runFrom_get (s : τ) :
    runFrom (get : ExceptT ε (StateM τ) τ) s = (.ok s, s) := rfl

@[simp] theorem runFrom_set (s s' : τ) :
    runFrom (set s' : ExceptT ε (StateM τ) PUnit) s = (.ok ⟨⟩, s') := rfl

@[simp] theorem runFrom_modify (f : τ → τ) (s : τ) :
    runFrom (modify f : ExceptT ε (StateM τ) PUnit) s = (.ok ⟨⟩, f s) := rfl

theorem runFrom_map (f : α → β) (x : ExceptT ε (StateM τ) α) (s : τ) :
    runFrom (f <$> x) s = continueWith (fun a s => (.ok (f a), s)) (runFrom x s) := by
  simp only [runFrom, Functor.map, ExceptT.map, ExceptT.mk, bind, StateT.bind]
  rcases x s with ⟨_ | _, _⟩ <;> rfl

theorem runFrom_ite (c : Prop) [Decidable c] (x y : ExceptT ε (StateM τ) α) (s : τ) :
    runFrom (if c then x else y) s = if c then runFrom x s else runFrom y s := by
  split <;> rfl

end CanonicalAbi
