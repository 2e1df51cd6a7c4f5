import CanonicalAbi.Proofs.Adapters
import CanonicalAbi.Proofs.Repertoire

/-!
# What code consists of

Which instructions a piece of code has, and what follows.
-/

namespace CanonicalAbi

namespace Instr

def callee? : Instr → Option String
  | callCore name _ => some name
  | callInterface f => some f.name
  | _ => none

end Instr

/-! ## Calls -/

section Calls

variable {c : Contract}

mutual

theorem TypedSteps.callee {item : Item} {Γ Γ' : RegTypes} {steps : List Step} :
    TypedSteps c item Γ steps Γ' →
      StepsOnly (fun i => ∀ name, i.callee? = some name → name = c.function.name) steps
  | .nil _ _ => trivial
  | .exec hblocks hi _ hrest => by
    refine ⟨⟨?_, hblocks.callee⟩, hrest.callee⟩
    intro name hname
    cases hi with
    | callCore => exact (Option.some.inj hname).symm
    | callInterface => exact (Option.some.inj hname).symm
    | _ => cases hname
  | .scratch _ _ hrest => by
    refine ⟨fun name hname => ?_, hrest.callee⟩
    cases hname

theorem TypedBlocks.callee {Γ Γ' : RegTypes} {blocks : List Block} {types : List BlockType} :
    TypedBlocks c Γ blocks types Γ' →
      BlocksOnly (fun i => ∀ name, i.callee? = some name → name = c.function.name) blocks
  | .nil _ => trivial
  | .cons hsteps _ hrest => ⟨hsteps.callee, hrest.callee⟩

end

theorem Code.HasType.calls_none {β : Type} {item : Item} {Γ : RegTypes} {code : Code β}
    {R : RegTypes → β → Prop} (h : ∀ function, HasType { c with function } item Γ code R) :
    StepsOnly (fun i => i.callee? = none) (code.run Γ.length).steps := by
  obtain ⟨_, first, _⟩ := h { c.function with name := "" }
  obtain ⟨_, second, _⟩ := h { c.function with name := "a" }
  refine first.callee.imp₂ (fun i _ hfirst hsecond => ?_) second.callee
  cases hname : i.callee? with
  | none => exact hname
  | some name =>
    have empty : name = "" := hfirst name hname
    have nonempty : name = "a" := hsecond name hname
    rw [empty] at nonempty
    exact absurd nonempty (by decide)

end Calls

/-! ## Hosts -/

section Hosts

variable {α : Type} [Allocator α] (host host' : Host α) {owned : Bool}

namespace Exec

theorem instr_host {i : Instr} (h : i.callee? = none) (scope : Scope) (blocks : Nat)
    (run : Nat → Scope → Exec α (List Value)) (args : List Value) :
    instr ⟨host, owned⟩ scope blocks run i args = instr ⟨host', owned⟩ scope blocks run i args := by
  cases i with
  | callCore => cases h
  | callInterface => cases h
  | _ => rfl

mutual

theorem steps_host : {steps : List Step} → StepsOnly (fun i => i.callee? = none) steps →
    ∀ scope, Exec.steps ⟨host, owned⟩ scope steps = Exec.steps ⟨host', owned⟩ scope steps
  | [], _, _ => rfl
  | s :: ss, h, scope => by
    rw [Exec.steps, Exec.steps, step_host h.1 scope, steps_host h.2 scope]

theorem step_host : {s : Step} → s.Only (fun i => i.callee? = none) →
    ∀ scope, Exec.step ⟨host, owned⟩ scope s = Exec.step ⟨host', owned⟩ scope s
  | .exec i args outs blocks, h, scope => by
    have same : (fun n scope => Exec.nth ⟨host, owned⟩ scope n blocks)
        = fun n scope => Exec.nth ⟨host', owned⟩ scope n blocks :=
      funext fun n => funext fun scope => nth_host h.2 n scope
    rw [Exec.step, Exec.step, same]
    simp only [instr_host host host' h.1]
  | .scratch _ _ _, _, _ => rfl

theorem nth_host : {blocks : List Block} → BlocksOnly (fun i => i.callee? = none) blocks →
    ∀ n scope, Exec.nth ⟨host, owned⟩ scope n blocks = Exec.nth ⟨host', owned⟩ scope n blocks
  | [], _, n, _ => by cases n <;> rfl
  | .mk ss results :: _, h, 0, scope => by
    rw [Exec.nth, Exec.nth, Exec.block, Exec.block, steps_host h.1 scope]
  | .mk _ _ :: _, h, n + 1, scope => nth_host h.2 n scope

end

end Exec

end Hosts

/-! ## Lifting -/

/-- The casts from 32 bits to 64, which put nothing in front of a word. -/
def Bitcast.Widens (cast : Bitcast) : Prop := cast = .i32ToI64 ∨ cast = .f32ToI64

theorem Bitcast.not_widens_down : {own slots : List CoreType} → FitSlots own slots →
    ∀ cast ∈ castsBetween (slots.take own.length) own, ¬ cast.Widens
  | [], _, _ => by simp [castsBetween]
  | a :: as, b :: bs, h => by
    have first : ¬ (Bitcast.total b a).Widens := by
      have join := h.1
      revert join
      cases a <;> cases b <;> simp [CoreType.join, Bitcast.total, Bitcast.between, Widens]
    have rest := not_widens_down h.2
    simp only [List.length_cons, List.take_succ_cons, castsBetween, List.zipWith_cons_cons,
      List.forall_mem_cons]
    exact ⟨first, rest⟩

namespace Instr

/-- The instructions that arguments are lifted with. A list is lifted in the way that is agreed on,
and no core value is made wider. -/
def Lifts (raw : RawRule) : Instr → Prop
  | bitcasts casts => ∀ cast ∈ casts, ¬ cast.Widens
  | getArg _ | load _ _ | iterBase | liftScalar _ | liftHandle _ _ _ | liftString
  | liftProduct _ _ _ | liftFlags _ _ | liftSum _ _ _ | liftEnum _ _ | free _ _ => True
  | liftBytes _ elem => raw elem = true
  | liftList _ elem => raw elem = false ∧ Passable? elem
  | _ => False

theorem Lifts.keeps {raw : RawRule} {a : Assurance} {i : Instr} (h : i.Lifts raw) :
    i.Keeps raw a := by
  cases i with
  | liftBytes => exact fun _ => h
  | liftList => exact ⟨fun _ => h.1, fun _ => h.2⟩
  | _ => first | exact h.elim | trivial

end Instr

theorem Shape.Passable.part {s part : Shape} (h : s.Passable) (hpart : some part ∈ s.parts) :
    part.Passable := by
  cases s with
  | product l form fields => exact fieldsPassable_iff.mp h _ hpart
  | sum l form payloads => exact payloadsPassable_iff.mp h _ hpart
  | list l elem | synonym l elem =>
    obtain rfl := List.mem_singleton.mp hpart
    exact h
  | _ => cases hpart

/-- The instructions that values are lifted with. Of other ways to move values nothing is said. -/
def Instr.LiftsOn (raw : RawRule) : Way → Instr → List Block → Prop
  | .lift, i, _ => i.Lifts raw
  | _, _, _ => True

theorem Shape.Passable.lifts (raw : RawRule) :
    Repertoire raw Passable (Instr.LiftsOn raw) where
  part := Passable.part
  stored _ _ _ := trivial
  plain way i h := by cases way <;> cases i <;> trivial
  castUp _ := trivial
  castDown _ _ h := Bitcast.not_widens_down h
  list way i l elem b known apart h := by
    cases way with
    | lift =>
      cases h
      exact ⟨apart (by decide), known⟩
    | _ => trivial
  sum way i l form payloads body blocks _ _ h _ := by cases way <;> cases i <;> trivial

theorem Code.liftArgs_lifts {raw : RawRule} (g : Generator) {f : FunctionShape}
    (hp : FieldsPassable f.params) (k : Reg) :
    StepsOnly (Instr.Lifts raw) ((liftArgs raw g f).run k).steps := by
  have uses := liftArgs_uses (Shape.Passable.lifts raw) g fun _ hs => fieldsPassable_iff.mp hp _ hs
  exact uses k

end CanonicalAbi
