import CanonicalAbi.Proofs.Halves

/-!
# Round trips

A function is called through the boundary as if there were none: it is called once, with the
arguments of the caller, and its results are the results of the call. Only memory may run out.
-/

namespace CanonicalAbi

/-- Whole calls. If memory does not run out, the function of the interface is called exactly once,
with the arguments of the caller, and the call returns what it returned. A loan among the arguments
arrives as a borrow of what the lender stands for. Enumerations have fewer than 2^32 cases; of a sum
with more, only the case numbers below its count modulo 2^32 are spoken of. -/
theorem call_round_trip {raw : RawRule}
    (bytes : ∀ elem, raw elem = true → Program.isByte elem = true) {g : Graph} (acyclic : g.Acyclic)
    {f : Function} (valid : validate g (some f) = [])
    (borrowless : AllBorrowless (g.shapes.function f).results)
    (fits : (g.shapes.function f).Fits) (dir : Direction) {w : World Bump} {b : Bump}
    (allocator : w.allocator = some b) (bounds : b.Over w.memory.size) {t : HandleTable}
    (table : w.table = some t) (sound : t.Sound) {args : List Value}
    (typed : FieldsAdmit raw (some t) (g.shapes.function f).params args)
    {impl : FunctionShape → List Value → Action Bump (List Value)}
    (served : ∀ w₁, ∃ rs,
      runFrom (impl (g.shapes.function f) (Value.receivedAll (some t) args)) w₁ = (.ok rs, w₁)
        ∧ FieldsAdmit raw (some t) (g.shapes.function f).results rs
        ∧ t.entries.size + Value.handlesAll args + Value.handlesAll rs < 2 ^ 32) :
    (∃ e w', runFrom (callThrough dir raw (.ofGraph g (some f)) (some impl) args) w = (.error e, w')
      ∧ e.IsRefusal)
    ∨ ∃ results w',
      runFrom (callThrough dir raw (.ofGraph g (some f)) (some impl) args) w = (.ok results, w')
      ∧ Answers impl (g.shapes.function f) (Value.receivedAll (some t) args) results
      ∧ w'.crossing.seen = some (Value.receivedAll (some t) args)
      ∧ (Value.LoanlessAll args → w'.crossing.seen = some args)
      ∧ ∃ entries, w'.log = entries
          ++ ((Program.compile dir .liftArgs raw (.ofGraph g (some f))).2
            ++ ((Program.compile dir .lowerArgs raw (.ofGraph g (some f))).2 ++ w.log))
        ∧ entries.countP (·.isInterfaceCall) = 1 := by
  let room := 2 ^ 32 - 1 - (t.entries.size + Value.handlesAll args)
  have serves : Serves raw (some t) room (g.shapes.function f) impl
      (Value.receivedAll (some t) args) := by
    rintro ws equal w₁
    obtain rfl := equal rfl
    obtain ⟨rs, ran, admits, few⟩ := served w₁
    exact Does.of_ok ran ⟨rfl, rfl, fun _ => rfl, admits, fun _ => by omega⟩
  have passes : w.Passes (some t) [] (Value.handlesAll args + room) := by
    rintro _ ⟨⟩
    obtain ⟨rs, _, _, few⟩ := served w
    exact ⟨t, table, .start sound (by omega)⟩
  have does := callThrough_does bytes acyclic valid fits dir (fun _ => borrowless) typed serves
    ⟨b, allocator, bounds⟩ passes
  rw [Does] at does
  revert does
  rcases runFrom (callThrough dir raw (.ofGraph g (some f)) (some impl) args) w with
    ⟨e | results, w'⟩
  · exact fun excused => .inl ⟨e, w', rfl, excused rfl⟩
  · rintro ⟨area, rs, returned, o, same, completed⟩
    obtain ⟨ws, equal, answers⟩ := completed.answers
    obtain rfl := equal rfl
    have loanless := completed.admits.loanless borrowless
    have seen := completed.seen rfl
    refine .inr ⟨results, w', rfl, ?_, seen, fun h => ?_, completed.notes rfl⟩
    · rw [same rfl, loanless.receivedAll_eq]
      exact answers
    · rw [seen, h.receivedAll_eq]

/-- A box and a letter reach the function of a postbox, and there is memory enough. -/
theorem call_round_trip_postbox :
    let w : World Bump :=
      { memory := .zeros 256, allocator := some (.ofRange 0 256), table := some .empty }
    ∃ results w', runFrom (callThrough .imported Program.isByte
        Postbox.subject (some Postbox.answer) Postbox.args) w
          = (.ok results, w') ∧ w'.crossing.seen = some Postbox.args := by
  intro w
  have borrowless : AllBorrowless (Postbox.graph.shapes.function Postbox.swap).results := by
    rw [Postbox.shapes_swap]
    simp [AllBorrowless, Borrowless?, Shape.Borrowless, Postbox.find]
  have served (w1 : World Bump) : ∃ rs, runFrom (Postbox.answer
      (Postbox.graph.shapes.function Postbox.swap)
      (Value.receivedAll (some .empty) Postbox.args)) w1
        = (.ok rs, w1)
      ∧ FieldsAdmit Program.isByte (some .empty)
        (Postbox.graph.shapes.function Postbox.swap).results rs
      ∧ HandleTable.empty.entries.size + Value.handlesAll Postbox.args + Value.handlesAll rs
        < 2 ^ 32 :=
    ⟨_, rfl, Postbox.admits_letter _, by decide⟩
  have whole := call_round_trip (fun _ h => h) Postbox.acyclic Postbox.validate_swap borrowless
    Postbox.fits_swap .imported (w := w) rfl Postbox.over_start rfl HandleTable.sound_empty
    (Postbox.admits_args _) served
  have enough : (runFrom (callThrough .imported Program.isByte
      Postbox.subject (some Postbox.answer) Postbox.args) w).1.isOk
        = true := by
    decide +kernel
  rcases whole with ⟨e, w', failed, _⟩ | ⟨results, w', ran, _, _, seen, _⟩
  · rw [failed] at enough
    cases enough
  · exact ⟨results, w', ran, seen ⟨trivial, ⟨trivial, trivial, trivial, trivial⟩, trivial⟩⟩

end CanonicalAbi
