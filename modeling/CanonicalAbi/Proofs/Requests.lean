import CanonicalAbi.Proofs.Calculations
import CanonicalAbi.Proofs.Validation

/-!
# Requests to a calculator

A calculator is asked for layouts of types, of products and of sums, and for single numbers of
these. Main statement: whatever it was asked before, and whichever of these requests failed on the
way, it answers like a calculator that has not been asked anything.
-/

namespace CanonicalAbi

namespace Calculator

/-- What a calculator is asked. -/
inductive Request where
  | layout (type : Option TypeRef)
  | size (type : Option TypeRef)
  | align (type : Option TypeRef)
  | product (fields : List (Option TypeRef))
  | offsets (fields : List (Option TypeRef))
  | sum (tag : IntWidth) (payloads : List (Option TypeRef))
  | payload (tag : IntWidth) (payloads : List (Option TypeRef))

/-- What a calculator answers. -/
inductive Answer where
  | layout (l : Layout)
  | number (n : UInt32)
  | offsets (os : List UInt32)
  deriving DecidableEq

def serve (g : Graph) : Request → Calculation Answer
  | .layout t => do return .layout (← layout? (g.shapes.shape? t))
  | .size t => do return .number (← layout? (g.shapes.shape? t)).size
  | .align t => do return .number (← layout? (g.shapes.shape? t)).align
  | .product ts => do return .layout (← product (ts.map g.shapes.shape?))
  | .offsets ts => do return .offsets (← product (ts.map g.shapes.shape?)).offsets
  | .sum tag ts => do return .layout (← sum tag (ts.map g.shapes.shape?))
  | .payload tag ts => do return .number (← sum tag (ts.map g.shapes.shape?)).payload

/-- Serves requests one after another. One that fails does not stop those after it. -/
def serveAll (g : Graph) : List Request → StateM Calculator (List (Except Failure Answer))
  | [] => return []
  | r :: rs => do
    let first ← (serve g r).run
    let rest ← serveAll g rs
    return first :: rest

/-- The answer of a calculator that has not been asked anything. -/
def fresh (g : Graph) (r : Request) : Except Failure Answer := ((serve g r).run.run .empty).1

variable {g : Graph}

theorem exists_answers_serve (hg : g.Acyclic) (r : Request) :
    ∃ answer, Answers g (serve g r) answer := by
  cases r with
  | layout t | size t | align t => exact ⟨_, (answers_type hg t).map _⟩
  | product ts | offsets ts => exact ⟨_, (answers_product hg ts).map _⟩
  | sum tag ts | payload tag ts => exact ⟨_, (answers_sum hg tag ts).map _⟩

/-- One request: what is remembered changes nothing, and what is remembered afterwards is right. -/
theorem serve_run (hg : g.Acyclic) (r : Request) {c : Calculator} (hc : c.Recalls g) :
    ∃ c', (serve g r).run.run c = (fresh g r, c') ∧ c'.Recalls g := by
  obtain ⟨answer, answers⟩ := exists_answers_serve hg r
  obtain ⟨_, afresh, _⟩ := answers .empty (empty_recalls g)
  rw [fresh, afresh]
  exact answers c hc

theorem serveAll_run (hg : g.Acyclic) (requests : List Request) {c : Calculator}
    (hc : c.Recalls g) : ((serveAll g requests).run c).1 = requests.map (fresh g) := by
  induction requests generalizing c with
  | nil => rfl
  | cons r rs ih =>
    obtain ⟨c', run, hc'⟩ := serve_run hg r hc
    rw [serveAll, StateT.run_bind, run, List.map_cons, ← ih hc']
    rfl

/-- **Remembering layouts cannot be noticed.** On an acyclic graph, each of any requests, of which
some may fail, is answered as if it were the only one. -/
theorem serveAll_eq_map_fresh (hg : g.Acyclic) (requests : List Request) :
    ((serveAll g requests).run .empty).1 = requests.map (fresh g) :=
  serveAll_run hg requests (empty_recalls g)

/-- A box has no layout, so its product with a find fails. What the find is made of is known then,
and the requests after it use that. -/
theorem serveAll_eq_map_fresh_postbox :
    Postbox.graph.Acyclic
    ∧ ((serveAll Postbox.graph [.product [some (.defn 2), some (.defn 3)], .size (some (.defn 2)),
        .offsets [some (.defn 1), some (.defn 2)]]).run .empty).1
      = [fresh Postbox.graph (.product [some (.defn 2), some (.defn 3)]),
        fresh Postbox.graph (.size (some (.defn 2))),
        fresh Postbox.graph (.offsets [some (.defn 1), some (.defn 2)])] :=
  ⟨Postbox.acyclic, serveAll_eq_map_fresh Postbox.acyclic _⟩

end Calculator

end CanonicalAbi
