import CanonicalAbi.Proofs.Values

/-!
# Bytes that stay

How the pieces of a value lie in memory: numbers, texts, flags.
-/

namespace CanonicalAbi

namespace Memory

/-- What is at some addresses is enough for a property of memories. -/
def Secures (S : Nat → Prop) (P : Memory → Prop) (mem : Memory) : Prop :=
  ∀ mem', AgreeOn S mem mem' → P mem'

namespace Secures

variable {S T : Nat → Prop} {P Q : Memory → Prop} {mem mem' : Memory}

theorem here (h : mem.Secures S P) : P mem := h mem (.refl _ _)

theorem of_forall (h : ∀ mem, P mem) : mem.Secures S P := fun mem' _ => h mem'

theorem of_at {addr : Nat} {data : List UInt8} (h : mem.At addr data)
    (inside : ∀ i, addr ≤ i → i < addr + data.length → S i) :
    mem.Secures S fun mem => mem.At addr data :=
  fun _ agree => h.congr (agree.mono fun i hi => inside i hi.1 hi.2)

theorem imp (h : mem.Secures S P) (hP : ∀ mem, P mem → Q mem) : mem.Secures S Q :=
  fun mem' agree => hP mem' (h mem' agree)

theorem and (h : mem.Secures S P) (h' : mem.Secures S Q) :
    mem.Secures S fun mem => P mem ∧ Q mem :=
  fun mem' agree => ⟨h mem' agree, h' mem' agree⟩

theorem transport (h : mem.Secures S P) (hS : ∀ i, S i → T i) (hm : AgreeOn S mem mem') :
    mem'.Secures T P :=
  fun mem'' agree => h mem'' ((hm.trans agree).mono fun i hi => ⟨hi, hS i hi⟩)

theorem widen (h : mem.Secures S P) (hS : ∀ i, S i → T i) : mem.Secures T P :=
  h.transport hS (.refl _ _)

end Secures

end Memory

section Pieces

variable (mem : Memory)

def PairLies (addr ptr count : UInt32) : Prop :=
  mem.At addr.toNat (Memory.toBytes 4 ptr.toUInt64)
    ∧ mem.At (addr + 4).toNat (Memory.toBytes 4 count.toUInt64)

def LanesLie : UInt32 → List UInt32 → Prop
  | _, [] => True
  | addr, lane :: lanes =>
    mem.At addr.toNat (Memory.toBytes 4 lane.toUInt64) ∧ LanesLie (addr + 4) lanes

/-- The integers of `count` flags. -/
def FlagsLie (count : Nat) (addr : UInt32) (lanes : List UInt32) : Prop :=
  if (FlagsStorage.ofCount count).unit = .u32 then LanesLie mem addr lanes
  else mem.At addr.toNat (Memory.toBytes (FlagsStorage.ofCount count).unit.size.toNat
    (lanes.headD 0).toUInt64)

def BytesLie (data : List UInt8) (ptr count : UInt32) : Prop :=
  data.length < 2 ^ 32 ∧ count = UInt32.ofNat data.length ∧ mem.At ptr.toNat data

end Pieces

def Shape.loadOp : Shape → LoadOp
  | .scalar s => s.loadOp
  | .enum _ cases => (tagWidth cases).loadOp
  | _ => .i32

theorem holds_words (words : List UInt32) :
    List.Forall₂ CoreType.Holds (List.replicate words.length .i32)
      (words.map (·.toUInt64)) := by
  induction words with
  | nil => exact .nil
  | cons word words ih => exact .cons (CoreType.holds_toUInt64 _ word) ih

end CanonicalAbi
