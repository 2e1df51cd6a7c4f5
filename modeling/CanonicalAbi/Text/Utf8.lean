/-!
# UTF-8

Texts cross a component boundary as UTF-8 bytes, and the bytes need not be well formed.
-/

namespace CanonicalAbi.Text.Utf8

/-- The character with code point `n`, if `n` is a code point, not a surrogate, and needs a sequence
as long as the one it was read from, that is, if `n` is at least `least`. -/
def charAtLeast (least n : Nat) : Option Char :=
  if h : n.isValidChar then if least ≤ n then some (Char.ofNatAux n h) else none else none

def continuation (b : UInt8) : Option Nat :=
  if 0x80 ≤ b && b ≤ 0xbf then some (b.toNat - 0x80) else none

/-- Reads the first character of a byte sequence and returns the bytes after it, or `none` if the
bytes do not begin with a well-formed sequence. -/
def next : List UInt8 → Option (Char × List UInt8)
  | [] => none
  | b :: rest =>
    if b < 0x80 then (charAtLeast 0 b.toNat).map (·, rest)
    else if b < 0xc2 then none
    else if b < 0xe0 then
      match rest with
      | b1 :: rest => do
        let c1 ← continuation b1
        let c ← charAtLeast 0x80 ((b.toNat - 0xc0) * 0x40 + c1)
        return (c, rest)
      | _ => none
    else if b < 0xf0 then
      match rest with
      | b1 :: b2 :: rest => do
        let c1 ← continuation b1
        let c2 ← continuation b2
        let c ← charAtLeast 0x800 ((b.toNat - 0xe0) * 0x1000 + c1 * 0x40 + c2)
        return (c, rest)
      | _ => none
    else if b < 0xf5 then
      match rest with
      | b1 :: b2 :: b3 :: rest => do
        let c1 ← continuation b1
        let c2 ← continuation b2
        let c3 ← continuation b3
        let c ← charAtLeast 0x10000
          ((b.toNat - 0xf0) * 0x40000 + c1 * 0x1000 + c2 * 0x40 + c3)
        return (c, rest)
      | _ => none
    else none

theorem length_lt_of_next {bs rest : List UInt8} {c : Char} (h : next bs = some (c, rest)) :
    rest.length < bs.length := by
  unfold next at h
  split at h
  · cases h
  · split at h
    · simp only [Option.map_eq_some_iff, Prod.mk.injEq] at h
      obtain ⟨_, _, _, rfl⟩ := h
      simp
    · repeat' split at h
      all_goals first
        | cases h
        | (simp only [bind, Option.bind_eq_some_iff, pure, Option.some.injEq, Prod.mk.injEq] at h
           grind)

def isValid (bs : List UInt8) : Bool :=
  match _read : next bs with
  | some (_, rest) => isValid rest
  | none => bs.isEmpty
termination_by bs.length
decreasing_by exact length_lt_of_next _read

/-- The characters of the bytes, with U+FFFD for each byte that begins no well-formed sequence. -/
def decode (bs : List UInt8) : List Char :=
  match _read : next bs with
  | some (c, rest) => c :: decode rest
  | none =>
    match bs with
    | [] => []
    | _ :: rest => '�' :: decode rest
termination_by bs.length
decreasing_by
  · exact length_lt_of_next _read
  · simp

end CanonicalAbi.Text.Utf8
