import Mathlib.Data.BitVec

/-!
The machine's fixed-width values. Both targets are 32-bit, so the source's
`u32` and `usize` are one type, `Word`; wrapping arithmetic is `BitVec`'s own.
-/

namespace HolyRust

abbrev Byte := BitVec 8
abbrev HalfWord := BitVec 16
abbrev Word := BitVec 32

/-- The architectures the image is linked for. -/
inductive Target where
  | arm | riscv32
deriving DecidableEq, Repr

/-- The byte of an ASCII character (`b'c'`). -/
def ascii (c : Char) : Byte := BitVec.ofNat 8 c.toNat

/-- The bytes of an ASCII string (`b"..."`). -/
def bytes (s : String) : List Byte := s.toList.map ascii

/-- `lo ..= hi` as a pattern. -/
def inRange {w : Nat} (lo hi x : BitVec w) : Bool := decide (lo ≤ x) && decide (x ≤ hi)

/-- `u32::checked_mul`. -/
def checkedMul (a b : Word) : Option Word :=
  if a.toNat * b.toNat < 2 ^ 32 then some (a * b) else none

/-- `u32::checked_add`. -/
def checkedAdd (a b : Word) : Option Word :=
  if a.toNat + b.toNat < 2 ^ 32 then some (a + b) else none

/-- `&xs[i..j]`; `none` is the bounds-check panic. -/
def slice {α : Type} (xs : List α) (i j : Nat) : Option (List α) :=
  if i ≤ j ∧ j ≤ xs.length then some ((xs.take j).drop i) else none

@[simp] theorem inRange_iff {w : Nat} {lo hi x : BitVec w} :
    inRange lo hi x = true ↔ lo ≤ x ∧ x ≤ hi := by
  simp [inRange]

end HolyRust
