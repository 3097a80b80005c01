import HolyRust.Compiler.Evaluation

/-!
The value of an expression as the prelude states it, with no parser and no bus.

* `arith` — the operators on unsigned words: the integer result, wrapped.
* `Atom.value` and its siblings — the reference evaluator: operators in the order
  they stand in, parentheses group, `peek` takes one atomic term, and the first
  failure on the way is the answer.
* `Expr.eval_yields` — the evaluation over a bus gives this value or this error.
-/

namespace HolyRust.Syntax

open HolyRust.Parser (ArithOp)
open ByteMemory (readWord)

/-! ### Operators -/

/-- The integer an operator stands for; a zero divisor gives none. -/
def integer : ArithOp → Int → Int → Option Int
  | .add, a, b => some (a + b)
  | .sub, a, b => some (a - b)
  | .mul, a, b => some (a * b)
  | .div, a, b => if b = 0 then none else some (a / b)
  | .rem, a, b => if b = 0 then none else some (a % b)

/-- An operator on unsigned words, wrapping. -/
def arith (op : ArithOp) (a b : Word) : Except ParseError Word :=
  match integer op a.toNat b.toNat with
  | some z => .ok (BitVec.ofInt 32 z)
  | none => .error .divByZero

theorem toNat_cast_eq_zero_iff (b : Word) : (b.toNat : Int) = 0 ↔ b = 0#32 := by
  rw [Int.natCast_eq_zero, ← BitVec.toNat_inj]
  rfl

theorem ofInt_toNat (a : Word) : BitVec.ofInt 32 (a.toNat : Int) = a := by
  rw [BitVec.ofInt_natCast, BitVec.ofNat_toNat, BitVec.setWidth_eq]

/-- The fold step of the source computes the wrapped integer. -/
theorem apply_eq_arith (op : ArithOp) (a b : Word) : op.apply a b = arith op a b := by
  unfold arith
  cases op with
  | add =>
      simp only [ArithOp.apply, integer]
      rw [BitVec.ofInt_add, ofInt_toNat, ofInt_toNat]
  | sub =>
      simp only [ArithOp.apply, integer]
      rw [Int.sub_eq_add_neg, BitVec.ofInt_add, BitVec.ofInt_neg, ofInt_toNat, ofInt_toNat,
        BitVec.sub_eq_add_neg]
  | mul =>
      simp only [ArithOp.apply, integer]
      rw [BitVec.ofInt_mul, ofInt_toNat, ofInt_toNat]
  | div =>
      simp only [ArithOp.apply, integer, toNat_cast_eq_zero_iff]
      by_cases hb : b = 0#32
      · simp [hb]
      · simp only [hb, if_false]
        rw [← Int.natCast_ediv, ← BitVec.toNat_udiv, ofInt_toNat]
  | rem =>
      simp only [ArithOp.apply, integer, toNat_cast_eq_zero_iff]
      by_cases hb : b = 0#32
      · simp [hb]
      · simp only [hb, if_false]
        rw [← Int.natCast_emod, ← BitVec.toNat_umod, ofInt_toNat]

/-! ### The reference evaluator -/

section Value

variable (lookup : List Byte → Option Word) (mem : Memory)

mutual

def Atom.value : Atom → Except ParseError Word
  | .lit v => .ok v
  | .name id =>
      match lookup id.val with
      | some v => .ok v
      | none => .error .unknownSymbol
  | .paren e => e.value
  | .peek a => do
      let addr ← a.value
      .ok (readWord mem addr)

def Expr.value : Expr → Except ParseError Word
  | .mk head tail => do
      let acc ← head.value
      tail.value acc

def Tail.value : Tail → Word → Except ParseError Word
  | .nil, acc => .ok acc
  | .cons op a rest, acc => do
      let rhs ← a.value
      let acc ← arith op acc rhs
      rest.value acc

end

end Value

/-- `100 / 7 % 3` is read from the left, and `7 - 2 * 3` is 15. -/
example :
    (Expr.mk (.lit 100) (.cons .div (.lit 7) (.cons .rem (.lit 3) .nil))).value (fun _ => none)
        (fun _ => 0) = .ok 2 ∧
      (Expr.mk (.lit 7) (.cons .sub (.lit 2) (.cons .mul (.lit 3) .nil))).value (fun _ => none)
        (fun _ => 0) = .ok 15 := by
  decide

/-! ### Evaluation over a bus -/

/-- Over the memory `mem` the computation answers `r` and leaves the memory as it
is. -/
def Yields {α : Type} (mem : Memory) (y : Eval α) (r : Except ParseError α) : Prop :=
  ∀ b : Bus, b.mem = mem → ∃ b' : Bus, b'.mem = mem ∧
    y b = match r with
      | .ok v => .ok v b'
      | .error e => .error e b'

section Yields

variable {α β : Type} {mem : Memory}

theorem yields_pure (v : α) : Yields mem (pure v) (.ok v) := fun b hb => ⟨b, hb, rfl⟩

theorem yields_throw (e : ParseError) : Yields (α := α) mem (throw e) (.error e) :=
  fun b hb => ⟨b, hb, rfl⟩

theorem yields_ofExcept (r : Except ParseError α) : Yields mem (Eval.ofExcept r) r := by
  cases r with
  | ok v => exact yields_pure v
  | error e => exact yields_throw e

theorem yields_peekU32 (addr : Word) :
    Yields mem (Eval.peekU32 addr) (.ok (readWord mem addr)) := by
  rintro b rfl
  exact ⟨(b.peekU32 addr).2, rfl, rfl⟩

theorem Yields.bind {y : Eval α} {g : α → Eval β} {r : Except ParseError α}
    {r' : α → Except ParseError β} (hy : Yields mem y r) (hg : ∀ v, Yields mem (g v) (r' v)) :
    Yields mem (y >>= g) (r >>= r') := by
  intro b hb
  obtain ⟨b₁, hmem, hrun⟩ := hy b hb
  cases r with
  | ok v =>
      rw [Fallible.bind_ok hrun]
      exact hg v b₁ hmem
  | error e => exact ⟨b₁, hmem, Fallible.bind_error hrun⟩

variable {lookup : List Byte → Option Word}

mutual

theorem Atom.eval_yields : ∀ a : Atom, Yields mem (a.eval lookup) (a.value lookup mem)
  | .lit v => yields_pure v
  | .name id => by
      unfold Atom.eval Atom.value
      cases lookup id.val with
      | none => exact yields_throw _
      | some v => exact yields_pure v
  | .paren e => by
      unfold Atom.eval Atom.value
      exact e.eval_yields
  | .peek a => by
      unfold Atom.eval Atom.value
      exact a.eval_yields.bind yields_peekU32

theorem Expr.eval_yields : ∀ e : Expr, Yields mem (e.eval lookup) (e.value lookup mem)
  | .mk head tail => by
      unfold Expr.eval Expr.value
      exact head.eval_yields.bind tail.eval_yields

theorem Tail.eval_yields : ∀ (tl : Tail) (acc : Word),
    Yields mem (tl.eval lookup acc) (tl.value lookup mem acc)
  | .nil, acc => yields_pure acc
  | .cons op a rest, acc => by
      unfold Tail.eval Tail.value
      refine a.eval_yields.bind fun rhs => ?_
      rw [apply_eq_arith]
      exact (yields_ofExcept _).bind rest.eval_yields

end

end Yields

end HolyRust.Syntax
