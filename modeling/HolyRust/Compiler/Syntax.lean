import HolyRust.Compiler.Parser

/-!
The expression language as trees: what a user means by an expression line,
stated without the parser. `toks` spells a tree, `eval` is its value with the
reads that computing it makes.

* Chains of operators associate to the left and have one precedence level
  (`Tail.eval` folds the operators in the order they stand in).
* Parentheses group; `peek` takes one atomic operand.
* Evaluation stops at the first unbound name or zero divisor it meets.
-/

namespace HolyRust.Syntax

open HolyRust.Parser (ArithOp)

/-- An identifier that is read as a name: any but `peek`. -/
def Name := { id : List Byte // id ≠ bytes "peek" }

mutual

/-- An atomic term. -/
inductive Atom where
  | lit (v : Word)
  | name (id : Name)
  | paren (e : Expr)
  | peek (a : Atom)

/-- A chain of atomic terms. -/
inductive Expr where
  | mk (head : Atom) (tail : Tail)

/-- The rest of a chain after its first term. -/
inductive Tail where
  | nil
  | cons (op : ArithOp) (a : Atom) (rest : Tail)

end

/-- The byte of an operator. -/
def opByte : ArithOp → Byte
  | .add => ascii '+'
  | .sub => ascii '-'
  | .mul => ascii '*'
  | .div => ascii '/'
  | .rem => ascii '%'

theorem ofByte_opByte (op : ArithOp) : ArithOp.ofByte (opByte op) = some op := by
  cases op <;> decide

theorem opByte_of_ofByte {b : Byte} {op : ArithOp} (h : ArithOp.ofByte b = some op) :
    opByte op = b := by
  unfold ArithOp.ofByte at h
  split at h
  · cases h; symm; assumption
  split at h
  · cases h; symm; assumption
  split at h
  · cases h; symm; assumption
  split at h
  · cases h; symm; assumption
  split at h
  · cases h; symm; assumption
  · cases h

/-! ### Spelling -/

mutual

def Atom.toks : Atom → List Token
  | .lit v => [.literal v]
  | .name id => [.identifier id.val]
  | .paren e => .lParen :: (e.toks ++ [.rParen])
  | .peek a => .identifier (bytes "peek") :: a.toks

def Expr.toks : Expr → List Token
  | .mk head tail => head.toks ++ tail.toks

def Tail.toks : Tail → List Token
  | .nil => []
  | .cons op a rest => .operator (opByte op) :: (a.toks ++ rest.toks)

end

/-! ### Meaning -/

/-- Reference evaluation: reads memory over a bus and may fail as the front
end does. -/
abbrev Eval := EStateM ParseError Bus

def Eval.peekU32 (addr : Word) : Eval Word := fun b =>
  .ok (b.peekU32 addr).1 (b.peekU32 addr).2

/-- A value or an error, as a computation. -/
def Eval.ofExcept {α : Type} : Except ParseError α → Eval α
  | .ok v => pure v
  | .error e => throw e

section Eval

variable (lookup : List Byte → Option Word)

mutual

def Atom.eval : Atom → Eval Word
  | .lit v => pure v
  | .name id =>
      match lookup id.val with
      | some v => pure v
      | none => throw .unknownSymbol
  | .paren e => e.eval
  | .peek a => do
      let addr ← a.eval
      Eval.peekU32 addr

def Expr.eval : Expr → Eval Word
  | .mk head tail => do
      let acc ← head.eval
      tail.eval acc

def Tail.eval : Tail → Word → Eval Word
  | .nil, acc => pure acc
  | .cons op a rest, acc => do
      let rhs ← a.eval
      let acc ← Eval.ofExcept (op.apply acc rhs)
      rest.eval acc

end

end Eval

/-! ### Shape of the spelling -/

mutual

theorem Atom.toks_length_pos : ∀ a : Atom, 0 < a.toks.length
  | .lit _ => by simp [Atom.toks]
  | .name _ => by simp [Atom.toks]
  | .paren _ => by simp [Atom.toks]
  | .peek _ => by simp [Atom.toks]

end

/-- The tokens a term begins with. -/
def StartsTerm : Token → Prop
  | .literal _ | .identifier _ | .lParen => True
  | _ => False

theorem Atom.exists_toks (a : Atom) : ∃ t ts, a.toks = t :: ts ∧ StartsTerm t := by
  cases a with
  | lit v => exact ⟨_, _, rfl, trivial⟩
  | name id => exact ⟨_, _, rfl, trivial⟩
  | paren e => exact ⟨_, _, rfl, trivial⟩
  | peek a => exact ⟨_, _, rfl, trivial⟩

theorem Expr.exists_toks (e : Expr) : ∃ t ts, e.toks = t :: ts ∧ StartsTerm t := by
  obtain ⟨head, tail⟩ := e
  obtain ⟨t, ts, htoks, ht⟩ := head.exists_toks
  exact ⟨t, ts ++ tail.toks, by rw [Expr.toks, htoks, List.cons_append], ht⟩

/-- The tokens an expression is made of. -/
def InExpr : Token → Prop
  | .literal _ | .identifier _ | .operator _ | .lParen | .rParen => True
  | _ => False

mutual

theorem Atom.inExpr : ∀ (a : Atom) {t : Token}, t ∈ a.toks → InExpr t
  | .lit v, t, h => by
      obtain rfl := List.mem_singleton.mp h
      exact trivial
  | .name id, t, h => by
      obtain rfl := List.mem_singleton.mp h
      exact trivial
  | .paren e, t, h => by
      simp only [Atom.toks, List.mem_cons, List.mem_append, List.not_mem_nil, or_false] at h
      rcases h with rfl | h | rfl
      · exact trivial
      · exact e.inExpr h
      · exact trivial
  | .peek a, t, h => by
      rcases List.mem_cons.mp h with rfl | h
      · exact trivial
      · exact a.inExpr h

theorem Expr.inExpr : ∀ (e : Expr) {t : Token}, t ∈ e.toks → InExpr t
  | .mk head tail, t, h => by
      rcases List.mem_append.mp h with h | h
      · exact head.inExpr h
      · exact tail.inExpr h

theorem Tail.inExpr : ∀ (tl : Tail) {t : Token}, t ∈ tl.toks → InExpr t
  | .nil, t, h => by cases h
  | .cons op a rest, t, h => by
      simp only [Tail.toks, List.mem_cons, List.mem_append] at h
      rcases h with rfl | h | h
      · exact trivial
      · exact a.inExpr h
      · exact rest.inExpr h

end

/-- The rest of a line that would continue an operator chain. -/
def ContinuesChain : List Token → Prop
  | .operator b :: _ => (ArithOp.ofByte b).isSome
  | _ => False

theorem not_continuesChain_nil : ¬ ContinuesChain [] := id

theorem not_continuesChain_rParen (ts : List Token) : ¬ ContinuesChain (.rParen :: ts) := id

theorem not_continuesChain_semicolon (ts : List Token) :
    ¬ ContinuesChain (.semicolon :: ts) := id

end HolyRust.Syntax
