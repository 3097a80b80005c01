import HolyRust.Drivers.BitCommands
import HolyRust.Drivers.ValueLines

/-!
The language of the REPL: what can be typed on a line, how it is spelled, and what
compiling it comes to.

A line is one statement. Its operands are evaluated while it is compiled, and its
address is checked then; what is left to do is a `Meaning`. Nothing here mentions
tokens in a cursor, streams of words or slots of tables: a `Context` says what is
bound, what a function stands for, which addresses are permitted and whether there
is room for one more binding or function.

* `Statement.toks`, `Spells` — a statement and the lines that spell it.
* `Statement.compile` — its meaning, or the first error there is to report.
-/

namespace HolyRust

/-- How many words a stream needs for the access. -/
def Access.size : Access → Nat
  | .write _ _ => 5
  | .read _ => 3

/-- The same for all accesses of a body. -/
def bodySize (ops : List Access) : Nat := (ops.map Access.size).sum

theorem length_bodyWords_eq (code : CodeMap) (ops : List Access) :
    (bodyWords code ops).length = bodySize ops := by
  induction ops with
  | nil => rfl
  | cons op ops ih =>
      have hop : (op.words code).length = op.size := by cases op <;> rfl
      rw [bodyWords_cons, List.length_append, hop, ih, bodySize, bodySize, List.map_cons,
        List.sum_cons]

theorem bodySize_append (as bs : List Access) :
    bodySize (as ++ bs) = bodySize as + bodySize bs := by
  simp [bodySize]

namespace Language

open Syntax
open HolyRust.Parser (commandWords fnToks Closes)
open HolyRust.Repl (BitAction)

/-! ### Statements -/

/-- An expression that a line can begin with: a command word in front, `peek` among
them, makes the line a command. -/
def ValueExpr := { e : Expr // e.Opens ∧ ∀ a tail, e ≠ .mk (.peek a) tail }

/-- A name that a line can call. -/
def CallName := { id : List Byte // id ∉ commandWords }

inductive Statement where
  | bind (name : List Byte) (value : Expr)
  | define (name : List Byte) (body : List BodyStmt)
  | call (f : CallName)
  | value (e : ValueExpr)
  | peek (addr : Atom)
  | poke (addr : Atom) (value : Expr)
  | bit (action : BitAction) (addr bit : Atom)
  | claim (name : List Byte)
  | drop (name : List Byte)
  | help
  | banner
  | sysAudit

/-- The command word of a bit command. -/
def bitWord : BitAction → List Byte
  | .set => bytes "reg_set_bit"
  | .clear => bytes "reg_clr_bit"

/-- The spelling up to the semicolon. -/
def Statement.toks : Statement → List Token
  | .bind name e => .kwLet :: .identifier name :: .operator (ascii '=') :: e.toks
  | .define name body => fnToks name body
  | .call f => [.identifier f.val, .lParen, .rParen]
  | .value e => e.val.toks
  | .peek a => .identifier (bytes "peek") :: a.toks
  | .poke a e => .identifier (bytes "poke") :: (a.toks ++ e.toks)
  | .bit action a n => .identifier (bitWord action) :: (a.toks ++ n.toks)
  | .claim name => [.identifier (bytes "cap_claim"), .identifier name]
  | .drop name => [.identifier (bytes "cap_drop"), .identifier name]
  | .help => [.identifier (bytes "help")]
  | .banner => [.identifier (bytes "banner")]
  | .sysAudit => [.identifier (bytes "sys_audit")]

/-- What may stand behind the statement: a semicolon or nothing. Nobody looks behind a
closing brace, behind a command without operands, or behind the semicolon. -/
def Statement.EndsBefore : Statement → List Token → Prop
  | .define _ _, _ | .help, _ | .banner, _ | .sysAudit, _ => True
  | _, rest => ∃ after, Closes rest after

/-- The line is the statement, however it is laid out. -/
def Spells (st : Statement) (line : List Byte) : Prop :=
  ∃ rest, (Lexer.new line).toks = st.toks ++ rest ∧ st.EndsBefore rest

/-! ### Meaning -/

/-- What a line is compiled under. -/
structure Context extends Scope where
  /-- A binding of the name fits. -/
  hasRoom : List Byte → Bool
  /-- One more function fits. -/
  hasSlot : Bool

/-- What is left to do once a line has been compiled. -/
inductive Meaning where
  | bind (name : List Byte) (value : Word)
  | define (name : List Byte) (ops : List Access)
  | perform (ops : List Access)
  | print (value : Word)
  | peek (addr : Word)
  | poke (addr value : Word)
  | bit (action : BitAction) (addr bit : Word)
  | claim (name : List Byte)
  | drop (name : List Byte)
  | help
  | banner
  | sysAudit
deriving DecidableEq

/-- The name fits a name buffer. -/
def checkName (name : List Byte) : Eval PUnit :=
  if name.length ≤ nameMax then pure ⟨⟩ else throw .nameTooLong

/-- The registry permits the address. -/
def checkAddr (sc : Scope) (addr : Word) : Eval PUnit :=
  if sc.permitted addr then pure ⟨⟩ else throw .capabilityViolation

/-- The accesses of a body behind those it began with, while they fit the scratch
stream. -/
def compileBody (sc : Scope) : List BodyStmt → List Access → Eval (List Access)
  | [], ops => pure ops
  | st :: stmts, ops => do
      let more ← st.eval sc
      if bodySize (ops ++ more) ≤ maxStreamWords then compileBody sc stmts (ops ++ more)
      else throw .streamFull

def Statement.compile (ctx : Context) : Statement → Eval Meaning
  | .bind name e => do
      checkName name
      let v ← e.eval ctx.lookup
      if ctx.hasRoom name then pure (.bind name v) else throw .symbolTableFull
  | .define name body => do
      checkName name
      let ops ← compileBody ctx.toScope body []
      if bodySize ops > fnBodyWords then throw .streamFull
      else if (ctx.callee name).isSome then throw .duplicateFn
      else if ctx.hasSlot then pure (.define name ops)
      else throw .fnTableFull
  | .call f =>
      match ctx.callee f.val with
      | some ops => pure (.perform ops)
      | none => throw .unknownSymbol
  | .value e => do
      let v ← e.val.eval ctx.lookup
      pure (.print v)
  | .peek a => do
      let addr ← a.eval ctx.lookup
      checkAddr ctx.toScope addr
      pure (.peek addr)
  | .poke a e => do
      let addr ← a.eval ctx.lookup
      let v ← e.eval ctx.lookup
      checkAddr ctx.toScope addr
      pure (.poke addr v)
  | .bit action a n => do
      let addr ← a.eval ctx.lookup
      let number ← n.eval ctx.lookup
      checkAddr ctx.toScope addr
      pure (.bit action addr number)
  | .claim name => do
      checkName name
      pure (.claim name)
  | .drop name => do
      checkName name
      pure (.drop name)
  | .help => pure .help
  | .banner => pure .banner
  | .sysAudit => pure .sysAudit

/-- A body that compiles has the accesses that its statements stand for. -/
theorem compileBody_eq_ok {sc : Scope} : ∀ {stmts : List BodyStmt} {ops all : List Access}
    {b b' : Bus}, compileBody sc stmts ops b = .ok all b' →
      ∃ more, evalBody sc stmts b = .ok more b' ∧ all = ops ++ more := by
  intro stmts
  induction stmts with
  | nil =>
      intro ops all b b' h
      cases h
      exact ⟨[], rfl, (List.append_nil _).symm⟩
  | cons st stmts ih =>
      intro ops all b b' h
      obtain ⟨first, b₁, hst, hrest⟩ := Fallible.bind_eq_ok.mp h
      split at hrest
      · obtain ⟨more, hmore, rfl⟩ := ih hrest
        refine ⟨first ++ more, ?_, List.append_assoc ..⟩
        rw [evalBody, Fallible.bind_ok hst, Fallible.bind_ok hmore]
        rfl
      · cases hrest

end Language

end HolyRust
