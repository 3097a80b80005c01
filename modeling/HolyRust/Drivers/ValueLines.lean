import HolyRust.Compiler.Bindings
import HolyRust.Drivers.Effects

/-!
`E;` beside `let NAME = E;`.

A `let` has one route into the evaluator. A statement is routed by its first
token: a literal or a parenthesis and a name go to the evaluator, but `peek` goes
to the command, which takes one atomic term and then wants its semicolon.

* `Prints` — the line, run on the threaded path, puts `= ` and the value.
* `prints_iff_value` — but for a chain behind a leading `peek`, a statement prints
  the reference value.
* `statement_agrees_iff` — statement and `let` agree exactly off those chains.
-/

namespace HolyRust

namespace Syntax

/-- The tokens of `E;`. -/
def valueToks (e : Expr) : List Token := e.toks ++ [.semicolon]

/-- A leading `peek` term with an operator behind it. -/
def Expr.PeekChain : Expr → Prop
  | .mk (.peek _) (.cons _ _ _) => True
  | _ => False

/-- The first token is no command word, `peek` apart. -/
def Expr.Opens (e : Expr) : Prop :=
  ∀ id rest, e.toks = .identifier id :: rest → id = bytes "peek" ∨ id ∉ Parser.commandWords

end Syntax

namespace Parser

open Syntax

/-! ### The routes of a statement -/

section Routes

variable {env : Env} {fuel n : Nat} {s : Frame}

/-- From `s`, `x` hands out a program of the value, or fails as the reference
evaluation does. -/
def HandsOut (env : Env) (x : ParseM Outcome) (s : Frame) : Except ParseError Word → Prop
  | .ok v => ∃ p s', x s = .ok (.run p) s' ∧ p.IsValue env.code v
  | .error e => ∃ s', x s = .error (.error e) s'

theorem parseValueStmt_handsOut (e : Expr) {t : Token} {ts : List Token} (htoks : e.toks = t :: ts)
    (h : Upcoming s.scan (ts ++ [.semicolon]))
    (hn : 2 * (ts ++ [Token.semicolon]).length + 4 ≤ fuel) :
    HandsOut env (parseValueStmt env fuel t) s (e.value s.comp.symbols.value? s.scan.bus.mem) := by
  have hgives := evalExpr_gives_after e htoks h (not_continuesChain_semicolon []) hn
  unfold Gives at hgives
  unfold parseValueStmt
  cases hvalue : e.value s.comp.symbols.value? s.scan.bus.mem with
  | error err =>
      rw [hvalue] at hgives
      obtain ⟨s₁, hrun₁⟩ := hgives
      exact ⟨s₁, Fallible.bind_error hrun₁⟩
  | ok v =>
      rw [hvalue] at hgives
      obtain ⟨s₁, hrun₁, hup₁, _⟩ := hgives
      obtain ⟨s₂, hrun₂, _⟩ := expectSemicolon_semicolon hup₁
      obtain ⟨p, s₃, hbuild, _, _, hp⟩ := buildValueProgram_ok env s₂ v
      refine ⟨p, s₃, ?_, hp⟩
      rw [Fallible.bind_ok hrun₁, Fallible.bind_ok hrun₂, Fallible.bind_ok hbuild]
      rfl

/-- A name that begins an expression is not called. -/
theorem parseCommand_value {id : Name} {tail : Tail} (hid : id.val ∉ commandWords)
    (h : Upcoming s.scan (tail.toks ++ [.semicolon]))
    (hn : 2 * (tail.toks ++ [Token.semicolon]).length + 4 ≤ fuel) :
    HandsOut env (parseCommand env fuel id.val) s
      ((Expr.mk (.name id) tail).value s.comp.symbols.value? s.scan.bus.mem) := by
  obtain ⟨s₁, hpeek, hup₁, hbus₁, hcomp₁⟩ := peekTok_upcoming h
  have hfirst : first (tail.toks ++ [Token.semicolon]) ≠ .lParen := by
    cases tail <;> simp [Tail.toks]
  have hcommand : parseCommand env fuel id.val s =
      parseValueStmt env fuel (.identifier id.val) s₁ := by
    rw [parseCommand_name env hid, Fallible.bind_ok hpeek, if_neg hfirst]
  unfold HandsOut
  rw [hcommand, ← hcomp₁, ← hbus₁]
  exact parseValueStmt_handsOut _ (by simp [Expr.toks, Atom.toks]) hup₁ hn

/-- Without `peek` in front a statement hands out its value. -/
theorem parseLine_handsOut (env : Env) (n : Nat) {e : Expr}
    (hpeek : ∀ a tail, e ≠ .mk (.peek a) tail) (hopens : e.Opens)
    (h : Upcoming s.scan (valueToks e)) (hn : 2 * (valueToks e).length + 4 ≤ fuel) :
    HandsOut env (parseLine env fuel n) s (e.value s.comp.symbols.value? s.scan.bus.mem) := by
  obtain ⟨t, ts, htoks, _⟩ := e.exists_toks
  unfold valueToks at h hn
  rw [htoks, List.cons_append] at h hn
  rw [List.length_cons] at hn
  obtain ⟨s₁, hup₁, hbus₁, hcomp₁, hrun⟩ := parseLine_cons env fuel n h
  unfold HandsOut
  rw [hrun, ← hcomp₁, ← hbus₁]
  obtain ⟨head, tail⟩ := e
  simp only [Expr.toks] at htoks
  cases head with
  | lit v =>
      simp only [Atom.toks, List.singleton_append, List.cons.injEq] at htoks
      obtain ⟨rfl, rfl⟩ := htoks
      exact parseValueStmt_handsOut (.mk (.lit v) tail) (by simp [Expr.toks, Atom.toks]) hup₁
        (by omega)
  | paren inner =>
      simp only [Atom.toks, List.cons_append, List.cons.injEq] at htoks
      obtain ⟨rfl, rfl⟩ := htoks
      exact parseValueStmt_handsOut (.mk (.paren inner) tail) (by simp [Expr.toks, Atom.toks]) hup₁
        (by omega)
  | peek a => exact absurd rfl (hpeek a tail)
  | name id =>
      have hword := (hopens id.val tail.toks rfl).resolve_left id.property
      simp only [Atom.toks, List.singleton_append, List.cons.injEq] at htoks
      obtain ⟨rfl, rfl⟩ := htoks
      exact parseCommand_value hword hup₁ (by omega)

/-- The command in front of an expression that begins with `peek`: it evaluates
one atomic term. -/
theorem parseLine_peek (env : Env) (n : Nat) (a : Atom) {rest : List Token}
    (h : Upcoming s.scan (.identifier (bytes "peek") :: (a.toks ++ rest)))
    (hn : 2 * (a.toks ++ rest).length + 2 ≤ fuel) :
    match a.value s.comp.symbols.value? s.scan.bus.mem with
    | .ok addr => ∃ s₁, Upcoming s₁.scan rest ∧ s₁.scan.bus.mem = s.scan.bus.mem ∧
        parseLine env fuel n s = (do
          expectSemicolon
          enforce env addr
          pure (.enforcedPeek addr) : ParseM Outcome) s₁
    | .error err => ∃ s', parseLine env fuel n s = .error (.error err) s' := by
  obtain ⟨s₁, hup₁, hbus₁, hcomp₁, hrun⟩ := parseLine_cons env fuel n h
  have hgives := parseAtomicTerm_gives a hup₁ hn
  rw [hrun, ← hcomp₁, ← hbus₁]
  unfold Gives at hgives
  simp only [parseCommand, if_true]
  cases hvalue : a.value s₁.comp.symbols.value? s₁.scan.bus.mem with
  | error err =>
      rw [hvalue] at hgives
      obtain ⟨s₂, hrun₂⟩ := hgives
      exact ⟨s₂, Fallible.bind_error hrun₂⟩
  | ok addr =>
      rw [hvalue] at hgives
      obtain ⟨s₂, hrun₂, hup₂, _, hmem₂⟩ := hgives
      exact ⟨s₂, hup₂, hmem₂, Fallible.bind_ok hrun₂⟩

end Routes

end Parser

namespace Repl

open Syntax
open HolyRust.Parser (Frame evalFuel bodyFuel first)
open ByteMemory (readWord)

/-! ### What is printed -/

/-- The line, run on the threaded path, puts `= ` and the value. -/
def Prints (img : Image) (m : Machine) (line : List Byte) (v : Word) : Prop :=
  ∀ cycles, ∃ m' text, feedLine img m ⟨line, .threaded, cycles⟩ = some m' ∧
    writeValue v = some text ∧ m'.console = m.console ++ (bytes "= " ++ text ++ prompt)

/-- The line binds the name to the value. -/
def Binds (img : Image) (m : Machine) (line : List Byte) (id : List Byte) (v : Word) : Prop :=
  ∃ name : NameBuf, name.asSlice = id ∧ verdict img m line = .ok (.bound name v)

theorem writeHexU32_injective {v w : Word} (h : Uart.writeHexU32 v = Uart.writeHexU32 w) :
    v = w := by
  have hend : Lexer.Cut [] := by decide
  have hread : ∀ u, (Lexer.new (Uart.writeHexU32 u)).trimmed = Uart.writeHexU32 u ++ [] := by
    intro u
    rw [List.append_nil]
    exact Lexer.trimmed_of_blank (List.forall_mem_nil _) (by decide) rfl
  obtain ⟨lx, hv, _⟩ := Lexer.nextToken_hex (hread v) hend
  obtain ⟨lx', hw, _⟩ := Lexer.nextToken_hex (hread w) hend
  rw [h, hw] at hv
  have htok := congrArg Prod.fst (Option.some.inj hv)
  exact (Token.literal.inj htok).symm

/-- The text of a value gives it back. -/
theorem writeValue_injective {v w : Word} {text : List Byte} (hv : writeValue v = some text)
    (hw : writeValue w = some text) : v = w := by
  obtain ⟨dv, _, rfl⟩ := Option.map_eq_some_iff.mp hv
  obtain ⟨dw, _, htext⟩ := Option.map_eq_some_iff.mp hw
  simp only [List.append_assoc] at htext
  exact writeHexU32_injective (List.append_inj_left htext rfl).symm

theorem exists_writeValue (v : Word) : ∃ text, writeValue v = some text := by
  obtain ⟨dec, hdec⟩ := Option.isSome_iff_exists.mp (Uart.writeDecU32_isSome v)
  exact ⟨_, by rw [writeValue, hdec]; rfl⟩

section Prints

variable {img : Image} {m : Machine} {line : List Byte} {v w : Word}

theorem Prints.unique (h : Prints img m line v) (h' : Prints img m line w) : v = w := by
  obtain ⟨m₁, text, hrun, htext, hput⟩ := h 0
  obtain ⟨m₂, text', hrun', htext', hput'⟩ := h' 0
  cases hrun.symm.trans hrun'
  have heq := List.append_cancel_left (hput.symm.trans hput')
  simp only [List.append_assoc] at heq
  obtain rfl := List.append_cancel_right (List.append_cancel_left heq)
  exact writeValue_injective htext htext'

/-- What is put behind the console decides whether it is `= ` and a value. -/
theorem not_prints_of_put {m₁ : Machine} {text : List Byte} {b : Byte}
    (hrun : feedLine img m ⟨line, .threaded, 0⟩ = some m₁)
    (hput : m₁.console = m.console ++ b :: text) (hb : b ≠ ascii '=') :
    ¬ Prints img m line v := by
  intro h
  obtain ⟨m₂, text', hrun', _, hput'⟩ := h 0
  cases hrun.symm.trans hrun'
  have heq := List.append_cancel_left (hput.symm.trans hput')
  exact hb (List.cons.inj heq).1

/-- A refused line prints its error. -/
theorem not_prints_of_error {e : ParseError} (h : verdict img m line = .error (.error e)) :
    ¬ Prints img m line v := by
  cases line with
  | nil => exact not_prints_of_put (b := ascii 'h') rfl rfl (by decide)
  | cons b bs =>
      unfold verdict at h
      set c := m.compiled (m.comp.parse (m.env img) m.vm.bus (b :: bs)) with hc
      have hrun : feedLine img m ⟨b :: bs, .threaded, 0⟩ =
          some ((c.put (bytes "ERR " ++ errorText e)).put prompt) := by
        simp only [feedLine, List.isEmpty_cons, h, Bool.false_eq_true, if_false, hc]
      have hput : ((c.put (bytes "ERR " ++ errorText e)).put prompt).console =
          m.console ++ ascii 'E' :: (bytes "RR " ++ errorText e ++ prompt) := by
        have htext : bytes "ERR " = ascii 'E' :: bytes "RR " := by decide
        simp [Machine.put, hc, Machine.compiled, Machine.setBus, htext]
      exact not_prints_of_put hrun hput (by decide)

theorem prints_run {p : StreamProgram} (h : verdict img m line = .ok (.run p))
    (hp : p.IsValue img.code v) : Prints img m line v := by
  intro cycles
  obtain ⟨text, htext⟩ := exists_writeValue v
  set c := m.compiled (m.comp.parse (m.env img) m.vm.bus line) with hc
  obtain ⟨vm, hthreaded, _⟩ := runThreaded_value img.code hp c.vm
  have hpos : p.len > 0 := by rw [hp.len_eq]; decide
  have hrun : run img .threaded p c = some (some v, { c with vm := vm }) := by
    simp [run, hpos, hthreaded]
  refine ⟨(({ c with vm := vm } : Machine).put (bytes "= " ++ text)).put prompt, text, ?_, htext,
    ?_⟩
  · rw [feedLine_of_verdict img h, ← hc]
    simp [execute, hrun, htext]
  · simp [Machine.put, hc, Machine.compiled, Machine.setBus]

/-- With SUPERUSER the enforced read goes through. -/
theorem prints_peek {addr : Word} (h : verdict img m line = .ok (.enforcedPeek addr))
    (hmem : (m.comp.parse (m.env img) m.vm.bus line).scan.bus.mem = m.vm.bus.mem)
    (hsu : Registry.held (m.registry img.target) Registry.CapId.superUser.index = true) :
    Prints img m line (readWord m.vm.bus.mem addr) := by
  intro cycles
  obtain ⟨text, htext⟩ := exists_writeValue (readWord m.vm.bus.mem addr)
  set c := m.compiled (m.comp.parse (m.env img) m.vm.bus line) with hc
  have hreg : c.registry img.target = m.registry img.target :=
    congrArg (Registry.load img.target) hmem
  have hpeek : Memory.enforcedPeekU32 img.target (c.registry img.target) addr c.vm.bus =
      .ok (readWord m.vm.bus.mem addr, (c.vm.bus.peekU32 addr).2) := by
    rw [Memory.enforcedPeekU32, Registry.isSuperuserActive_eq, hreg, hsu, if_pos rfl, ← hmem]
    rfl
  refine ⟨((c.setBus (c.vm.bus.peekU32 addr).2).put (bytes "= " ++ text)).put prompt, text, ?_,
    htext, ?_⟩
  · rw [feedLine_of_verdict img h, ← hc]
    simp [execute, hpeek, htext]
  · simp [Machine.put, hc, Machine.compiled, Machine.setBus]

end Prints

/-! ### Statement and binding -/

section Agreement

variable {img : Image} {m : Machine} {line : List Byte}

/-- The line prints the value, or is refused with the error. -/
def Answers (img : Image) (m : Machine) (line : List Byte) : Except ParseError Word → Prop
  | .ok v => Prints img m line v
  | .error e => verdict img m line = .error (.error e)

theorem Answers.prints_iff {r : Except ParseError Word} (h : Answers img m line r) (v : Word) :
    Prints img m line v ↔ r = .ok v := by
  cases r with
  | ok w =>
      have h : Prints img m line w := h
      constructor
      · exact fun hv => congrArg Except.ok (h.unique hv)
      · rintro ⟨⟩
        exact h
  | error e =>
      constructor
      · exact fun hv => absurd hv (not_prints_of_error h)
      · intro heq
        cases heq

theorem answers_value {e : Expr} (hpeek : ∀ a tail, e ≠ .mk (.peek a) tail) (hopens : e.Opens)
    (htoks : (Lexer.new line).toks = valueToks e) :
    Answers img m line (e.value m.comp.symbols.value? m.vm.bus.mem) := by
  obtain ⟨hup, hfuel, _⟩ := Parser.start_of_toks m.comp m.vm.bus htoks
  have hhands := Parser.parseLine_handsOut (m.env img) (bodyFuel line) hpeek hopens hup hfuel
  rw [Frame.start_comp, Frame.start_bus] at hhands
  cases hvalue : e.value m.comp.symbols.value? m.vm.bus.mem with
  | ok v =>
      rw [hvalue] at hhands
      obtain ⟨p, s', hrun, hp⟩ := hhands
      exact prints_run (congrArg Parser.Parsed.result (Parser.parse_of_ok hrun)) hp
  | error err =>
      rw [hvalue] at hhands
      obtain ⟨s', hrun⟩ := hhands
      exact congrArg Parser.Parsed.result (Parser.parse_of_error hrun)

/-- A lone `peek` term, its semicolon in front of the check. -/
theorem answers_peek {a : Atom}
    (hsu : Registry.held (m.registry img.target) Registry.CapId.superUser.index = true)
    (htoks : (Lexer.new line).toks = .identifier (bytes "peek") :: (a.toks ++ [.semicolon])) :
    Answers img m line ((Expr.mk (.peek a) .nil).value m.comp.symbols.value? m.vm.bus.mem) := by
  obtain ⟨hup, hfuel, _⟩ := Parser.start_of_toks m.comp m.vm.bus htoks
  rw [List.length_cons] at hfuel
  have hpeek := Parser.parseLine_peek (m.env img) (bodyFuel line) a hup
    (show _ ≤ evalFuel line by omega)
  rw [Frame.start_comp, Frame.start_bus] at hpeek
  simp only [Expr.value, Atom.value, Tail.value]
  cases haddr : a.value m.comp.symbols.value? m.vm.bus.mem with
  | error err =>
      rw [haddr] at hpeek
      obtain ⟨s', hrun⟩ := hpeek
      exact congrArg Parser.Parsed.result (Parser.parse_of_error hrun)
  | ok addr =>
      rw [haddr] at hpeek
      obtain ⟨s₁, hup₁, hmem₁, hrun⟩ := hpeek
      obtain ⟨s₂, hsemi, _, hbus₂, _⟩ := Parser.expectSemicolon_semicolon hup₁
      have henforce : Parser.enforce (m.env img) addr s₂ = .ok ⟨⟩ s₂ := by
        have hperm : Registry.Permitted img.target (m.registry img.target) addr :=
          Registry.permitted_iff.mpr (.inl hsu)
        unfold Parser.enforce
        rw [show Registry.checkAccess (m.env img).target (m.env img).registry addr = .ok () from
          hperm]
        rfl
      rw [Fallible.bind_ok hsemi, Fallible.bind_ok henforce] at hrun
      have hparse := Parser.parse_of_ok hrun
      refine prints_peek (congrArg Parser.Parsed.result hparse) ?_ hsu
      rw [hparse, ← hmem₁, ← hbus₂]

/-- Behind the term of a leading `peek` the command wants its semicolon. -/
theorem not_prints_peek {a : Atom} {rest : List Token} (v : Word)
    (htoks : (Lexer.new line).toks = .identifier (bytes "peek") :: (a.toks ++ rest))
    (hrest : first rest ≠ .semicolon) (hmore : first rest ≠ .eof) :
    ¬ Prints img m line v := by
  obtain ⟨hup, hfuel, _⟩ := Parser.start_of_toks m.comp m.vm.bus htoks
  rw [List.length_cons] at hfuel
  have hpeek := Parser.parseLine_peek (m.env img) (bodyFuel line) a hup
    (show _ ≤ evalFuel line by omega)
  suffices hrefused : ∃ e s', Parser.parseLine (m.env img) (evalFuel line) (bodyFuel line)
      (Frame.start m.comp m.vm.bus line) = .error (.error e) s' by
    obtain ⟨e, s', hrun⟩ := hrefused
    exact not_prints_of_error (congrArg Parser.Parsed.result (Parser.parse_of_error hrun))
  split at hpeek
  · obtain ⟨s₁, hup₁, _, hrun⟩ := hpeek
    obtain ⟨s₂, hsemi⟩ := Parser.expectSemicolon_missing hup₁ hrest hmore
    exact ⟨_, s₂, hrun.trans (Fallible.bind_error hsemi)⟩
  · obtain ⟨s', hrun⟩ := hpeek
    exact ⟨_, s', hrun⟩

variable {id : List Byte} {e : Expr} {line' : List Byte}

/-- But for a chain behind a leading `peek`, a statement answers with the
reference value. -/
theorem answers_of_not_peekChain
    (hsu : Registry.held (m.registry img.target) Registry.CapId.superUser.index = true)
    (hopens : e.Opens) (hline : Lexer.Written (valueToks e) line) (hchain : ¬ e.PeekChain) :
    Answers img m line (e.value m.comp.symbols.value? m.vm.bus.mem) := by
  have htoks := Lexer.toks_new_written hline
  by_cases hpeek : ∃ a tail, e = .mk (.peek a) tail
  · obtain ⟨a, tail, rfl⟩ := hpeek
    cases tail with
    | cons op rhs rest => exact absurd trivial hchain
    | nil =>
        refine answers_peek hsu ?_
        rw [htoks]
        simp [valueToks, Expr.toks, Atom.toks, Tail.toks]
  · exact answers_value (fun a tail heq => hpeek ⟨a, tail, heq⟩) hopens htoks

theorem not_prints_peekChain (hline : Lexer.Written (valueToks e) line) (hchain : e.PeekChain)
    (v : Word) : ¬ Prints img m line v := by
  have htoks := Lexer.toks_new_written hline
  obtain ⟨head, tail⟩ := e
  cases head with
  | peek a =>
      cases tail with
      | nil => exact absurd hchain id
      | cons op rhs rest =>
          have hshape : valueToks (.mk (.peek a) (.cons op rhs rest)) =
              .identifier (bytes "peek") :: (a.toks ++
                .operator (opByte op) :: (rhs.toks ++ rest.toks ++ [.semicolon])) := by
            simp [valueToks, Expr.toks, Atom.toks, Tail.toks]
          exact not_prints_peek v (htoks.trans hshape) (by simp) (by simp)
  | _ => exact absurd hchain id

theorem binds_iff_value (hline : Lexer.Written (letToks id e) line) (hlen : id.length ≤ nameMax)
    (hroom : m.comp.symbols.HasRoom id) (v : Word) :
    Binds img m line id v ↔ e.value m.comp.symbols.value? m.vm.bus.mem = .ok v := by
  obtain ⟨name, hname⟩ := NameBuf.fromSlice_eq_ok_iff.mpr hlen
  have hanswer : verdict img m line = _ :=
    Sessions.parse_let (m.env img) m.comp m.vm.bus hline hname hroom
  unfold Binds
  rw [hanswer]
  cases e.value m.comp.symbols.value? m.vm.bus.mem with
  | error err => simp
  | ok w =>
      simp only [Except.ok.injEq, Outcome.bound.injEq]
      constructor
      · rintro ⟨_, _, _, heq⟩
        exact heq
      · exact fun heq => ⟨name, NameBuf.asSlice_fromSlice hname, rfl, heq⟩

/-- A statement prints what `let` binds exactly if it is no chain behind a leading
`peek`, or its evaluation fails. -/
theorem statement_agrees_iff
    (hsu : Registry.held (m.registry img.target) Registry.CapId.superUser.index = true)
    (hopens : e.Opens) (hstmt : Lexer.Written (valueToks e) line)
    (hlet : Lexer.Written (letToks id e) line') (hlen : id.length ≤ nameMax)
    (hroom : m.comp.symbols.HasRoom id) :
    (∀ v, Prints img m line v ↔ Binds img m line' id v) ↔
      ¬ e.PeekChain ∨ ∃ err, e.value m.comp.symbols.value? m.vm.bus.mem = .error err := by
  simp only [binds_iff_value hlet hlen hroom]
  by_cases hchain : e.PeekChain
  · have hnot : ∀ v, ¬ Prints img m line v := not_prints_peekChain hstmt hchain
    simp only [hnot, false_iff, hchain, not_true_eq_false, false_or]
    cases e.value m.comp.symbols.value? m.vm.bus.mem with
    | ok w => simp
    | error err => simp
  · refine ⟨fun _ => .inl hchain, fun _ v => ?_⟩
    exact (answers_of_not_peekChain hsu hopens hstmt hchain).prints_iff v

end Agreement

/-- Memory full of ones: every capability is held. -/
def heldMachine : Machine := Machine.boot ⟨fun _ => 0xFF, []⟩

theorem superUser_held :
    Registry.held (heldMachine.registry armImage.target) Registry.CapId.superUser.index = true := by
  decide +kernel

theorem hasRoom_held (id : List Byte) : heldMachine.comp.symbols.HasRoom id :=
  .inr ⟨0, by decide⟩

/-- The text `peek 0x20000100` in front of the rest of a line. -/
theorem written_peek {ts : List Token} {rest : List Byte} (hcut : Lexer.Cut rest)
    (h : Lexer.Written ts rest) :
    Lexer.Written (.identifier (bytes "peek") :: .literal 0x20000100 :: ts)
      (bytes "peek 0x20000100" ++ rest) := by
  have htext : bytes "peek 0x20000100" ++ rest =
      [] ++ bytes "peek" ++ (bytes " " ++ bytes "0x20000100" ++ rest) := by
    simp only [List.nil_append, ← List.append_assoc]
    exact congrArg (· ++ rest) (by decide)
  rw [htext]
  exact .word (by decide) (.printed (.identifier (by decide))) (Lexer.cut_cons (by decide) _)
    (.word (by decide) (.printed (.hex 0x20000100)) hcut h)

theorem written_semicolon : Lexer.Written [.semicolon] (bytes ";") := by
  have htext : bytes ";" = [] ++ bytes ";" ++ [] := by decide
  rw [htext]
  exact .mark (by decide) (.printed .semicolon) rfl (.nil (by decide))

theorem opens_peek {a : Atom} {tail : Tail} : (Expr.mk (.peek a) tail).Opens := by
  intro id rest h
  simp only [Expr.toks, Atom.toks, List.cons_append, List.cons.injEq] at h
  exact .inl (Token.identifier.inj h.1).symm

/-- A lone `peek`. -/
theorem statement_agrees_lone_peek :
    Prints armImage heldMachine (bytes "peek 0x20000100" ++ bytes ";") 0xFFFFFFFF ↔
      Binds armImage heldMachine
        (bytes "let " ++ bytes "t" ++ bytes " = " ++ (bytes "peek 0x20000100" ++ bytes ";"))
        (bytes "t") 0xFFFFFFFF := by
  have hstmt : Lexer.Written (valueToks (.mk (.peek (.lit 0x20000100)) .nil))
      (bytes "peek 0x20000100" ++ bytes ";") := written_peek (by decide) written_semicolon
  exact (statement_agrees_iff superUser_held opens_peek hstmt (written_let (by decide) hstmt)
    (by decide) (hasRoom_held _)).mpr (.inl id) 0xFFFFFFFF

/-- `peek 0x20000100 + 1;` prints an error where `let` binds a value. -/
theorem peek_chain_disagrees : ¬ ∀ (img : Image) (m : Machine) (id : List Byte) (e : Expr)
    (line line' : List Byte),
    Registry.held (m.registry img.target) Registry.CapId.superUser.index = true → e.Opens →
      Lexer.Written (valueToks e) line → Lexer.Written (letToks id e) line' →
        id.length ≤ nameMax → m.comp.symbols.HasRoom id →
          ∀ v, Prints img m line v ↔ Binds img m line' id v := by
  intro h
  let e : Expr := .mk (.peek (.lit 0x20000100)) (.cons .add (.lit 1) .nil)
  have hrest : Lexer.Written [.operator (opByte .add), .literal 1, .semicolon] (bytes " + 1;") := by
    have htext : bytes " + 1;" =
        bytes " " ++ [opByte .add] ++ (bytes " " ++ bytes "1" ++ bytes ";") := by
      decide
    rw [htext]
    refine .mark (by decide) (.printed (.operator (by decide))) rfl ?_
    exact .word (by decide) (.printed (.decimal (by decide))) (by decide) written_semicolon
  have hstmt : Lexer.Written (valueToks e) (bytes "peek 0x20000100" ++ bytes " + 1;") :=
    written_peek (by decide) hrest
  have hlet : Lexer.Written (letToks (bytes "t") e) _ := written_let (by decide) hstmt
  have hvalue : e.value heldMachine.comp.symbols.value? heldMachine.vm.bus.mem = .ok 0 := by
    decide +kernel
  have hbinds : Binds armImage heldMachine _ (bytes "t") 0 :=
    (binds_iff_value hlet (by decide) (hasRoom_held _) 0).mpr hvalue
  have hprints := (h armImage heldMachine _ e _ _ superUser_held opens_peek hstmt hlet (by decide)
    (hasRoom_held _) 0).mpr hbinds
  exact not_prints_peekChain hstmt trivial 0 hprints

end Repl

end HolyRust
