import HolyRust.Compiler.Lines
import HolyRust.Compiler.Spelling
import HolyRust.Compiler.Symbols
import HolyRust.Compiler.Values

/-!
`let NAME = E;` over every spelling of the line.

* `Gives x s r rest` — `x` answers as the reference value `r` says; `Yields` and
  `FrameMirrors` together give it for the expression functions.
* `let_binds_value` — the line binds the reference value of `E`, or answers with
  the first error of its evaluation.
-/

namespace HolyRust

namespace Syntax

/-- The tokens of `let NAME = E;`. -/
def letToks (name : List Byte) (e : Expr) : List Token :=
  .kwLet :: .identifier name :: .operator (ascii '=') :: (e.toks ++ [.semicolon])

/-- The usual way to write it. -/
theorem written_let {id text : List Byte} {e : Expr} (hid : Lexer.IsName id)
    (h : Lexer.Written (e.toks ++ [.semicolon]) text) :
    Lexer.Written (letToks id e) (bytes "let " ++ id ++ bytes " = " ++ text) := by
  have hequals : Lexer.Written (.operator (ascii '=') :: (e.toks ++ [.semicolon]))
      (bytes " " ++ [ascii '='] ++ (bytes " " ++ text)) :=
    .mark (by decide) (.printed (.operator (by decide))) rfl (h.blank_append (by decide))
  have hname : Lexer.Written (.identifier id :: .operator (ascii '=') :: (e.toks ++ [.semicolon]))
      (bytes " " ++ id ++ (bytes " " ++ [ascii '='] ++ (bytes " " ++ text))) :=
    .word (by decide) (.printed (.identifier hid)) (Lexer.cut_cons (by decide) _) hequals
  have hlet : Lexer.Written (letToks id e) ([] ++ bytes "let" ++
      (bytes " " ++ id ++ (bytes " " ++ [ascii '='] ++ (bytes " " ++ text)))) :=
    .word (by decide) (.printed .kwLet) (Lexer.cut_cons (by decide) _) hname
  have htext : bytes "let " = bytes "let" ++ bytes " " ∧
      bytes " = " = bytes " " ++ ([ascii '='] ++ bytes " ") := by decide
  simpa [htext] using hlet

end Syntax

namespace Parser

open Syntax
open Fallible (answer answer_bind answer_bind_error)

/-- `x` from `s` answers `r`. After a value the cursor is before `rest`, with the
compiler and the memory as they were. -/
def Gives {α : Type} (x : ParseM α) (s : Frame) (r : Except ParseError α)
    (rest : List Token) : Prop :=
  match r with
  | .ok v => ∃ s', x s = .ok v s' ∧ Upcoming s'.scan rest ∧ s'.comp = s.comp ∧
      s'.scan.bus.mem = s.scan.bus.mem
  | .error e => ∃ s', x s = .error (.error e) s'

theorem FrameMirrors.gives {α : Type} {x : ParseM α} {s : Frame} {y : Eval α}
    {r : Except ParseError α} {rest : List Token} (hx : FrameMirrors x s y rest)
    (hy : Yields s.scan.bus.mem y r) : Gives x s r rest := by
  obtain ⟨b, hmem, hrun⟩ := hy s.scan.bus rfl
  unfold FrameMirrors at hx
  rw [hrun] at hx
  cases r with
  | ok v =>
      obtain ⟨s', hxs, hup, rfl, hcomp⟩ := hx
      exact ⟨s', hxs, hup, hcomp, hmem⟩
  | error e =>
      obtain ⟨s', hxs, _⟩ := hx
      exact ⟨s', hxs⟩

section Gives

variable {s : Frame} {rest : List Token} {fuel : Nat}

theorem parseAtomicTerm_gives (a : Atom) (h : Upcoming s.scan (a.toks ++ rest))
    (hn : 2 * (a.toks ++ rest).length + 2 ≤ fuel) :
    Gives (onScan fun self => parseAtomicTerm self fuel) s
      (a.value s.comp.symbols.value? s.scan.bus.mem) rest :=
  (frameMirrors_onScan (parseAtomicTerm_mirrors s.comp a h hn)).gives a.eval_yields

theorem evalExpr_gives (e : Expr) (h : Upcoming s.scan (e.toks ++ rest))
    (hend : ¬ ContinuesChain rest) (hn : 2 * (e.toks ++ rest).length + 2 ≤ fuel) :
    Gives (onScan fun self => evalExpr self fuel none) s
      (e.value s.comp.symbols.value? s.scan.bus.mem) rest :=
  (frameMirrors_onScan (evalExpr_mirrors s.comp e h hend hn)).gives e.eval_yields

theorem evalExpr_gives_after (e : Expr) {t : Token} {ts : List Token} (htoks : e.toks = t :: ts)
    (h : Upcoming s.scan (ts ++ rest)) (hend : ¬ ContinuesChain rest)
    (hn : 2 * (ts ++ rest).length + 4 ≤ fuel) :
    Gives (onScan fun self => evalExpr self fuel (some t)) s
      (e.value s.comp.symbols.value? s.scan.bus.mem) rest :=
  (frameMirrors_onScan (evalExpr_mirrors_after s.comp e htoks h hend hn)).gives e.eval_yields

/-- The answer of `let` to its tokens behind the keyword. -/
theorem parseLet_answer {id : List Byte} {name : NameBuf} (e : Expr)
    (hname : NameBuf.fromSlice id = .ok name) (hroom : s.comp.symbols.HasRoom id)
    (h : Upcoming s.scan (.identifier id :: .operator (ascii '=') :: (e.toks ++ [.semicolon])))
    (hn : 2 * (e.toks ++ [Token.semicolon]).length + 2 ≤ fuel) :
    answer (parseLet fuel) s =
      match e.value s.comp.symbols.value? s.scan.bus.mem with
      | .ok v => .ok (.bound name v)
      | .error err => .error (.error err) := by
  unfold parseLet
  obtain ⟨s₁, hrun₁, hup₁, hbus₁, hcomp₁⟩ := expectName_identifier hname h
  obtain ⟨s₂, hrun₂, hup₂, hbus₂, hcomp₂⟩ := expect_cons hup₁
  rw [answer_bind hrun₁, answer_bind hrun₂, ← hbus₁, ← hbus₂, ← hcomp₁, ← hcomp₂]
  have hgives := evalExpr_gives e hup₂ (not_continuesChain_semicolon []) hn
  unfold Gives at hgives
  cases hvalue : e.value s₂.comp.symbols.value? s₂.scan.bus.mem with
  | error err =>
      rw [hvalue] at hgives
      obtain ⟨s₃, hrun₃⟩ := hgives
      exact answer_bind_error hrun₃
  | ok v =>
      rw [hvalue] at hgives
      obtain ⟨s₃, hrun₃, hup₃, hcomp₃, _⟩ := hgives
      obtain ⟨s₄, hrun₄, _, _, hcomp₄⟩ := expectSemicolon_semicolon hup₃
      have hroom₄ : s₄.comp.symbols.HasRoom name.asSlice := by
        rw [hcomp₄, hcomp₃, hcomp₂, hcomp₁, NameBuf.asSlice_fromSlice hname]
        exact hroom
      obtain ⟨t, hins⟩ := SymbolTable.insertSymbol_of_room hroom₄ v
      rw [answer_bind hrun₃, answer_bind hrun₄, answer_bind (Fallible.get_apply s₄)]
      simp only [hins]
      rfl

end Gives

/-- The answer of `parse` is that of its dispatch on the first token. -/
theorem parse_result (env : Env) (c : Compiler) (bus : Bus) (line : List Byte) :
    (c.parse env bus line).result =
      answer (parseLine env (evalFuel line) (bodyFuel line)) (Frame.start c bus line) := by
  rw [parse_start, answer]
  cases parseLine env (evalFuel line) (bodyFuel line) (Frame.start c bus line) <;> rfl

/-- The first token of a line picks the statement, which starts behind it. -/
theorem parseLine_cons (env : Env) (fuel n : Nat) {s : Frame} {t : Token} {ts : List Token}
    (h : Upcoming s.scan (t :: ts)) :
    ∃ s₁, Upcoming s₁.scan ts ∧ s₁.scan.bus = s.scan.bus ∧ s₁.comp = s.comp ∧
      parseLine env fuel n s = (match t with
        | .eof => fail .emptyLine
        | .kwLet => parseLet fuel
        | .kwFn => parseFn env fuel n
        | .identifier id => parseCommand env fuel id
        | .literal _ | .operator _ | .lParen => parseValueStmt env fuel t
        | .error msg => fail (.lexError msg)
        | _ => fail .unexpectedToken : ParseM Outcome) s₁ := by
  obtain ⟨s₁, hnext, hup, hbus, hcomp⟩ := nextTok_cons h
  refine ⟨s₁, hup, hbus, hcomp, ?_⟩
  unfold parseLine
  refine (Fallible.bind_ok hnext).trans ?_
  cases t <;> rfl

/-- A line that `parseLine` accepts, as `parse` reports it. -/
theorem parse_of_ok {env : Env} {c : Compiler} {bus : Bus} {line : List Byte} {o : Outcome}
    {s' : Frame} (h : parseLine env (evalFuel line) (bodyFuel line) (Frame.start c bus line) =
      .ok o s') : c.parse env bus line = ⟨.ok o, s'.comp, s'.scan⟩ := by
  rw [parse_start, h]

theorem parse_of_error {env : Env} {c : Compiler} {bus : Bus} {line : List Byte} {e : Stop}
    {s' : Frame} (h : parseLine env (evalFuel line) (bodyFuel line) (Frame.start c bus line) =
      .error e s') : c.parse env bus line = ⟨.error e, s'.comp, s'.scan⟩ := by
  rw [parse_start, h]

/-- The cursor and the budgets at the start of a line with the given tokens. -/
theorem start_of_toks (c : Compiler) (bus : Bus) {line : List Byte} {ts : List Token}
    (h : (Lexer.new line).toks = ts) :
    Upcoming (Frame.start c bus line).scan ts ∧ 2 * ts.length + 4 ≤ evalFuel line ∧
      ts.length + 2 ≤ bodyFuel line := by
  have hlen := Lexer.length_toks_le (Lexer.new line)
  rw [Lexer.rest_new, h] at hlen
  unfold evalFuel bodyFuel
  exact ⟨h ▸ upcoming_start line bus, by omega, by omega⟩

end Parser

namespace Sessions

open HolyRust.Parser (Env Frame Upcoming)
open Syntax

/-- The answer of `parse` to the line. -/
theorem parse_let (env : Env) (c : Compiler) (bus : Bus) {id : List Byte} {name : NameBuf}
    {e : Expr} {line : List Byte} (hline : Lexer.Written (letToks id e) line)
    (hname : NameBuf.fromSlice id = .ok name) (hroom : c.symbols.HasRoom id) :
    (c.parse env bus line).result =
      match e.value c.symbols.value? bus.mem with
      | .ok v => .ok (.bound name v)
      | .error err => .error (.error err) := by
  obtain ⟨hup, hfuel, _⟩ := Parser.start_of_toks c bus (Lexer.toks_new_written hline)
  obtain ⟨s₁, hup₁, hbus₁, hcomp₁, hrun⟩ := Parser.parseLine_cons env (Parser.evalFuel line)
    (Parser.bodyFuel line) hup
  have hbus : s₁.scan.bus.mem = bus.mem := congrArg Bus.mem hbus₁
  have hcomp : s₁.comp = c := hcomp₁
  have hlen : (letToks id e).length = (e.toks ++ [Token.semicolon]).length + 3 := rfl
  rw [Parser.parse_result, Fallible.answer, hrun, ← hbus, ← hcomp]
  exact Parser.parseLet_answer e hname (hcomp ▸ hroom) hup₁ (by omega)

/-- `let NAME = E;`, however it is spelled and whatever is bound and stored in
memory: with room for the name it is bound to the reference value of `E`, or the
line is refused with the first error of the reference evaluation. -/
theorem let_binds_value (env : Env) (c : Compiler) (bus : Bus) {id : List Byte} {e : Expr}
    {line : List Byte} (hline : Lexer.Written (letToks id e) line) (hlen : id.length ≤ nameMax)
    (hroom : c.symbols.HasRoom id) :
    ∃ name : NameBuf, name.asSlice = id ∧ (c.parse env bus line).result =
      match e.value c.symbols.value? bus.mem with
      | .ok v => .ok (.bound name v)
      | .error err => .error (.error err) := by
  obtain ⟨name, hname⟩ := NameBuf.fromSlice_eq_ok_iff.mpr hlen
  exact ⟨name, NameBuf.asSlice_fromSlice hname, parse_let env c bus hline hname hroom⟩

/-- Both radixes, underscores, a line break and no space around `=`. -/
theorem let_binds_value_spelled : ∃ name : NameBuf, name.asSlice = bytes "k" ∧
    (Compiler.new.parse ⟨.arm, .sample, Registry.free⟩ ⟨fun _ => 0, []⟩
      (bytes "let k=7- 0X_02\n*1_0;")).result = .ok (.bound name 50) := by
  have htext : bytes "let k=7- 0X_02\n*1_0;" =
      [] ++ bytes "let" ++ (bytes " " ++ bytes "k" ++ ([] ++ [ascii '='] ++
        ([] ++ bytes "7" ++ ([] ++ [ascii '-'] ++ (bytes " " ++ bytes "0X_02" ++
          (bytes "\n" ++ [ascii '*'] ++ ([] ++ bytes "1_0" ++ ([] ++ bytes ";" ++ [])))))))) := by
    decide
  have hline : Lexer.Written (letToks (bytes "k")
      (.mk (.lit 7) (.cons .sub (.lit 2) (.cons .mul (.lit 10) .nil))))
      (bytes "let k=7- 0X_02\n*1_0;") := by
    rw [htext]
    refine .word (by decide) (.printed .kwLet) (by decide) ?_
    refine .word (by decide) (.printed (.identifier (by decide))) (by decide) ?_
    refine .mark (by decide) (.printed (.operator (by decide))) rfl ?_
    refine .word (by decide) (.printed (.decimal (by decide))) (by decide) ?_
    refine .mark (by decide) (.printed (.operator (by decide))) rfl ?_
    refine .word (by decide) (.hex (.inr rfl) (by decide) (by decide) (by decide)) (by decide) ?_
    refine .mark (by decide) (.printed (.operator (by decide))) rfl ?_
    refine .word (by decide) (.decimal (by decide) (by decide) (by decide)) (by decide) ?_
    exact .mark (by decide) (.printed .semicolon) rfl (.nil (by decide))
  exact let_binds_value _ _ _ hline (by decide) (.inr ⟨0, by decide⟩)

end Sessions

end HolyRust
