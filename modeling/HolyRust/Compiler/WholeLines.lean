import HolyRust.Compiler.Totality
import HolyRust.Compiler.Permanence

/-!
What `parse` does not read.

No statement looks behind its own end: `expect_semicolon` returns at the first
semicolon, `parse_fn` at the first closing brace, and nothing asks for the `eof`
after them. So an accepted line is read to the end only if its tokens are.

* `Scan.left` — the tokens the cursor has not taken.
* `left_eq` — they are the tokens `behind` the first statement.
* `read_whole_iff` — an accepted line is read whole iff nothing is behind it.
-/

namespace HolyRust

/-- The tokens not taken yet. -/
def Scan.left (s : Scan) : List Token :=
  match s.ahead with
  | none => s.lx.toks
  | some .eof => []
  | some t => t :: s.lx.toks

namespace Parser

theorem Upcoming.left {s : Scan} {ts : List Token} (h : Upcoming s ts) : s.left = ts := by
  cases h with
  | lexer lx => rfl
  | ended hnil => rfl
  | ahead hne lx =>
      unfold Scan.left
      split
      · next hahead => cases hahead
      · next hahead => exact absurd (Option.some.inj hahead) hne
      · next hahead => rw [← Option.some.inj hahead]

/-- A definition does not take the semicolon it may have. -/
def sparesSemicolon (ts : List Token) : Bool := ts.head? == some .kwFn

/-- The tokens ignored on a line: behind its statement and the semicolon of it. -/
def ignored (ts : List Token) : List Token :=
  if sparesSemicolon ts then dropSemicolon (behind ts) else behind ts

/-- The tokens of the line left in the cursor, but for the statement's semicolon. -/
def unread (line : List Byte) (s : Scan) : List Token :=
  if sparesSemicolon (Lexer.new line).toks then dropSemicolon s.left else s.left

end Parser

end HolyRust

namespace HolyRust.Sessions

open HolyRust.Parser (Env Frame ignored unread behind)

variable {env : Env} {c : Compiler} {bus : Bus} {line : List Byte} {o : Outcome}

/-- An accepted line leaves exactly what is behind its first statement. -/
theorem left_eq (h : (c.parse env bus line).result = .ok o) :
    (c.parse env bus line).scan.left = behind (Lexer.new line).toks := by
  have hends := Parser.parseLine_closes env (Parser.evalFuel line) (Parser.bodyFuel line)
    (s := Frame.start c bus line) (Parser.within_start line bus)
  exact (hends.of_ok (parse_run_ok h)).1.left

/-- An accepted line is read whole, up to the semicolon of a definition, exactly
if nothing is behind its first statement: behind the first closing brace of a
definition, behind the name of a command without operands, and else behind the
first semicolon. -/
theorem read_whole_iff (h : (c.parse env bus line).result = .ok o) :
    unread line (c.parse env bus line).scan = [] ↔ ignored (Lexer.new line).toks = [] := by
  unfold unread ignored
  rw [left_eq h]

/-- A command with its optional semicolon. -/
theorem read_whole_iff_help :
    unread (bytes "help;") (Compiler.new.parse sampleEnv blank (bytes "help;")).scan = [] ↔
      ignored (Lexer.new (bytes "help;")).toks = [] :=
  read_whole_iff (o := .help) (by decide +kernel)

/-- The second statement of a line is dropped, and the line is accepted. -/
theorem second_statement_ignored :
    (Compiler.new.parse sampleEnv blank (bytes "let a = 1; let b = 2;")).result.isOk = true ∧
      unread (bytes "let a = 1; let b = 2;")
          (Compiler.new.parse sampleEnv blank (bytes "let a = 1; let b = 2;")).scan =
        [.kwLet, .identifier (bytes "b"), .operator (ascii '='), .literal 2, .semicolon] := by
  decide +kernel

end HolyRust.Sessions
