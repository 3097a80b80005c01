import HolyRust.Words

/-!
Streaming ASCII lexer (`compiler/lexer.rs`). `nextToken` answers `none` where
the Rust code would panic (an index or slice out of bounds, or the debug
assertion at the end of `parse_literal`).
-/

namespace HolyRust

/-- A single lexical token. -/
inductive Token where
  | kwFn
  | kwLet
  | identifier (name : List Byte)
  | operator (op : Byte)
  | literal (value : Word)
  | lParen
  | rParen
  | lBrace
  | rBrace
  | semicolon
  | comma
  | error (msg : String)
  | eof
deriving DecidableEq, Repr

/-- Streaming lexer over a fixed byte buffer. -/
structure Lexer where
  stream : List Byte
  cursor : Nat
  line : Nat
deriving DecidableEq, Repr

namespace Lexer

/-- New lexer over `stream`. -/
def new (stream : List Byte) : Lexer := ⟨stream, 0, 1⟩

/-! ### Byte classes -/

def isWhitespace (b : Byte) : Bool :=
  b == ascii ' ' || b == ascii '\t' || b == ascii '\r' || b == ascii '\n'

def isAsciiAlphabetic (b : Byte) : Bool :=
  inRange (ascii 'a') (ascii 'z') b || inRange (ascii 'A') (ascii 'Z') b

def isAsciiDigit (b : Byte) : Bool := inRange (ascii '0') (ascii '9') b

def isAsciiHexdigit (b : Byte) : Bool :=
  isAsciiDigit b || inRange (ascii 'a') (ascii 'f') b || inRange (ascii 'A') (ascii 'F') b

/-- The bytes that start an identifier. -/
def isIdentStart (b : Byte) : Bool := isAsciiAlphabetic b || b == ascii '_'

/-- The bytes that continue one. -/
def isIdentByte (b : Byte) : Bool := isAsciiAlphabetic b || isAsciiDigit b || b == ascii '_'

/-- The operator set of `next_token`. -/
def operatorBytes : List Byte := bytes "+-*/%=<>!&|^~:?"

/-! ### Scanning loops -/

/-- `while cursor < len && p(stream[cursor]) { cursor += 1 }`. -/
def advanceWhile (lx : Lexer) (p : Byte → Bool) : Lexer :=
  { lx with cursor := lx.cursor + ((lx.stream.drop lx.cursor).takeWhile p).length }

/-- The digit of a byte in the hex loop. -/
def hexDigit (b : Byte) : Option Word :=
  if inRange (ascii '0') (ascii '9') b then some ((b - ascii '0').setWidth 32)
  else if inRange (ascii 'a') (ascii 'f') b then some ((b - ascii 'a' + 10).setWidth 32)
  else if inRange (ascii 'A') (ascii 'F') b then some ((b - ascii 'A' + 10).setWidth 32)
  else none

/-- The digit of a byte in the decimal loop. -/
def decDigit (b : Byte) : Option Word :=
  if isAsciiDigit b then some ((b - ascii '0').setWidth 32) else none

/-- One digit loop of `parse_literal` over the bytes at the cursor: the value
and the bytes consumed, or on overflow the bytes consumed once the rest of the
token has been skipped. `skip` is the resynchronisation loop's byte class. -/
def digitLoop (digit : Byte → Option Word) (base : Word) (skip : Byte → Bool) :
    List Byte → Word → Nat → Except Nat (Word × Nat)
  | [], value, n => .ok (value, n)
  | b :: rest, value, n =>
      match digit b with
      | some d =>
          match (checkedMul value base).bind (checkedAdd · d) with
          | some v => digitLoop digit base skip rest v (n + 1)
          | none => .error (n + ((b :: rest).takeWhile skip).length)
      | none => if b == ascii '_' then digitLoop digit base skip rest value (n + 1)
          else .ok (value, n)

def advance (lx : Lexer) (n : Nat) : Lexer := { lx with cursor := lx.cursor + n }

/-! ### Tokens -/

def parseIdentifier (lx : Lexer) : Option (Token × Lexer) :=
  let start := lx.cursor
  let lx := lx.advanceWhile isIdentByte
  (slice lx.stream start lx.cursor).map fun ident =>
    (if ident = bytes "fn" then .kwFn
     else if ident = bytes "let" then .kwLet
     else .identifier ident, lx)

def parseHex (lx : Lexer) : Token × Lexer :=
  let lx := lx.advance 2
  let digitsStart := lx.cursor
  match digitLoop hexDigit 16 (fun b => isAsciiHexdigit b || b == ascii '_')
      (lx.stream.drop lx.cursor) 0 0 with
  | .error n => (.error "hex literal overflow", lx.advance n)
  | .ok (value, n) =>
      let lx := lx.advance n
      if lx.cursor = digitsStart then (.error "malformed hex literal", lx)
      else (.literal value, lx)

def parseDecimal (lx : Lexer) : Option (Token × Lexer) :=
  let start := lx.cursor
  match digitLoop decDigit 10 (fun b => isAsciiDigit b || b == ascii '_')
      (lx.stream.drop lx.cursor) 0 0 with
  | .error n => some (.error "literal overflow", lx.advance n)
  | .ok (value, n) =>
      let lx := lx.advance n
      if lx.cursor > start then some (.literal value, lx) else none

def parseLiteral (lx : Lexer) : Option (Token × Lexer) :=
  match lx.stream[lx.cursor]? with
  | none => none
  | some b =>
      let next := lx.stream[lx.cursor + 1]?
      if b = ascii '0' ∧ (next = some (ascii 'x') ∨ next = some (ascii 'X')) then
        some (parseHex lx)
      else parseDecimal lx

/-- The whitespace arms of the `next_token` loop. -/
def skipWhitespace (lx : Lexer) : Lexer :=
  let skipped := (lx.stream.drop lx.cursor).takeWhile isWhitespace
  { lx with
    cursor := lx.cursor + skipped.length
    line := lx.line + skipped.count (ascii '\n') }

/-- The single-byte tokens. -/
def punctuation (b : Byte) : Token :=
  if b = ascii '(' then .lParen
  else if b = ascii ')' then .rParen
  else if b = ascii '\x7b' then .lBrace
  else if b = ascii '\x7d' then .rBrace
  else if b = ascii ';' then .semicolon
  else if b = ascii ',' then .comma
  else if operatorBytes.contains b then .operator b
  else .error "unexpected character"

/-- Produce the next token, advancing the cursor. -/
def nextToken (lx : Lexer) : Option (Token × Lexer) :=
  let lx := lx.skipWhitespace
  match lx.stream[lx.cursor]? with
  | none => some (.eof, lx)
  | some b =>
      if isIdentStart b then lx.parseIdentifier
      else if isAsciiDigit b then lx.parseLiteral
      else some (punctuation b, lx.advance 1)

end Lexer

end HolyRust
