import HolyRust.Library.Fallible
import HolyRust.Capabilities.Registry
import HolyRust.Compiler.Lexer
import HolyRust.Compiler.State
import HolyRust.Kernel.Memory

/-!
The single-pass parser (`compiler/parser.rs`, code part).

The state follows Rust's borrows: the expression functions take `&self` and a
`&mut Cur`, so they run over `Scan` (cursor and bus) with the compiler as an
argument; the statement functions take `&mut self` and run over `Frame`. Both
keep their state when they stop early, as the mutated borrow does.

The three mutually recursive expression functions and the body loop recurse on
a budget; `evalFuel` and `bodyFuel` are what `parse` gives them. `calls` counts
the calls of `next_token`.
-/

namespace HolyRust

/-- The one-token-lookahead cursor over the lexer, and the bus that a
compile-time `peek` reads. -/
structure Scan where
  lx : Lexer
  ahead : Option Token
  calls : Nat
  bus : Bus

abbrev EvalM := EStateM Stop Scan

namespace Cur

/-- `Lexer::next_token` on the cursor's lexer. -/
def lexToken : EvalM Token := fun s =>
  match s.lx.nextToken with
  | some (t, lx) => .ok t { s with lx := lx, calls := s.calls + 1 }
  | none => .error .panic s

def next : EvalM Token := fun s =>
  match s.ahead with
  | some t => .ok t { s with ahead := none }
  | none => lexToken s

def peek : EvalM Token := fun s =>
  match s.ahead with
  | some t => .ok t s
  | none =>
      match lexToken s with
      | .ok t s => .ok t { s with ahead := some t }
      | .error e s => .error e s

end Cur

namespace Parser

/-- Stop with a parser error. -/
def fail {σ α : Type} (e : ParseError) : EStateM Stop σ α := throw (.error e)

/-- `memory::peek_u32` at compile time. -/
def peekU32 (addr : Word) : EvalM Word := fun s =>
  let (value, bus) := s.bus.peekU32 addr
  .ok value { s with bus := bus }

/-! ### Expressions -/

/-- The operators `eval_expr` folds. -/
inductive ArithOp where
  | add | sub | mul | div | rem
deriving DecidableEq, Repr

namespace ArithOp

def ofByte (b : Byte) : Option ArithOp :=
  if b = ascii '+' then some .add
  else if b = ascii '-' then some .sub
  else if b = ascii '*' then some .mul
  else if b = ascii '/' then some .div
  else if b = ascii '%' then some .rem
  else none

/-- One fold step; division and remainder refuse a zero divisor. -/
def apply : ArithOp → Word → Word → Except ParseError Word
  | .add, acc, rhs => .ok (acc + rhs)
  | .sub, acc, rhs => .ok (acc - rhs)
  | .mul, acc, rhs => .ok (acc * rhs)
  | .div, acc, rhs => if rhs = 0#32 then .error .divByZero else .ok (acc / rhs)
  | .rem, acc, rhs => if rhs = 0#32 then .error .divByZero else .ok (acc % rhs)

end ArithOp

/-- `self.lookup_symbol(id).ok_or(ParseError::UnknownSymbol)`. -/
def lookupSymbol (self : Compiler) (id : List Byte) : EvalM Word :=
  match self.symbols.lookupSymbol id with
  | some (some v) => pure v
  | some none => fail .unknownSymbol
  | none => throw .panic

/-- `?` on a fold step. -/
def fold (op : ArithOp) (acc rhs : Word) : EvalM Word :=
  match op.apply acc rhs with
  | .ok v => pure v
  | .error e => fail e

/-- The closing parenthesis of a group. -/
def expectRParen (val : Word) : EvalM Word := do
  match ← Cur.next with
  | .rParen => pure val
  | _ => fail .unexpectedToken

mutual

/-- One atomic term or a parenthesized sub-expression. -/
def parseAtomicTerm (self : Compiler) : Nat → EvalM Word
  | 0 => throw .outOfFuel
  | n + 1 => do
      let tok ← Cur.next
      if tok = .lParen then
        let val ← evalExpr self n none
        expectRParen val
      else resolveTerm self n tok

/-- Left-to-right evaluation; `first` is an already-consumed leading token. -/
def evalExpr (self : Compiler) : Nat → Option Token → EvalM Word
  | 0, _ => throw .outOfFuel
  | n + 1, first => do
      let head ← match first with
        | some t => pure t
        | none => Cur.next
      let acc ←
        if head = .lParen then do
          let val ← evalExpr self n none
          expectRParen val
        else resolveTerm self n head
      evalTail self n acc

/-- The operator loop of `eval_expr`. -/
def evalTail (self : Compiler) : Nat → Word → EvalM Word
  | 0, _ => throw .outOfFuel
  | n + 1, acc => do
      match ← Cur.peek with
      | .operator b =>
          match ArithOp.ofByte b with
          | none => pure acc
          | some op => do
              let _ ← Cur.next
              let rhsTok ← Cur.next
              let rhs ←
                if rhsTok = .lParen then do
                  let val ← evalExpr self n none
                  expectRParen val
                else resolveTerm self n rhsTok
              let acc ← fold op acc rhs
              evalTail self n acc
      | _ => pure acc

/-- One expression term to its constant value; `peek` reads memory now. -/
def resolveTerm (self : Compiler) : Nat → Token → EvalM Word
  | 0, _ => throw .outOfFuel
  | n + 1, tok =>
      match tok with
      | .literal v => pure v
      | .identifier id =>
          if id = bytes "peek" then do
            let addr ← parseAtomicTerm self n
            peekU32 addr
          else lookupSymbol self id
      | .error msg => fail (.lexError msg)
      | _ => fail .unexpectedToken

end

/-! ### Statements -/

/-- What a statement function borrows. -/
structure Frame where
  comp : Compiler
  scan : Scan

abbrev ParseM := EStateM Stop Frame

/-- The linked image the compiler runs in and the registry as it is now. -/
structure Env where
  target : Target
  code : CodeMap
  registry : Registry

/-- A `&self` function called from a `&mut self` one. -/
def onScan {α : Type} (f : Compiler → EvalM α) : ParseM α := fun s =>
  match f s.comp s.scan with
  | .ok a scan => .ok a { s with scan := scan }
  | .error e scan => .error e { s with scan := scan }

def nextTok : ParseM Token := onScan fun _ => Cur.next

def peekTok : ParseM Token := onScan fun _ => Cur.peek

/-- The next token must be `tok`. -/
def expect (tok : Token) : ParseM PUnit := do
  if (← nextTok) = tok then pure ⟨⟩ else fail .unexpectedToken

/-- An identifier that fits a name buffer. -/
def expectName : ParseM NameBuf := do
  match ← nextTok with
  | .identifier id =>
      match NameBuf.fromSlice id with
      | .ok name => pure name
      | .error e => fail e
  | _ => fail .unexpectedToken

def expectSemicolon : ParseM PUnit := do
  match ← nextTok with
  | .semicolon | .eof => pure ⟨⟩
  | _ => fail .missingSemicolon

def allowOptionalSemicolon : ParseM PUnit := do
  if (← peekTok) = .semicolon then
    let _ ← nextTok
    pure ⟨⟩
  else pure ⟨⟩

/-- `check_access(addr).map_err(|_| ParseError::CapabilityViolation)?`. -/
def enforce (env : Env) (addr : Word) : ParseM PUnit :=
  match Registry.checkAccess env.target env.registry addr with
  | .ok _ => pure ⟨⟩
  | .error _ => fail .capabilityViolation

/-! ### Stream emission -/

def streamReset : ParseM PUnit :=
  modify fun s => { s with comp := { s.comp with streamLen := 0 } }

def streamPush (word : Word) : ParseM PUnit := fun s =>
  if h : s.comp.streamLen < maxStreamWords then
    .ok ⟨⟩ { s with comp := { s.comp with
      stream := s.comp.stream.set s.comp.streamLen word
      streamLen := s.comp.streamLen + 1 } }
  else .error (.error .streamFull) s

def streamPushLit (env : Env) (value : Word) : ParseM PUnit := do
  streamPush (env.code.wordOf .lit)
  streamPush value

def streamHalt (env : Env) : ParseM PUnit := streamPush (env.code.wordOf .halt)

def takeProgram (yieldsValue : Bool) : ParseM StreamProgram := do
  let s ← get
  match copyPrefix (Vector.replicate maxStreamWords 0#32) s.comp.stream s.comp.streamLen with
  | some words => pure ⟨words, s.comp.streamLen, yieldsValue⟩
  | none => throw .panic

def buildValueProgram (env : Env) (value : Word) : ParseM StreamProgram := do
  streamReset
  streamPushLit env value
  streamHalt env
  takeProgram true

/-- Push the body words at the given positions; a position past the body array
is the bounds-check panic. -/
def pushBody (body : Vector Word fnBodyWords) : List Nat → ParseM PUnit
  | [] => pure ⟨⟩
  | w :: ws =>
      if h : w < fnBodyWords then do
        streamPush body[w]
        pushBody body ws
      else throw .panic

/-- `self.find_fn(name).ok_or(ParseError::UnknownSymbol)?`. -/
def findFn (name : List Byte) : ParseM (Fin maxFns) := do
  let s ← get
  match s.comp.findFn name with
  | some i => pure i
  | none => fail .unknownSymbol

/-- Copy a stored body to the end of the stream. -/
def spliceCall (name : List Byte) : ParseM PUnit := do
  let index ← findFn name
  let s ← get
  pushBody (s.comp.fnBody index) (List.range (s.comp.fnBodyLen index))

def buildCallProgram (env : Env) (name : List Byte) : ParseM StreamProgram := do
  let index ← findFn name
  streamReset
  let s ← get
  pushBody (s.comp.fnBody index) (List.range (s.comp.fnBodyLen index))
  streamHalt env
  takeProgram false

/-! ### Statement parsers -/

def parseLet (fuel : Nat) : ParseM Outcome := do
  let name ← expectName
  expect (.operator (ascii '='))
  let value ← onScan fun self => evalExpr self fuel none
  expectSemicolon
  let s ← get
  match s.comp.symbols.insertSymbol name value with
  | some (.ok symbols) => do
      set { s with comp := { s.comp with symbols := symbols } }
      pure (.bound name value)
  | some (.error e) => fail e
  | none => throw .panic

/-- Call parentheses after a name, the opening one already seen by lookahead. -/
def callParens : ParseM PUnit := do
  let _ ← nextTok
  expect .rParen

/-- One statement inside a fn body (no nested fns, no let). -/
def parseBodyStmt (env : Env) (fuel : Nat) : ParseM PUnit := do
  match ← nextTok with
  | .identifier id =>
      if id = bytes "poke" then do
        let addr ← onScan fun self => parseAtomicTerm self fuel
        let val ← onScan fun self => evalExpr self fuel none
        expectSemicolon
        enforce env addr
        streamPushLit env addr
        streamPushLit env val
        streamPush (env.code.wordOf .writeReg)
      else if id = bytes "peek" then do
        let addr ← onScan fun self => parseAtomicTerm self fuel
        expectSemicolon
        enforce env addr
        streamPushLit env addr
        streamPush (env.code.wordOf .loadReg)
      else if (← peekTok) = .lParen then do
        callParens
        expectSemicolon
        spliceCall id
      else do
        let _ ← onScan fun self => evalExpr self fuel (some (.identifier id))
        expectSemicolon
  | _ => fail .unexpectedToken

/-- The statement loop of `parse_fn`. -/
def parseBody (env : Env) (fuel : Nat) : Nat → ParseM PUnit
  | 0 => throw .outOfFuel
  | n + 1 => do
      match ← peekTok with
      | .rBrace => do
          let _ ← nextTok
          pure ⟨⟩
      | .eof => fail .unexpectedToken
      | _ => do
          parseBodyStmt env fuel
          parseBody env fuel n

/-- Store the scratch stream as the body of a new function. -/
def storeFn (name : NameBuf) : ParseM Outcome := do
  let s ← get
  if s.comp.streamLen > fnBodyWords then fail .streamFull
  else
    match s.comp.allocFnSlot name with
    | .error e => fail e
    | .ok index =>
        match copyPrefix (s.comp.fnBody index) s.comp.stream s.comp.streamLen with
        | none => throw .panic
        | some body => do
            set { s with comp := s.comp.storeAt index name body s.comp.streamLen }
            pure (.fnDefined name)

def parseFn (env : Env) (fuel bodyFuel : Nat) : ParseM Outcome := do
  let name ← expectName
  expect .lParen
  expect .rParen
  expect .lBrace
  streamReset
  parseBody env fuel bodyFuel
  storeFn name

/-- `reg_set_bit` and `reg_clr_bit`. -/
def parseBitCommand (env : Env) (fuel : Nat) (outcome : Word → Word → Outcome) :
    ParseM Outcome := do
  let addr ← onScan fun self => parseAtomicTerm self fuel
  let bit ← onScan fun self => parseAtomicTerm self fuel
  expectSemicolon
  enforce env addr
  pure (outcome addr bit)

/-- `cap_claim` and `cap_drop`. -/
def parseCapCommand (outcome : NameBuf → Outcome) : ParseM Outcome := do
  let name ← expectName
  expectSemicolon
  pure (outcome name)

/-- `help`, `banner` and `sys_audit`. -/
def parseBareCommand (outcome : Outcome) : ParseM Outcome := do
  allowOptionalSemicolon
  pure outcome

/-- A bare expression: evaluate and print. -/
def parseValueStmt (env : Env) (fuel : Nat) (first : Token) : ParseM Outcome := do
  let value ← onScan fun self => evalExpr self fuel (some first)
  expectSemicolon
  let program ← buildValueProgram env value
  pure (.run program)

def parseCommand (env : Env) (fuel : Nat) (id : List Byte) : ParseM Outcome :=
  if id = bytes "peek" then do
    let addr ← onScan fun self => parseAtomicTerm self fuel
    expectSemicolon
    enforce env addr
    pure (.enforcedPeek addr)
  else if id = bytes "poke" then do
    let addr ← onScan fun self => parseAtomicTerm self fuel
    let val ← onScan fun self => evalExpr self fuel none
    expectSemicolon
    enforce env addr
    pure (.enforcedPoke addr val)
  else if id = bytes "cap_claim" then parseCapCommand .claim
  else if id = bytes "cap_drop" then parseCapCommand .drop
  else if id = bytes "reg_set_bit" then parseBitCommand env fuel .setBit
  else if id = bytes "reg_clr_bit" then parseBitCommand env fuel .clrBit
  else if id = bytes "help" then parseBareCommand .help
  else if id = bytes "banner" then parseBareCommand .banner
  else if id = bytes "sys_audit" then parseBareCommand .sysAudit
  else do
    if (← peekTok) = .lParen then do
      callParens
      expectSemicolon
      let program ← buildCallProgram env id
      pure (.run program)
    else parseValueStmt env fuel (.identifier id)

def parseLine (env : Env) (fuel bodyFuel : Nat) : ParseM Outcome := do
  let first ← nextTok
  match first with
  | .eof => fail .emptyLine
  | .kwLet => parseLet fuel
  | .kwFn => parseFn env fuel bodyFuel
  | .identifier id => parseCommand env fuel id
  | .literal _ | .operator _ | .lParen => parseValueStmt env fuel first
  | .error msg => fail (.lexError msg)
  | _ => fail .unexpectedToken

/-- The expression functions' budget for a line. -/
def evalFuel (line : List Byte) : Nat := 2 * line.length + 4

/-- The body loop's budget for a line. -/
def bodyFuel (line : List Byte) : Nat := line.length + 2

/-- The cursor at the start of a line. -/
def Scan.start (line : List Byte) (bus : Bus) : Scan := ⟨Lexer.new line, none, 0, bus⟩

/-- What one call of `Compiler::parse` leaves behind. -/
structure Parsed where
  result : Except Stop Outcome
  comp : Compiler
  scan : Scan

end Parser

/-- Compile one REPL line. -/
def Compiler.parse (self : Compiler) (env : Parser.Env) (bus : Bus) (line : List Byte) :
    Parser.Parsed :=
  match Parser.parseLine env (Parser.evalFuel line) (Parser.bodyFuel line)
      ⟨self, Parser.Scan.start line bus⟩ with
  | .ok outcome s => ⟨.ok outcome, s.comp, s.scan⟩
  | .error e s => ⟨.error e, s.comp, s.scan⟩

end HolyRust
