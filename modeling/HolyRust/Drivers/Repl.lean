import HolyRust.Capabilities.Storage
import HolyRust.Capabilities.Tokens
import HolyRust.Compiler.MachineCode
import HolyRust.Compiler.Native
import HolyRust.Compiler.Parser
import HolyRust.Drivers.Uart

/-!
What the REPL does with a line (`drivers/repl.rs`): `compile` and `execute`.

The registry is where the linker puts it, in data memory: the machine has no
other copy, every check loads it and a claim or drop stores it back. Those
stores are atomic operations on a static, not `poke`s, so they are not on the
bus's trace. The other statics are not in data memory. `none` is a machine that
stopped: a Rust panic, a fault in generated code, or a jump through a word that
is no primitive.
-/

namespace HolyRust.Repl

/-! ### Capability commands -/

/-- How `do_claim` and `do_drop` answer. -/
inductive Answer where
  | claimed (id : Nat)
  | busy
  | released
  | notHeld
  | unknownResource
deriving DecidableEq, Repr

def doClaim (name : List Byte) (r : Registry) : Answer × Registry :=
  match Tokens.resolveName name with
  | some id =>
      match Registry.acquire r id with
      | (true, r) => (.claimed id, r)
      | (false, r) => (.busy, r)
  | none => (.unknownResource, r)

def doDrop (name : List Byte) (r : Registry) : Answer × Registry :=
  match Tokens.resolveName name with
  | some id =>
      if Registry.available r id then (.notHeld, r)
      else (.released, Registry.release r id)
  | none => (.unknownResource, r)

/-- The console line of an answer. -/
def Answer.text (name : List Byte) : Answer → Option (List Byte)
  | .claimed id => (Uart.writeDecU32 (BitVec.ofNat 32 id)).map fun dec =>
      bytes "CAP CLAIMED " ++ name ++ bytes " id=" ++ dec ++ bytes "\n"
  | .busy => some (bytes "CAP BUSY " ++ Uart.writeLine name)
  | .released => some (bytes "CAP RELEASED " ++ Uart.writeLine name)
  | .notHeld => some (bytes "CAP NOT HELD " ++ Uart.writeLine name)
  | .unknownResource => some (bytes "ERR UNKNOWN RESOURCE " ++ Uart.writeLine name)

/-! ### Console texts -/

def banner : List Byte := bytes "Holy Rust REPL v0.1\r\n"

def prompt : List Byte := bytes "holy> "

def errorText : ParseError → List Byte
  | .lexError _ => bytes "LEX\n"
  | .unexpectedToken => bytes "UNEXPECTED TOKEN\n"
  | .unsupportedOperator _ => bytes "UNSUPPORTED OPERATOR\n"
  | .unknownSymbol => bytes "UNKNOWN SYMBOL\n"
  | .duplicateFn => bytes "FN REDEFINED\n"
  | .symbolTableFull => bytes "SYMBOL TABLE FULL\n"
  | .fnTableFull => bytes "FN TABLE FULL\n"
  | .streamFull => bytes "STREAM FULL\n"
  | .nameTooLong => bytes "NAME TOO LONG\n"
  | .divByZero => bytes "DIV BY ZERO\n"
  | .missingSemicolon => bytes "MISSING SEMICOLON\n"
  | .emptyLine => bytes "\n"
  | .capabilityViolation => bytes "E001: CAPABILITY_VIOLATION - Peripheral token not claimed\n"

def helpText : List Byte := Uart.writeLine <| bytes <|
  "commands:\r\n" ++
  "peek ADDR;              read u32 from address (requires capability)\r\n" ++
  "poke ADDR VAL;          write u32 to address (requires capability)\r\n" ++
  "reg_set_bit ADDR BIT;   set register bit (requires capability)\r\n" ++
  "reg_clr_bit ADDR BIT;   clear register bit (requires capability)\r\n" ++
  "cap_claim NAME;         claim peripheral (GPIOA GPIOB UART0 SPI0 I2C0 TIMER0 DMA0 SUPERUSER)\r\n" ++
  "cap_drop NAME;          release peripheral\r\n" ++
  "let NAME = EXPR;        bind constant\r\n" ++
  "fn NAME() \x7b ... \x7d       define callable body\r\n" ++
  "EXPR;                   evaluate (+ - * / % left-to-right)\r\n" ++
  "sys_audit               dump SuperUser audit log\r\n" ++
  "banner                  reprint banner"

def writeValue (value : Word) : Option (List Byte) :=
  (Uart.writeDecU32 value).map fun dec =>
    Uart.writeHexU32 value ++ bytes " (" ++ dec ++ Uart.writeLine (bytes ")")

/-- One line of the audit dump; an entry at address 0 prints nothing. -/
def auditLine (e : Audit.AuditEntry) : Option (List Byte) :=
  if e.addr ≠ 0#32 then
    (Uart.writeDecU32 e.timestampCycles).map fun cycles =>
      bytes "ADDR: " ++ Uart.writeHexU32 e.addr ++ bytes " | VAL: " ++ Uart.writeHexU32 e.val ++
        bytes " | CYCLES: " ++ cycles ++ bytes "\r\n"
  else some []

def handleAudit (log : Audit.AuditLog) : Option (List Byte) := do
  let total ← Uart.writeDecU32 (BitVec.ofNat 32 log.totalAudits)
  let events ← log.entries.mapM auditLine
  pure (bytes "--- SUPERUSER AUDIT LOG ---\r\n" ++ bytes "Total Unsafe Operations: " ++ total ++
    bytes "\r\nRecent Events:\r\n" ++ events.flatten)

/-! ### The machine -/

/-- A built image: where it was linked and how it was compiled. -/
structure Image where
  target : Target
  code : CodeMap
  overflowChecks : Bool

/-- Which way `StreamProgram::run` goes: native code over whatever the registers
hold when it is called, or the interpreter. -/
inductive Path where
  | threaded
  | native (regs : Emitter.Reg → Word)

/-- Everything a line can change. -/
structure Machine where
  comp : Compiler
  vm : Exec.Vm
  audit : Audit.AuditLog
  console : List Byte

/-- One line with what the hardware decides while it runs. -/
structure Input where
  line : List Byte
  path : Path
  cycles : Word

namespace Machine

/-- The statics as they are initialised, over the given memory. -/
def boot (bus : Bus) : Machine := ⟨Compiler.new, .new bus, Audit.new, []⟩

def registry (m : Machine) (t : Target) : Registry := Registry.load t m.vm.bus.mem

def setBus (m : Machine) (b : Bus) : Machine := { m with vm := { m.vm with bus := b } }

def setRegistry (m : Machine) (t : Target) (r : Registry) : Machine :=
  m.setBus { m.vm.bus with mem := Registry.store t m.vm.bus.mem r }

def put (m : Machine) (text : List Byte) : Machine := { m with console := m.console ++ text }

end Machine

section Execute

variable (img : Image)

/-- `StreamProgram::run`. Natively the calls do what their machine code does, long
immediates on RISC-V included, on a processor that fetches what was stored; the code is
apart from the data bus. -/
def run (path : Path) (p : StreamProgram) (m : Machine) : Option (Option Word × Machine) :=
  let threaded :=
    let (exit, value, vm) := p.runThreaded img.code m.vm
    match exit with
    | .halted | .zeroWord => some (value, { m with vm := vm })
    | .overrun | .wildCall _ => none
  if p.len > 0 then
    match path with
    | .threaded => threaded
    | .native regs =>
        match Native.instructions img.target img.code p with
        | some is =>
            -- Code that faults does not come back.
            (Emitter.effects is (.holding img.target regs m.vm.bus)).map fun s =>
              (if p.yieldsValue then some (s.reg (Native.acc img.target)) else none,
                { m with vm := m.vm.reset }.setBus s.bus)
        | none => threaded
  else threaded

/-- An enforced poke and its console answer. -/
def guardedPoke (cycles addr value : Word) (m : Machine) : Machine :=
  match Memory.enforcedPokeU32 img.target (m.registry img.target) cycles addr value m.audit
      m.vm.bus with
  | .ok (audit, bus) => ({ m with audit := audit }.setBus bus).put (Uart.writeLine (bytes "OK"))
  | .error e => m.put (e.asBytes ++ bytes "\n")

/-- `1u32 << bit`: overflow checks panic on a bit past the word, other builds
mask the shift amount. -/
def bitMask (bit : Word) : Option Word :=
  if bit.toNat < 32 then some (1#32 <<< bit.toNat)
  else if img.overflowChecks then none
  else some (1#32 <<< (bit.toNat % 32))

/-- `reg_set_bit` and `reg_clr_bit`: read, combine with the mask, enforced poke. -/
def bitCommand (combine : Word → Word → Word) (cycles addr bit : Word) (m : Machine) :
    Option Machine :=
  let (old, bus) := m.vm.bus.peekU32 addr
  (bitMask img bit).map fun mask => guardedPoke img cycles addr (combine old mask) (m.setBus bus)

/-- `cap_claim` and `cap_drop`. -/
def capCommand (act : List Byte → Registry → Answer × Registry) (name : NameBuf) (m : Machine) :
    Option Machine :=
  let (answer, r) := act name.asSlice (m.registry img.target)
  (answer.text name.asSlice).map ((m.setRegistry img.target r).put ·)

def execute (path : Path) (cycles : Word) (outcome : Outcome) (m : Machine) : Option Machine :=
  match outcome with
  | .empty => some m
  | .help => some (m.put helpText)
  | .banner => some (m.put banner)
  | .bound name value =>
      (writeValue value).map fun text => m.put (name.asSlice ++ bytes " = " ++ text)
  | .fnDefined name =>
      some (m.put (bytes "FN " ++ name.asSlice ++ Uart.writeLine (bytes " DEFINED")))
  | .run program =>
      match run img path program m with
      | none => none
      | some (some value, m) => (writeValue value).map fun text => m.put (bytes "= " ++ text)
      | some (none, m) => some (m.put (Uart.writeLine (bytes "OK")))
  | .claim name => capCommand img doClaim name m
  | .drop name => capCommand img doDrop name m
  | .enforcedPoke addr val => some (guardedPoke img cycles addr val m)
  | .enforcedPeek addr =>
      match Memory.enforcedPeekU32 img.target (m.registry img.target) addr m.vm.bus with
      | .ok (value, bus) =>
          (writeValue value).map fun text => (m.setBus bus).put (bytes "= " ++ text)
      | .error e => some (m.put (e.asBytes ++ bytes "\n"))
  | .setBit addr bit => bitCommand img (fun old mask => old ||| mask) cycles addr bit m
  | .clrBit addr bit => bitCommand img (fun old mask => old &&& ~~~mask) cycles addr bit m
  | .sysAudit => (handleAudit m.audit).map m.put

/-- What compiling a line is given: the image and the registry as it is. -/
def Machine.env (m : Machine) : Parser.Env := ⟨img.target, img.code, m.registry img.target⟩

/-- The machine once a line has been compiled. -/
def Machine.compiled (m : Machine) (p : Parser.Parsed) : Machine :=
  { m with comp := p.comp }.setBus p.scan.bus

/-- The Evaluating and Printing phases on one line. -/
def feedLine (m : Machine) (input : Input) : Option Machine :=
  if input.line.isEmpty then some (m.put prompt)
  else
    let parsed := m.comp.parse (m.env img) m.vm.bus input.line
    let m := m.compiled parsed
    match parsed.result with
    | .ok outcome => (execute img input.path input.cycles outcome m).map (·.put prompt)
    | .error (.error e) => some ((m.put (bytes "ERR " ++ errorText e)).put prompt)
    | .error .panic | .error .outOfFuel => none

end Execute

/-! ### What the commands answer -/

theorem doClaim_eq (name : List Byte) (r : Registry) :
    doClaim name r =
      match Tokens.resolveName name with
      | some id =>
          if Registry.held r id = true then (.busy, (Registry.acquire r id).2)
          else (.claimed id, (Registry.acquire r id).2)
      | none => (.unknownResource, r) := by
  unfold doClaim
  cases hname : Tokens.resolveName name with
  | none => rfl
  | some id =>
      obtain ⟨T, _, rfl⟩ := Tokens.resolveName_eq_some hname
      have hans := Registry.acquire_fst r T.resourceId
      rw [decide_eq_true (Tokens.resourceId_lt T), Bool.true_and] at hans
      cases hacq : Registry.acquire r T.resourceId with
      | mk ok r' =>
          rw [hacq] at hans
          cases hheld : Registry.held r T.resourceId <;> simp_all

theorem doDrop_eq (name : List Byte) (r : Registry) :
    doDrop name r =
      match Tokens.resolveName name with
      | some id =>
          if Registry.held r id = true then (.released, Registry.release r id)
          else (.notHeld, r)
      | none => (.unknownResource, r) := by
  unfold doDrop
  cases hname : Tokens.resolveName name with
  | none => rfl
  | some id =>
      obtain ⟨T, _, rfl⟩ := Tokens.resolveName_eq_some hname
      cases hheld : Registry.held r T.resourceId <;>
        simp [Registry.available_eq, Tokens.resourceId_lt, hheld]

end HolyRust.Repl
