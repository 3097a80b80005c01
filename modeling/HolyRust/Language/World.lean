import HolyRust.Language.Statements
import HolyRust.Library.Runs

/-!
The machine that the language is about.

A `World` is what a session has bound and defined, memory, the audit log and the
text on the console. There is no parser, no table of slots, no stream, no stack and no
generated code in it: `World.line` compiles a statement to its meaning and does what
that says. `none` is a machine that stopped, at a shift past the word in a build that
checks for it.
-/

namespace HolyRust.Language

open HolyRust.Repl
open Registry (Permitted)

structure World where
  /-- What was bound, last first. -/
  vars : List (List Byte × Word)
  /-- What was defined, last first. -/
  fns : List (List Byte × List Access)
  bus : Bus
  audit : Audit.AuditLog
  console : List Byte

namespace World

def boot (bus : Bus) : World := ⟨[], [], bus, Audit.new, []⟩

/-- The registry is in memory. -/
def registry (w : World) (t : Target) : Registry := Registry.load t w.bus.mem

/-- The names that are bound. -/
def names (w : World) : Finset (List Byte) := (w.vars.map Prod.fst).toFinset

/-- What the next line is compiled under. -/
def context (t : Target) (w : World) : Context where
  lookup name := w.vars.lookup name
  callee name := w.fns.lookup name
  permitted addr := decide (Permitted t (w.registry t) addr)
  hasRoom name := decide (name ∈ w.names ∨ w.names.card < symbolSlots)
  hasSlot := decide (w.fns.length < maxFns)

def setBus (w : World) (b : Bus) : World := { w with bus := b }

def put (w : World) (text : List Byte) : World := { w with console := w.console ++ text }

/-- A store, recorded if it is made under SUPERUSER. -/
def store (t : Target) (cycles addr value : Word) (w : World) : World :=
  { w with
    bus := w.bus.pokeU32 addr value
    audit := noted (w.registry t) cycles addr value w.audit }.put (Uart.writeLine (bytes "OK"))

/-- A claim or a drop, and its answer. -/
def cap (t : Target) (act : List Byte → Registry → Answer × Registry) (name : List Byte)
    (w : World) : Option World :=
  let (answer, r) := act name (w.registry t)
  (answer.text name).map fun text =>
    (w.setBus { w.bus with mem := Registry.store t w.bus.mem r }).put text

variable (img : Image)

/-- What a line binds or defines. -/
def learn : Meaning → World → World
  | .bind name v, w => { w with vars := (name, v) :: w.vars }
  | .define name ops, w => { w with fns := (name, ops) :: w.fns }
  | _, w => w

/-- What a line does, and how it is answered. -/
def respond (cycles : Word) : Meaning → World → Option World
  | .bind name v, w => (writeValue v).map fun text => w.put (name ++ bytes " = " ++ text)
  | .define name _, w =>
      some (w.put (bytes "FN " ++ name ++ Uart.writeLine (bytes " DEFINED")))
  | .perform ops, w => some ((w.setBus (performAll ops w.bus)).put (Uart.writeLine (bytes "OK")))
  | .print v, w => (writeValue v).map fun text => w.put (bytes "= " ++ text)
  | .peek addr, w =>
      let (value, bus) := w.bus.peekU32 addr
      (writeValue value).map fun text => (w.setBus bus).put (bytes "= " ++ text)
  | .poke addr v, w => some (w.store img.target cycles addr v)
  | .bit action addr number, w =>
      let (old, bus) := w.bus.peekU32 addr
      (bitMask img number).map fun mask =>
        (w.setBus bus).store img.target cycles addr (action.combine old mask)
  | .claim name, w => w.cap img.target doClaim name
  | .drop name, w => w.cap img.target doDrop name
  | .help, w => some (w.put helpText)
  | .banner, w => some (w.put Repl.banner)
  | .sysAudit, w => (handleAudit w.audit).map w.put

/-- One line of a session. -/
def line (w : World) (st : Statement) (cycles : Word) : Option World :=
  match st.compile (w.context img.target) w.bus with
  | .ok a b => (respond img cycles a ((w.setBus b).learn a)).map (·.put prompt)
  | .error e b => some (((w.setBus b).put (bytes "ERR " ++ errorText e)).put prompt)

/-- One line of a session that may have stopped. -/
def step (w : Option World) (entry : Statement × Input) : Option World :=
  w.bind fun w => w.line img entry.1 entry.2.cycles

end World

end HolyRust.Language
