import HolyRust.Compiler.NativeSessions
import HolyRust.Language.Refinement
import HolyRust.Drivers.ValueLines

/-!
The language on a real processor: a session in which what a line hands out is generated
into EXEC_BUFFER, fetched, decoded and executed, from the text of the lines to the bus
and the console. The processor fetches what was stored in the buffer, which is apart
from the data bus.

* `chip_run_native` — the native branch of `Repl.run` is what the processor does.
* `feedLine_models_iff` — one line.
* `session_on_processor_iff` — such a session is that of the statements throughout
  exactly if each line is right.
-/

namespace HolyRust.Language

open HolyRust.Repl
open Emitter (Reg Loads arrives arrives_eq_iff)
open Native (Cpu Executes MachineAligned arriving)
open Coherence (Event)

/-! ### Sessions on a processor -/

/-- The machine with the history of EXEC_BUFFER, which its data bus does not show. -/
structure Chip where
  machine : Machine
  events : List (Event Emitter.Store)

/-- A line that spells a statement, with what the registers hold when it is executed. -/
structure Entry where
  statement : Statement
  line : List Byte
  spells : Spells statement line
  regs : Reg → Word
  cycles : Word

namespace Chip

def boot (bus : Bus) : Chip := ⟨.boot bus, []⟩

variable (cpu : Cpu) (img : Image)

/-- `StreamProgram::run` with its code executed. -/
def run (regs : Reg → Word) (p : StreamProgram) (c : Chip) : Option (Option Word × Chip) :=
  let ran := Native.run cpu img.target img.code p ⟨c.machine.vm, regs, c.events⟩
  match ran.path with
  | .native | .threaded .halted | .threaded .zeroWord =>
      some (ran.value, ⟨{ c.machine with vm := ran.machine.vm }, ran.machine.events⟩)
  | .threaded .overrun | .threaded (.wildCall _) => none

def put (c : Chip) (text : List Byte) : Chip := { c with machine := c.machine.put text }

/-- The `run` arm of `execute`. -/
def runProgram (regs : Reg → Word) (p : StreamProgram) (c : Chip) : Option Chip :=
  match c.run cpu img regs p with
  | none => none
  | some (some value, c) => (writeValue value).map fun text => c.put (bytes "= " ++ text)
  | some (none, c) => some (c.put (Uart.writeLine (bytes "OK")))

/-- The chip once a line has been compiled. -/
def compiled (c : Chip) (line : List Byte) : Chip :=
  { c with machine :=
      c.machine.compiled (c.machine.comp.parse (c.machine.env img) c.machine.vm.bus line) }

/-- `feedLine`; its other arms run no program. -/
def feedLine (c : Chip) (e : Entry) : Option Chip :=
  match verdict img c.machine e.line with
  | .ok (.run p) => (runProgram cpu img e.regs p (c.compiled img e.line)).map (·.put prompt)
  | _ =>
      (Repl.feedLine img c.machine ⟨e.line, .threaded, e.cycles⟩).map fun m =>
        { c with machine := m }

/-- One line of a session that may have stopped. -/
def feed (c : Option Chip) (e : Entry) : Option Chip := c.bind (feedLine cpu img · e)

end Chip

/-- One line of the session of the statements. -/
def World.follow (img : Image) (w : Option World) (e : Entry) : Option World :=
  w.bind fun w => w.line img e.statement e.cycles

/-! ### One program -/

/-- The chip has run a program: nothing but the bus and the stack is another. -/
structure Chip.Ran (c c' : Chip) (bus : Bus) : Prop where
  bus : c'.machine.vm.bus = bus
  comp : c'.machine.comp = c.machine.comp
  audit : c'.machine.audit = c.machine.audit
  console : c'.machine.console = c.machine.console

section Programs

variable {cpu : Cpu} {img : Image} {image : Nat → Byte} {back : Word} {p : StreamProgram}

/-- A program whose calls do not fault is run by the processor. -/
theorem chip_run (hback : back.getLsbD 0 = false) (hcpu : Executes cpu img.target image back)
    (hlen : 0 < p.len) {is : List Emitter.Instr}
    (hinstrs : Native.instructions img.target img.code p = some (is ++ [.ret])) (c : Chip)
    (regs : Reg → Word) {s' : Emitter.CpuState img.target}
    (heffects : Emitter.effects is
      (Native.callState img.target ⟨regs, c.machine.vm.bus⟩ back) = some s') :
    ∃ c', c.run cpu img regs p =
      some (if p.yieldsValue then some (s'.reg (Native.acc img.target)) else none, c') ∧
        c.Ran c' s'.bus := by
  have htakes : Native.TakesNative img.code p := by
    refine ⟨hlen, ?_⟩
    rw [← Native.instructions_isSome_iff (t := img.target), hinstrs]
    rfl
  have hran := Native.run_executed hback hcpu hlen hinstrs ⟨c.machine.vm, regs, c.events⟩ heffects
  have hpath := (Native.run_native cpu img.target ⟨c.machine.vm, regs, c.events⟩ htakes).1
  unfold Chip.run
  simp only [hpath, hran.1]
  exact ⟨_, rfl, ⟨hran.2, rfl, rfl, rfl⟩⟩

theorem chip_call {ops : List Access} (h : p.IsCall img.code ops)
    (hback : back.getLsbD 0 = false) (hcpu : Executes cpu img.target image back) (c : Chip)
    (regs : Reg → Word) :
    ∃ c', c.run cpu img regs p = some (none, c') ∧
      c.Ran c' (Native.nativeBus none (ops.map (arriving img.target)) c.machine.vm.bus) := by
  have hlen : 0 < p.len := by rw [h.len_eq]; exact Nat.succ_pos _
  obtain ⟨s', heffects, hbus⟩ := Native.effects_bodyInstrs ops none
    (Native.callState img.target ⟨regs, c.machine.vm.bus⟩ back) (by simp)
  obtain ⟨c', hrun, hran⟩ := chip_run hback hcpu hlen
    (Native.instructions_call img.target img.code h) c regs heffects
  rw [h.yields] at hrun
  rw [hbus, show (Native.callState img.target ⟨regs, c.machine.vm.bus⟩ back).bus =
    c.machine.vm.bus from Emitter.CpuState.bus_mk _ _] at hran
  exact ⟨c', hrun, hran⟩

theorem chip_value {v : Word} (h : p.IsValue img.code v) (hback : back.getLsbD 0 = false)
    (hcpu : Executes cpu img.target image back) (c : Chip) (regs : Reg → Word) :
    ∃ c', c.run cpu img regs p = some (some (arrives img.target v), c') ∧
      c.Ran c' c.machine.vm.bus := by
  have hlen : 0 < p.len := by rw [h.len_eq]; decide
  have hinstrs : Native.instructions img.target img.code p =
      some ([.movImm (Native.acc img.target) v] ++ [.ret]) :=
    Native.instructions_value img.target img.code h
  obtain ⟨c', hrun, hran⟩ := chip_run hback hcpu hlen hinstrs c regs rfl
  rw [h.yields, if_pos rfl, Native.reg_acc_set] at hrun
  rw [Emitter.CpuState.bus_set, show
    (Native.callState img.target ⟨regs, c.machine.vm.bus⟩ back).bus = c.machine.vm.bus from
      Emitter.CpuState.bus_mk _ _] at hran
  exact ⟨c', hrun, hran⟩

/-- What a line hands out is run by the processor as `Repl.run` runs it natively. -/
theorem chip_run_native (h : (∃ ops, p.IsCall img.code ops) ∨ ∃ v, p.IsValue img.code v)
    (hback : back.getLsbD 0 = false) (hcpu : Executes cpu img.target image back) (c : Chip)
    (regs : Reg → Word) :
    ∃ value c' m', c.run cpu img regs p = some (value, c') ∧
      Repl.run img (.native regs) p c.machine = some (value, m') ∧ c.Ran c' m'.vm.bus := by
  rcases h with ⟨ops, hcall⟩ | ⟨v, hvalue⟩
  · obtain ⟨c', hchip, hran⟩ := chip_call hcall hback hcpu c regs
    obtain ⟨m', hrun, hbus, _⟩ := run_call (m := c.machine) (.native regs) hcall
    exact ⟨none, c', m', hchip, hrun, hbus ▸ hran⟩
  · obtain ⟨c', hchip, hran⟩ := chip_value hvalue hback hcpu c regs
    obtain ⟨m', hrun, hbus, _⟩ := run_value (m := c.machine) (.native regs) hvalue
    exact ⟨_, c', m', hchip, hrun, hbus ▸ hran⟩

end Programs

/-! ### One line -/

/-- The chip's machine is of the world. -/
abbrev OfWorld (img : Image) (c : Chip) (w : World) : Prop := Models img c.machine w

section Lines

variable {cpu : Cpu} {img : Image} {image : Nat → Byte} {back : Word} {p : StreamProgram}
  {c : Chip} {w : World}

/-- What a chip shows after a program. -/
theorem Chip.Ran.models {c' : Chip} {b : Bus} (hran : c.Ran c' b) (h : Models img c.machine w) :
    Models img c'.machine (w.setBus b) := by
  have hmodels := h.of_comp hran.comp
  rw [hran.bus, hran.audit, hran.console, h.audit, h.console] at hmodels
  exact hmodels

theorem runProgram_call_iff {ops : List Access} (hcall : p.IsCall img.code ops)
    (hback : back.getLsbD 0 = false) (hcpu : Executes cpu img.target image back)
    (h : Models img c.machine w) (regs : Reg → Word) (cycles : Word) :
    Option.Rel (OfWorld img) ((c.runProgram cpu img regs p).map (·.put prompt))
      ((World.respond img cycles (.perform ops) w).map (·.put prompt)) ↔
        MachineAligned img.target none ops w.bus.mem := by
  obtain ⟨c', hrun, hran⟩ := chip_call hcall hback hcpu c regs
  rw [← Native.machineBus_eq_iff, ← h.bus]
  have hmodels := hran.models h
  unfold Chip.runProgram
  simp only [hrun, World.respond, Option.map_some]
  constructor
  · intro hrel
    cases hrel with
    | some hsame =>
        have hbus : c'.machine.vm.bus = performAll ops w.bus := hsame.bus
        rw [← hran.bus, hbus, h.bus]
  · intro hbus
    rw [hbus] at hmodels
    rw [← h.bus]
    exact .some ((hmodels.put _).put _)

theorem runProgram_value_iff {v : Word} (hvalue : p.IsValue img.code v)
    (hback : back.getLsbD 0 = false) (hcpu : Executes cpu img.target image back)
    (h : Models img c.machine w) (regs : Reg → Word) (cycles : Word) :
    Option.Rel (OfWorld img) ((c.runProgram cpu img regs p).map (·.put prompt))
      ((World.respond img cycles (.print v) w).map (·.put prompt)) ↔ Loads img.target v := by
  obtain ⟨c', hrun, hran⟩ := chip_value hvalue hback hcpu c regs
  obtain ⟨text, htext⟩ := exists_writeValue v
  obtain ⟨shown, hshown⟩ := exists_writeValue (arrives img.target v)
  rw [← arrives_eq_iff]
  have hmodels := hran.models h
  rw [h.bus] at hmodels
  unfold Chip.runProgram
  simp only [hrun, World.respond, htext, hshown, Option.map_some]
  constructor
  · intro hrel
    cases hrel with
    | some hsame =>
        have hconsole : c'.machine.console ++ (bytes "= " ++ shown) ++ prompt =
            w.console ++ (bytes "= " ++ text) ++ prompt := hsame.console
        rw [hran.console, h.console] at hconsole
        have hput := List.append_cancel_left (List.append_cancel_right hconsole)
        rw [List.append_cancel_left hput] at hshown
        exact writeValue_injective hshown htext
  · intro harrives
    rw [harrives, htext] at hshown
    cases hshown
    exact .some ((hmodels.put _).put _)

/-- Only a call and a value hand out a program. -/
theorem handedOut_run {code : CodeMap} {a : Meaning} (h : a.HandedOut code (.run p)) :
    (∃ ops, a = .perform ops ∧ p.IsCall code ops) ∨ ∃ v, a = .print v ∧ p.IsValue code v := by
  cases a with
  | perform ops =>
      obtain ⟨q, hcall, hq⟩ := h
      cases hq
      exact .inl ⟨ops, rfl, hcall⟩
  | print v =>
      obtain ⟨q, hvalue, hq⟩ := h
      cases hq
      exact .inr ⟨v, rfl, hvalue⟩
  | bit action addr number => cases action <;> cases h
  | bind id v => obtain ⟨_, _, hout⟩ := h; cases hout
  | define id ops => obtain ⟨_, _, hout⟩ := h; cases hout
  | claim id => obtain ⟨_, _, hout⟩ := h; cases hout
  | drop id => obtain ⟨_, _, hout⟩ := h; cases hout
  | peek addr => cases h
  | poke addr v => cases h
  | help => cases h
  | banner => cases h
  | sysAudit => cases h

theorem Chip.feedLine_run {e : Entry} (h : verdict img c.machine e.line = .ok (.run p)) :
    c.feedLine cpu img e =
      (Chip.runProgram cpu img e.regs p (c.compiled img e.line)).map (·.put prompt) := by
  rw [Chip.feedLine, h]

theorem Chip.feedLine_other {e : Entry} (h : ∀ p, verdict img c.machine e.line ≠ .ok (.run p)) :
    c.feedLine cpu img e =
      (Repl.feedLine img c.machine ⟨e.line, .threaded, e.cycles⟩).map fun m =>
        { c with machine := m } := by
  unfold Chip.feedLine
  split
  · rename_i p hrun
    exact absurd hrun (h p)
  · rfl

/-- A line that hands out no program does what its statement means. -/
theorem feedLine_other_models (h : Models img c.machine w) {e : Entry}
    (hnot : ∀ p, verdict img c.machine e.line ≠ .ok (.run p)) :
    Option.Rel (OfWorld img) (c.feedLine cpu img e) (w.line img e.statement e.cycles) := by
  have hthreaded : Option.Rel (Models img)
      (Repl.feedLine img c.machine ⟨e.line, .threaded, e.cycles⟩)
      (w.line img e.statement e.cycles) := feedLine_models h e.spells (.inl rfl)
  rw [Chip.feedLine_other hnot]
  revert hthreaded
  generalize Repl.feedLine img c.machine _ = o
  generalize w.line img e.statement _ = o'
  intro hthreaded
  cases hthreaded with
  | none => exact .none
  | some hmodels => exact .some hmodels

theorem feedLine_models_iff (hback : back.getLsbD 0 = false)
    (hcpu : Executes cpu img.target image back) (h : Models img c.machine w) (e : Entry) :
    Option.Rel (OfWorld img) (c.feedLine cpu img e) (w.line img e.statement e.cycles) ↔
      LineRight img w e.statement := by
  have hparse := parse_compiles h.reachable.tablesOk h.fits e.spells c.machine.vm.bus
  unfold LineRight
  cases hmeaning : e.statement.compile (w.context img.target) w.bus with
  | error err b =>
      rw [h.bus, hmeaning] at hparse
      refine iff_of_true (feedLine_other_models h fun p hrun => ?_) trivial
      obtain ⟨hres, _⟩ := hparse
      rw [verdict, h.bus, hres] at hrun
      cases hrun
  | ok a b =>
      have hline : w.line img e.statement e.cycles =
          (World.respond img e.cycles a ((w.setBus b).learn a)).map (·.put prompt) := by
        rw [World.line, hmeaning]
      rw [← h.bus] at hmeaning
      rw [hmeaning] at hparse
      obtain ⟨o, hres, hbus, hout⟩ := hparse
      have hlearnt := models_learn h e.spells hmeaning hres hbus hout
      by_cases hprogram : ∃ p, o = .run p
      · obtain ⟨p, rfl⟩ := hprogram
        rw [Chip.feedLine_run hres, hline]
        rcases handedOut_run hout with ⟨ops, rfl, hcall⟩ | ⟨v, rfl, hvalue⟩
        · exact runProgram_call_iff (c := c.compiled img e.line) hcall hback hcpu hlearnt _ _
        · exact runProgram_value_iff (c := c.compiled img e.line) hvalue hback hcpu hlearnt _ _
      · have hnot : ∀ p, verdict img c.machine e.line ≠ .ok (.run p) := by
          intro p hrun
          exact hprogram ⟨p, Except.ok.inj (hres.symm.trans hrun)⟩
        refine iff_of_true (feedLine_other_models h hnot) ?_
        cases a with
        | perform ops =>
            obtain ⟨p, _, rfl⟩ := hout
            exact absurd ⟨p, rfl⟩ hprogram
        | print v =>
            obtain ⟨p, _, rfl⟩ := hout
            exact absurd ⟨p, rfl⟩ hprogram
        | _ => trivial

/-- On a processor that executes what was stored in EXEC_BUFFER, the buffer being apart
from the data bus, with anything in the registers: the session of lines that spell statements has the console, the bus and memory, the audit
log, the bindings and the functions of the session of the statements after each line, and
stops if it does, exactly if each line is right. -/
theorem session_on_processor_iff (hback : back.getLsbD 0 = false)
    (hcpu : Executes cpu img.target image back) (bus : Bus) (entries : List Entry) :
    (∀ k, Option.Rel (OfWorld img)
      (Runs.run (Chip.feed cpu img) (some (.boot bus)) (entries.take k))
      (Runs.run (World.follow img) (some (.boot bus)) (entries.take k))) ↔
        Runs.EveryStep (World.follow img)
          (fun o e => ∀ w, o = some w → LineRight img w e.statement)
          (some (.boot bus)) entries := by
  refine Runs.related_take_iff (fun o o' e hrel => ?_) (.some (models_boot img bus))
  cases hrel with
  | none => exact iff_of_true .none fun w hw => by cases hw
  | some h =>
      refine (feedLine_models_iff hback hcpu h e).trans ⟨?_, fun hall => hall _ rfl⟩
      rintro hright w hw
      cases hw
      exact hright

def sampleDefinition : Statement :=
  .define (bytes "f") [.poke (.lit 0x20000100) (.mk (.lit 1) .nil)]

theorem sampleDefinition_spelled :
    Spells sampleDefinition (bytes "fn f() \x7b poke 0x20000100 1; \x7d") :=
  ⟨[], by decide +kernel, trivial⟩

theorem callable_f : bytes "f" ∉ Parser.commandWords := by decide

theorem sampleCall_spelled : Spells (.call ⟨bytes "f", callable_f⟩) (bytes "f();") :=
  ⟨[.semicolon], by decide +kernel, [], .inl rfl⟩

/-- A definition and the call of it. -/
def sampleLines : List Entry :=
  [⟨_, _, sampleDefinition_spelled, fun _ => 0, 0⟩, ⟨_, _, sampleCall_spelled, fun _ => 0, 0⟩]

/-- The address is a long literal: right on ARM, not on RISC-V. -/
theorem session_on_processor_targets :
    (∀ k, Option.Rel (OfWorld ⟨.arm, .sample, true⟩)
      (Runs.run (Chip.feed (Sessions.sampleCpu .arm 0x08000100) ⟨.arm, .sample, true⟩)
        (some (.boot ⟨fun _ => 0, []⟩)) (sampleLines.take k))
      (Runs.run (World.follow ⟨.arm, .sample, true⟩) (some (.boot ⟨fun _ => 0, []⟩))
        (sampleLines.take k))) ∧
      ¬ ∀ k, Option.Rel (OfWorld ⟨.riscv32, .sample, true⟩)
        (Runs.run (Chip.feed (Sessions.sampleCpu .riscv32 0x20400100) ⟨.riscv32, .sample, true⟩)
          (some (.boot ⟨fun _ => 0, []⟩)) (sampleLines.take k))
        (Runs.run (World.follow ⟨.riscv32, .sample, true⟩) (some (.boot ⟨fun _ => 0, []⟩))
          (sampleLines.take k)) := by
  constructor
  · refine (session_on_processor_iff (by decide) (Sessions.executes_sampleCpu .arm 0x08000100)
      ⟨fun _ => 0, []⟩ sampleLines).mpr ?_
    unfold sampleLines
    simp only [Runs.everyStep_cons]
    refine ⟨fun w hw => ?_, fun w hw => ?_, Runs.everyStep_nil⟩
    · obtain rfl := Option.some.inj hw
      trivial
    · obtain rfl := Option.some.inj hw
      have hloads : ∀ v, Loads .arm v := fun v h => by cases h
      exact ⟨hloads _, hloads _, trivial⟩
  · intro h
    have hall := (session_on_processor_iff (by decide)
      (Sessions.executes_sampleCpu .riscv32 0x20400100) ⟨fun _ => 0, []⟩ sampleLines).mp h
    unfold sampleLines at hall
    simp only [Runs.everyStep_cons] at hall
    have hlong : Loads .riscv32 0x20000100 := (hall.2.1 _ rfl).1
    exact absurd hlong (by decide)

end Lines

end HolyRust.Language
