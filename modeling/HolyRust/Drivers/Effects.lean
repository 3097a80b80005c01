import HolyRust.Compiler.NativeSessions
import HolyRust.Drivers.Repl
import HolyRust.Kernel.Enforcement

/-!
What one REPL line can do to memory and to the audit log.

* `Effect` — reading only, one enforced store, a call, or a change of the
  registry; there is no fifth.
* `feedLine_effect` — every line, compiled in any session and run on either
  path, has one of these effects.
-/

namespace HolyRust.Repl

open HolyRust.Parser (Quiet quiet_of_eq commandWords Frame)
open HolyRust.Sessions (Reachable)
open Registry (Permitted)

/-- The accesses of a called function as the chosen path performs them: the machine code
with its literals as they arrive, and each write at the address in the accumulator. -/
def callBus (t : Target) (path : Path) (ops : List Access) (b : Bus) : Bus :=
  match path with
  | .threaded => performAll ops b
  | .native _ => Native.nativeBus none (ops.map (Native.arriving t)) b

/-- A value as the chosen path yields it. -/
def yielded (t : Target) (path : Path) (v : Word) : Word :=
  match path with
  | .threaded => v
  | .native _ => Emitter.arrives t v

/-- The audit log after an enforced store. -/
def noted (r : Registry) (cycles addr value : Word) (log : Audit.AuditLog) : Audit.AuditLog :=
  if Registry.isSuperuserActive r then log.recordEvent cycles addr value else log

section Paths

variable {t : Target} {path : Path}

/-- The interpreter performs the accesses as they are; native code does if they are
aligned and their literals arrive. -/
theorem callBus_eq {ops : List Access} {b : Bus}
    (h : path = .threaded ∨ Native.MachineAligned t none ops b.mem) :
    callBus t path ops b = performAll ops b := by
  cases path with
  | threaded => rfl
  | native regs =>
      rcases h with hpath | haligned
      · cases hpath
      · exact (Native.machineBus_eq_iff ops none b).mpr haligned

theorem yielded_eq {v : Word} (h : path = .threaded ∨ Emitter.Loads t v) :
    yielded t path v = v := by
  cases path with
  | threaded => rfl
  | native regs =>
      rcases h with hpath | hloads
      · cases hpath
      · exact Emitter.arrives_eq_iff.mpr hloads

end Paths

section Parts

variable {img : Image} {m : Machine} (path : Path) {p : StreamProgram}

theorem run_call {ops : List Access} (h : p.IsCall img.code ops) :
    ∃ m', run img path p m = some (none, m') ∧
      m'.vm.bus = callBus img.target path ops m.vm.bus ∧ m'.comp = m.comp ∧
        m'.audit = m.audit := by
  have hpos : p.len > 0 := by rw [h.len_eq]; omega
  unfold run
  cases path with
  | threaded =>
      obtain ⟨vm, hrun, hran⟩ := runThreaded_call img.code h m.vm
      refine ⟨{ m with vm := vm }, ?_, hran.bus, rfl, rfl⟩
      simp [hpos, hrun]
  | native regs =>
      obtain ⟨s, hrun, hbus⟩ := Native.effects_bodyInstrs ops none
        (.holding img.target regs m.vm.bus) (by simp)
      rw [Emitter.CpuState.bus_holding] at hbus
      rw [Option.isSome_none] at hrun
      refine ⟨{ m with vm := m.vm.reset }.setBus s.bus, ?_, hbus, rfl, rfl⟩
      have hinstrs := Native.instructions_call img.target img.code h
      simp [hpos, hinstrs, Native.effects_ret, hrun, h.yields]

theorem run_value {v : Word} (h : p.IsValue img.code v) :
    ∃ m', run img path p m = some (some (yielded img.target path v), m') ∧
      m'.vm.bus = m.vm.bus ∧ m'.comp = m.comp ∧ m'.audit = m.audit := by
  have hpos : p.len > 0 := by rw [h.len_eq]; omega
  unfold run
  cases path with
  | threaded =>
      obtain ⟨vm, hrun, hran⟩ := runThreaded_value img.code h m.vm
      refine ⟨{ m with vm := vm }, ?_, hran.bus, rfl, rfl⟩
      simp [hpos, hrun, yielded]
  | native regs =>
      refine ⟨{ m with vm := m.vm.reset }.setBus m.vm.bus, ?_, rfl, rfl, rfl⟩
      have hinstrs := Native.instructions_value img.target img.code h
      simp [hpos, hinstrs, Emitter.effects, Emitter.effect, h.yields, yielded]

/-- A store the parse-time check permitted goes through at run time. -/
theorem enforcedPoke_of_permitted {t : Target} {r : Registry} {addr : Word}
    (h : Permitted t r addr) (cycles value : Word) (log : Audit.AuditLog) (b : Bus) :
    Memory.enforcedPokeU32 t r cycles addr value log b =
      .ok (noted r cycles addr value log, b.pokeU32 addr value) := by
  have hok := (Memory.enforcedPoke_isOk t r addr cycles value log b).mpr
    (Memory.passes_of_permitted h)
  unfold Memory.enforcedPokeU32 noted at *
  cases hsu : Registry.isSuperuserActive r with
  | true => simp
  | false =>
      cases hcap : Registry.addrToCapId t addr with
      | none => simp
      | some c =>
          cases hclaimed : Registry.isClaimed r c.index with
          | true => simp [hclaimed]
          | false => simp [hsu, hcap, hclaimed, Except.isOk, Except.toBool] at hok

theorem guardedPoke_of_permitted {addr : Word}
    (h : Permitted img.target (m.registry img.target) addr) (cycles value : Word) :
    (guardedPoke img cycles addr value m).vm.bus = m.vm.bus.pokeU32 addr value ∧
      (guardedPoke img cycles addr value m).comp = m.comp ∧
      (guardedPoke img cycles addr value m).audit =
        noted (m.registry img.target) cycles addr value m.audit := by
  unfold guardedPoke
  rw [enforcedPoke_of_permitted h]
  exact ⟨rfl, rfl, rfl⟩

end Parts

/-! ### One line -/

/-- What parsing makes of a line. -/
def verdict (img : Image) (m : Machine) (line : List Byte) : Except Stop Outcome :=
  (m.comp.parse (m.env img) m.vm.bus line).result

/-- A line that parse accepts is executed. -/
theorem feedLine_of_verdict (img : Image) {m : Machine} {line : List Byte} {o : Outcome}
    (h : verdict img m line = .ok o) (path : Path) (cycles : Word) :
    feedLine img m ⟨line, path, cycles⟩ =
      (execute img path cycles o
        (m.compiled (m.comp.parse (m.env img) m.vm.bus line))).map (·.put prompt) := by
  have hline : line.isEmpty = false := by
    cases line with
    | nil => cases h
    | cons b rest => rfl
  unfold verdict at h
  simp only [feedLine, hline, h, Bool.false_eq_true, if_false]

/-- The line stores to an address itself. -/
def StoresAt (img : Image) (m : Machine) (line : List Byte) (addr : Word) : Prop :=
  (∃ value, verdict img m line = .ok (.enforcedPoke addr value)) ∨
    ∃ bit, verdict img m line = .ok (.setBit addr bit) ∨
      verdict img m line = .ok (.clrBit addr bit)

/-- The line is accepted as the call of a function that stands for the accesses. -/
def Calls (img : Image) (m : Machine) (line : List Byte) (ops : List Access) : Prop :=
  ∃ id rest p, id ∉ commandWords ∧
    (Lexer.new line).toks = .identifier id :: .lParen :: .rParen :: rest ∧
      m.comp.accessesOf img.code id = some ops ∧ verdict img m line = .ok (.run p) ∧
        p.IsCall img.code ops

/-- The line changes the registry. -/
def CapLine (img : Image) (m : Machine) (line : List Byte) : Prop :=
  ∃ name, verdict img m line = .ok (.claim name) ∨ verdict img m line = .ok (.drop name)

/-- What a line did: `b` is the bus once the line had been compiled. -/
inductive Effect (img : Image) (m : Machine) (input : Input) (m' : Machine) : Prop where
  | reads (hbus : Quiet m.vm.bus m'.vm.bus) (haudit : m'.audit = m.audit)
  | store {b : Bus} {addr value : Word} (hq : Quiet m.vm.bus b)
      (hline : StoresAt img m input.line addr) (hbus : m'.vm.bus = b.pokeU32 addr value)
      (haudit : m'.audit = noted (m.registry img.target) input.cycles addr value m.audit)
  | call {b : Bus} {ops : List Access} (hq : Quiet m.vm.bus b)
      (hline : Calls img m input.line ops)
      (hbus : m'.vm.bus = callBus img.target input.path ops b)
      (haudit : m'.audit = m.audit)
  | cap {b : Bus} {r : Registry} (hq : Quiet m.vm.bus b) (hline : CapLine img m input.line)
      (hbus : m'.vm.bus = { b with mem := Registry.store img.target b.mem r })
      (haudit : m'.audit = m.audit)

section Lines

variable {img : Image} {m m' : Machine} {input : Input}

/-- Reading does not change the registry. -/
theorem registry_of_quiet {b : Bus} (h : Quiet m.vm.bus b) :
    (m.setBus b).registry img.target = m.registry img.target := by
  unfold Machine.registry Machine.setBus
  rw [h.1]

theorem bitCommand_effect {combine : Word → Word → Word} {cycles addr bit : Word}
    (hperm : Permitted img.target (m.registry img.target) addr)
    (h : bitCommand img combine cycles addr bit m = some m') :
    ∃ b value, Quiet m.vm.bus b ∧ m'.vm.bus = b.pokeU32 addr value ∧ m'.comp = m.comp ∧
      m'.audit = noted (m.registry img.target) cycles addr value m.audit := by
  unfold bitCommand at h
  obtain ⟨mask, _, rfl⟩ := Option.map_eq_some_iff.mp h
  have hq := Parser.quiet_peekU32 m.vm.bus addr
  rw [← registry_of_quiet hq] at hperm ⊢
  obtain ⟨hbus, hcomp, haudit⟩ := guardedPoke_of_permitted hperm cycles
    (combine (m.vm.bus.peekU32 addr).1 mask)
  exact ⟨_, _, hq, hbus, hcomp, haudit⟩

/-- The same, `c` being the machine once the line had been compiled. -/
theorem bitLine_effect {c : Machine} {combine : Word → Word → Word} {addr bit : Word}
    (hq : Quiet m.vm.bus c.vm.bus) (hreg : c.registry img.target = m.registry img.target)
    (haudit : c.audit = m.audit) (hline : StoresAt img m input.line addr)
    (hperm : Permitted img.target (m.registry img.target) addr)
    (h : bitCommand img combine input.cycles addr bit c = some m') :
    Effect img m input m' ∧ m'.comp = c.comp := by
  rw [← hreg] at hperm
  obtain ⟨b, value, hq', hbus, hcomp, hnoted⟩ := bitCommand_effect hperm h
  rw [hreg, haudit] at hnoted
  exact ⟨.store (hq.trans hq') hline hbus hnoted, hcomp⟩

theorem enforcedPeek_quiet {t : Target} {r : Registry} {addr value : Word} {b b' : Bus}
    (h : Memory.enforcedPeekU32 t r addr b = .ok (value, b')) : Quiet b b' := by
  have hpeek : .ok (b.peekU32 addr) = (.ok (value, b') : Except Memory.MemError (Word × Bus)) →
      Quiet b b' := by
    intro heq
    cases heq
    exact Parser.quiet_peekU32 b addr
  unfold Memory.enforcedPeekU32 at h
  split at h
  · exact hpeek h
  · split at h
    · split at h
      · exact hpeek h
      · cases h
    · exact hpeek h

/-- A line that was accepted, executed. -/
theorem execute_effect (hreach : Reachable img.target img.code m.comp) {o : Outcome}
    (hres : verdict img m input.line = .ok o)
    (h : execute img input.path input.cycles o
      (m.compiled (m.comp.parse (m.env img) m.vm.bus input.line)) = some m') :
    Effect img m input m' ∧
      m'.comp = (m.comp.parse (m.env img) m.vm.bus input.line).comp := by
  have hok := hreach.tablesOk
  have hacc := Sessions.accepted (m.env img) hok hres
  set c := m.compiled (m.comp.parse (m.env img) m.vm.bus input.line) with hc
  have hq : Quiet m.vm.bus c.vm.bus := Sessions.parse_quiet (m.env img) hok _ _
  have hreg : c.registry img.target = m.registry img.target := registry_of_quiet hq
  cases o with
  | empty => exact absurd hacc id
  | help =>
      cases h
      exact ⟨.reads hq rfl, rfl⟩
  | banner =>
      cases h
      exact ⟨.reads hq rfl, rfl⟩
  | sysAudit =>
      obtain ⟨text, _, rfl⟩ := Option.map_eq_some_iff.mp h
      exact ⟨.reads hq rfl, rfl⟩
  | bound name value =>
      obtain ⟨text, _, rfl⟩ := Option.map_eq_some_iff.mp h
      exact ⟨.reads hq rfl, rfl⟩
  | fnDefined name =>
      cases h
      exact ⟨.reads hq rfl, rfl⟩
  | run p =>
      obtain ⟨_, ⟨v, hvalue⟩ | ⟨id, rest, ops, hid, hts, hcallee, hcall⟩⟩ := hacc
      · obtain ⟨m₁, hrun, hbus, hcomp, haudit⟩ := run_value (m := c) input.path hvalue
        simp only [execute, hrun] at h
        obtain ⟨text, _, rfl⟩ := Option.map_eq_some_iff.mp h
        refine ⟨.reads ?_ haudit, hcomp⟩
        show Quiet m.vm.bus m₁.vm.bus
        rw [hbus]
        exact hq
      · obtain ⟨m₁, hrun, hbus, hcomp, haudit⟩ := run_call (m := c) input.path hcall
        simp only [execute, hrun] at h
        cases h
        exact ⟨.call hq ⟨id, rest, p, hid, hts, hcallee, hres, hcall⟩ hbus haudit, hcomp⟩
  | claim name =>
      obtain ⟨text, _, rfl⟩ := Option.map_eq_some_iff.mp h
      exact ⟨.cap hq ⟨name, .inl hres⟩ rfl rfl, rfl⟩
  | drop name =>
      obtain ⟨text, _, rfl⟩ := Option.map_eq_some_iff.mp h
      exact ⟨.cap hq ⟨name, .inr hres⟩ rfl rfl, rfl⟩
  | enforcedPoke addr value =>
      cases h
      have hperm : Permitted img.target (c.registry img.target) addr := by rw [hreg]; exact hacc.2
      obtain ⟨hbus, hcomp, haudit⟩ := guardedPoke_of_permitted hperm input.cycles value
      rw [hreg] at haudit
      exact ⟨.store hq (.inl ⟨value, hres⟩) hbus haudit, hcomp⟩
  | enforcedPeek addr =>
      simp only [execute] at h
      split at h
      · rename_i value b hpeek
        obtain ⟨text, _, rfl⟩ := Option.map_eq_some_iff.mp h
        exact ⟨.reads (hq.trans (enforcedPeek_quiet hpeek)) rfl, rfl⟩
      · cases h
        exact ⟨.reads hq rfl, rfl⟩
  | setBit addr bit =>
      have hbit : bitCommand img (fun old mask => old ||| mask) input.cycles addr bit c =
          some m' := h
      exact bitLine_effect hq hreg rfl (.inr ⟨bit, .inl hres⟩) hacc.2 hbit
  | clrBit addr bit =>
      have hbit : bitCommand img (fun old mask => old &&& ~~~mask) input.cycles addr bit c =
          some m' := h
      exact bitLine_effect hq hreg rfl (.inr ⟨bit, .inr hres⟩) hacc.2 hbit

/-- Every line has one of the effects, and leaves a compiler of the session. -/
theorem feedLine_effect (hreach : Reachable img.target img.code m.comp)
    (h : feedLine img m input = some m') :
    Effect img m input m' ∧ Reachable img.target img.code m'.comp := by
  unfold feedLine at h
  split at h
  · cases h
    exact ⟨.reads (.refl _) rfl, hreach⟩
  · have hq : Quiet m.vm.bus (m.compiled (m.comp.parse (m.env img) m.vm.bus input.line)).vm.bus :=
      Sessions.parse_quiet (m.env img) hreach.tablesOk _ _
    have hnext : Reachable img.target img.code
        (m.comp.parse (m.env img) m.vm.bus input.line).comp := .line hreach _ _ _
    cases hres : (m.comp.parse (m.env img) m.vm.bus input.line).result with
    | ok o =>
        simp only [hres] at h
        obtain ⟨m₁, hexec, rfl⟩ := Option.map_eq_some_iff.mp h
        obtain ⟨heffect, hcomp⟩ := execute_effect hreach hres hexec
        refine ⟨?_, hcomp ▸ hnext⟩
        cases heffect with
        | reads hbus haudit => exact .reads hbus haudit
        | store hq hline hbus haudit => exact .store hq hline hbus haudit
        | call hq hline hbus haudit => exact .call hq hline hbus haudit
        | cap hq hline hbus haudit => exact .cap hq hline hbus haudit
    | error e =>
        simp only [hres] at h
        cases e with
        | error pe =>
            cases h
            exact ⟨.reads hq rfl, hnext⟩
        | panic => cases h
        | outOfFuel => cases h

end Lines

/-- A debug build for ARM. -/
def armImage : Image := ⟨.arm, .sample, true⟩

/-- A line on the threaded path. -/
def threadedLine (line : String) : Input := ⟨bytes line, .threaded, 0⟩

theorem reachable_boot (img : Image) (bus : Bus) :
    Reachable img.target img.code (Machine.boot bus).comp := .new

end HolyRust.Repl
