import HolyRust.Compiler.Generation
import HolyRust.Compiler.Accesses
import HolyRust.Library.Coherence

/-!
Running a program (`compile_and_run` with its jump, `StreamProgram::run`): native
code first, the threaded interpreter if that gives up.

What the processor does when execution enters EXEC_BUFFER is not in the source;
`Cpu` is any answer to it, given all that was written to the buffer so far. What
is proved here holds for each.

* `compileAndRun_cases` — no store leaves the buffer, and where `compile_and_run`
  gives up nothing was executed.
* `native_fallback` — generation of an accepted stream gives up only where a
  literal has no argument, and a program takes effect once, on one path.
-/

namespace HolyRust

theorem StreamProgram.length_code_le (p : StreamProgram) : p.code.length ≤ maxStreamWords := by
  simp only [code, List.length_take, Vector.length_toList]
  exact Nat.min_le_right _ _

namespace Native

open Emitter (CodeBuffer Core Reg Store)
open Coherence (Event)

/-- The kernel's execution state: the interpreter with the data bus, the register
file and the history of EXEC_BUFFER. -/
structure Machine where
  vm : Exec.Vm
  regs : Reg → Word
  events : List (Event Store)

/-- What entering EXEC_BUFFER does, given the history of the buffer. -/
abbrev Cpu := List (Event Store) → Core → Core

namespace Machine

/-- The registers and the data bus. -/
def core (m : Machine) : Core := ⟨m.regs, m.vm.bus⟩

def logStores (m : Machine) (ss : List Store) : Machine :=
  { m with events := m.events ++ ss.map .write }

/-- Generate code at the start of EXEC_BUFFER. -/
def writeCode (t : Target) (code : CodeMap) (p : StreamProgram) :
    EStateM Refusal Machine PUnit := fun m =>
  match generateInto t code p.code (CodeBuffer.intoExecBuffer t) with
  | .ok u e => .ok u (m.logStores e.stores)
  | .error r e => .error r (m.logStores e.stores)

/-- `jump_to_sram(exec_buffer_entry())`: the value is the return register. -/
def jumpToSram (cpu : Cpu) (t : Target) : EStateM Refusal Machine Word := fun m =>
  let core := cpu m.events m.core
  .ok (core.regs (acc t))
    { vm := { m.vm with bus := core.bus }, regs := core.regs, events := m.events ++ [.enter] }

/-- `compile_and_run`. -/
def compileAndRun (cpu : Cpu) (t : Target) (code : CodeMap) (p : StreamProgram) :
    EStateM Refusal Machine (Option Word) := do
  writeCode t code p
  let result ← jumpToSram cpu t
  if p.yieldsValue then pure (some result) else pure none

end Machine

/-- The path a program took. -/
inductive Path where
  | native
  | threaded (exit : Exec.Exit)
deriving DecidableEq

/-- A program that has run: its path, its value and the machine afterwards. -/
structure Ran where
  path : Path
  value : Option Word
  machine : Machine

/-- The rest of `run` when native code was not taken. The stack is reset already;
`runThreaded` resetting it again changes nothing. -/
def runFallback (code : CodeMap) (p : StreamProgram) (m : Machine) : Ran :=
  let (exit, value, vm) := p.runThreaded code m.vm
  ⟨.threaded exit, value, { m with vm := vm }⟩

/-- `StreamProgram::run`. -/
def run (cpu : Cpu) (t : Target) (code : CodeMap) (p : StreamProgram) (m : Machine) : Ran :=
  let m := { m with vm := m.vm.reset }
  if p.len > 0 then
    match m.compileAndRun cpu t code p with
    | .ok result m => ⟨.native, result, m⟩
    | .error _ m => runFallback code p m
  else runFallback code p m

/-! ### One program -/

variable {cpu : Cpu} {t : Target} {code : CodeMap} {p : StreamProgram} {m : Machine}

/-- The stores are inside EXEC_BUFFER. -/
def AllInside (t : Target) (ss : List Store) : Prop := ∀ s ∈ ss, s.Inside (execBufferSize t)

variable (code p) in
/-- The stream is accepted and each of its literals has its argument. -/
def Generates : Prop := isCompilable code p.code = true ∧ ¬ CutsLit code p.code

/-- Code is written whole, down to its return, or given up, and then no call is
left to make. -/
theorem writeCode_cases (t : Target) (code : CodeMap) (p : StreamProgram) (m : Machine) :
    (Generates code p ∧ ∃ ss s, AllInside t (ss ++ [s]) ∧
        m.writeCode t code p = .ok ⟨⟩ (m.logStores (ss ++ [s]))) ∨
      ¬ Generates code p ∧ ∃ ss r, AllInside t ss ∧
        m.writeCode t code p = .error r (m.logStores ss) := by
  have hlen := p.length_code_le
  unfold Machine.writeCode
  cases hcompilable : isCompilable code p.code with
  | false =>
      refine .inr ⟨fun h => ?_, [], .notCompilable, by simp [AllInside], ?_⟩
      · exact absurd (hcompilable.symm.trans h.1) (by simp)
      · rw [(generateInto_refused hcompilable).2]
        rfl
  | true =>
      by_cases hcut : CutsLit code p.code
      · obtain ⟨_, e, hgen⟩ := generateInto_cutsLit (t := t) hlen hcompilable hcut
        exact .inr ⟨fun h => h.2 hcut, e.stores, .missingArgument, e.inside, by rw [hgen]⟩
      · obtain ⟨is, e, e', s, _, _, hgen, hstores⟩ :=
          generateInto_ok (t := t) hlen hcompilable hcut
        refine .inl ⟨⟨hcompilable, hcut⟩, e.stores, s, ?_, ?_⟩
        · rw [← hstores]
          exact e'.inside
        · rw [hgen, ← hstores]

/-- The machine after the code `ss` was written and entered. -/
def Machine.entered (cpu : Cpu) (ss : List Store) (m : Machine) : Machine :=
  let core := cpu (m.events ++ ss.map .write) m.core
  { vm := { m.vm with bus := core.bus }
    regs := core.regs
    events := m.events ++ ss.map .write ++ [.enter] }

/-- `compile_and_run` writes its code and enters it, or gives up with the machine
as it was but for what it had written. -/
theorem compileAndRun_cases (cpu : Cpu) (t : Target) (code : CodeMap) (p : StreamProgram)
    (m : Machine) :
    (Generates code p ∧ ∃ ss s, AllInside t (ss ++ [s]) ∧
        m.compileAndRun cpu t code p =
          .ok (if p.yieldsValue then some ((m.entered cpu (ss ++ [s])).regs (acc t)) else none)
            (m.entered cpu (ss ++ [s]))) ∨
      ¬ Generates code p ∧ ∃ ss r, AllInside t ss ∧
        m.compileAndRun cpu t code p = .error r (m.logStores ss) := by
  rcases writeCode_cases t code p m with ⟨hgen, ss, s, hinside, hwrite⟩ |
    ⟨hgen, ss, r, hinside, hwrite⟩
  · refine .inl ⟨hgen, ss, s, hinside, ?_⟩
    unfold Machine.compileAndRun
    rw [Fallible.bind_ok hwrite]
    cases p.yieldsValue <;> rfl
  · refine .inr ⟨hgen, ss, r, hinside, ?_⟩
    exact Fallible.bind_error hwrite

/-- The recorded calls are there exactly for the streams that are generated. -/
theorem instructions_isSome_iff : (instructions t code p).isSome ↔ Generates code p := by
  have hlen := p.length_code_le
  have hdef : instructions t code p = generate Emitter.recorder t code p.code [] := rfl
  rw [hdef]
  cases hcompilable : isCompilable code p.code with
  | false =>
      rw [(generateInto_refused (t := t) hcompilable).1]
      simp [Generates, hcompilable]
  | true =>
      by_cases hcut : CutsLit code p.code
      · rw [(generateInto_cutsLit (t := t) hlen hcompilable hcut).1]
        simp [Generates, hcut]
      · obtain ⟨is, _, _, _, hrec, _⟩ := generateInto_ok (t := t) hlen hcompilable hcut
        simp [Generates, hrec, hcompilable, hcut]

variable (code p) in
/-- The programs that run natively. -/
def TakesNative : Prop := 0 < p.len ∧ Generates code p

variable (cpu t p) in
/-- From `m` the program ran natively: its code was written inside EXEC_BUFFER and
entered once, and nothing was dispatched. -/
def RanNative (m : Machine) (r : Ran) : Prop :=
  r.path = .native ∧ ∃ ss s, AllInside t (ss ++ [s]) ∧
    r.machine.events = m.events ++ (ss ++ [s]).map .write ++ [.enter] ∧
    r.machine.core = cpu (m.events ++ (ss ++ [s]).map .write) m.core ∧
    r.machine.vm.steps = m.vm.steps ∧
    r.value = if p.yieldsValue then some (r.machine.regs (acc t)) else none

variable (t code p) in
/-- From `m` the program ran threaded: EXEC_BUFFER was not entered, and the
interpreter did to the machine what it does to `m`. -/
def RanThreaded (m : Machine) (r : Ran) : Prop :=
  ∃ ss exit, AllInside t ss ∧ r.path = .threaded exit ∧
    r.machine.events = m.events ++ ss.map .write ∧ r.machine.regs = m.regs ∧
    p.runThreaded code m.vm = (exit, r.value, r.machine.vm)

theorem runFallback_threaded {ss : List Store} (hinside : AllInside t ss) :
    RanThreaded t code p m
      (runFallback code p (Machine.logStores { m with vm := m.vm.reset } ss)) :=
  ⟨ss, _, hinside, rfl, rfl, rfl, rfl⟩

theorem run_native (cpu : Cpu) (t : Target) (m : Machine) (h : TakesNative code p) :
    RanNative cpu t p m (run cpu t code p m) := by
  rcases compileAndRun_cases cpu t code p { m with vm := m.vm.reset } with
    ⟨_, ss, s, hinside, hrun⟩ | ⟨hnot, _⟩
  · unfold run
    rw [if_pos h.1, hrun]
    exact ⟨rfl, ss, s, hinside, rfl, rfl, rfl, rfl⟩
  · exact absurd h.2 hnot

theorem run_threaded (cpu : Cpu) (t : Target) (m : Machine) (h : ¬ TakesNative code p) :
    RanThreaded t code p m (run cpu t code p m) := by
  unfold run
  by_cases hlen : p.len > 0
  · rcases compileAndRun_cases cpu t code p { m with vm := m.vm.reset } with
      ⟨hgen, _⟩ | ⟨_, ss, r, hinside, hrun⟩
    · exact absurd ⟨hlen, hgen⟩ h
    · rw [if_pos hlen, hrun]
      exact runFallback_threaded hinside
  · rw [if_neg hlen]
    have hnone : RanThreaded t code p m
        (runFallback code p (Machine.logStores { m with vm := m.vm.reset } [])) :=
      runFallback_threaded (by simp [AllInside])
    simpa [Machine.logStores] using hnone

/-- Every array of words and every length, on either target and whatever entering
the buffer does: stores stay inside EXEC_BUFFER; generation of a stream the gate
accepts fails only at a last literal without an argument; where `compile_and_run`
gives up nothing was executed; and `run` takes effect once, on one path. -/
theorem native_fallback (cpu : Cpu) (t : Target) (code : CodeMap) (p : StreamProgram)
    (m : Machine) :
    (∀ v m', m.compileAndRun cpu t code p = .ok v m' → ∃ ss, AllInside t ss ∧
        m'.events = m.events ++ ss.map .write ++ [.enter]) ∧
      (∀ r m', m.compileAndRun cpu t code p = .error r m' → ∃ ss, AllInside t ss ∧
        m'.events = m.events ++ ss.map .write ∧ m'.vm = m.vm ∧ m'.regs = m.regs) ∧
      (isCompilable code p.code = true → ∀ r e,
        generateInto t code p.code (CodeBuffer.intoExecBuffer t) = .error r e →
          r = .missingArgument ∧ CutsLit code p.code) ∧
      (TakesNative code p → RanNative cpu t p m (run cpu t code p m)) ∧
      (¬ TakesNative code p → RanThreaded t code p m (run cpu t code p m)) := by
  refine ⟨?_, ?_, ?_, run_native cpu t m, run_threaded cpu t m⟩
  · intro v m' hrun
    rcases compileAndRun_cases cpu t code p m with ⟨_, ss, s, hinside, hok⟩ | ⟨_, _, _, _, herr⟩
    · rw [hok] at hrun
      cases hrun
      exact ⟨ss ++ [s], hinside, rfl⟩
    · rw [herr] at hrun
      cases hrun
  · intro r m' hrun
    rcases compileAndRun_cases cpu t code p m with ⟨_, _, _, _, hok⟩ | ⟨_, ss, _, hinside, herr⟩
    · rw [hok] at hrun
      cases hrun
    · rw [herr] at hrun
      cases hrun
      exact ⟨ss, hinside, rfl, rfl, rfl⟩
  · intro hcompilable r e hgen
    by_cases hcut : CutsLit code p.code
    · obtain ⟨_, e', herr⟩ := generateInto_cutsLit (t := t) p.length_code_le hcompilable hcut
      rw [herr] at hgen
      cases hgen
      exact ⟨rfl, hcut⟩
    · obtain ⟨_, _, e', _, _, _, hok, _⟩ :=
        generateInto_ok (t := t) p.length_code_le hcompilable hcut
      rw [hok] at hgen
      cases hgen

end Native

end HolyRust
