import HolyRust.Compiler.Agreement
import HolyRust.Compiler.Lines

/-!
Sessions: the compilers that lines lead to, and the programs they hand out.

* `Reachable` — any lines, each under any registry and memory.
* `Reachable.tablesOk` — stored bodies are groups, in every session.
* `programs_dispatchable` — every program handed out is safe to dispatch.
* `native_agrees_iff` — the two execution paths agree on one exactly if its
  writes find their address in the accumulator.
-/

namespace HolyRust.Sessions

open HolyRust.Parser (Env Frame Accepted Rejected Unchanged Quiet DefinedBy)
open HolyRust.Native (SameRun AccAligned)
open Compiler (TablesOk SameTables)

/-- A compiler after some lines. The registry and the memory may change between
lines in any way; the linked image does not. -/
inductive Reachable (t : Target) (code : CodeMap) : Compiler → Prop where
  | new : Reachable t code Compiler.new
  | line {c : Compiler} (h : Reachable t code c) (registry : Registry) (bus : Bus)
      (line : List Byte) : Reachable t code (c.parse ⟨t, code, registry⟩ bus line).comp

section Lines

variable (env : Env) {c : Compiler} {bus : Bus} {line : List Byte}

theorem accepted (hok : TablesOk env.code c) {o : Outcome}
    (h : (c.parse env bus line).result = .ok o) :
    Accepted env (Lexer.new line).toks (Frame.start c bus line) (c.parse env bus line).frame o := by
  have hspec := Compiler.parse_spec hok bus line
  rw [h] at hspec
  exact hspec

theorem rejected (hok : TablesOk env.code c) {e : Stop}
    (h : (c.parse env bus line).result = .error e) :
    Rejected (Frame.start c bus line) e (c.parse env bus line).frame := by
  have hspec := Compiler.parse_spec hok bus line
  rw [h] at hspec
  exact hspec

/-- Parsing only reads memory. -/
theorem parse_quiet (hok : TablesOk env.code c) (bus : Bus) (line : List Byte) :
    Quiet bus (c.parse env bus line).scan.bus := by
  cases hres : (c.parse env bus line).result with
  | error e => exact (rejected env hok hres).2.quiet
  | ok o => exact (accepted env hok hres).quiet

/-- A line changes the symbols at most, or it defines a function. -/
theorem parse_tables (hok : TablesOk env.code c) (bus : Bus) (line : List Byte) :
    (∃ symbols, SameTables { c with symbols := symbols } (c.parse env bus line).comp) ∨
      ∃ name, (c.parse env bus line).result = .ok (.fnDefined name) ∧
        DefinedBy env (Lexer.new line).toks (Frame.start c bus line) name.asSlice
          (c.parse env bus line).frame := by
  cases hres : (c.parse env bus line).result with
  | error e => exact .inl ⟨_, (rejected env hok hres).2.tables⟩
  | ok o =>
      rcases (accepted env hok hres).tables with hsame | ⟨name, rfl, hdef⟩
      · exact .inl hsame
      · exact .inr ⟨name, rfl, hdef⟩

/-- One line keeps the stored bodies groups. -/
theorem parse_tablesOk (hok : TablesOk env.code c) (bus : Bus) (line : List Byte) :
    TablesOk env.code (c.parse env bus line).comp := by
  rcases parse_tables env hok bus line with ⟨symbols, hsame⟩ | ⟨name, _, hdef⟩
  · have hbound : TablesOk env.code { c with symbols := symbols } := ⟨hok.len_le, hok.groups⟩
    exact hbound.of_same hsame
  · obtain ⟨⟨stmts, rest, hspell⟩, hmeaning⟩ := hdef
    obtain ⟨ops, _, hdefines⟩ := hmeaning stmts rest hspell
    exact hdefines.tablesOk hok

end Lines

theorem tablesOk_new (code : CodeMap) : TablesOk code Compiler.new where
  len_le i := by simp [Compiler.new, Compiler.fnBodyLen]
  groups i := ⟨[], by simp [Compiler.bodyAt, Compiler.new, Compiler.fnBodyLen]⟩

/-- Every stored body of every session fits its array and is groups. -/
theorem Reachable.tablesOk {t : Target} {code : CodeMap} {c : Compiler}
    (h : Reachable t code c) : TablesOk code c := by
  induction h with
  | new => exact tablesOk_new code
  | line _ registry bus line ih => exact parse_tablesOk ⟨t, code, registry⟩ ih bus line

/-- The program of a line that runs one. -/
def program? : Except Stop Outcome → Option StreamProgram
  | .ok (.run p) => some p
  | _ => none

theorem program?_eq_some {r : Except Stop Outcome} {p : StreamProgram} :
    program? r = some p ↔ r = .ok (.run p) := by
  unfold program?
  split
  · simp
  · rename_i hne
    simp only [reduceCtorEq, false_iff]
    exact hne p

/-- Memory full of zeros. -/
def blank : Bus := ⟨fun _ => 0, []⟩

/-- The sample image on ARM with nothing claimed. -/
def sampleEnv : Env := ⟨.arm, .sample, Registry.free⟩

/-- The session of one line. -/
def after (line : String) : Compiler := (Compiler.new.parse sampleEnv blank (bytes line)).comp

theorem reachable_after (line : String) : Reachable .arm .sample (after line) :=
  .line .new _ _ _

/-! ### Programs -/

section Programs

variable {t : Target} {code : CodeMap} {c : Compiler} {registry : Registry} {bus : Bus}
  {line : List Byte} {p : StreamProgram}

/-- A program is the call of a live function or a value. -/
theorem parse_run (h : Reachable t code c)
    (hrun : (c.parse ⟨t, code, registry⟩ bus line).result = .ok (.run p)) :
    (∃ v, p.IsValue code v) ∨ ∃ as, p.IsCall code as := by
  rcases (accepted ⟨t, code, registry⟩ h.tablesOk hrun).2 with hvalue | ⟨_, _, as, _, _, _, hcall⟩
  · exact .inl hvalue
  · exact .inr ⟨as, hcall⟩

/-- From any machine the program runs to its `halt`, taking safe steps only and
calling just the given primitives from just the given slots. -/
def RunsSafely (code : CodeMap) (p : StreamProgram) (slots : List (Nat × MicroPrimitive)) :
    Prop :=
  ∀ m : Exec.Vm, ∃ value m' steps, p.runThreaded code m = (.halted, value, m') ∧
    m'.steps = m.steps ++ steps ∧ (∀ s ∈ steps, s.Safe p.len) ∧ Exec.dispatched steps = slots

/-- What the dispatcher may be given: groups or one literal, then `halt`. -/
structure Dispatchable (code : CodeMap) (p : StreamProgram) : Prop where
  len_le : p.len ≤ maxStreamWords
  len_eq : p.code.length = p.len
  shape :
    (∃ as, p.code = bodyWords code as ++ [code.wordOf .halt] ∧
      RunsSafely code p (bodySlots code 0 as ++ [(p.len - 1, .halt)])) ∨
    ∃ v, p.code = [code.wordOf .lit, v, code.wordOf .halt] ∧
      RunsSafely code p [(0, .lit), (2, .halt)]

theorem dispatchable_call {as : List Access} (h : p.IsCall code as) : Dispatchable code p where
  len_le := h.len_le
  len_eq := by rw [h.code_eq, h.len_eq, List.length_append, List.length_singleton]
  shape := by
    refine .inl ⟨as, h.code_eq, fun m => ?_⟩
    obtain ⟨m', hrun, hran⟩ := runThreaded_call code h m
    obtain ⟨steps, hsteps, hsafe, hcalls⟩ := hran.steps
    exact ⟨none, m', steps, hrun, hsteps, hsafe, hcalls⟩

theorem dispatchable_value {v : Word} (h : p.IsValue code v) : Dispatchable code p where
  len_le := by rw [h.len_eq]; decide
  len_eq := by rw [h.code_eq, h.len_eq]; rfl
  shape := by
    refine .inr ⟨v, h.code_eq, fun m => ?_⟩
    obtain ⟨m', hrun, hran⟩ := runThreaded_value code h m
    obtain ⟨steps, hsteps, hsafe, hcalls⟩ := hran.steps
    exact ⟨some v, m', steps, hrun, hsteps, hsafe, hcalls⟩

theorem length_bodyAt {i : Fin maxFns} (h : c.fnBodyLen i ≤ fnBodyWords) :
    (c.bodyAt i).length = c.fnBodyLen i := by
  rw [Compiler.bodyAt, List.length_take, Vector.length_toList]
  exact Nat.min_eq_left h

/-- In every session the stored bodies are groups that fit their arrays, and
every program handed out meets the dispatcher's precondition. -/
theorem programs_dispatchable {t : Target} {code : CodeMap} {c : Compiler}
    (h : Reachable t code c) :
    (∀ i : Fin maxFns, (c.bodyAt i).length = c.fnBodyLen i ∧ c.fnBodyLen i ≤ fnBodyWords ∧
      ∃ as, c.bodyAt i = bodyWords code as) ∧
    ∀ (registry : Registry) (bus : Bus) (line : List Byte) (p : StreamProgram),
      (c.parse ⟨t, code, registry⟩ bus line).result = .ok (.run p) → Dispatchable code p := by
  have hok := h.tablesOk
  refine ⟨fun i => ⟨length_bodyAt (hok.len_le i), hok.len_le i, hok.groups i⟩, ?_⟩
  intro registry bus line p hrun
  rcases parse_run h hrun with ⟨v, hvalue⟩ | ⟨as, hcall⟩
  · exact dispatchable_value hvalue
  · exact dispatchable_call hcall

/-- A body spliced into another leads to a program of three groups. -/
theorem programs_dispatchable_spliced :
    ∃ c p, Reachable .arm .sample c ∧
      (c.parse sampleEnv blank (bytes "g();")).result = .ok (.run p) ∧
        p.len = 14 ∧ Dispatchable .sample p := by
  have hreach : Reachable .arm .sample ((after "fn f() { poke 0x20000100 1; }").parse sampleEnv
      blank (bytes "fn g() { f(); peek 0x20000100; f(); }")).comp :=
    .line (reachable_after _) _ _ _
  have hprog : (program? (((after "fn f() { poke 0x20000100 1; }").parse sampleEnv
      blank (bytes "fn g() { f(); peek 0x20000100; f(); }")).comp.parse sampleEnv blank
        (bytes "g();")).result).map StreamProgram.len = some 14 := by
    decide +kernel
  obtain ⟨p, hp, hlen⟩ := Option.map_eq_some_iff.mp hprog
  have hrun := program?_eq_some.mp hp
  exact ⟨_, p, hreach, hrun, hlen, (programs_dispatchable hreach).2 _ _ _ p hrun⟩

/-! ### Both execution paths -/

theorem accesses_call {as : List Access} (h : p.IsCall code as) : accesses code p.code = as := by
  rw [h.code_eq]
  refine accesses_bodyWords code ?_ as
  intro w ws hws
  exact (List.cons.inj hws).1.symm

theorem accesses_value {v : Word} (h : p.IsValue code v) : accesses code p.code = [] := by
  rw [h.code_eq]
  simp [accesses]

/-- Native code does what the interpreter does exactly if every write finds its
address in the accumulator: the address of the first write, or the word the
last read brought. -/
theorem native_agrees_iff (h : Reachable t code c)
    (hrun : (c.parse ⟨t, code, registry⟩ bus line).result = .ok (.run p)) (m : Exec.Vm)
    (regs : Emitter.Reg → Word) :
    SameRun t code p m regs ↔ AccAligned none (accesses code p.code) m.bus.mem := by
  rcases parse_run h hrun with ⟨v, hvalue⟩ | ⟨as, hcall⟩
  · rw [accesses_value hvalue]
    exact ⟨fun _ => trivial, fun _ => Native.sameRun_value t code hvalue m regs⟩
  · rw [accesses_call hcall]
    exact Native.sameRun_call_iff t code hcall m regs

end Programs

/-- Two writes to one address agree. -/
theorem native_agrees_one_register : ∃ c p, Reachable .arm .sample c ∧
    (c.parse sampleEnv blank (bytes "f();")).result = .ok (.run p) ∧
      ∀ m regs, SameRun .arm .sample p m regs := by
  have hprog : (program? ((after "fn f() { poke 0x20000100 1; poke 0x20000100 2; }").parse
      sampleEnv blank (bytes "f();")).result).map (fun p => accesses .sample p.code) =
        some [.write 0x20000100 1, .write 0x20000100 2] := by
    decide +kernel
  obtain ⟨p, hp, haccesses⟩ := Option.map_eq_some_iff.mp hprog
  have hrun := program?_eq_some.mp hp
  refine ⟨_, p, reachable_after _, hrun, fun m regs => ?_⟩
  refine (native_agrees_iff (reachable_after _) hrun m regs).mpr ?_
  rw [haccesses]
  exact ⟨rfl, trivial⟩

/-- Two writes to two addresses do not: native code puts the second value at the
first address. -/
theorem native_disagrees_two_registers : ¬ ∀ t code c, Reachable t code c →
    ∀ registry bus line p, (c.parse ⟨t, code, registry⟩ bus line).result = .ok (.run p) →
      ∀ m regs, SameRun t code p m regs := by
  intro h
  have hprog : (program? ((after "fn f() { poke 0x20000100 1; poke 0x20000104 2; }").parse
      sampleEnv blank (bytes "f();")).result).map (fun p => accesses .sample p.code) =
        some [.write 0x20000100 1, .write 0x20000104 2] := by
    decide +kernel
  obtain ⟨p, hp, haccesses⟩ := Option.map_eq_some_iff.mp hprog
  have hrun := program?_eq_some.mp hp
  have hsame := h .arm .sample _ (reachable_after _) _ _ _ p hrun (Exec.Vm.new blank) fun _ => 0
  rcases parse_run (reachable_after _) hrun with ⟨v, hvalue⟩ | ⟨as, hcall⟩
  · rw [accesses_value hvalue] at haccesses
    cases haccesses
  · rw [accesses_call hcall] at haccesses
    subst haccesses
    have halign := (Native.sameRun_call_iff .arm .sample hcall _ _).mp hsame
    exact absurd halign.1 (by decide)

end HolyRust.Sessions
