import HolyRust.Compiler.NativeCode
import HolyRust.Compiler.Sessions

/-!
A session on a real processor: a line parsed, its program compiled, and the bytes in
EXEC_BUFFER fetched, decoded and executed.

* `Executes` — a processor that runs what was stored in the buffer. What the code loads
  and stores goes to the data bus, which the buffer is apart from.
* `MachineAligned` — the accesses for which native code is right: on both targets each
  write finds its address in the accumulator, and on RISC-V each literal that counts
  is short.
* `machine_agrees_iff` — `StreamProgram::run` on such a processor gives what the
  interpreter gives exactly for these.
-/

namespace HolyRust.Native

open Emitter
open Coherence (Event contents)
open ByteMemory (readWord writeWord)

variable {t : Target} {code : CodeMap}

/-! ### The accesses of the machine code -/

/-- An access with its literals as they arrive. -/
def arriving (t : Target) : Access → Access
  | .write a v => .write (arrives t a) (arrives t v)
  | .read a => .read (arrives t a)

theorem effects_cons {i : Instr} {is : List Instr} (s : CpuState t) :
    effects (i :: is) s = (effect s i).bind (effects is) := by
  rw [effects, List.foldlM_cons]
  rfl

theorem effects_ret (is : List Instr) (s : CpuState t) :
    effects (is ++ [.ret]) s = effects is s := by
  rw [effects, List.foldlM_append]
  exact Option.bind_fun_some _

theorem named_acc (t : Target) : Named t (acc t) := named_pair (.inl rfl)

theorem named_scratch (t : Target) : Named t (scratch t) := named_pair (.inr rfl)

@[simp] theorem reg_acc_set (s : CpuState t) (v : Word) : (s.set (acc t) v).reg (acc t) = v :=
  s.reg_set_self (named_acc t) v

@[simp] theorem reg_scratch_set (s : CpuState t) (v : Word) :
    (s.set (scratch t) v).reg (scratch t) = v :=
  s.reg_set_self (named_scratch t) v

@[simp] theorem reg_acc_set_scratch (s : CpuState t) (v : Word) :
    (s.set (scratch t) v).reg (acc t) = s.reg (acc t) :=
  s.reg_set_of_ne (named_scratch t) (named_acc t).isReg (acc_ne_scratch t) v

/-- The effect of the calls for a list of groups on the bus: that of native code, with
the literals as they arrive. -/
theorem effects_bodyInstrs (as : List Access) : ∀ (held : Option Word) (s : CpuState t),
    (∀ w, held = some w → s.reg (acc t) = w) →
      ∃ s', effects (bodyInstrs t held.isSome as) s = some s' ∧
        s'.bus = nativeBus held (as.map (arriving t)) s.bus := by
  induction as with
  | nil => exact fun held s _ => ⟨s, rfl, by cases held <;> rfl⟩
  | cons a as ih =>
      intro held s hheld
      cases a with
      | write a v =>
          cases held with
          | none =>
              obtain ⟨s', heffects, hbus⟩ := ih (some (arrives t a))
                (((s.set (acc t) (arrives t a)).set (scratch t) (arrives t v)).withBus
                  (s.bus.pokeU32 (arrives t a) (arrives t v))) (by simp)
              refine ⟨s', ?_, by simpa [nativeBus, arriving] using hbus⟩
              simpa [bodyInstrs, accessInstrs, effects_cons, effect] using heffects
          | some w =>
              have hw := hheld w rfl
              obtain ⟨s', heffects, hbus⟩ := ih (some w)
                (((s.set (scratch t) (arrives t a)).set (scratch t) (arrives t v)).withBus
                  (s.bus.pokeU32 w (arrives t v))) (by simp [hw])
              refine ⟨s', ?_, by simpa [nativeBus, arriving] using hbus⟩
              simpa [bodyInstrs, accessInstrs, effects_cons, effect, hw] using heffects
      | read a =>
          obtain ⟨s', heffects, hbus⟩ := ih (some (s.bus.peekU32 (arrives t a)).1)
            (((s.set (scratch t) (arrives t a)).withBus (s.bus.peekU32 (arrives t a)).2).set
              (acc t) (s.bus.peekU32 (arrives t a)).1) (by simp)
          refine ⟨s', ?_, ?_⟩
          · cases held <;>
              simpa [bodyInstrs, accessInstrs, effects_cons, effect] using heffects
          · cases held <;> simpa [nativeBus, arriving] using hbus

/-! ### When that is the meaning -/

/-- Each write finds its address in the accumulator, and each literal that goes to the
bus arrives. The address of a later write is loaded and lost. -/
def MachineAligned (t : Target) : Option Word → List Access → Memory → Prop
  | _, [], _ => True
  | none, .write a v :: as, mem =>
      Loads t a ∧ Loads t v ∧ MachineAligned t (some a) as (writeWord mem a v)
  | some c, .write a v :: as, mem =>
      c = a ∧ Loads t v ∧ MachineAligned t (some c) as (writeWord mem a v)
  | _, .read a :: as, mem => Loads t a ∧ MachineAligned t (some (readWord mem a)) as mem

theorem machineAligned_read {held : Option Word} {a : Word} {as : List Access} {mem : Memory} :
    MachineAligned t held (.read a :: as) mem ↔
      Loads t a ∧ MachineAligned t (some (readWord mem a)) as mem := by
  cases held <;> rfl

/-- On Thumb-2 every literal arrives. -/
theorem machineAligned_arm (as : List Access) : ∀ (held : Option Word) (mem : Memory),
    MachineAligned .arm held as mem ↔ AccAligned held as mem := by
  have harm : ∀ w, Loads .arm w := fun w h => by cases h
  induction as with
  | nil => exact fun held mem => Iff.rfl
  | cons a as ih =>
      intro held mem
      cases a with
      | read a => rw [machineAligned_read, accAligned_read, ih, and_iff_right (harm a)]
      | write a v =>
          cases held with
          | none =>
              rw [MachineAligned, AccAligned, ih, and_iff_right (harm a), and_iff_right (harm v)]
          | some c => rw [MachineAligned, AccAligned, ih, and_iff_right (harm v)]

/-- Two traces that are the same have the same event first. -/
theorem event_inj {tr tr₁ tr₂ : List MemEvent} {e₁ e₂ : MemEvent} (h₁ : tr ++ [e₁] <+: tr₁)
    (h₂ : tr ++ [e₂] <+: tr₂) (h : tr₁ = tr₂) : e₁ = e₂ := by
  subst h
  have hsame := (List.prefix_of_prefix_length_le h₁ h₂ (by simp)).eq_of_length (by simp)
  simpa using hsame

/-- One access of each, then the rest. -/
theorem bus_eq_iff {b b₁ b₂ x y : Bus} {e₁ e₂ : MemEvent} {p : Prop}
    (h₁ : b₁.trace = b.trace ++ [e₁]) (h₂ : b₂.trace = b.trace ++ [e₂])
    (hx : b₁.trace <+: x.trace) (hy : b₂.trace <+: y.trace) (hrest : e₁ = e₂ → (x = y ↔ p)) :
    x = y ↔ e₁ = e₂ ∧ p := by
  constructor
  · intro h
    have he := event_inj (h₁ ▸ hx) (h₂ ▸ hy) (congrArg Bus.trace h)
    exact ⟨he, (hrest he).mp h⟩
  · rintro ⟨he, hp⟩
    exact (hrest he).mpr hp

/-- The machine code means what the accesses say exactly if they are aligned and their
literals arrive. -/
theorem machineBus_eq_iff (as : List Access) : ∀ (held : Option Word) (b : Bus),
    nativeBus held (as.map (arriving t)) b = performAll as b ↔
      MachineAligned t held as b.mem := by
  induction as with
  | nil => exact fun held b => ⟨fun _ => trivial, fun _ => by cases held <;> rfl⟩
  | cons a as ih =>
      intro held b
      have hright := prefix_trace_performAll as (a.perform b)
      cases a with
      | read a =>
          rw [machineAligned_read, ← arrives_eq_iff]
          have hleft := prefix_trace_nativeBus (as.map (arriving t))
            (some (b.peekU32 (arrives t a)).1) (b.peekU32 (arrives t a)).2
          have hstep : nativeBus held ((Access.read a :: as).map (arriving t)) b =
              nativeBus (some (b.peekU32 (arrives t a)).1) (as.map (arriving t))
                (b.peekU32 (arrives t a)).2 := by cases held <;> rfl
          rw [hstep]
          refine (bus_eq_iff rfl rfl hleft hright fun he => ?_).trans (and_congr_left fun _ => ?_)
          · rw [(MemEvent.read.inj he).1]
            exact ih _ _
          · exact ⟨fun he => (MemEvent.read.inj he).1, fun ha => by rw [ha]⟩
      | write a v =>
          cases held with
          | none =>
              rw [MachineAligned, ← arrives_eq_iff, ← arrives_eq_iff, ← and_assoc]
              have hleft := prefix_trace_nativeBus (as.map (arriving t)) (some (arrives t a))
                (b.pokeU32 (arrives t a) (arrives t v))
              refine (bus_eq_iff rfl rfl hleft hright fun he => ?_).trans
                (and_congr_left fun _ => ?_)
              · obtain ⟨ha, hv⟩ := MemEvent.write.inj he
                show nativeBus (some (arrives t a)) _
                  (b.pokeU32 (arrives t a) (arrives t v)) = _ ↔ _
                rw [ha, hv]
                exact ih _ _
              · exact ⟨MemEvent.write.inj, fun h => by rw [h.1, h.2]⟩
          | some c =>
              rw [MachineAligned, ← arrives_eq_iff, ← and_assoc]
              have hleft := prefix_trace_nativeBus (as.map (arriving t)) (some c)
                (b.pokeU32 c (arrives t v))
              refine (bus_eq_iff rfl rfl hleft hright fun he => ?_).trans
                (and_congr_left fun _ => ?_)
              · obtain ⟨rfl, hv⟩ := MemEvent.write.inj he
                show nativeBus (some c) _ (b.pokeU32 c (arrives t v)) = _ ↔ _
                rw [hv]
                exact ih _ _
              · exact ⟨MemEvent.write.inj, fun h => by rw [h.1, h.2]⟩

/-! ### Processors -/

/-- The processor when `jump_to_sram` calls: the link register holds the address to
come back to, with the Thumb bit on ARM. -/
def callState (t : Target) (c : Core) (back : Word) : CpuState t :=
  .mk (match t with
    | .arm => fun r => if r = 14#4 then back ||| 1 else c.regs (r.setWidth 8)
    | .riscv32 => fun r => if r = 1#5 then back else c.regs (r.setWidth 8)) c.bus

theorem linked_callState (t : Target) (c : Core) {back : Word} (h : back.getLsbD 0 = false) :
    Linked (callState t c back) back := by
  have hclear : back &&& ~~~1#32 = back ∧ (back ||| 1#32) &&& ~~~1#32 = back := by
    constructor <;>
    · refine BitVec.eq_of_getLsbD_eq fun i hi => ?_
      simp only [BitVec.getLsbD_and, BitVec.getLsbD_or, BitVec.getLsbD_not, BitVec.getLsbD_one, hi]
      by_cases hzero : i = 0
      · rw [hzero, h]
        rfl
      · simp [hzero]
  cases t with
  | arm => exact ⟨hclear.2, fun _ => by simp [callState, CpuState.reg, readReg, CpuState.regs,
      CpuState.mk, linkReg, wide]⟩
  | riscv32 => exact ⟨hclear.1, fun h => by cases h⟩

/-- A processor that fetches what was stored in EXEC_BUFFER, whose caches are coherent
with it, and runs it: where the code comes back to its caller, the data bus and the
registers are as it leaves them. A load from the buffer's own addresses is answered by the
data bus, where the stores of the generator do not show. -/
def Executes (cpu : Cpu) (t : Target) (image : Nat → Byte) (back : Word) : Prop :=
  ∀ es c (s' : CpuState t),
    callCode t (fun _ => contents Store.put image es) stepLimit 0 (callState t c back) =
      some (back, s') → Agrees s' (cpu es c)

/-- A program whose code was generated runs as the processor runs it. -/
theorem run_generated (cpu : Cpu) {p : StreamProgram} {e : CodeBuffer t} (hlen : 0 < p.len)
    (hgen : generateInto t code p.code (CodeBuffer.intoExecBuffer t) = .ok ⟨⟩ e) (m : Machine) :
    let core := cpu (m.events ++ e.stores.map .write) m.core
    (run cpu t code p m).value = (if p.yieldsValue then some (core.regs (acc t)) else none) ∧
      (run cpu t code p m).machine.vm.bus = core.bus := by
  have hwrite : Machine.writeCode t code p { m with vm := m.vm.reset } =
      .ok ⟨⟩ (Machine.logStores { m with vm := m.vm.reset } e.stores) := by
    rw [Machine.writeCode, hgen]
  have hrun : run cpu t code p m = _ := if_pos hlen
  rw [hrun, Machine.compileAndRun, Fallible.bind_ok hwrite]
  cases p.yieldsValue <;> exact ⟨rfl, rfl⟩

/-! ### Programs of a session -/

/-- The literal of a program that yields a value. -/
def valueLiteral (p : StreamProgram) : Word := p.code.getD 1 0

/-- What native code gets right: the accesses, and the value if there is one. -/
def MachineRight (t : Target) (code : CodeMap) (p : StreamProgram) (mem : Memory) : Prop :=
  MachineAligned t none (accesses code p.code) mem ∧
    (p.yieldsValue = true → Loads t (valueLiteral p))

/-- The run of a program whose calls do not fault. -/
theorem run_executed {cpu : Cpu} {image : Nat → Byte} {back : Word}
    (hback : back.getLsbD 0 = false) (hcpu : Executes cpu t image back) {p : StreamProgram}
    (hlen : 0 < p.len) {is : List Instr} (hinstrs : instructions t code p = some (is ++ [.ret]))
    (m : Machine) {s' : CpuState t}
    (heffects : effects is (callState t m.core back) = some s') :
    (run cpu t code p m).value = (if p.yieldsValue then some (s'.reg (acc t)) else none) ∧
      (run cpu t code p m).machine.vm.bus = s'.bus := by
  have hgenerates : Generates code p := by
    rw [← instructions_isSome_iff (t := t), hinstrs]
    rfl
  obtain ⟨js, e, hrecord, hgen, hemit, ⟨hgenerated, -⟩, hcount⟩ :=
    generateInto_calls (t := t) p.length_code_le hgenerates.1 hgenerates.2
  obtain rfl := List.append_cancel_right (Option.some.inj (hrecord.symm.trans hinstrs))
  have hlinked := linked_callState t m.core hback
  have hfetch : Coherent image m.events e
      (fun _ => contents Store.put image (m.events ++ e.stores.map .write)) := fun _ _ => rfl
  have hcall := callCode_generated hemit hgenerated (hcount.trans p.length_code_le) hfetch
    hlinked le_rfl
  rw [heffects] at hcall
  have hagrees := hcpu _ m.core s' hcall
  obtain ⟨hvalue, hbus⟩ := run_generated cpu hlen hgen m
  rw [hvalue, hbus, ← hagrees.bus, hagrees.regs (acc t) (named_acc t)]
  exact ⟨rfl, rfl⟩

end HolyRust.Native

namespace HolyRust.Sessions

open Native
open Emitter (CpuState Loads arrives_eq_iff)

variable {t : Target} {code : CodeMap} {c : Compiler} {registry : Registry} {bus : Bus}
  {line : List Byte} {p : StreamProgram}

theorem machine_value_iff {v : Word} (h : p.IsValue code v) {cpu : Cpu} {image : Nat → Byte}
    {back : Word} (hback : back.getLsbD 0 = false) (hcpu : Executes cpu t image back)
    (m : Machine) :
    ((run cpu t code p m).value = (p.runThreaded code m.vm).2.1 ∧
      (run cpu t code p m).machine.vm.bus = (p.runThreaded code m.vm).2.2.bus) ↔ Loads t v := by
  obtain ⟨m', hthreaded, hran⟩ := runThreaded_value code h m.vm
  have hlen : 0 < p.len := by rw [h.len_eq]; decide
  have hinstrs : instructions t code p = some ([.movImm (acc t) v] ++ [.ret]) :=
    instructions_value t code h
  obtain ⟨hvalue, hbus⟩ := run_executed hback hcpu hlen hinstrs m rfl
  have hbus' : m'.bus = m.vm.bus := hran.bus
  rw [hvalue, hbus, hthreaded, h.yields, hbus', if_pos rfl, reg_acc_set, Option.some_inj,
    arrives_eq_iff]
  exact and_iff_left (CpuState.bus_set _ _ _ |>.trans (CpuState.bus_mk _ _))

theorem machine_call_iff {as : List Access} (h : p.IsCall code as) {cpu : Cpu}
    {image : Nat → Byte} {back : Word} (hback : back.getLsbD 0 = false)
    (hcpu : Executes cpu t image back) (m : Machine) :
    ((run cpu t code p m).value = (p.runThreaded code m.vm).2.1 ∧
      (run cpu t code p m).machine.vm.bus = (p.runThreaded code m.vm).2.2.bus) ↔
        MachineAligned t none as m.vm.bus.mem := by
  obtain ⟨m', hthreaded, hran⟩ := runThreaded_call code h m.vm
  have hlen : 0 < p.len := by rw [h.len_eq]; exact Nat.succ_pos _
  obtain ⟨s', heffects, hnative⟩ := effects_bodyInstrs as none (callState t m.core back) (by simp)
  obtain ⟨hvalue, hbus⟩ := run_executed hback hcpu hlen (instructions_call t code h) m heffects
  have hbus' : m'.bus = performAll as m.vm.bus := hran.bus
  have hstart : (callState t m.core back).bus = m.vm.bus := CpuState.bus_mk _ _
  rw [hvalue, hbus, hthreaded, h.yields, hbus', hnative, hstart, machineBus_eq_iff]
  exact and_iff_right rfl

/-- For every program that any session hands out, in any state of the machine, on a
processor of either target that executes what was stored in EXEC_BUFFER, the buffer being
apart from the data bus: `run` gives the value and the memory traffic of the interpreter
exactly if each write finds its address in the accumulator and, on RISC-V, each literal
that is used is short. -/
theorem machine_agrees_iff (h : Reachable t code c)
    (hrun : (c.parse ⟨t, code, registry⟩ bus line).result = .ok (.run p)) {cpu : Cpu}
    {image : Nat → Byte} {back : Word} (hback : back.getLsbD 0 = false)
    (hcpu : Executes cpu t image back) (m : Machine) :
    ((run cpu t code p m).value = (p.runThreaded code m.vm).2.1 ∧
      (run cpu t code p m).machine.vm.bus = (p.runThreaded code m.vm).2.2.bus) ↔
        MachineRight t code p m.vm.bus.mem := by
  unfold MachineRight
  rcases parse_run h hrun with ⟨v, hvalue⟩ | ⟨as, hcall⟩
  · rw [machine_value_iff hvalue hback hcpu m, accesses_value hvalue, hvalue.yields,
      valueLiteral, hvalue.code_eq]
    simp [MachineAligned]
  · rw [machine_call_iff hcall hback hcpu m, accesses_call hcall, hcall.yields]
    simp

/-- The processor that does just that; where the code faults it stays where it is. -/
def sampleCpu (t : Target) (back : Word) : Cpu := fun es c =>
  match Emitter.callCode t (fun _ => Coherence.contents Emitter.Store.put (fun _ => 0) es) stepLimit
      0 (callState t c back) with
  | some (_, s') => ⟨s'.reg, s'.bus⟩
  | none => c

theorem executes_sampleCpu (t : Target) (back : Word) :
    Executes (sampleCpu t back) t (fun _ => 0) back := by
  intro es c s' hcall
  unfold sampleCpu
  rw [hcall]
  exact ⟨rfl, fun _ _ => rfl⟩

/-- On ARM two writes to one register are right; on RISC-V the long literals of the same
line are not. -/
theorem machine_agrees_two_targets :
    ∃ c p, Reachable .arm .sample c ∧
      (c.parse sampleEnv blank (bytes "f();")).result = .ok (.run p) ∧ ∀ m : Machine,
        (run (sampleCpu .arm 0x08000100) .arm .sample p m).machine.vm.bus =
          (p.runThreaded .sample m.vm).2.2.bus ∧
        ¬ MachineRight .riscv32 .sample p m.vm.bus.mem := by
  have hprog : (program? ((after "fn f() { poke 0x20000100 1; poke 0x20000100 2; }").parse
      sampleEnv blank (bytes "f();")).result).map (fun p => accesses .sample p.code) =
        some [.write 0x20000100 1, .write 0x20000100 2] := by
    decide +kernel
  obtain ⟨p, hp, haccesses⟩ := Option.map_eq_some_iff.mp hprog
  have hrun := program?_eq_some.mp hp
  refine ⟨_, p, reachable_after _, hrun, fun m => ⟨?_, fun hright => ?_⟩⟩
  · have hright : MachineRight .arm .sample p m.vm.bus.mem := by
      refine ⟨?_, fun _ h => by cases h⟩
      rw [haccesses, machineAligned_arm]
      exact ⟨rfl, trivial⟩
    exact ((machine_agrees_iff (reachable_after _) hrun (by decide)
      (executes_sampleCpu .arm 0x08000100) m).mpr hright).2
  · rw [MachineRight, haccesses] at hright
    exact absurd (hright.1.1 rfl) (by decide)

end HolyRust.Sessions
