import HolyRust.Compiler.Accesses

/-!
The two ways to run a program, compared.

Native code keeps the address of a `poke` in the accumulator, but only the first
literal of a program is loaded there: from then on `acc_loaded` stays set and an
address literal goes to the scratch register, where the value overwrites it. A
later `poke` therefore stores to whatever the accumulator holds.

* `nativeBus` — what the generated code does to memory, access by access;
  `runCode_bodyInstrs` proves it of the instructions.
* `nativeBus_eq_iff` — that is the program's meaning exactly if every address is
  the one in the accumulator (`AccAligned`).
* `sameRun_call_iff`, `sameRun_value` — the two paths on whole programs.
-/

namespace HolyRust.Native

open Emitter (Instr Core Reg runCode recorder)
open ByteMemory (readWord writeWord)

section Generation

variable (t : Target) (code : CodeMap)

/-- The instructions for one group, with the accumulator in use or not. -/
def accessInstrs (loaded : Bool) : Access → List Instr
  | .write a v =>
      [.movImm (if loaded then scratch t else acc t) a, .movImm (scratch t) v,
        .storeU32 (scratch t) (acc t)]
  | .read a => [.movImm (scratch t) a, .loadU32 (acc t) (scratch t)]

/-- The instructions for a list of groups: after the first, the accumulator is
always in use. -/
def bodyInstrs : Bool → List Access → List Instr
  | _, [] => []
  | loaded, a :: as => accessInstrs t loaded a ++ bodyInstrs true as

section Groups

variable (v : Word) (rest : List Word) (loaded : Bool) (out : List Instr)

/-- A literal in front of `load` or `write` goes to the scratch register. -/
theorem genLoop_lit_addr {p : MicroPrimitive} (hp : p = .loadReg ∨ p = .writeReg) :
    genLoop recorder t code (code.wordOf .lit :: v :: code.wordOf p :: rest) loaded out =
      genLoop recorder t code (code.wordOf p :: rest) loaded (out ++ [.movImm (scratch t) v]) := by
  conv_lhs => unfold genLoop
  rcases hp with rfl | rfl <;> simp [code.ne_zero, emitted, Except.toOption]

/-- Any other literal goes to the accumulator the first time. -/
theorem genLoop_lit_lit (a : Word) :
    genLoop recorder t code (code.wordOf .lit :: a :: code.wordOf .lit :: rest) loaded out =
      genLoop recorder t code (code.wordOf .lit :: rest) true
        (out ++ [.movImm (if loaded then scratch t else acc t) a]) := by
  conv_lhs => unfold genLoop
  cases loaded <;> simp [code.ne_zero, emitted, Except.toOption]

theorem genLoop_write :
    genLoop recorder t code (code.wordOf .writeReg :: rest) loaded out =
      genLoop recorder t code rest loaded (out ++ [.storeU32 (scratch t) (acc t)]) := by
  conv_lhs => unfold genLoop
  simp [code.ne_zero, emitted, Except.toOption]

theorem genLoop_load :
    genLoop recorder t code (code.wordOf .loadReg :: rest) loaded out =
      genLoop recorder t code rest true (out ++ [.loadU32 (acc t) (scratch t)]) := by
  conv_lhs => unfold genLoop
  simp [code.ne_zero, emitted, Except.toOption]

theorem genLoop_access (a : Access) :
    genLoop recorder t code (a.words code ++ rest) loaded out =
      genLoop recorder t code rest true (out ++ accessInstrs t loaded a) := by
  cases a with
  | write a v =>
      simp only [Access.words, List.cons_append, List.nil_append]
      rw [genLoop_lit_lit, genLoop_lit_addr _ _ _ _ _ _ (.inr rfl), genLoop_write]
      simp [accessInstrs]
  | read a =>
      simp only [Access.words, List.cons_append, List.nil_append]
      rw [genLoop_lit_addr _ _ _ _ _ _ (.inl rfl), genLoop_load]
      simp [accessInstrs]

end Groups

theorem genLoop_bodyWords : ∀ (as : List Access) (loaded : Bool) (out : List Instr),
    genLoop recorder t code (bodyWords code as ++ [code.wordOf .halt]) loaded out =
      some (out ++ bodyInstrs t loaded as) := by
  intro as
  induction as with
  | nil =>
      intro loaded out
      simp [genLoop, code.ne_zero, bodyInstrs]
  | cons a as ih =>
      intro loaded out
      rw [bodyWords_cons, List.append_assoc, genLoop_access, ih, bodyInstrs, List.append_assoc]

theorem isCompilableFrom_lit (v : Word) (rest : List Word) (seen : Bool) :
    isCompilableFrom code (code.wordOf .lit :: v :: rest) seen =
      isCompilableFrom code rest true := by
  conv_lhs => unfold isCompilableFrom
  simp [code.ne_zero]

theorem isCompilableFrom_access {p : MicroPrimitive} (hp : p = .loadReg ∨ p = .writeReg)
    (rest : List Word) (seen : Bool) :
    isCompilableFrom code (code.wordOf p :: rest) seen = isCompilableFrom code rest true := by
  conv_lhs => unfold isCompilableFrom
  rcases hp with rfl | rfl <;> simp [code.ne_zero]

theorem isCompilableFrom_bodyWords : ∀ (as : List Access) (seen : Bool),
    isCompilableFrom code (bodyWords code as ++ [code.wordOf .halt]) seen = true := by
  intro as
  induction as with
  | nil => intro seen; simp [isCompilableFrom]
  | cons a as ih =>
      intro seen
      cases a with
      | write a v =>
          simp only [bodyWords_cons, Access.words, List.cons_append, List.nil_append]
          rw [isCompilableFrom_lit, isCompilableFrom_lit, isCompilableFrom_access _ (.inr rfl), ih]
      | read a =>
          simp only [bodyWords_cons, Access.words, List.cons_append, List.nil_append]
          rw [isCompilableFrom_lit, isCompilableFrom_access _ (.inl rfl), ih]

theorem instructions_call {p : StreamProgram} {as : List Access} (h : p.IsCall code as) :
    instructions t code p = some (bodyInstrs t false as ++ [.ret]) := by
  unfold instructions generate isCompilable
  rw [show p.words.toList.take p.len = _ from h.code_eq, isCompilableFrom_bodyWords,
    if_pos rfl, genLoop_bodyWords]
  rfl

theorem instructions_value {p : StreamProgram} {v : Word} (h : p.IsValue code v) :
    instructions t code p = some [.movImm (acc t) v, .ret] := by
  unfold instructions generate isCompilable
  rw [show p.words.toList.take p.len = _ from h.code_eq]
  simp [isCompilableFrom, genLoop, code.ne_zero, recorder, emitted, Except.toOption]

end Generation

/-! ### What the generated code does -/

/-- The accesses as native code performs them: `acc` is the accumulator's
content once something has been loaded there. -/
def nativeBus : Option Word → List Access → Bus → Bus
  | _, [], b => b
  | none, .write a v :: as, b => nativeBus (some a) as (b.pokeU32 a v)
  | some c, .write _ v :: as, b => nativeBus (some c) as (b.pokeU32 c v)
  | _, .read a :: as, b => nativeBus (some (b.peekU32 a).1) as (b.peekU32 a).2

/-- What native code performs does not depend on the history. -/
theorem nativeBus_history (held : Option Word) (as : List Access) (b : Bus) :
    nativeBus held as b = ⟨(nativeBus held as ⟨b.mem, []⟩).mem,
      b.trace ++ (nativeBus held as ⟨b.mem, []⟩).trace⟩ := by
  have h : ∀ (as : List Access) (held : Option Word) (mem : Memory) (tr es : List MemEvent),
      nativeBus held as ⟨mem, tr ++ es⟩ = ⟨(nativeBus held as ⟨mem, es⟩).mem,
        tr ++ (nativeBus held as ⟨mem, es⟩).trace⟩ := by
    intro as
    induction as with
    | nil => exact fun _ _ _ _ => by simp [nativeBus]
    | cons a as ih =>
        intro held mem tr es
        cases a with
        | write addr value =>
            cases held with
            | none =>
                simpa [nativeBus, Bus.pokeU32] using
                  ih (some addr) (writeWord mem addr value) tr (es ++ [.write addr value])
            | some c =>
                simpa [nativeBus, Bus.pokeU32] using
                  ih (some c) (writeWord mem c value) tr (es ++ [.write c value])
        | read addr =>
            cases held <;>
              simpa [nativeBus, Bus.peekU32] using
                ih (some (readWord mem addr)) mem tr (es ++ [.read addr (readWord mem addr)])
  simpa using h as held b.mem b.trace []

theorem runCode_bodyInstrs (t : Target) : ∀ (as : List Access) (held : Option Word) (c : Core),
    (∀ w, held = some w → c.regs (acc t) = w) →
      (runCode (bodyInstrs t held.isSome as ++ [.ret]) c).bus = nativeBus held as c.bus := by
  have hne := acc_ne_scratch t
  intro as
  induction as with
  | nil => intro held c _; rfl
  | cons a as ih =>
      intro held c hheld
      cases a with
      | write a v =>
          cases held with
          | none =>
              have key := ih (some a) (((c.setReg (acc t) a).setReg (scratch t) v).withBus
                (c.bus.pokeU32 a v)) (by simp [hne])
              simpa [bodyInstrs, accessInstrs, runCode, Instr.exec, nativeBus, hne] using key
          | some w =>
              have hw := hheld w rfl
              have key := ih (some w) (((c.setReg (scratch t) a).setReg (scratch t) v).withBus
                (c.bus.pokeU32 w v)) (by simp [hne, hw])
              simpa [bodyInstrs, accessInstrs, runCode, Instr.exec, nativeBus, hne, hw] using key
      | read a =>
          have key := ih (some (c.bus.peekU32 a).1)
            (((c.setReg (scratch t) a).withBus (c.bus.peekU32 a).2).setReg (acc t)
              (c.bus.peekU32 a).1) (by simp)
          cases held <;>
            simpa [bodyInstrs, accessInstrs, runCode, Instr.exec, nativeBus] using key

/-! ### When that is the meaning -/

/-- Every write goes to the address the accumulator holds when it is reached:
the one loaded by the first `poke`, or the value the last `peek` brought. -/
def AccAligned : Option Word → List Access → Memory → Prop
  | _, [], _ => True
  | none, .write a v :: as, mem => AccAligned (some a) as (writeWord mem a v)
  | some c, .write a v :: as, mem => c = a ∧ AccAligned (some c) as (writeWord mem a v)
  | _, .read a :: as, mem => AccAligned (some (readWord mem a)) as mem

instance decidableAccAligned : ∀ (held : Option Word) (as : List Access) (mem : Memory),
    Decidable (AccAligned held as mem)
  | _, [], _ => .isTrue trivial
  | none, .write a v :: as, mem => decidableAccAligned (some a) as (writeWord mem a v)
  | some c, .write a v :: as, mem =>
      have := decidableAccAligned (some c) as (writeWord mem a v)
      inferInstanceAs (Decidable (c = a ∧ AccAligned (some c) as (writeWord mem a v)))
  | none, .read a :: as, mem => decidableAccAligned (some (readWord mem a)) as mem
  | some _, .read a :: as, mem => decidableAccAligned (some (readWord mem a)) as mem

theorem accAligned_read {held : Option Word} {a : Word} {as : List Access} {mem : Memory} :
    AccAligned held (.read a :: as) mem ↔ AccAligned (some (readWord mem a)) as mem := by
  cases held <;> rfl

theorem prefix_trace_performAll : ∀ (as : List Access) (b : Bus),
    b.trace <+: (performAll as b).trace := by
  intro as
  induction as with
  | nil => exact fun b => List.prefix_rfl
  | cons a as ih =>
      intro b
      refine List.IsPrefix.trans ?_ (ih (a.perform b))
      cases a <;> exact List.prefix_append _ _

theorem prefix_trace_nativeBus : ∀ (as : List Access) (held : Option Word) (b : Bus),
    b.trace <+: (nativeBus held as b).trace := by
  intro as
  induction as with
  | nil => exact fun held b => List.prefix_rfl
  | cons a as ih =>
      intro held b
      have one : ∀ (held : Option Word) (e : MemEvent) (mem : Memory),
          b.trace <+: (nativeBus held as ⟨mem, b.trace ++ [e]⟩).trace :=
        fun held e mem => (List.prefix_append b.trace [e]).trans (ih held ⟨mem, b.trace ++ [e]⟩)
      cases a with
      | write a v => cases held <;> exact one _ _ _
      | read a => cases held <;> exact one _ _ _

/-- A write to one address and a write to another cannot start the same trace. -/
theorem write_addr_inj {b : Bus} {c a v : Word} {b₁ b₂ : Bus}
    (h₁ : (b.pokeU32 c v).trace <+: b₁.trace) (h₂ : (b.pokeU32 a v).trace <+: b₂.trace)
    (h : b₁.trace = b₂.trace) : c = a := by
  rw [h] at h₁
  have hsame := (List.prefix_of_prefix_length_le h₁ h₂ (by simp)).eq_of_length (by simp)
  simpa using hsame

/-- Native code means what the accesses say exactly if they are aligned. -/
theorem nativeBus_eq_iff : ∀ (as : List Access) (held : Option Word) (b : Bus),
    nativeBus held as b = performAll as b ↔ AccAligned held as b.mem := by
  intro as
  induction as with
  | nil => intro held b; exact ⟨fun _ => trivial, fun _ => rfl⟩
  | cons a as ih =>
      intro held b
      cases a with
      | read a =>
          rw [accAligned_read]
          cases held <;> exact ih (some (b.peekU32 a).1) (b.peekU32 a).2
      | write a v =>
          cases held with
          | none => exact ih (some a) (b.pokeU32 a v)
          | some c =>
              constructor
              · intro h
                have hca : c = a := write_addr_inj (prefix_trace_nativeBus as _ (b.pokeU32 c v))
                  (prefix_trace_performAll as (b.pokeU32 a v)) (congrArg Bus.trace h)
                subst hca
                exact ⟨rfl, (ih (some c) (b.pokeU32 c v)).mp h⟩
              · rintro ⟨rfl, hrest⟩
                exact (ih (some c) (b.pokeU32 c v)).mpr hrest

/-! ### Whole programs -/

section Programs

variable (t : Target) (code : CodeMap)

/-- Both paths run the program to its end, perform the same accesses and leave
the same memory and value. -/
def SameRun (p : StreamProgram) (m : Exec.Vm) (regs : Reg → Word) : Prop :=
  ∃ value m' c, p.runThreaded code m = (.halted, value, m') ∧
    compileAndRun t code p ⟨regs, m.bus⟩ = some (value, c) ∧ c.bus = m'.bus

variable {p : StreamProgram}

theorem compileAndRun_call {as : List Access} (h : p.IsCall code as) (c : Core) :
    ∃ c', compileAndRun t code p c = some (none, c') ∧ c'.bus = nativeBus none as c.bus := by
  unfold compileAndRun
  rw [instructions_call t code h]
  refine ⟨_, by simp [h.yields]; rfl, ?_⟩
  exact runCode_bodyInstrs t as none c (by simp)

theorem compileAndRun_value {v : Word} (h : p.IsValue code v) (c : Core) :
    ∃ c', compileAndRun t code p c = some (some v, c') ∧ c'.bus = c.bus := by
  refine ⟨c.setReg (acc t) v, ?_, rfl⟩
  unfold compileAndRun
  rw [instructions_value t code h]
  simp [h.yields, runCode, Instr.exec]

theorem sameRun_call_iff {as : List Access} (h : p.IsCall code as) (m : Exec.Vm)
    (regs : Reg → Word) : SameRun t code p m regs ↔ AccAligned none as m.bus.mem := by
  obtain ⟨m', hrun, hran⟩ := runThreaded_call code h m
  obtain ⟨c', hcomp, hbus⟩ := compileAndRun_call t code h ⟨regs, m.bus⟩
  have hm' : m'.bus = performAll as m.bus := hran.bus
  rw [← nativeBus_eq_iff]
  constructor
  · rintro ⟨value, m₁, c₁, hrun₁, hcomp₁, heq⟩
    cases hrun.symm.trans hrun₁
    cases hcomp.symm.trans hcomp₁
    rw [← hbus, heq, hm']
  · intro heq
    exact ⟨none, m', c', hrun, hcomp, by rw [hbus, hm', heq]⟩

theorem sameRun_value {v : Word} (h : p.IsValue code v) (m : Exec.Vm) (regs : Reg → Word) :
    SameRun t code p m regs := by
  obtain ⟨m', hrun, hran⟩ := runThreaded_value code h m
  have hm' : m'.bus = m.bus := hran.bus
  obtain ⟨c', hcomp, hbus⟩ := compileAndRun_value t code h ⟨regs, m.bus⟩
  exact ⟨some v, m', c', hrun, hcomp, by rw [hbus, hm']⟩

end Programs

end HolyRust.Native
