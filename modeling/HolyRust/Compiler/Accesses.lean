import HolyRust.Compiler.Native

/-!
Compiled code as the memory accesses it stands for.

The front end emits words in groups, one group for each access: `lit a, lit v,
write` and `lit a, load`. `bodyWords` spells a list of accesses as its groups,
`accesses` reads the groups back, and `performAll` is what they do to memory.

* `run_bodyWords` — dispatching the groups performs the accesses, in order and
  nothing else, fetches only their slots, calls only their primitives, and never
  finds the stack empty on a pop or full on a push.
* `runThreaded_call`, `runThreaded_value` — the same for a whole program.
-/

namespace HolyRust

open Exec (Step Vm runThreadedStream vmStackSize)

/-- One memory operation of a program. -/
inductive Access where
  | write (addr value : Word)
  | read (addr : Word)
deriving DecidableEq, Repr

namespace Access

def addr : Access → Word
  | .write a _ => a
  | .read a => a

def perform : Access → Bus → Bus
  | .write a v, b => b.pokeU32 a v
  | .read a, b => (b.peekU32 a).2

/-- The group of words that performs the access. -/
def words (code : CodeMap) : Access → List Word
  | .write a v =>
      [code.wordOf .lit, a, code.wordOf .lit, v, code.wordOf .writeReg]
  | .read a => [code.wordOf .lit, a, code.wordOf .loadReg]

/-- The slots of the group that hold a primitive, if it starts at `ip`. -/
def slots (ip : Nat) : Access → List (Nat × MicroPrimitive)
  | .write _ _ => [(ip, .lit), (ip + 2, .lit), (ip + 4, .writeReg)]
  | .read _ => [(ip, .lit), (ip + 2, .loadReg)]

theorem words_length_pos (code : CodeMap) (a : Access) : 3 ≤ (a.words code).length := by
  cases a <;> simp [words]

end Access

/-- The accesses, first to last. -/
def performAll (as : List Access) (b : Bus) : Bus := as.foldl (fun b a => a.perform b) b

@[simp] theorem performAll_nil (b : Bus) : performAll [] b = b := rfl

@[simp] theorem performAll_cons (a : Access) (as : List Access) (b : Bus) :
    performAll (a :: as) b = performAll as (a.perform b) := rfl

theorem performAll_append (as bs : List Access) (b : Bus) :
    performAll (as ++ bs) b = performAll bs (performAll as b) := by
  simp [performAll]

/-- The writes among the accesses, in order. -/
def writesOf (as : List Access) : List (Word × Word) :=
  as.filterMap fun
    | .write addr value => some (addr, value)
    | .read _ => none

/-- Memory changes by the writes among the accesses. -/
theorem traced_performAll : ∀ (as : List Access) (b : Bus),
    ∃ es, b.Traced (performAll as b) es ∧ MemEvent.writes es = writesOf as := by
  intro as
  induction as with
  | nil => exact fun b => ⟨[], b.traced_refl, rfl⟩
  | cons a as ih =>
      intro b
      obtain ⟨es, hes, hwrites⟩ := ih (a.perform b)
      cases a with
      | write addr value =>
          exact ⟨_, (b.traced_pokeU32 addr value).trans hes, by simp [hwrites, writesOf]⟩
      | read addr => exact ⟨_, (b.traced_peekU32 addr).trans hes, by simp [hwrites, writesOf]⟩

/-- What is performed does not depend on the history. -/
theorem performAll_history (as : List Access) (b : Bus) :
    performAll as b = ⟨(performAll as ⟨b.mem, []⟩).mem,
      b.trace ++ (performAll as ⟨b.mem, []⟩).trace⟩ := by
  have h : ∀ (as : List Access) (mem : Memory) (tr es : List MemEvent),
      performAll as ⟨mem, tr ++ es⟩ = ⟨(performAll as ⟨mem, es⟩).mem,
        tr ++ (performAll as ⟨mem, es⟩).trace⟩ := by
    intro as
    induction as with
    | nil => exact fun _ _ _ => rfl
    | cons a as ih =>
        intro mem tr es
        cases a with
        | write addr value =>
            simpa [performAll_cons, Access.perform, Bus.pokeU32] using
              ih (ByteMemory.writeWord mem addr value) tr (es ++ [.write addr value])
        | read addr =>
            simpa [performAll_cons, Access.perform, Bus.peekU32] using
              ih mem tr (es ++ [.read addr (ByteMemory.readWord mem addr)])
  simpa using h as b.mem b.trace []

/-! ### Groups of words -/

section Groups

variable (code : CodeMap)

def bodyWords (as : List Access) : List Word := as.flatMap (Access.words code)

@[simp] theorem bodyWords_nil : bodyWords code [] = [] := rfl

@[simp] theorem bodyWords_cons (a : Access) (as : List Access) :
    bodyWords code (a :: as) = a.words code ++ bodyWords code as := rfl

@[simp] theorem bodyWords_append (as bs : List Access) :
    bodyWords code (as ++ bs) = bodyWords code as ++ bodyWords code bs :=
  List.flatMap_append

theorem length_bodyWords (as : List Access) : 3 * as.length ≤ (bodyWords code as).length := by
  induction as with
  | nil => simp
  | cons a as ih =>
      have := a.words_length_pos code
      simp only [bodyWords_cons, List.length_cons, List.length_append]
      omega

/-- Read groups off a list of words, up to the first word that starts none. -/
def accesses : List Word → List Access
  | w₁ :: a :: w₂ :: rest =>
      if w₁ = code.wordOf .lit ∧ w₂ = code.wordOf .loadReg then .read a :: accesses rest
      else
        match rest with
        | v :: w₃ :: rest =>
            if w₁ = code.wordOf .lit ∧ w₂ = code.wordOf .lit ∧ w₃ = code.wordOf .writeReg then
              .write a v :: accesses rest
            else []
        | _ => []
  | _ => []

/-- What is spelled is what is read back, with nothing or a `halt` behind it. -/
theorem accesses_bodyWords {rest : List Word} (h : ∀ w ws, rest = w :: ws → w = code.wordOf .halt) :
    ∀ as : List Access, accesses code (bodyWords code as ++ rest) = as := by
  intro as
  induction as with
  | nil =>
      rw [bodyWords_nil, List.nil_append]
      match rest with
      | [] => rfl
      | [_] => rfl
      | [_, _] => rfl
      | w₁ :: a :: w₂ :: ws =>
          obtain rfl := h _ _ rfl
          unfold accesses
          match ws with
          | [] => simp
          | [_] => simp
          | v :: w₃ :: ws => simp
  | cons a as ih =>
      cases a with
      | write a v =>
          simp only [bodyWords_cons, Access.words, List.cons_append, List.nil_append]
          unfold accesses
          simp [ih]
      | read a =>
          simp only [bodyWords_cons, Access.words, List.cons_append, List.nil_append]
          unfold accesses
          simp [ih]

theorem accesses_bodyWords_nil (as : List Access) : accesses code (bodyWords code as) = as := by
  have := accesses_bodyWords code (by simp : ∀ w ws, [] = w :: ws → w = code.wordOf .halt) as
  simpa using this

/-- The primitive slots of a list of groups that starts at `ip`. -/
def bodySlots : Nat → List Access → List (Nat × MicroPrimitive)
  | _, [] => []
  | ip, a :: as => a.slots ip ++ bodySlots (ip + (a.words code).length) as

end Groups

/-! ### Programs -/

namespace StreamProgram

/-- The words up to `len`. -/
def code (p : StreamProgram) : List Word := p.words.toList.take p.len

/-- Groups and a `halt`. -/
structure IsCall (code : CodeMap) (p : StreamProgram) (as : List Access) : Prop where
  code_eq : p.code = bodyWords code as ++ [code.wordOf .halt]
  len_eq : p.len = (bodyWords code as).length + 1
  yields : p.yieldsValue = false

/-- One literal and a `halt`. -/
structure IsValue (code : CodeMap) (p : StreamProgram) (v : Word) : Prop where
  code_eq : p.code = [code.wordOf .lit, v, code.wordOf .halt]
  len_eq : p.len = 3
  yields : p.yieldsValue = true

theorem words_eq (p : StreamProgram) :
    p.words.toList = p.code ++ p.words.toList.drop p.len := by
  rw [code, List.take_append_drop]

theorem IsCall.len_le {code : CodeMap} {p : StreamProgram} {as : List Access}
    (h : p.IsCall code as) : p.len ≤ maxStreamWords := by
  have hlen := congrArg List.length h.code_eq
  simp only [StreamProgram.code, List.length_take, Vector.length_toList, List.length_append,
    List.length_singleton] at hlen
  have := h.len_eq
  omega

end StreamProgram

/-! ### Dispatching groups -/

/-- What a step may do while the first `len` slots are dispatched. -/
def Exec.Step.Safe (len : Nat) : Step → Prop
  | .fetch ip _ => ip < len
  | .dispatch ip _ => ip < len
  | .push depth => depth < vmStackSize
  | .pop depth => 0 < depth

/-- The calls among the steps: which primitive, from which slot. -/
def Exec.dispatched (steps : List Step) : List (Nat × MicroPrimitive) :=
  steps.filterMap fun
    | .dispatch ip p => some (ip, p)
    | _ => none

theorem Exec.Step.Safe.mono {len len' : Nat} {s : Step} (h : s.Safe len) (hle : len ≤ len') :
    s.Safe len' := by
  cases s with
  | fetch ip w => exact Nat.lt_of_lt_of_le h hle
  | dispatch ip p => exact Nat.lt_of_lt_of_le h hle
  | push d => exact h
  | pop d => exact h

/-- From `m` to `m'` the dispatcher did just these accesses, called just these
primitives, and every step was safe for the slots below `stop`. -/
structure Ran (stop : Nat) (as : List Access) (slots : List (Nat × MicroPrimitive))
    (m m' : Vm) : Prop where
  bus : m'.bus = performAll as m.bus
  sp : m'.sp ≤ m.sp + as.length
  steps : ∃ steps, m'.steps = m.steps ++ steps ∧ (∀ s ∈ steps, s.Safe stop) ∧
    Exec.dispatched steps = slots

theorem Ran.trans {mid stop : Nat} {as bs : List Access}
    {slots slots' : List (Nat × MicroPrimitive)} {m m' m'' : Vm} (h : Ran mid as slots m m')
    (h' : Ran stop bs slots' m' m'') (hle : mid ≤ stop) :
    Ran stop (as ++ bs) (slots ++ slots') m m'' where
  bus := by rw [h'.bus, h.bus, performAll_append]
  sp := by
    have := h.sp
    have := h'.sp
    rw [List.length_append]
    omega
  steps := by
    obtain ⟨ss, hsteps, hsafe, hcalls⟩ := h.steps
    obtain ⟨ss', hsteps', hsafe', hcalls'⟩ := h'.steps
    refine ⟨ss ++ ss', by rw [hsteps', hsteps, List.append_assoc], ?_, ?_⟩
    · intro s hs
      rcases List.mem_append.mp hs with hs | hs
      · exact (hsafe s hs).mono hle
      · exact hsafe' s hs
    · rw [Exec.dispatched, List.filterMap_append]
      exact congrArg₂ _ hcalls hcalls'

section Dispatch

variable (code : CodeMap)

/-- A literal dispatched with room on the stack. -/
theorem afterLit_effect (ip : Nat) (v : Word) {m : Vm} (h : m.sp < 64) :
    (Exec.afterLit code ip m v).bus = m.bus ∧
      (Exec.afterLit code ip m v).sp = m.sp + 1 ∧
      (Exec.afterLit code ip m v).operands = v :: m.operands ∧
      (Exec.afterLit code ip m v).steps = m.steps ++
        [.fetch ip (code.wordOf .lit), .dispatch ip .lit, .fetch (ip + 1) v, .push m.sp] := by
  unfold Exec.afterLit
  refine ⟨by simp, ?_, ?_, by simp⟩
  · rw [Vm.push_sp (by simpa using h)]
    simp
  · rw [Vm.push_operands (by simpa using h)]
    simp

/-- `load` replaces the address on top by the word read there. -/
theorem afterLoad_effect (ip : Nat) (a : Word) {vs : List Word} {m : Vm}
    (h : m.operands = a :: vs) :
    (Exec.afterPrim code ip m .loadReg).bus = (m.bus.peekU32 a).2 ∧
      (Exec.afterPrim code ip m .loadReg).sp = m.sp ∧
      (Exec.afterPrim code ip m .loadReg).steps = m.steps ++
        [.fetch ip (code.wordOf .loadReg), .dispatch ip .loadReg, .pop m.sp, .push (m.sp - 1)] := by
  have hpos : m.sp = vs.length + 1 := by rw [← m.operands_length, h, List.length_cons]
  have hle : m.sp ≤ 64 := m.sp_le
  set called := (m.log (.fetch ip (code.wordOf .loadReg))).log (.dispatch ip .loadReg) with hcalled
  obtain ⟨haddr, _⟩ := Vm.pop_operands (m := called) (show called.operands = a :: vs from h)
  have hsp : called.pop.2.sp = m.sp - 1 := Vm.pop_sp called
  set loaded : Vm := { called.pop.2 with bus := (m.bus.peekU32 a).2 } with hloaded
  have hroom : loaded.sp < vmStackSize := by
    show called.pop.2.sp < 64
    omega
  have heq : Exec.afterPrim code ip m .loadReg = loaded.push (m.bus.peekU32 a).1 := by
    unfold Exec.afterPrim Exec.applyPrim
    simp only [← hcalled, haddr, Vm.pop_bus]
    rfl
  rw [heq]
  refine ⟨by rw [Vm.push_bus], ?_, ?_⟩
  · rw [Vm.push_sp hroom]
    show called.pop.2.sp + 1 = m.sp
    omega
  · rw [Vm.push_steps]
    show called.pop.2.steps ++ [.push called.pop.2.sp] = _
    rw [Vm.pop_steps, hsp, hcalled]
    simp

/-- `write` takes the value and the address below it. -/
theorem afterWrite_effect (ip : Nat) (a v : Word) {vs : List Word} {m : Vm}
    (h : m.operands = v :: a :: vs) :
    (Exec.afterPrim code ip m .writeReg).bus = m.bus.pokeU32 a v ∧
      (Exec.afterPrim code ip m .writeReg).sp = m.sp - 2 ∧
      (Exec.afterPrim code ip m .writeReg).steps = m.steps ++
        [.fetch ip (code.wordOf .writeReg), .dispatch ip .writeReg, .pop m.sp,
          .pop (m.sp - 1)] := by
  set called := (m.log (.fetch ip (code.wordOf .writeReg))).log (.dispatch ip .writeReg)
    with hcalled
  obtain ⟨hval, hops⟩ := Vm.pop_operands (m := called) (show called.operands = v :: a :: vs from h)
  obtain ⟨haddr, _⟩ := Vm.pop_operands hops
  have hsp : called.pop.2.sp = m.sp - 1 := Vm.pop_sp called
  have heq : Exec.afterPrim code ip m .writeReg =
      { called.pop.2.pop.2 with bus := m.bus.pokeU32 a v } := by
    unfold Exec.afterPrim Exec.applyPrim
    simp only [← hcalled, hval, haddr, Vm.pop_bus]
    rfl
  rw [heq]
  refine ⟨rfl, ?_, ?_⟩
  · show called.pop.2.pop.2.sp = m.sp - 2
    rw [Vm.pop_sp, hsp, Nat.sub_sub]
  · show called.pop.2.pop.2.steps = _
    rw [Vm.pop_steps, Vm.pop_steps, hsp, hcalled]
    simp

theorem run_read (ip : Nat) (a : Word) (rest : List Word) (m : Vm) (hroom : m.sp + 2 ≤ 64) :
    ∃ m', runThreadedStream code ip ((Access.read a).words code ++ rest) m =
        runThreadedStream code (ip + 3) rest m' ∧
      Ran (ip + 3) [.read a] ((Access.read a).slots ip) m m' := by
  obtain ⟨hbus, hsp, hops, hsteps⟩ := afterLit_effect code ip a (m := m) (by omega)
  obtain ⟨hbus', hsp', hsteps'⟩ := afterLoad_effect code (ip + 2) a hops
  refine ⟨Exec.afterPrim code (ip + 2) (Exec.afterLit code ip m a) .loadReg, ?_, ?_⟩
  · simp only [Access.words, List.cons_append, List.nil_append]
    rw [Exec.run_lit, Exec.run_prim _ _ _ _ (by decide) (by decide)]
  · refine ⟨by rw [hbus', hbus]; rfl, by rw [hsp', hsp]; simp, _, by rw [hsteps', hsteps,
      List.append_assoc], ?_, by simp [Exec.dispatched, Access.slots]⟩
    simp only [List.cons_append, List.nil_append, List.mem_cons, List.not_mem_nil, or_false,
      forall_eq_or_imp, forall_eq, Step.Safe, hsp, vmStackSize]
    omega

theorem run_write (ip : Nat) (a v : Word) (rest : List Word) (m : Vm) (hroom : m.sp + 2 ≤ 64) :
    ∃ m', runThreadedStream code ip ((Access.write a v).words code ++ rest) m =
        runThreadedStream code (ip + 5) rest m' ∧
      Ran (ip + 5) [.write a v] ((Access.write a v).slots ip) m m' := by
  obtain ⟨hbus, hsp, hops, hsteps⟩ := afterLit_effect code ip a (m := m) (by omega)
  obtain ⟨hbus', hsp', hops', hsteps'⟩ :=
    afterLit_effect code (ip + 2) v (m := Exec.afterLit code ip m a) (by omega)
  rw [hops] at hops'
  obtain ⟨hbus'', hsp'', hsteps''⟩ := afterWrite_effect code (ip + 4) a v hops'
  refine ⟨Exec.afterPrim code (ip + 4) (Exec.afterLit code (ip + 2) (Exec.afterLit code ip m a) v)
    .writeReg, ?_, ?_⟩
  · simp only [Access.words, List.cons_append, List.nil_append]
    rw [Exec.run_lit, Exec.run_lit, Exec.run_prim _ _ _ _ (by decide) (by decide)]
  · refine ⟨by rw [hbus'', hbus', hbus]; rfl, by rw [hsp'', hsp', hsp]; simp, _, by
      rw [hsteps'', hsteps', hsteps, List.append_assoc, List.append_assoc], ?_, by
      simp [Exec.dispatched, Access.slots]⟩
    simp only [List.cons_append, List.nil_append, List.mem_cons, List.not_mem_nil, or_false,
      forall_eq_or_imp, forall_eq, Step.Safe, hsp, hsp', vmStackSize]
    omega

/-- Groups are dispatched one after the other. Each read leaves its value on the
stack, so a list needs as many free slots as it has accesses, and two more to
work in. -/
theorem run_bodyWords (rest : List Word) : ∀ (as : List Access) (ip : Nat) (m : Vm),
    m.sp + as.length + 2 ≤ 64 →
    ∃ m', runThreadedStream code ip (bodyWords code as ++ rest) m =
        runThreadedStream code (ip + (bodyWords code as).length) rest m' ∧
      Ran (ip + (bodyWords code as).length) as (bodySlots code ip as) m m' := by
  intro as
  induction as with
  | nil =>
      intro ip m _
      exact ⟨m, rfl, rfl, Nat.le_refl _, [], by simp, by simp, rfl⟩
  | cons a as ih =>
      intro ip m hroom
      rw [List.length_cons] at hroom
      have one : ∃ m₁, runThreadedStream code ip (a.words code ++ (bodyWords code as ++ rest)) m =
            runThreadedStream code (ip + (a.words code).length) (bodyWords code as ++ rest) m₁ ∧
          Ran (ip + (a.words code).length) [a] (a.slots ip) m m₁ := by
        cases a with
        | write a v => exact run_write code ip a v _ m (by omega)
        | read a => exact run_read code ip a _ m (by omega)
      obtain ⟨m₁, hrun₁, hran₁⟩ := one
      have hsp₁ : m₁.sp ≤ m.sp + 1 := hran₁.sp
      obtain ⟨m₂, hrun₂, hran₂⟩ := ih (ip + (a.words code).length) m₁ (by omega)
      rw [Nat.add_assoc] at hrun₂ hran₂
      rw [bodyWords_cons, List.append_assoc, List.length_append]
      exact ⟨m₂, by rw [hrun₁, hrun₂], hran₁.trans hran₂ (by omega)⟩

/-! ### Whole programs -/

theorem run_halt_ran (ip : Nat) (rest : List Word) (m : Vm) :
    ∃ m', runThreadedStream code ip (code.wordOf .halt :: rest) m = (.halted, m') ∧
      m'.operands = m.operands ∧ m'.sp = m.sp ∧ Ran (ip + 1) [] [(ip, .halt)] m m' := by
  refine ⟨_, Exec.run_halt code ip rest m, rfl, rfl, rfl, Nat.le_refl _,
    [.fetch ip (code.wordOf .halt), .dispatch ip .halt], by simp, ?_, rfl⟩
  simp [Step.Safe]

/-- A call program runs to its `halt` and performs its accesses. -/
theorem runThreaded_call {p : StreamProgram} {as : List Access} (h : p.IsCall code as) (m : Vm) :
    ∃ m', p.runThreaded code m = (.halted, none, m') ∧
      Ran p.len as (bodySlots code 0 as ++ [(p.len - 1, .halt)]) m.reset m' := by
  have hlen := h.len_eq
  have hwords := length_bodyWords code as
  have hmax : p.len ≤ 128 := h.len_le
  have hreset : m.reset.sp = 0 := rfl
  obtain ⟨m₁, hrun₁, hran₁⟩ := run_bodyWords code (code.wordOf .halt :: p.words.toList.drop p.len)
    as 0 m.reset (by omega)
  rw [Nat.zero_add] at hrun₁ hran₁
  obtain ⟨m₂, hrun₂, _, _, hran₂⟩ := run_halt_ran code (bodyWords code as).length
    (p.words.toList.drop p.len) m₁
  have hrun : runThreadedStream code 0 p.words.toList m.reset = (.halted, m₂) := by
    rw [p.words_eq, h.code_eq, List.append_assoc, List.singleton_append, hrun₁, hrun₂]
  refine ⟨m₂, ?_, ?_⟩
  · have hpos : p.len > 0 := by omega
    simp [StreamProgram.runThreaded, hpos, hrun, h.yields]
  · have hslot : p.len - 1 = (bodyWords code as).length := by omega
    have hran := hran₁.trans hran₂ (by omega)
    rwa [List.append_nil, ← hlen, ← hslot] at hran

/-- A value program runs to its `halt` and yields its literal. -/
theorem runThreaded_value {p : StreamProgram} {v : Word} (h : p.IsValue code v) (m : Vm) :
    ∃ m', p.runThreaded code m = (.halted, some v, m') ∧
      Ran p.len [] [(0, .lit), (2, .halt)] m.reset m' := by
  have hreset : m.reset.sp = 0 := rfl
  obtain ⟨hbus, hsp, hops, hsteps⟩ := afterLit_effect code 0 v (m := m.reset) (by omega)
  obtain ⟨m₂, hrun₂, hops₂, hsp₂, hran₂⟩ := run_halt_ran code 2 (p.words.toList.drop p.len)
    (Exec.afterLit code 0 m.reset v)
  rw [hops] at hops₂
  obtain ⟨hval, _⟩ := Vm.pop_operands hops₂
  obtain ⟨steps₂, hsteps₂, hsafe₂, hcalls₂⟩ := hran₂.steps
  have hrun : runThreadedStream code 0 p.words.toList m.reset = (.halted, m₂) := by
    rw [p.words_eq, h.code_eq]
    simp only [List.cons_append, List.nil_append]
    rw [Exec.run_lit, hrun₂]
  refine ⟨m₂.pop.2, ?_, ?_⟩
  · simp [StreamProgram.runThreaded, h.len_eq, hrun, h.yields, hval]
  · refine ⟨?_, ?_, ?_⟩
    · rw [Vm.pop_bus, hran₂.bus, performAll_nil, hbus, performAll_nil]
    · rw [Vm.pop_sp, hsp₂, hsp]
      simp
    · refine ⟨_, by rw [Vm.pop_steps, hsteps₂, hsteps, List.append_assoc, List.append_assoc],
        ?_, ?_⟩
      · rw [h.len_eq, hsp₂, hsp, hreset]
        intro s hs
        simp only [List.mem_append, List.mem_cons, List.not_mem_nil, or_false] at hs
        rcases hs with (rfl | rfl | rfl | rfl) | hs | rfl
        · simp [Step.Safe]
        · simp [Step.Safe]
        · simp [Step.Safe]
        · simp [Step.Safe]
        · exact hsafe₂ s hs
        · simp [Step.Safe]
      · rw [Exec.dispatched, List.filterMap_append, List.filterMap_append,
          show steps₂.filterMap _ = _ from hcalls₂]
        rfl

end Dispatch

end HolyRust
