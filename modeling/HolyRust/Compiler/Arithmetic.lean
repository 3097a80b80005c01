import HolyRust.Compiler.Agreement
import HolyRust.Compiler.Generation
import HolyRust.Library.Runs
import HolyRust.Library.SignedDivision

/-!
Arithmetic chains on the two execution paths: `lit a, lit b₁, op₁, ..., halt`.

Native code folds the chain in the accumulator, the interpreter on its stack. The
two agree on addition, subtraction and multiplication. They divide differently:
`div_prim` divides `usize`s, the emitter's contract is a signed quotient.

* `compileAndRun_chain`, `runThreadedStream_chain` — what each path leaves.
* `chain_agrees_iff` — the paths agree on a chain up to each of its operations
  exactly if signed and unsigned quotient coincide in each of its divisions.
-/

namespace HolyRust

open Emitter (Instr Core Reg runCode runCode_cons recorder)
open Exec (Vm runThreadedStream)
open Runs (EveryStep)
open SignedDivision (QuotientsAgree)

/-- The operations of a chain. -/
inductive ChainOp where
  | add | sub | mul | div
deriving DecidableEq, Repr

namespace ChainOp

def prim : ChainOp → MicroPrimitive
  | .add => .add
  | .sub => .sub
  | .mul => .mul
  | .div => .div

/-- What the emitter's contract says of the operation. -/
def emitted : ChainOp → Word → Word → Word
  | .add, a, b => a + b
  | .sub, a, b => a - b
  | .mul, a, b => a * b
  | .div, a, b => Emitter.signedDivOr0 a b

/-- What the primitive computes. -/
def interpreted : ChainOp → Word → Word → Word
  | .add, a, b => a + b
  | .sub, a, b => a - b
  | .mul, a, b => a * b
  | .div, a, b => Exec.checkedDivOr0 a b

theorem prim_ne_lit (op : ChainOp) : op.prim ≠ .lit := by
  cases op <;> decide

theorem prim_ne_halt (op : ChainOp) : op.prim ≠ .halt := by
  cases op <;> decide

/-- The two meanings part in a division whose quotients do. -/
theorem emitted_eq_interpreted_iff (op : ChainOp) (a b : Word) :
    op.emitted a b = op.interpreted a b ↔ (op = .div → QuotientsAgree a b) := by
  cases op with
  | div =>
      have hsigned : Emitter.signedDivOr0 a b = a.sdiv b := by
        unfold Emitter.signedDivOr0
        split
        · rename_i h
          rw [h, BitVec.sdiv_zero]
        · rfl
      have hunsigned : Exec.checkedDivOr0 a b = a / b := by
        unfold Exec.checkedDivOr0
        split
        · rename_i h
          rw [h, BitVec.udiv_zero]
        · rfl
      show Emitter.signedDivOr0 a b = Exec.checkedDivOr0 a b ↔ _
      rw [hsigned, hunsigned, SignedDivision.sdiv_eq_udiv_iff (by decide)]
      simp
  | _ => exact iff_of_true rfl (by simp)

end ChainOp

/-- A chain after its first operand. -/
abbrev Chain := List (ChainOp × Word)

namespace Chain

/-- The fold of the accumulator. -/
def emitted (v : Word) (link : ChainOp × Word) : Word := link.1.emitted v link.2

/-- The fold on the stack. -/
def interpreted (v : Word) (link : ChainOp × Word) : Word := link.1.interpreted v link.2

/-- Signed and unsigned quotient coincide in each division, its dividend taken in
the unsigned reading of what comes before. -/
def QuotientsCoincide (a : Word) (links : Chain) : Prop :=
  EveryStep interpreted (fun v link => link.1 = .div → QuotientsAgree v link.2) a links

/-- The words of the links. -/
def words (code : CodeMap) (links : Chain) : List Word :=
  links.flatMap fun link => [code.wordOf .lit, link.2, code.wordOf link.1.prim]

/-- The calls for the links. -/
def calls (t : Target) (links : Chain) : List Instr :=
  links.flatMap fun link => [.movImm (Native.scratch t) link.2, Native.operation t link.1.prim]

theorem words_cons (code : CodeMap) (op : ChainOp) (b : Word) (links : Chain) :
    words code ((op, b) :: links) =
      code.wordOf .lit :: b :: code.wordOf op.prim :: words code links := rfl

theorem calls_cons (t : Target) (op : ChainOp) (b : Word) (links : Chain) :
    calls t ((op, b) :: links) =
      .movImm (Native.scratch t) b :: Native.operation t op.prim :: calls t links := rfl

end Chain

/-- A program that is a chain and yields its value. -/
structure StreamProgram.IsChain (code : CodeMap) (p : StreamProgram) (a : Word) (links : Chain) :
    Prop where
  code_eq : p.code = code.wordOf .lit :: a :: (Chain.words code links ++ [code.wordOf .halt])
  len_pos : 0 < p.len
  yields : p.yieldsValue = true

/-! ### Native code -/

namespace Native

section Generation

variable (t : Target) (code : CodeMap)

/-- A literal that no memory operation follows goes where the accumulator's state
sends it. -/
theorem litTarget_prim {p : MicroPrimitive} (hload : p ≠ .loadReg) (hwrite : p ≠ .writeReg)
    (ws : List Word) (loaded : Bool) :
    litTarget t code (code.wordOf p :: ws) loaded =
      (if loaded then scratch t else acc t, true) := by
  unfold litTarget
  cases loaded <;> simp [hload, hwrite]

theorem genLoop_chain (links : Chain) (out : List Instr) :
    genLoop recorder t code (Chain.words code links ++ [code.wordOf .halt]) true out =
      some (out ++ Chain.calls t links) := by
  induction links generalizing out with
  | nil => simp [Chain.words, Chain.calls, genLoop, code.ne_zero]
  | cons link links ih =>
      obtain ⟨op, b⟩ := link
      have htarget := litTarget_prim t code (p := op.prim) (by cases op <;> decide)
        (by cases op <;> decide) (Chain.words code links ++ [code.wordOf .halt]) true
      have hloaded : loadedAfter op.prim true = true := by cases op <;> rfl
      calc genLoop recorder t code (Chain.words code ((op, b) :: links) ++ [code.wordOf .halt])
            true out
          = genLoop recorder t code
              (code.wordOf op.prim :: (Chain.words code links ++ [code.wordOf .halt])) true
              (out ++ [.movImm (scratch t) b]) := by
            rw [Chain.words_cons, List.cons_append, List.cons_append, List.cons_append, genLoop_lit,
              htarget]
            rfl
        _ = some (out ++ [.movImm (scratch t) b] ++ [operation t op.prim] ++
              Chain.calls t links) := by
            rw [genLoop_operation op.prim_ne_lit op.prim_ne_halt, hloaded, ih]
        _ = some (out ++ Chain.calls t ((op, b) :: links)) := by simp [Chain.calls_cons]

theorem isCompilableFrom_chain (links : Chain) (seen : Bool) :
    isCompilableFrom code (Chain.words code links ++ [code.wordOf .halt]) seen = true := by
  induction links generalizing seen with
  | nil => simp [Chain.words, isCompilableFrom]
  | cons link links ih =>
      obtain ⟨op, b⟩ := link
      have hop : isCompilableFrom code
          (code.wordOf op.prim :: (Chain.words code links ++ [code.wordOf .halt])) true =
            isCompilableFrom code (Chain.words code links ++ [code.wordOf .halt]) true := by
        conv_lhs => unfold isCompilableFrom
        cases op <;> simp [code.ne_zero, ChainOp.prim]
      rw [Chain.words_cons, List.cons_append, List.cons_append, List.cons_append,
        isCompilableFrom_lit, hop, ih]

/-- The first operand goes to the accumulator, every other to the scratch
register in front of its operation. -/
theorem instructions_chain {p : StreamProgram} {a : Word} {links : Chain}
    (h : p.IsChain code a links) :
    instructions t code p = some (.movImm (acc t) a :: (Chain.calls t links ++ [.ret])) := by
  have hfirst : litTarget t code (Chain.words code links ++ [code.wordOf .halt]) false =
      (acc t, true) := by
    cases links with
    | nil => exact litTarget_prim t code (by decide) (by decide) [] false
    | cons link links => exact litTarget_prim t code (by decide) (by decide) _ false
  unfold instructions generate isCompilable
  rw [show p.words.toList.take p.len = _ from h.code_eq, isCompilableFrom_lit,
    isCompilableFrom_chain, if_pos rfl, genLoop_lit, hfirst, genLoop_chain]
  rfl

end Generation

/-- One operation on accumulator and scratch register. -/
theorem exec_operation (t : Target) (op : ChainOp) (c : Core) :
    ((operation t op.prim).exec c).regs (acc t) =
      op.emitted (c.regs (acc t)) (c.regs (scratch t)) := by
  cases op <;> simp [operation, ChainOp.prim, Instr.exec, ChainOp.emitted]

/-- The calls fold the chain in the accumulator. -/
theorem runCode_calls (t : Target) (links : Chain) (c : Core) :
    (runCode (Chain.calls t links ++ [.ret]) c).regs (acc t) =
      Runs.run Chain.emitted (c.regs (acc t)) links := by
  induction links generalizing c with
  | nil => rfl
  | cons link links ih =>
      obtain ⟨op, b⟩ := link
      have hne : operation t op.prim ≠ .ret := by cases op <;> simp [operation, ChainOp.prim]
      rw [Chain.calls_cons, List.cons_append, List.cons_append, runCode_cons (by simp),
        runCode_cons hne, ih, exec_operation, Runs.run_cons]
      simp [Instr.exec, acc_ne_scratch, Chain.emitted]

/-- Native code leaves the chain's value by the emitter's contract. -/
theorem compileAndRun_chain (t : Target) (code : CodeMap) {p : StreamProgram} {a : Word}
    {links : Chain} (h : p.IsChain code a links) (c : Core) :
    ∃ c', compileAndRun t code p c = some (some (Runs.run Chain.emitted a links), c') := by
  unfold compileAndRun
  rw [instructions_chain t code h]
  refine ⟨runCode (.movImm (acc t) a :: (Chain.calls t links ++ [.ret])) c, ?_⟩
  simp only [Option.map_some, h.yields, if_true, Option.some.injEq, Prod.mk.injEq, and_true]
  rw [runCode_cons (by simp), runCode_calls]
  simp [Instr.exec]

end Native

/-! ### The interpreter -/

section Interpreter

variable (code : CodeMap)

/-- A primitive of a chain takes its two operands off the stack and puts their
result there. -/
theorem afterPrim_chain (op : ChainOp) (ip : Nat) {m : Vm} {a b : Word} {vs : List Word}
    (h : m.operands = b :: a :: vs) :
    (Exec.afterPrim code ip m op.prim).operands = op.interpreted a b :: vs := by
  unfold Exec.afterPrim
  generalize hcalled : (m.log (.fetch ip (code.wordOf op.prim))).log (.dispatch ip op.prim) = called
  have hops : called.operands = b :: a :: vs := by
    rw [← hcalled]
    exact h
  obtain ⟨hb, hrest⟩ := Vm.pop_operands hops
  obtain ⟨ha, hvs⟩ := Vm.pop_operands hrest
  have hroom : called.pop.2.pop.2.sp < Exec.vmStackSize := by
    have hle : called.sp ≤ 64 := called.sp_le
    have hsp : called.sp = vs.length + 2 := by
      rw [← called.operands_length, hops]
      rfl
    rw [Vm.pop_sp, Vm.pop_sp]
    show called.sp - 1 - 1 < 64
    omega
  cases op <;>
    simp only [Exec.applyPrim, ChainOp.prim, ChainOp.interpreted] <;>
      rw [Vm.push_operands hroom, ha, hb, hvs]

/-- The links fold the chain on top of the stack. -/
theorem run_chain (links : Chain) (rest : List Word) (ip : Nat) {m : Vm} {a : Word}
    (h : m.operands = [a]) :
    ∃ m', runThreadedStream code ip (Chain.words code links ++ code.wordOf .halt :: rest) m =
      (.halted, m') ∧ m'.operands = [Runs.run Chain.interpreted a links] := by
  induction links generalizing ip m a with
  | nil => exact ⟨_, Exec.run_halt code ip rest m, h⟩
  | cons link links ih =>
      obtain ⟨op, b⟩ := link
      have hsp : m.sp = 1 := by
        rw [← m.operands_length, h]
        rfl
      obtain ⟨_, _, hlit, _⟩ := afterLit_effect code ip b (m := m) (by omega)
      rw [h] at hlit
      obtain ⟨m', hrun, hops⟩ := ih (ip + 2 + 1) (afterPrim_chain code op (ip + 2) hlit)
      refine ⟨m', ?_, hops⟩
      rw [Chain.words_cons, List.cons_append, List.cons_append, List.cons_append, Exec.run_lit,
        Exec.run_prim code _ _ _ op.prim_ne_lit op.prim_ne_halt, hrun]

/-- The interpreter leaves the chain's value by the primitives. -/
theorem runThreadedStream_chain {p : StreamProgram} {a : Word} {links : Chain}
    (h : p.IsChain code a links) (m : Vm) :
    ∃ m', runThreadedStream code 0 p.words.toList m.reset = (.halted, m') ∧
      m'.operands = [Runs.run Chain.interpreted a links] := by
  have hreset : m.reset.sp = 0 := rfl
  obtain ⟨_, _, hlit, _⟩ := afterLit_effect code 0 a (m := m.reset) (by omega)
  rw [Vm.reset_operands] at hlit
  obtain ⟨m', hrun, hops⟩ := run_chain code links (p.words.toList.drop p.len) 2 hlit
  refine ⟨m', ?_, hops⟩
  rw [p.words_eq, h.code_eq]
  simp only [List.cons_append, List.append_assoc, List.nil_append]
  rw [Exec.run_lit]
  exact hrun

end Interpreter

/-! ### Both paths -/

/-- From every core and stack, native code leaves in the accumulator the one value
that the interpreter leaves on the stack. -/
def SameValue (t : Target) (code : CodeMap) (p : StreamProgram) : Prop :=
  ∀ (m : Vm) (regs : Reg → Word), ∃ v c m',
    Native.compileAndRun t code p ⟨regs, m.bus⟩ = some (some v, c) ∧
      runThreadedStream code 0 p.words.toList m.reset = (.halted, m') ∧ m'.operands = [v]

section Chains

variable (t : Target) {code : CodeMap} {p : StreamProgram} {a : Word} {links : Chain}

theorem sameValue_iff (h : p.IsChain code a links) :
    SameValue t code p ↔ Runs.run Chain.emitted a links = Runs.run Chain.interpreted a links := by
  constructor
  · intro hsame
    obtain ⟨v, c, m', hnative, hthreaded, hops⟩ := hsame (Vm.new ⟨fun _ => 0, []⟩) fun _ => 0
    obtain ⟨c₁, hnative₁⟩ := Native.compileAndRun_chain t code h ⟨fun _ => 0, ⟨fun _ => 0, []⟩⟩
    obtain ⟨m₁, hthreaded₁, hops₁⟩ := runThreadedStream_chain code h (Vm.new ⟨fun _ => 0, []⟩)
    cases hnative.symm.trans hnative₁
    cases hthreaded.symm.trans hthreaded₁
    exact (List.cons.inj (hops.symm.trans hops₁)).1
  · intro heq m regs
    obtain ⟨c, hnative⟩ := Native.compileAndRun_chain t code h ⟨regs, m.bus⟩
    obtain ⟨m', hthreaded, hops⟩ := runThreadedStream_chain code h m
    exact ⟨_, c, m', hnative, hthreaded, by rw [hops, heq]⟩

theorem Chain.length_words (code : CodeMap) (links : Chain) :
    (Chain.words code links).length = 3 * links.length := by
  induction links with
  | nil => rfl
  | cons link links ih =>
      obtain ⟨op, b⟩ := link
      rw [Chain.words_cons, List.length_cons, List.length_cons, List.length_cons, ih,
        List.length_cons]
      omega

/-- The stream array holds every chain of at most 128 words. -/
theorem exists_isChain (code : CodeMap) (a : Word) (links : Chain)
    (h : 3 * links.length + 3 ≤ maxStreamWords) : ∃ p : StreamProgram, p.IsChain code a links := by
  set ws := code.wordOf .lit :: a :: (Chain.words code links ++ [code.wordOf .halt]) with hws
  have hlen : ws.length ≤ maxStreamWords := by
    rw [hws]
    simp only [List.length_cons, List.length_append, List.length_nil, Chain.length_words]
    omega
  refine ⟨⟨⟨(ws ++ List.replicate (maxStreamWords - ws.length) 0#32).toArray, ?_⟩, ws.length,
    true⟩, ?_, ?_, rfl⟩
  · simp only [List.size_toArray, List.length_append, List.length_replicate]
    omega
  · exact List.take_left
  · simp [hws]

/-- A chain of at most 128 words has the same value on both paths up to each of
its operations exactly if its divisions have the same quotient signed and
unsigned. -/
theorem chain_agrees_iff (t : Target) (code : CodeMap) (a : Word) (links : Chain)
    (h : 3 * links.length + 3 ≤ maxStreamWords) :
    (∀ k p, StreamProgram.IsChain code p a (links.take k) → SameValue t code p) ↔
      Chain.QuotientsCoincide a links := by
  have hsteps : Chain.QuotientsCoincide a links ↔
      EveryStep Chain.interpreted (fun v link => Chain.emitted v link = Chain.interpreted v link)
        a links := by
    constructor
    · exact fun hq => hq.mono fun v link => (link.1.emitted_eq_interpreted_iff v link.2).mpr
    · exact fun hq => hq.mono fun v link => (link.1.emitted_eq_interpreted_iff v link.2).mp
  rw [hsteps, ← Runs.run_take_eq_iff]
  constructor
  · intro hsame k
    have hfits : 3 * (links.take k).length + 3 ≤ maxStreamWords := by
      have hle : (links.take k).length ≤ links.length := List.length_take_le' k links
      omega
    obtain ⟨p, hp⟩ := exists_isChain code a _ hfits
    exact (sameValue_iff t hp).mp (hsame k p hp)
  · intro heq k p hp
    exact (sameValue_iff t hp).mpr (heq k)

end Chains

/-- `7 / 2 - 5`: the quotient is 3 either way. -/
theorem chain_agrees_small : ∃ p, StreamProgram.IsChain .sample p 7 [(.div, 2), (.sub, 5)] ∧
    SameValue .arm .sample p := by
  obtain ⟨p, hp⟩ := exists_isChain .sample 7 [(.div, 2), (.sub, 5)] (by decide)
  refine ⟨p, hp, (chain_agrees_iff .arm .sample 7 [(.div, 2), (.sub, 5)] (by decide)).mpr ?_ 2 p hp⟩
  unfold Chain.QuotientsCoincide
  simp only [Runs.everyStep_cons, Runs.everyStep_nil, and_true]
  exact ⟨fun _ => by decide, fun h => by cases h⟩

/-- `0x80000000 / 2` is 0xC0000000 in native code and 0x40000000 interpreted. -/
theorem chain_disagrees_top_bit : ¬ ∀ t code p a links,
    StreamProgram.IsChain code p a links → SameValue t code p := by
  intro h
  obtain ⟨p, hp⟩ := exists_isChain .sample 0x80000000 [(.div, 2)] (by decide)
  have heq := (sameValue_iff .arm hp).mp (h .arm .sample p _ _ hp)
  exact absurd heq (by decide)

end HolyRust
