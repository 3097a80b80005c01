import HolyRust.Compiler.Primitives
import HolyRust.Kernel.Memory

/-!
The threaded dispatch engine (`kernel/exec.rs`) and the primitives it calls
(`compiler/primitives.rs`).

An instruction pointer is a position in the stream array, kept as the words
from there to the end of the array; reading past the end is the explicit
outcome `overrun`, and calling a word that is no primitive is `wildCall`. Both
are undefined behaviour in the source and have no state after them that the
model would have to invent.

`Step` records, besides the memory accesses on the bus, what the dispatcher
does to its stream and stack: each array slot fetched, each primitive called and
from which slot, each push and pop with the depth it found.
-/

namespace HolyRust.Exec

/-- Depth of the threaded-execution operand stack. -/
abbrev vmStackSize : Nat := 64

/-- What the dispatcher did, in order. -/
inductive Step where
  | fetch (ip : Nat) (word : Word)
  | dispatch (ip : Nat) (p : MicroPrimitive)
  | push (depth : Nat)
  | pop (depth : Nat)
deriving DecidableEq, Repr

/-- `VM_STACK`, `VM_SP`, the data bus and the dispatcher's history. -/
structure Vm where
  stack : Vector Word 64
  sp : Nat
  sp_le : sp ≤ vmStackSize
  bus : Bus
  steps : List Step

namespace Vm

/-- The machine at power-up, over the given memory. -/
def new (bus : Bus) : Vm := ⟨Vector.replicate 64 0, 0, Nat.zero_le _, bus, []⟩

def log (m : Vm) (s : Step) : Vm := { m with steps := m.steps ++ [s] }

/-- Push a value; silently dropped when the stack is full. -/
def push (m : Vm) (value : Word) : Vm :=
  if h : m.sp < vmStackSize then
    { m.log (.push m.sp) with
      stack := m.stack.set m.sp value
      sp := m.sp + 1
      sp_le := h }
  else m.log (.push m.sp)

/-- Pop a value; 0 when empty. -/
def pop (m : Vm) : Word × Vm :=
  if h : m.sp = 0 then (0, m.log (.pop m.sp))
  else
    have hsp : m.sp - 1 < vmStackSize := by
      have := m.sp_le
      omega
    (m.stack[m.sp - 1],
     { m.log (.pop m.sp) with
       sp := m.sp - 1
       sp_le := Nat.le_trans (Nat.sub_le _ _) m.sp_le })

/-- Reset the operand stack pointer between REPL evaluations. -/
def reset (m : Vm) : Vm := { m with sp := 0, sp_le := Nat.zero_le _ }

end Vm

/-- `a.checked_div(b).unwrap_or(0)`. -/
def checkedDivOr0 (a b : Word) : Word := if b = 0#32 then 0#32 else a / b

/-- The primitives that leave the stream alone: everything but `lit` and
`halt`. -/
def applyPrim : MicroPrimitive → Vm → Vm
  | .loadReg, m =>
      let (addr, m) := m.pop
      let (value, bus) := m.bus.peekU32 addr
      { m with bus := bus }.push value
  | .writeReg, m =>
      let (value, m) := m.pop
      let (addr, m) := m.pop
      { m with bus := m.bus.pokeU32 addr value }
  | .add, m =>
      let (b, m) := m.pop
      let (a, m) := m.pop
      m.push (a + b)
  | .sub, m =>
      let (b, m) := m.pop
      let (a, m) := m.pop
      m.push (a - b)
  | .mul, m =>
      let (b, m) := m.pop
      let (a, m) := m.pop
      m.push (a * b)
  | .div, m =>
      let (b, m) := m.pop
      let (a, m) := m.pop
      m.push (checkedDivOr0 a b)
  | .lit, m => m
  | .halt, m => m

/-- How dispatch ended. -/
inductive Exit where
  /-- `halt_prim` returned null. -/
  | halted
  /-- The defensive stop on a zeroed slot. -/
  | zeroWord
  /-- A slot past the end of the array was read. -/
  | overrun
  /-- A word that is no primitive was called. -/
  | wildCall (word : Word)
deriving DecidableEq, Repr

/-- Execute the words from slot `ip` to the end of the array. -/
def runThreadedStream (code : CodeMap) : Nat → List Word → Vm → Exit × Vm
  | _, [], m => (.overrun, m)
  | ip, word :: rest, m =>
      let m := m.log (.fetch ip word)
      if word = 0#32 then (.zeroWord, m)
      else
        match code.primAt word with
        | none => (.wildCall word, m)
        | some .halt => (.halted, m.log (.dispatch ip .halt))
        | some .lit =>
            let m := m.log (.dispatch ip .lit)
            match rest with
            | [] => (.overrun, m)
            | v :: rest => runThreadedStream code (ip + 2) rest ((m.log (.fetch (ip + 1) v)).push v)
        | some p => runThreadedStream code (ip + 1) rest (applyPrim p (m.log (.dispatch ip p)))

/-! ### The operand stack as a list -/

namespace Vm

/-- The live part of the stack, top first. -/
def operands (m : Vm) : List Word := (m.stack.toList.take m.sp).reverse

theorem operands_length (m : Vm) : m.operands.length = m.sp := by
  have := m.sp_le
  simp [operands, this]

@[simp] theorem log_operands (m : Vm) (s : Step) : (m.log s).operands = m.operands := rfl

@[simp] theorem log_bus (m : Vm) (s : Step) : (m.log s).bus = m.bus := rfl

@[simp] theorem log_sp (m : Vm) (s : Step) : (m.log s).sp = m.sp := rfl

@[simp] theorem log_steps (m : Vm) (s : Step) : (m.log s).steps = m.steps ++ [s] := rfl

@[simp] theorem reset_operands (m : Vm) : m.reset.operands = [] := by
  simp [operands, reset]

@[simp] theorem reset_bus (m : Vm) : m.reset.bus = m.bus := rfl

@[simp] theorem reset_steps (m : Vm) : m.reset.steps = m.steps := rfl

@[simp] theorem push_bus (m : Vm) (v : Word) : (m.push v).bus = m.bus := by
  unfold push
  split <;> rfl

@[simp] theorem push_steps (m : Vm) (v : Word) :
    (m.push v).steps = m.steps ++ [.push m.sp] := by
  unfold push
  split <;> rfl

/-- With room left a push puts the value on top. -/
theorem push_operands {m : Vm} {v : Word} (h : m.sp < vmStackSize) :
    (m.push v).operands = v :: m.operands := by
  have hlen : m.sp < m.stack.toList.length := by simpa using h
  simp only [push, h, dite_true, operands, Vector.toList_set]
  rw [List.take_succ_eq_append_getElem (by simpa using hlen)]
  simp [List.take_set_of_le]

theorem push_sp {m : Vm} {v : Word} (h : m.sp < vmStackSize) : (m.push v).sp = m.sp + 1 := by
  simp [push, h]

@[simp] theorem pop_bus (m : Vm) : m.pop.2.bus = m.bus := by
  unfold pop
  split <;> rfl

@[simp] theorem pop_steps (m : Vm) : m.pop.2.steps = m.steps ++ [.pop m.sp] := by
  unfold pop
  split <;> rfl

theorem pop_sp (m : Vm) : m.pop.2.sp = m.sp - 1 := by
  unfold pop
  split
  · rename_i h; simp [h]
  · rfl

/-- Popping takes the top operand. -/
theorem pop_operands {m : Vm} {v : Word} {vs : List Word} (h : m.operands = v :: vs) :
    m.pop.1 = v ∧ m.pop.2.operands = vs := by
  have hsp : m.sp = vs.length + 1 := by
    rw [← operands_length, h, List.length_cons]
  have hne : m.sp ≠ 0 := by omega
  have hlt : m.sp - 1 < m.stack.toList.length := by
    have : m.sp ≤ 64 := m.sp_le
    simp only [Vector.length_toList]
    omega
  have htake : m.stack.toList.take m.sp =
      m.stack.toList.take (m.sp - 1) ++ [m.stack.toList[m.sp - 1]] := by
    rw [← List.take_succ_eq_append_getElem hlt]
    congr 1
    omega
  unfold operands at h
  rw [htake, List.reverse_append, List.reverse_singleton, List.singleton_append,
    List.cons.injEq] at h
  unfold pop
  rw [dif_neg hne]
  exact ⟨by simpa using h.1, h.2⟩

end Vm

/-! ### One dispatch at a time -/

section Dispatch

variable (code : CodeMap) (ip : Nat) (rest : List Word) (m : Vm)

/-- The machine after a literal has been dispatched from slot `ip`. -/
def afterLit (v : Word) : Vm :=
  (((m.log (.fetch ip (code.wordOf .lit))).log (.dispatch ip .lit)).log (.fetch (ip + 1) v)).push v

/-- The machine after an argument-free primitive has been dispatched. -/
def afterPrim (p : MicroPrimitive) : Vm :=
  applyPrim p ((m.log (.fetch ip (code.wordOf p))).log (.dispatch ip p))

theorem run_lit (v : Word) :
    runThreadedStream code ip (code.wordOf .lit :: v :: rest) m =
      runThreadedStream code (ip + 2) rest (afterLit code ip m v) := by
  simp [runThreadedStream, code.ne_zero, afterLit]

theorem run_prim {p : MicroPrimitive} (hlit : p ≠ .lit) (hhalt : p ≠ .halt) :
    runThreadedStream code ip (code.wordOf p :: rest) m =
      runThreadedStream code (ip + 1) rest (afterPrim code ip m p) := by
  cases p <;> simp_all [runThreadedStream, code.ne_zero, afterPrim]

theorem run_halt :
    runThreadedStream code ip (code.wordOf .halt :: rest) m =
      (.halted, (m.log (.fetch ip (code.wordOf .halt))).log (.dispatch ip .halt)) := by
  simp [runThreadedStream, code.ne_zero]

end Dispatch

end HolyRust.Exec
