import HolyRust.Kernel.Memory
import Mathlib.Logic.Function.Basic

/-!
The emitter contract (`compiler/emitter.rs`, the trait): what each call is
documented to do, independently of the bytes a backend writes.

`Instr` is one trait call, `Instr.exec` the effect its comment states on the
register file and on memory. `recorder` is the emitter that writes down the
calls it receives; code generation through it gives the instruction sequence a
backend would encode.
-/

namespace HolyRust.Emitter

/-- A register number (`u8`). -/
abbrev Reg := Byte

/-- Emitter failure modes. -/
inductive EmitError where
  | overflow | badRegister
deriving DecidableEq, Repr

/-- One call of the trait. -/
inductive Instr where
  /-- Load a 32-bit immediate into `reg`. -/
  | movImm (reg : Reg) (imm : Word)
  /-- Store `srcReg` to the address held in `addrReg` (offset 0). -/
  | storeU32 (srcReg addrReg : Reg)
  /-- Load from the address in `addrReg` into `dstReg` (offset 0). -/
  | loadU32 (dstReg addrReg : Reg)
  /-- `dst = a + b`. -/
  | add (dst a b : Reg)
  /-- `dst = a - b`. -/
  | sub (dst a b : Reg)
  /-- `dst = a * b`. -/
  | mul (dst a b : Reg)
  /-- `dst = a / b` (signed, truncating toward zero; div-by-zero returns 0). -/
  | div (dst a b : Reg)
  /-- Return to caller. -/
  | ret
deriving DecidableEq, Repr

/-- Universal emitter contract shared by both backends: each call adds to the
code written so far or fails. -/
structure TargetEmitter (σ : Type) where
  emitMovImm : Reg → Word → σ → Except EmitError σ
  emitStoreU32 : Reg → Reg → σ → Except EmitError σ
  emitLoadU32 : Reg → Reg → σ → Except EmitError σ
  emitAdd : Reg → Reg → Reg → σ → Except EmitError σ
  emitSub : Reg → Reg → Reg → σ → Except EmitError σ
  emitMul : Reg → Reg → Reg → σ → Except EmitError σ
  emitDiv : Reg → Reg → Reg → σ → Except EmitError σ
  emitRet : σ → Except EmitError σ

/-- The emitter that records its calls. -/
def recorder : TargetEmitter (List Instr) where
  emitMovImm reg imm out := .ok (out ++ [.movImm reg imm])
  emitStoreU32 src addr out := .ok (out ++ [.storeU32 src addr])
  emitLoadU32 dst addr out := .ok (out ++ [.loadU32 dst addr])
  emitAdd dst a b out := .ok (out ++ [.add dst a b])
  emitSub dst a b out := .ok (out ++ [.sub dst a b])
  emitMul dst a b out := .ok (out ++ [.mul dst a b])
  emitDiv dst a b out := .ok (out ++ [.div dst a b])
  emitRet out := .ok (out ++ [.ret])

@[simp] theorem recorder_movImm (reg : Reg) (imm : Word) (out : List Instr) :
    recorder.emitMovImm reg imm out = .ok (out ++ [.movImm reg imm]) := rfl

@[simp] theorem recorder_storeU32 (src addr : Reg) (out : List Instr) :
    recorder.emitStoreU32 src addr out = .ok (out ++ [.storeU32 src addr]) := rfl

@[simp] theorem recorder_loadU32 (dst addr : Reg) (out : List Instr) :
    recorder.emitLoadU32 dst addr out = .ok (out ++ [.loadU32 dst addr]) := rfl

@[simp] theorem recorder_add (dst a b : Reg) (out : List Instr) :
    recorder.emitAdd dst a b out = .ok (out ++ [.add dst a b]) := rfl

@[simp] theorem recorder_sub (dst a b : Reg) (out : List Instr) :
    recorder.emitSub dst a b out = .ok (out ++ [.sub dst a b]) := rfl

@[simp] theorem recorder_mul (dst a b : Reg) (out : List Instr) :
    recorder.emitMul dst a b out = .ok (out ++ [.mul dst a b]) := rfl

@[simp] theorem recorder_div (dst a b : Reg) (out : List Instr) :
    recorder.emitDiv dst a b out = .ok (out ++ [.div dst a b]) := rfl

@[simp] theorem recorder_ret (out : List Instr) :
    recorder.emitRet out = .ok (out ++ [.ret]) := rfl

/-! ### The documented effects -/

/-- The register file and the data bus. -/
structure Core where
  regs : Reg → Word
  bus : Bus

namespace Core

def setReg (c : Core) (r : Reg) (v : Word) : Core := { c with regs := Function.update c.regs r v }

def withBus (c : Core) (b : Bus) : Core := { c with bus := b }

@[simp] theorem withBus_regs (c : Core) (b : Bus) : (c.withBus b).regs = c.regs := rfl

@[simp] theorem withBus_bus (c : Core) (b : Bus) : (c.withBus b).bus = b := rfl

@[simp] theorem setReg_self (c : Core) (r : Reg) (v : Word) : (c.setReg r v).regs r = v := by
  simp [setReg]

@[simp] theorem setReg_of_ne (c : Core) {r q : Reg} (v : Word) (h : q ≠ r) :
    (c.setReg r v).regs q = c.regs q := by
  simp [setReg, h]

@[simp] theorem setReg_bus (c : Core) (r : Reg) (v : Word) : (c.setReg r v).bus = c.bus := rfl

end Core

/-- Signed quotient truncated toward zero, 0 for a zero divisor. -/
def signedDivOr0 (a b : Word) : Word := if b = 0#32 then 0#32 else a.sdiv b

def Instr.exec (c : Core) : Instr → Core
  | .movImm reg imm => c.setReg reg imm
  | .storeU32 src addr => c.withBus (c.bus.pokeU32 (c.regs addr) (c.regs src))
  | .loadU32 dst addr =>
      let (value, bus) := c.bus.peekU32 (c.regs addr)
      (c.withBus bus).setReg dst value
  | .add dst a b => c.setReg dst (c.regs a + c.regs b)
  | .sub dst a b => c.setReg dst (c.regs a - c.regs b)
  | .mul dst a b => c.setReg dst (c.regs a * c.regs b)
  | .div dst a b => c.setReg dst (signedDivOr0 (c.regs a) (c.regs b))
  | .ret => c

/-- Run an instruction sequence up to its first return. -/
def runCode : List Instr → Core → Core
  | [], c => c
  | .ret :: _, c => c
  | i :: rest, c => runCode rest (i.exec c)

theorem runCode_cons {i : Instr} (h : i ≠ .ret) (is : List Instr) (c : Core) :
    runCode (i :: is) c = runCode is (i.exec c) := by
  cases i <;> first | rfl | exact absurd rfl h

end HolyRust.Emitter
