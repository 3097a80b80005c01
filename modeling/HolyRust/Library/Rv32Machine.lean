import HolyRust.Library.FetchExecute
import HolyRust.Library.Rv32Formats

/-!
The RV32IM subset as a machine: `ADD`, `SUB`, `MUL` and the indirect jump beside the
operations of `Rv32Formats`, with loads and stores on a data port.

* `decodeInsn_encode` — every instruction is read back.
* `isa` — the subset as an instruction set of `FetchExecute`.
* `block_next`, `block_bases` — an instruction that goes on, and constant builders in
  order, as blocks.
-/

namespace HolyRust.Rv32

open FetchExecute (Flow Isa Starts DataPort Block)

inductive Insn where
  | op (o : Op)
  | add (rd rs1 rs2 : Reg)
  | sub (rd rs1 rs2 : Reg)
  | mul (rd rs1 rs2 : Reg)
  /-- `JALR` with `x0` for the link. -/
  | jr (rs1 : Reg) (imm12 : BitVec 12)
deriving DecidableEq, Repr

def opJalr : BitVec 7 := 0b1100111

/-- `ADD`, `SUB` and `MUL`; `JALR`. -/
def funct3Add : BitVec 3 := 0b000

def funct7Add : BitVec 7 := 0b0000000

def funct7Sub : BitVec 7 := 0b0100000

/-- The word of an instruction, highest field first. -/
def Insn.encode : Insn → BitVec 32
  | .op o => o.encode
  | .add rd rs1 rs2 => funct7Add ++ rs2 ++ rs1 ++ funct3Add ++ rd ++ opReg
  | .sub rd rs1 rs2 => funct7Sub ++ rs2 ++ rs1 ++ funct3Add ++ rd ++ opReg
  | .mul rd rs1 rs2 => funct7M ++ rs2 ++ rs1 ++ funct3Add ++ rd ++ opReg
  | .jr rs1 imm12 => imm12 ++ rs1 ++ funct3Add ++ 0#5 ++ opJalr

/-- An R-type word with `funct3Add`. -/
def decodeArith (funct7 : BitVec 7) (rd rs1 rs2 : Reg) : Option Insn :=
  if funct7 = funct7Add then some (.add rd rs1 rs2)
  else if funct7 = funct7Sub then some (.sub rd rs1 rs2)
  else if funct7 = funct7M then some (.mul rd rs1 rs2)
  else none

def decodeInsn (w : BitVec 32) : Option Insn :=
  if w.extractLsb' 0 7 = opReg ∧ w.extractLsb' 12 3 = funct3Add then
    decodeArith (w.extractLsb' 25 7) (w.extractLsb' 7 5) (w.extractLsb' 15 5) (w.extractLsb' 20 5)
  else if w.extractLsb' 0 7 = opJalr ∧ w.extractLsb' 12 3 = funct3Add ∧
      w.extractLsb' 7 5 = 0#5 then
    some (.jr (w.extractLsb' 15 5) (w.extractLsb' 20 12))
  else (decodeOp w).map .op

/-- The opcode of an operation, and what tells a division from the sums. -/
theorem opcode_encode (o : Op) :
    ¬ (o.encode.extractLsb' 0 7 = opReg ∧ o.encode.extractLsb' 12 3 = funct3Add) ∧
      o.encode.extractLsb' 0 7 ≠ opJalr := by
  cases o with
  | base i =>
      cases i with
      | lui rd imm20 =>
          rw [Op.encode, Instr.encode, (uType_fields imm20 rd opLui).1]
          exact ⟨fun h => absurd h.1 (by decide), by decide⟩
      | addi rd rs1 imm12 =>
          rw [Op.encode, Instr.encode, (iType_fields imm12 rs1 rd funct3Addi opImm).1]
          exact ⟨fun h => absurd h.1 (by decide), by decide⟩
  | lw rd rs1 imm12 =>
      rw [Op.encode, (iType_fields imm12 rs1 rd funct3Word opLoad).1]
      exact ⟨fun h => absurd h.1 (by decide), by decide⟩
  | sw rs2 rs1 imm12 =>
      obtain ⟨hop, _⟩ := rType_fields (imm12.extractLsb' 5 7) rs2 rs1 funct3Word
        (imm12.extractLsb' 0 5) opStore
      rw [Op.encode, hop]
      exact ⟨fun h => absurd h.1 (by decide), by decide⟩
  | div rd rs1 rs2 =>
      obtain ⟨hop, _, hfunct, _⟩ := rType_fields funct7M rs2 rs1 funct3Div rd opReg
      rw [Op.encode, hop, hfunct]
      exact ⟨fun h => absurd h.2 (by decide), by decide⟩

theorem decodeInsn_arith {funct7 : BitVec 7} {rd rs1 rs2 : Reg} {i : Insn}
    (h : decodeArith funct7 rd rs1 rs2 = some i) :
    decodeInsn (funct7 ++ rs2 ++ rs1 ++ funct3Add ++ rd ++ opReg) = some i := by
  obtain ⟨hop, hrd, hfunct, hrs1, hrs2, hseven⟩ := rType_fields funct7 rs2 rs1 funct3Add rd opReg
  rw [decodeInsn, hop, hfunct, hseven, hrd, hrs1, hrs2, if_pos ⟨rfl, rfl⟩, h]

theorem decodeInsn_encode (i : Insn) : decodeInsn i.encode = some i := by
  cases i with
  | op o =>
      obtain ⟨hreg, hjalr⟩ := opcode_encode o
      rw [Insn.encode, decodeInsn, if_neg hreg, if_neg fun h => hjalr h.1, decodeOp_encode,
        Option.map_some]
  | add rd rs1 rs2 => exact decodeInsn_arith (if_pos rfl)
  | sub rd rs1 rs2 =>
      refine decodeInsn_arith ?_
      rw [decodeArith, if_neg (by decide), if_pos rfl]
  | mul rd rs1 rs2 =>
      refine decodeInsn_arith ?_
      rw [decodeArith, if_neg (by decide), if_neg (by decide), if_pos rfl]
  | jr rs1 imm12 =>
      obtain ⟨hop, hrd, hfunct, hrs1, himm⟩ := iType_fields imm12 rs1 0#5 funct3Add opJalr
      rw [Insn.encode, decodeInsn, hop, hfunct, hrd, hrs1, himm,
        if_neg fun h => absurd h.1 (by decide), if_pos ⟨rfl, rfl, rfl⟩]

/-! ### Execution -/

theorem read_write_of_ne {r q : Reg} (h : q ≠ r) (regs : Regs) (v : BitVec 32) :
    read (write regs r v) q = read regs q := by
  unfold read write
  split
  · rfl
  · split
    · rfl
    · exact Function.update_of_ne h v regs

/-- The register file and the data memory. -/
@[ext] structure State (μ : Type) where
  regs : Regs
  mem : μ

section Machine

variable {μ : Type} (port : DataPort (BitVec 32) (BitVec 32) μ)

/-- The address of a load or store. -/
def State.address (s : State μ) (rs1 : Reg) (imm12 : BitVec 12) : BitVec 32 :=
  read s.regs rs1 + imm12.signExtend 32

/-- A value goes to a register. -/
def State.set (s : State μ) (rd : Reg) (v : BitVec 32) : State μ := ⟨write s.regs rd v, s.mem⟩

/-- An indirect jump clears the lowest bit of its target. -/
def Insn.flow : Insn → State μ → Option (Flow (BitVec 32) (State μ))
  | .op (.base i), s => some (.next ⟨i.exec s.regs, s.mem⟩)
  | .op (.lw rd rs1 imm12), s =>
      let (value, mem) := port.load (s.address rs1 imm12) s.mem
      some (.next ⟨write s.regs rd value, mem⟩)
  | .op (.sw rs2 rs1 imm12), s =>
      some (.next ⟨s.regs, port.store (s.address rs1 imm12) (read s.regs rs2) s.mem⟩)
  | .op (.div rd rs1 rs2), s =>
      some (.next (s.set rd (divSigned (read s.regs rs1) (read s.regs rs2))))
  | .add rd rs1 rs2, s => some (.next (s.set rd (read s.regs rs1 + read s.regs rs2)))
  | .sub rd rs1 rs2, s => some (.next (s.set rd (read s.regs rs1 - read s.regs rs2)))
  | .mul rd rs1 rs2, s => some (.next (s.set rd (read s.regs rs1 * read s.regs rs2)))
  | .jr rs1 imm12, s => some (.leave (s.address rs1 imm12 &&& ~~~1#32) s)

/-- The instruction set over a data port. -/
def isa : Isa (BitVec 32) Insn (BitVec 32) (State μ) where
  encode i := [i.encode]
  decode f := decodeInsn (f 0)
  exec := Insn.flow port
  decode_encode i f h := by
    have hfirst : f 0 = i.encode := h 0 (by simp)
    rw [hfirst, decodeInsn_encode]

/-- An instruction that always goes on is a block of one word. -/
theorem block_next {i : Insn} {next : State μ → State μ}
    (h : ∀ s, i.flow port s = some (.next (next s))) :
    Block (isa port) [i.encode] 1 fun s => some (next s) := by
  have hexec : ∀ s, (isa port).exec i s = some (.next (next s)) := h
  have hstays : (isa port).Stays i := by
    intro s a s' hleave
    rw [hexec] at hleave
    cases hleave
  refine (FetchExecute.block_instr hstays).congr fun s => ?_
  rw [Isa.step, hexec]

/-- Constant builders in order. -/
theorem block_bases (is : List Instr) :
    Block (isa port) (is.map Instr.encode) is.length fun s => some ⟨execAll is s.regs, s.mem⟩ := by
  induction is with
  | nil => exact FetchExecute.block_nil
  | cons i is ih => exact (block_next port (i := .op (.base i)) fun _ => rfl).seq ih

end Machine

end HolyRust.Rv32
