import HolyRust.Library.Rv32

/-!
RV32I loads and stores of words and the RV32M division, beside the constant
builders of `Rv32`: their formats, and what a division leaves.

* `Op.encode` — I-type, S-type with its immediate in two fields, R-type.
* `decodeOp_encode` — the manual's decoding reads every operation back.
* `Op.exec` — the operations on registers alone; `DIV` by zero gives -1.
-/

namespace HolyRust.Rv32

inductive Op where
  | base (i : Instr)
  /-- Load word (I-type). -/
  | lw (rd rs1 : Reg) (imm12 : BitVec 12)
  /-- Store word (S-type). -/
  | sw (rs2 rs1 : Reg) (imm12 : BitVec 12)
  /-- Signed division (R-type). -/
  | div (rd rs1 rs2 : Reg)
deriving DecidableEq, Repr

def opLoad : BitVec 7 := 0b0000011

def opStore : BitVec 7 := 0b0100011

def opReg : BitVec 7 := 0b0110011

/-- `LW` and `SW`. -/
def funct3Word : BitVec 3 := 0b010

def funct3Div : BitVec 3 := 0b100

def funct7M : BitVec 7 := 0b0000001

/-- The word of an operation, highest field first. -/
def Op.encode : Op → BitVec 32
  | .base i => i.encode
  | .lw rd rs1 imm12 => imm12 ++ rs1 ++ funct3Word ++ rd ++ opLoad
  | .sw rs2 rs1 imm12 =>
      imm12.extractLsb' 5 7 ++ rs2 ++ rs1 ++ funct3Word ++ imm12.extractLsb' 0 5 ++ opStore
  | .div rd rs1 rs2 => funct7M ++ rs2 ++ rs1 ++ funct3Div ++ rd ++ opReg

def decodeOp (w : BitVec 32) : Option Op :=
  if w.extractLsb' 0 7 = opLoad ∧ w.extractLsb' 12 3 = funct3Word then
    some (.lw (w.extractLsb' 7 5) (w.extractLsb' 15 5) (w.extractLsb' 20 12))
  else if w.extractLsb' 0 7 = opStore ∧ w.extractLsb' 12 3 = funct3Word then
    some (.sw (w.extractLsb' 20 5) (w.extractLsb' 15 5) (w.extractLsb' 25 7 ++ w.extractLsb' 7 5))
  else if w.extractLsb' 0 7 = opReg ∧ w.extractLsb' 12 3 = funct3Div ∧
      w.extractLsb' 25 7 = funct7M then
    some (.div (w.extractLsb' 7 5) (w.extractLsb' 15 5) (w.extractLsb' 20 5))
  else (decode w).map .base

section Fields

open BitVec

/-- The fields of an S-type or R-type word. -/
theorem rType_fields (f7 : BitVec 7) (rs2 rs1 : Reg) (f : BitVec 3) (rd : Reg) (op : BitVec 7) :
    (f7 ++ rs2 ++ rs1 ++ f ++ rd ++ op).extractLsb' 0 7 = op ∧
      (f7 ++ rs2 ++ rs1 ++ f ++ rd ++ op).extractLsb' 7 5 = rd ∧
      (f7 ++ rs2 ++ rs1 ++ f ++ rd ++ op).extractLsb' 12 3 = f ∧
      (f7 ++ rs2 ++ rs1 ++ f ++ rd ++ op).extractLsb' 15 5 = rs1 ∧
      (f7 ++ rs2 ++ rs1 ++ f ++ rd ++ op).extractLsb' 20 5 = rs2 ∧
      (f7 ++ rs2 ++ rs1 ++ f ++ rd ++ op).extractLsb' 25 7 = f7 := by
  refine ⟨extractLsb'_append_eq_right, ?_, ?_, ?_, ?_, ?_⟩
  · rw [extractLsb'_append_eq_of_le (by decide)]
    exact extractLsb'_append_eq_right
  · rw [extractLsb'_append_eq_of_le (by decide), extractLsb'_append_eq_of_le (by decide)]
    exact extractLsb'_append_eq_right
  · rw [extractLsb'_append_eq_of_le (by decide), extractLsb'_append_eq_of_le (by decide),
      extractLsb'_append_eq_of_le (by decide)]
    exact extractLsb'_append_eq_right
  · rw [extractLsb'_append_eq_of_le (by decide), extractLsb'_append_eq_of_le (by decide),
      extractLsb'_append_eq_of_le (by decide), extractLsb'_append_eq_of_le (by decide)]
    exact extractLsb'_append_eq_right
  · rw [extractLsb'_append_eq_of_le (by decide), extractLsb'_append_eq_of_le (by decide),
      extractLsb'_append_eq_of_le (by decide), extractLsb'_append_eq_of_le (by decide)]
    exact extractLsb'_append_eq_left

/-- The two parts of a store's immediate. -/
theorem concat_imm12 (imm12 : BitVec 12) :
    imm12.extractLsb' 5 7 ++ imm12.extractLsb' 0 5 = imm12 := by
  refine eq_of_getLsbD_eq fun i hi => ?_
  simp only [getLsbD_append, getLsbD_extractLsb']
  split_ifs <;> simp <;> grind

end Fields

/-- The opcodes of the constant builders are none of the three above. -/
theorem decodeOp_base {w : BitVec 32} (h : w.extractLsb' 0 7 = opLui ∨ w.extractLsb' 0 7 = opImm) :
    decodeOp w = (decode w).map .base := by
  have hne : w.extractLsb' 0 7 ≠ opLoad ∧ w.extractLsb' 0 7 ≠ opStore ∧
      w.extractLsb' 0 7 ≠ opReg := by
    rcases h with h | h <;> rw [h] <;> decide
  unfold decodeOp
  rw [if_neg fun h => hne.1 h.1, if_neg fun h => hne.2.1 h.1, if_neg fun h => hne.2.2 h.1]

theorem decodeOp_encode (o : Op) : decodeOp o.encode = some o := by
  cases o with
  | base i =>
      have hop : i.encode.extractLsb' 0 7 = opLui ∨ i.encode.extractLsb' 0 7 = opImm := by
        cases i with
        | lui rd imm20 => exact .inl (uType_fields imm20 rd opLui).1
        | addi rd rs1 imm12 => exact .inr (iType_fields imm12 rs1 rd funct3Addi opImm).1
      rw [Op.encode, decodeOp_base hop, decode_encode, Option.map_some]
  | lw rd rs1 imm12 =>
      obtain ⟨hop, hrd, hfunct, hrs1, himm⟩ := iType_fields imm12 rs1 rd funct3Word opLoad
      unfold decodeOp Op.encode
      rw [hop, hfunct, hrd, hrs1, himm, if_pos ⟨rfl, rfl⟩]
  | sw rs2 rs1 imm12 =>
      obtain ⟨hop, hlow, hfunct, hrs1, hrs2, hhigh⟩ := rType_fields (imm12.extractLsb' 5 7) rs2 rs1
        funct3Word (imm12.extractLsb' 0 5) opStore
      unfold decodeOp Op.encode
      rw [hop, hfunct, hlow, hrs1, hrs2, hhigh, concat_imm12,
        if_neg fun h => absurd h.1 (by decide), if_pos ⟨rfl, rfl⟩]
  | div rd rs1 rs2 =>
      obtain ⟨hop, hrd, hfunct, hrs1, hrs2, hseven⟩ :=
        rType_fields funct7M rs2 rs1 funct3Div rd opReg
      unfold decodeOp Op.encode
      rw [hop, hfunct, hseven, hrd, hrs1, hrs2, if_neg fun h => absurd h.1 (by decide),
        if_neg fun h => absurd h.1 (by decide), if_pos ⟨rfl, rfl, rfl⟩]

/-! ### Execution -/

/-- The quotient truncated toward zero, -1 for a zero divisor. -/
def divSigned (a b : BitVec 32) : BitVec 32 := if b = 0#32 then -1#32 else a.sdiv b

/-- An operation on registers; `none` for those that go to memory. -/
def Op.exec (regs : Regs) : Op → Option Regs
  | .base i => some (i.exec regs)
  | .div rd rs1 rs2 => some (write regs rd (divSigned (read regs rs1) (read regs rs2)))
  | .lw _ _ _ | .sw _ _ _ => none

/-- The words decoded and executed one after the other. -/
def run (ws : List (BitVec 32)) (regs : Regs) : Option Regs :=
  ws.foldlM (fun regs w => (decodeOp w).bind (Op.exec regs)) regs

theorem run_singleton (o : Op) (regs : Regs) : run [o.encode] regs = o.exec regs := by
  simp [run, decodeOp_encode]

end HolyRust.Rv32
