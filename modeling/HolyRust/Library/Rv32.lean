import Mathlib.Data.BitVec
import Mathlib.Logic.Function.Basic

/-!
The RV32I instructions that build constants: their words, and what they do to the
register file.

* `Instr.encode` — the manual's field layout; `decode` reads it back
  (`decode_encode`, `decodeAll_map_encode`).
* `Instr.exec`, `execAll` — register `x0` reads as zero and keeps nothing.
-/

namespace HolyRust.Rv32

/-- `x0` to `x31`. -/
abbrev Reg := BitVec 5

/-- The instructions, with their fields as the word holds them. -/
inductive Instr where
  /-- Load upper immediate (U-type). -/
  | lui (rd : Reg) (imm20 : BitVec 20)
  /-- Add immediate (I-type). -/
  | addi (rd rs1 : Reg) (imm12 : BitVec 12)
deriving DecidableEq, Repr

def opLui : BitVec 7 := 0b0110111

def opImm : BitVec 7 := 0b0010011

def funct3Addi : BitVec 3 := 0b000

/-- The word of an instruction, highest field first. -/
def Instr.encode : Instr → BitVec 32
  | .lui rd imm20 => imm20 ++ rd ++ opLui
  | .addi rd rs1 imm12 => imm12 ++ rs1 ++ funct3Addi ++ rd ++ opImm

def decode (w : BitVec 32) : Option Instr :=
  if w.extractLsb' 0 7 = opLui then some (.lui (w.extractLsb' 7 5) (w.extractLsb' 12 20))
  else if w.extractLsb' 0 7 = opImm ∧ w.extractLsb' 12 3 = funct3Addi then
    some (.addi (w.extractLsb' 7 5) (w.extractLsb' 15 5) (w.extractLsb' 20 12))
  else none

section Fields

open BitVec

variable (imm20 : BitVec 20) (imm12 : BitVec 12) (rs1 rd : Reg) (f : BitVec 3) (op : BitVec 7)

/-- The fields of a U-type word. -/
theorem uType_fields :
    (imm20 ++ rd ++ op).extractLsb' 0 7 = op ∧ (imm20 ++ rd ++ op).extractLsb' 7 5 = rd ∧
      (imm20 ++ rd ++ op).extractLsb' 12 20 = imm20 := by
  refine ⟨extractLsb'_append_eq_right, ?_, ?_⟩
  · rw [extractLsb'_append_eq_of_le (by decide)]
    exact extractLsb'_append_eq_right
  · rw [extractLsb'_append_eq_of_le (by decide)]
    exact extractLsb'_append_eq_left

/-- The fields of an I-type word. -/
theorem iType_fields :
    (imm12 ++ rs1 ++ f ++ rd ++ op).extractLsb' 0 7 = op ∧
      (imm12 ++ rs1 ++ f ++ rd ++ op).extractLsb' 7 5 = rd ∧
      (imm12 ++ rs1 ++ f ++ rd ++ op).extractLsb' 12 3 = f ∧
      (imm12 ++ rs1 ++ f ++ rd ++ op).extractLsb' 15 5 = rs1 ∧
      (imm12 ++ rs1 ++ f ++ rd ++ op).extractLsb' 20 12 = imm12 := by
  refine ⟨extractLsb'_append_eq_right, ?_, ?_, ?_, ?_⟩
  · rw [extractLsb'_append_eq_of_le (by decide)]
    exact extractLsb'_append_eq_right
  · rw [extractLsb'_append_eq_of_le (by decide), extractLsb'_append_eq_of_le (by decide)]
    exact extractLsb'_append_eq_right
  · rw [extractLsb'_append_eq_of_le (by decide), extractLsb'_append_eq_of_le (by decide),
      extractLsb'_append_eq_of_le (by decide)]
    exact extractLsb'_append_eq_right
  · rw [extractLsb'_append_eq_of_le (by decide), extractLsb'_append_eq_of_le (by decide),
      extractLsb'_append_eq_of_le (by decide)]
    exact extractLsb'_append_eq_left

end Fields

theorem decode_encode (i : Instr) : decode i.encode = some i := by
  cases i with
  | lui rd imm20 =>
      obtain ⟨hop, hrd, himm⟩ := uType_fields imm20 rd opLui
      unfold decode Instr.encode
      rw [if_pos hop, hrd, himm]
  | addi rd rs1 imm12 =>
      obtain ⟨hop, hrd, hfunct, hrs1, himm⟩ := iType_fields imm12 rs1 rd funct3Addi opImm
      unfold decode Instr.encode
      rw [hop, hrd, hfunct, hrs1, himm, if_neg (by decide), if_pos ⟨rfl, rfl⟩]

def decodeAll (ws : List (BitVec 32)) : Option (List Instr) := ws.mapM decode

theorem decodeAll_map_encode (is : List Instr) : decodeAll (is.map Instr.encode) = some is := by
  induction is with
  | nil => rfl
  | cons i is ih =>
      unfold decodeAll at ih ⊢
      simp [decode_encode, ih]

/-! ### Execution -/

abbrev Regs := Reg → BitVec 32

def read (regs : Regs) (r : Reg) : BitVec 32 := if r = 0#5 then 0#32 else regs r

def write (regs : Regs) (r : Reg) (v : BitVec 32) : Regs :=
  if r = 0#5 then regs else Function.update regs r v

/-- `LUI` puts its field in the upper 20 bits, `ADDI` adds its sign-extended
field. -/
def Instr.exec (regs : Regs) : Instr → Regs
  | .lui rd imm20 => write regs rd (imm20 ++ 0#12)
  | .addi rd rs1 imm12 => write regs rd (read regs rs1 + imm12.signExtend 32)

def execAll (is : List Instr) (regs : Regs) : Regs := is.foldl Instr.exec regs

@[simp] theorem execAll_nil (regs : Regs) : execAll [] regs = regs := rfl

@[simp] theorem execAll_cons (i : Instr) (is : List Instr) (regs : Regs) :
    execAll (i :: is) regs = execAll is (i.exec regs) := rfl

@[simp] theorem read_zero (regs : Regs) : read regs 0#5 = 0#32 := rfl

theorem read_write_self {r : Reg} (h : r ≠ 0#5) (regs : Regs) (v : BitVec 32) :
    read (write regs r v) r = v := by
  simp [read, write, h]

theorem write_write (regs : Regs) (r : Reg) (v v' : BitVec 32) :
    write (write regs r v) r v' = write regs r v' := by
  unfold write
  split
  · rfl
  · simp

/-- A write that shows is a write of the value. -/
theorem write_inj {r : Reg} (h : r ≠ 0#5) {regs : Regs} {v v' : BitVec 32} :
    write regs r v = write regs r v' ↔ v = v' := by
  constructor
  · intro heq
    have hread := congrArg (read · r) heq
    simp only [read_write_self h] at hread
    exact hread
  · rintro rfl
    rfl

end HolyRust.Rv32
