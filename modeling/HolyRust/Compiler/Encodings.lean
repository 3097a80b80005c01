import HolyRust.Compiler.Emitter

/-!
The pure encoding helpers of the emitters (`compiler/emitter.rs`).

Register numbers are `u8` as in the source: the Thumb-2 helpers leave a number
out of range unmasked unless the source masks it.
-/

namespace HolyRust.Emitter

/-! ### Thumb-2 -/

/-- The two halfwords of a MOVW or MOVT around the 16 immediate bits. -/
def movImm16 (opcode : HalfWord) (rd : Reg) (imm16 : Word) : HalfWord × HalfWord :=
  let imm4 := ((imm16 >>> 12) &&& 0xF).setWidth 16
  let i := ((imm16 >>> 11) &&& 0x1).setWidth 16
  let imm3 := ((imm16 >>> 8) &&& 0x7).setWidth 16
  let imm8 := (imm16 &&& 0xFF).setWidth 16
  (opcode ||| (i <<< 10) ||| imm4, (imm3 <<< 12) ||| ((rd.setWidth 16 &&& 0xF) <<< 8) ||| imm8)

/-- MOVW Rd, #imm16. -/
def encodeMovw (rd : Reg) (imm : Word) : HalfWord × HalfWord := movImm16 0xF240 rd imm

/-- MOVT Rd, #imm16, of the upper half. -/
def encodeMovt (rd : Reg) (imm : Word) : HalfWord × HalfWord := movImm16 0xF2C0 rd (imm >>> 16)

/-- A 16-bit load or store with a scaled 5-bit offset. -/
def memImm (opcode : HalfWord) (rt rn : Reg) (byteOffset : Word) : Option HalfWord :=
  if rt > 7 ∨ rn > 7 ∨ byteOffset > 124 ∨ byteOffset % 4 ≠ 0 then none
  else some (opcode ||| ((byteOffset / 4).setWidth 16 <<< 6) ||| (rn.setWidth 16 <<< 3) |||
    rt.setWidth 16)

/-- 16-bit STR Rt, [Rn, #imm5*4]. -/
def encodeStrImm (rt rn : Reg) (byteOffset : Word) : Option HalfWord :=
  memImm 0x6000 rt rn byteOffset

/-- 16-bit LDR Rt, [Rn, #imm5*4]. -/
def encodeLdrImm (rt rn : Reg) (byteOffset : Word) : Option HalfWord :=
  memImm 0x6800 rt rn byteOffset

/-- SDIV Rd, Rn, Rm. -/
def encodeSdiv (rd rn rm : Reg) : HalfWord × HalfWord :=
  (0xFB90 ||| rn.setWidth 16, 0xF010 ||| (rd.setWidth 16 <<< 8) ||| rm.setWidth 16)

/-! ### RV32I -/

/-- LUI rd, imm20. -/
def encodeLui (rd : Reg) (imm20 : Word) : Word :=
  0x37 ||| ((rd.setWidth 32 &&& 0x1F) <<< 7) ||| ((imm20 &&& 0xFFFFF) <<< 20)

/-- ADDI rd, rs1, imm12 (raw 12-bit field). -/
def encodeAddi (rd rs1 : Reg) (imm12Field : Word) : Word :=
  0x13 ||| ((rd.setWidth 32 &&& 0x1F) <<< 7) ||| ((rs1.setWidth 32 &&& 0x1F) <<< 15) |||
    ((imm12Field &&& 0xFFF) <<< 20)

/-- Outside the signed 12-bit range: `(0x800..0xFFFFF000).contains(&offset)`. -/
def outOfImm12 (offset : Word) : Bool :=
  decide (0x800#32 ≤ offset) && decide (offset < 0xFFFFF000#32)

/-- SW rs2, off(rs1). -/
def encodeSw (rs2 rs1 : Reg) (offset : Word) : Option Word :=
  if outOfImm12 offset then none
  else
    let off := offset &&& 0xFFF
    some (0x23 ||| (2 <<< 12) ||| ((off >>> 5) <<< 25) ||| ((rs2.setWidth 32 &&& 0x1F) <<< 20) |||
      ((rs1.setWidth 32 &&& 0x1F) <<< 15) ||| ((off &&& 0x1F) <<< 7))

/-- LW rd, off(rs1). -/
def encodeLw (rd rs1 : Reg) (offset : Word) : Option Word :=
  if outOfImm12 offset then none
  else
    some (0x03 ||| (2 <<< 12) ||| ((rd.setWidth 32 &&& 0x1F) <<< 7) |||
      ((rs1.setWidth 32 &&& 0x1F) <<< 15) ||| ((offset &&& 0xFFF) <<< 20))

/-- R-type with custom funct7/funct3. -/
def encodeRtype (rd rs1 rs2 : Reg) (funct7 funct3 : Word) : Word :=
  0x33 ||| (funct7 <<< 25) ||| ((rs2.setWidth 32 &&& 0x1F) <<< 20) |||
    ((rs1.setWidth 32 &&& 0x1F) <<< 15) ||| (funct3 <<< 12) ||| ((rd.setWidth 32 &&& 0x1F) <<< 7)

/-- ADD/SUB (funct7 selects). -/
def encodeRtypeAddsub (rd rs1 rs2 : Reg) (sub : Bool) : Word :=
  let funct7 := if sub then 0x20 else 0x00
  0x33 ||| (funct7 <<< 25) ||| ((rs2.setWidth 32 &&& 0x1F) <<< 20) |||
    ((rs1.setWidth 32 &&& 0x1F) <<< 15) ||| ((rd.setWidth 32 &&& 0x1F) <<< 7)

/-- JALR x0, ra, 0. -/
def rv32Ret : Word := 0x00008067

end HolyRust.Emitter
