import Mathlib.Data.BitVec
import Mathlib.Logic.Function.Basic

/-!
A part of the ARMv7-M instruction set: halfword encodings, the length rule, and
what the data-processing instructions do to the register file.

* `Instr.encode` — the manual's encodings (MOVS T1 and T2, MOVW T3, MOVT T1, STR
  and LDR T1, ADDS and SUBS T1, MULS T1, BX T1).
* `decode` — a halfword with top bits 11101, 11110 or 11111 starts a 32-bit
  instruction. `decode_encode`: any sequence of instructions is read back whole.
* `Instr.exec`, `execAll` — moves into a register, flags left out.
-/

namespace HolyRust.Thumb2

abbrev HalfWord := BitVec 16

/-- A register of the 3-bit fields, `r0` to `r7`. -/
abbrev LowReg := BitVec 3

/-- `r0` to `r15`. -/
abbrev Reg := BitVec 4

inductive Instr where
  | movsImm (rd : LowReg) (imm8 : BitVec 8)
  | movsReg (rd rm : LowReg)
  | movw (rd : Reg) (imm16 : BitVec 16)
  | movt (rd : Reg) (imm16 : BitVec 16)
  /-- The offset is `imm5` words. -/
  | strImm (rt rn : LowReg) (imm5 : BitVec 5)
  | ldrImm (rt rn : LowReg) (imm5 : BitVec 5)
  | adds (rd rn rm : LowReg)
  | subs (rd rn rm : LowReg)
  | muls (rdm rn : LowReg)
  | bx (rm : Reg)
deriving DecidableEq, Repr

/-! ### Encodings -/

/-- MOVW and MOVT scatter their immediate as `imm4:i:imm3:imm8`. -/
def encodeWide (op : BitVec 6) (rd : Reg) (imm16 : BitVec 16) : HalfWord × HalfWord :=
  (0b11110#5 ++ imm16.extractLsb' 11 1 ++ op ++ imm16.extractLsb' 12 4,
    0#1 ++ imm16.extractLsb' 8 3 ++ rd ++ imm16.extractLsb' 0 8)

def opMovw : BitVec 6 := 0b100100

def opMovt : BitVec 6 := 0b101100

/-- The halfwords of an instruction, highest field first. -/
def Instr.encode : Instr → List HalfWord
  | .movsImm rd imm8 => [0b00100#5 ++ rd ++ imm8]
  | .movsReg rd rm => [0b0000000000#10 ++ rm ++ rd]
  | .movw rd imm16 => [(encodeWide opMovw rd imm16).1, (encodeWide opMovw rd imm16).2]
  | .movt rd imm16 => [(encodeWide opMovt rd imm16).1, (encodeWide opMovt rd imm16).2]
  | .strImm rt rn imm5 => [0b01100#5 ++ imm5 ++ rn ++ rt]
  | .ldrImm rt rn imm5 => [0b01101#5 ++ imm5 ++ rn ++ rt]
  | .adds rd rn rm => [0b0001100#7 ++ rm ++ rn ++ rd]
  | .subs rd rn rm => [0b0001101#7 ++ rm ++ rn ++ rd]
  | .muls rdm rn => [0b0100001101#10 ++ rn ++ rdm]
  | .bx rm => [0b010001110#9 ++ rm ++ 0b000#3]

/-- The halfword starts a 32-bit instruction. -/
def isWide (h : HalfWord) : Bool :=
  h.extractLsb' 11 5 = 0b11101#5 ∨ h.extractLsb' 11 5 = 0b11110#5 ∨ h.extractLsb' 11 5 = 0b11111#5

def decode16 (h : HalfWord) : Option Instr :=
  if h.extractLsb' 11 5 = 0b00100#5 then some (.movsImm (h.extractLsb' 8 3) (h.extractLsb' 0 8))
  else if h.extractLsb' 11 5 = 0b01100#5 then
    some (.strImm (h.extractLsb' 0 3) (h.extractLsb' 3 3) (h.extractLsb' 6 5))
  else if h.extractLsb' 11 5 = 0b01101#5 then
    some (.ldrImm (h.extractLsb' 0 3) (h.extractLsb' 3 3) (h.extractLsb' 6 5))
  else if h.extractLsb' 9 7 = 0b0001100#7 then
    some (.adds (h.extractLsb' 0 3) (h.extractLsb' 3 3) (h.extractLsb' 6 3))
  else if h.extractLsb' 9 7 = 0b0001101#7 then
    some (.subs (h.extractLsb' 0 3) (h.extractLsb' 3 3) (h.extractLsb' 6 3))
  else if h.extractLsb' 7 9 = 0b010001110#9 ∧ h.extractLsb' 0 3 = 0b000#3 then
    some (.bx (h.extractLsb' 3 4))
  else if h.extractLsb' 6 10 = 0b0000000000#10 then
    some (.movsReg (h.extractLsb' 0 3) (h.extractLsb' 3 3))
  else if h.extractLsb' 6 10 = 0b0100001101#10 then
    some (.muls (h.extractLsb' 0 3) (h.extractLsb' 3 3))
  else none

/-- The immediate of MOVW and MOVT, put together again. -/
def wideImm (h₁ h₂ : HalfWord) : BitVec 16 :=
  h₁.extractLsb' 0 4 ++ h₁.extractLsb' 10 1 ++ h₂.extractLsb' 12 3 ++ h₂.extractLsb' 0 8

def decode32 (h₁ h₂ : HalfWord) : Option Instr :=
  if h₁.extractLsb' 11 5 = 0b11110#5 ∧ h₂.extractLsb' 15 1 = 0#1 then
    if h₁.extractLsb' 4 6 = opMovw then some (.movw (h₂.extractLsb' 8 4) (wideImm h₁ h₂))
    else if h₁.extractLsb' 4 6 = opMovt then some (.movt (h₂.extractLsb' 8 4) (wideImm h₁ h₂))
    else none
  else none

/-- Split by the length rule and decode; `none` if a halfword is missing or
decodes to nothing. -/
def decode : List HalfWord → Option (List Instr)
  | [] => some []
  | h :: rest =>
      if isWide h then
        match rest with
        | [] => none
        | h₂ :: rest => do return (← decode32 h h₂) :: (← decode rest)
      else do return (← decode16 h) :: (← decode rest)

/-! ### Fields -/

section Fields

open BitVec

/-- A field above the low part is a field of the high part. -/
theorem extract_above {n m : Nat} (x : BitVec n) (y : BitVec m) (start len : Nat) :
    (x ++ y).extractLsb' (m + start) len = x.extractLsb' start len := by
  rw [extractLsb'_append_eq_of_le (Nat.le_add_right m start), Nat.add_sub_cancel_left]

/-- Opcode, register, byte. -/
theorem fields_5_3_8 (op : BitVec 5) (r : LowReg) (imm8 : BitVec 8) :
    (op ++ r ++ imm8).extractLsb' 11 5 = op ∧ (op ++ r ++ imm8).extractLsb' 8 3 = r ∧
      (op ++ r ++ imm8).extractLsb' 0 8 = imm8 := by
  refine ⟨?_, ?_, extractLsb'_append_eq_right⟩
  · exact (extract_above (op ++ r) imm8 3 5).trans extractLsb'_append_eq_left
  · exact (extract_above (op ++ r) imm8 0 3).trans extractLsb'_append_eq_right

/-- Opcode, word offset, two registers. -/
theorem fields_5_5_3_3 (op imm5 : BitVec 5) (rn rt : LowReg) :
    (op ++ imm5 ++ rn ++ rt).extractLsb' 11 5 = op ∧
      (op ++ imm5 ++ rn ++ rt).extractLsb' 6 5 = imm5 ∧
      (op ++ imm5 ++ rn ++ rt).extractLsb' 3 3 = rn ∧
      (op ++ imm5 ++ rn ++ rt).extractLsb' 0 3 = rt := by
  refine ⟨?_, ?_, ?_, extractLsb'_append_eq_right⟩
  · exact (extract_above (op ++ imm5 ++ rn) rt 8 5).trans
      ((extract_above (op ++ imm5) rn 5 5).trans extractLsb'_append_eq_left)
  · exact (extract_above (op ++ imm5 ++ rn) rt 3 5).trans
      ((extract_above (op ++ imm5) rn 0 5).trans extractLsb'_append_eq_right)
  · exact (extract_above (op ++ imm5 ++ rn) rt 0 3).trans extractLsb'_append_eq_right

/-- Opcode, three registers. -/
theorem fields_7_3_3_3 (op : BitVec 7) (rm rn rd : LowReg) :
    (op ++ rm ++ rn ++ rd).extractLsb' 11 5 = op.extractLsb' 2 5 ∧
      (op ++ rm ++ rn ++ rd).extractLsb' 9 7 = op ∧
      (op ++ rm ++ rn ++ rd).extractLsb' 6 3 = rm ∧
      (op ++ rm ++ rn ++ rd).extractLsb' 3 3 = rn ∧
      (op ++ rm ++ rn ++ rd).extractLsb' 0 3 = rd := by
  refine ⟨?_, ?_, ?_, ?_, extractLsb'_append_eq_right⟩
  · exact (extract_above (op ++ rm ++ rn) rd 8 5).trans
      ((extract_above (op ++ rm) rn 5 5).trans (extract_above op rm 2 5))
  · exact (extract_above (op ++ rm ++ rn) rd 6 7).trans
      ((extract_above (op ++ rm) rn 3 7).trans extractLsb'_append_eq_left)
  · exact (extract_above (op ++ rm ++ rn) rd 3 3).trans
      ((extract_above (op ++ rm) rn 0 3).trans extractLsb'_append_eq_right)
  · exact (extract_above (op ++ rm ++ rn) rd 0 3).trans extractLsb'_append_eq_right

/-- Opcode, two registers. -/
theorem fields_10_3_3 (op : BitVec 10) (rm rd : LowReg) :
    (op ++ rm ++ rd).extractLsb' 11 5 = op.extractLsb' 5 5 ∧
      (op ++ rm ++ rd).extractLsb' 9 7 = op.extractLsb' 3 7 ∧
      (op ++ rm ++ rd).extractLsb' 7 9 = op.extractLsb' 1 9 ∧
      (op ++ rm ++ rd).extractLsb' 6 10 = op ∧
      (op ++ rm ++ rd).extractLsb' 3 3 = rm ∧ (op ++ rm ++ rd).extractLsb' 0 3 = rd := by
  refine ⟨?_, ?_, ?_, ?_, ?_, extractLsb'_append_eq_right⟩
  · exact (extract_above (op ++ rm) rd 8 5).trans (extract_above op rm 5 5)
  · exact (extract_above (op ++ rm) rd 6 7).trans (extract_above op rm 3 7)
  · exact (extract_above (op ++ rm) rd 4 9).trans (extract_above op rm 1 9)
  · exact (extract_above (op ++ rm) rd 3 10).trans extractLsb'_append_eq_left
  · exact (extract_above (op ++ rm) rd 0 3).trans extractLsb'_append_eq_right

/-- Opcode, a high register, zeros. -/
theorem fields_9_4_3 (op : BitVec 9) (rm : Reg) (z : BitVec 3) :
    (op ++ rm ++ z).extractLsb' 11 5 = op.extractLsb' 4 5 ∧
      (op ++ rm ++ z).extractLsb' 9 7 = op.extractLsb' 2 7 ∧
      (op ++ rm ++ z).extractLsb' 7 9 = op ∧ (op ++ rm ++ z).extractLsb' 3 4 = rm ∧
      (op ++ rm ++ z).extractLsb' 0 3 = z := by
  refine ⟨?_, ?_, ?_, ?_, extractLsb'_append_eq_right⟩
  · exact (extract_above (op ++ rm) z 8 5).trans (extract_above op rm 4 5)
  · exact (extract_above (op ++ rm) z 6 7).trans (extract_above op rm 2 7)
  · exact (extract_above (op ++ rm) z 4 9).trans extractLsb'_append_eq_left
  · exact (extract_above (op ++ rm) z 0 4).trans extractLsb'_append_eq_right

/-- The first halfword of MOVW and MOVT. -/
theorem fields_5_1_6_4 (op : BitVec 5) (i : BitVec 1) (op' : BitVec 6) (imm4 : BitVec 4) :
    (op ++ i ++ op' ++ imm4).extractLsb' 11 5 = op ∧
      (op ++ i ++ op' ++ imm4).extractLsb' 10 1 = i ∧
      (op ++ i ++ op' ++ imm4).extractLsb' 4 6 = op' ∧
      (op ++ i ++ op' ++ imm4).extractLsb' 0 4 = imm4 := by
  refine ⟨?_, ?_, ?_, extractLsb'_append_eq_right⟩
  · exact (extract_above (op ++ i ++ op') imm4 7 5).trans
      ((extract_above (op ++ i) op' 1 5).trans extractLsb'_append_eq_left)
  · exact (extract_above (op ++ i ++ op') imm4 6 1).trans
      ((extract_above (op ++ i) op' 0 1).trans extractLsb'_append_eq_right)
  · exact (extract_above (op ++ i ++ op') imm4 0 6).trans extractLsb'_append_eq_right

/-- The second halfword of MOVW and MOVT. -/
theorem fields_1_3_4_8 (z : BitVec 1) (imm3 : BitVec 3) (rd : Reg) (imm8 : BitVec 8) :
    (z ++ imm3 ++ rd ++ imm8).extractLsb' 15 1 = z ∧
      (z ++ imm3 ++ rd ++ imm8).extractLsb' 12 3 = imm3 ∧
      (z ++ imm3 ++ rd ++ imm8).extractLsb' 8 4 = rd ∧
      (z ++ imm3 ++ rd ++ imm8).extractLsb' 0 8 = imm8 := by
  refine ⟨?_, ?_, ?_, extractLsb'_append_eq_right⟩
  · exact (extract_above (z ++ imm3 ++ rd) imm8 7 1).trans
      ((extract_above (z ++ imm3) rd 3 1).trans extractLsb'_append_eq_left)
  · exact (extract_above (z ++ imm3 ++ rd) imm8 4 3).trans
      ((extract_above (z ++ imm3) rd 0 3).trans extractLsb'_append_eq_right)
  · exact (extract_above (z ++ imm3 ++ rd) imm8 0 4).trans extractLsb'_append_eq_right

/-- The four parts of a 16-bit immediate put together. -/
theorem concat_imm16 (imm16 : BitVec 16) :
    imm16.extractLsb' 12 4 ++ imm16.extractLsb' 11 1 ++ imm16.extractLsb' 8 3 ++
      imm16.extractLsb' 0 8 = imm16 := by
  refine eq_of_getLsbD_eq fun i hi => ?_
  simp only [getLsbD_append, getLsbD_extractLsb']
  split_ifs <;> simp <;> grind

end Fields

/-! ### Decoding what was encoded -/

/-- A 16-bit instruction is read back, and is one by the length rule. -/
theorem decode16_movsImm (rd : LowReg) (imm8 : BitVec 8) :
    isWide (0b00100#5 ++ rd ++ imm8) = false ∧
      decode16 (0b00100#5 ++ rd ++ imm8) = some (.movsImm rd imm8) := by
  obtain ⟨htop, hrd, himm⟩ := fields_5_3_8 0b00100#5 rd imm8
  unfold isWide decode16
  rw [htop, hrd, himm]
  exact ⟨by decide, if_pos rfl⟩

theorem decode16_mem {op imm5 : BitVec 5} {rn rt : LowReg} {i : Instr}
    (h : op = 0b01100#5 ∧ i = .strImm rt rn imm5 ∨ op = 0b01101#5 ∧ i = .ldrImm rt rn imm5) :
    isWide (op ++ imm5 ++ rn ++ rt) = false ∧ decode16 (op ++ imm5 ++ rn ++ rt) = some i := by
  obtain ⟨htop, himm, hrn, hrt⟩ := fields_5_5_3_3 op imm5 rn rt
  unfold isWide decode16
  rw [htop, himm, hrn, hrt]
  rcases h with ⟨rfl, rfl⟩ | ⟨rfl, rfl⟩
  · refine ⟨by decide, ?_⟩
    rw [if_neg (by decide), if_pos rfl]
  · refine ⟨by decide, ?_⟩
    rw [if_neg (by decide), if_neg (by decide), if_pos rfl]

theorem decode16_addsub {op : BitVec 7} {rm rn rd : LowReg} {i : Instr}
    (h : op = 0b0001100#7 ∧ i = .adds rd rn rm ∨ op = 0b0001101#7 ∧ i = .subs rd rn rm) :
    isWide (op ++ rm ++ rn ++ rd) = false ∧ decode16 (op ++ rm ++ rn ++ rd) = some i := by
  obtain ⟨htop, hop, hrm, hrn, hrd⟩ := fields_7_3_3_3 op rm rn rd
  unfold isWide decode16
  rw [htop, hop, hrm, hrn, hrd]
  rcases h with ⟨rfl, rfl⟩ | ⟨rfl, rfl⟩
  · refine ⟨by decide, ?_⟩
    rw [if_neg (by decide), if_neg (by decide), if_neg (by decide), if_pos rfl]
  · refine ⟨by decide, ?_⟩
    rw [if_neg (by decide), if_neg (by decide), if_neg (by decide), if_neg (by decide), if_pos rfl]

theorem decode16_two {op : BitVec 10} {rm rd : LowReg} {i : Instr}
    (h : op = 0b0000000000#10 ∧ i = .movsReg rd rm ∨ op = 0b0100001101#10 ∧ i = .muls rd rm) :
    isWide (op ++ rm ++ rd) = false ∧ decode16 (op ++ rm ++ rd) = some i := by
  obtain ⟨htop, hseven, hnine, hop, hrm, hrd⟩ := fields_10_3_3 op rm rd
  unfold isWide decode16
  rw [htop, hseven, hnine, hop, hrm, hrd]
  rcases h with ⟨rfl, rfl⟩ | ⟨rfl, rfl⟩
  · refine ⟨by decide, ?_⟩
    rw [if_neg (by decide), if_neg (by decide), if_neg (by decide), if_neg (by decide),
      if_neg (by decide), if_neg (fun h => absurd h.1 (by decide)), if_pos rfl]
  · refine ⟨by decide, ?_⟩
    rw [if_neg (by decide), if_neg (by decide), if_neg (by decide), if_neg (by decide),
      if_neg (by decide), if_neg (fun h => absurd h.1 (by decide)), if_neg (by decide), if_pos rfl]

theorem decode16_bx (rm : Reg) :
    isWide (0b010001110#9 ++ rm ++ 0b000#3) = false ∧
      decode16 (0b010001110#9 ++ rm ++ 0b000#3) = some (.bx rm) := by
  obtain ⟨htop, hseven, hop, hrm, hz⟩ := fields_9_4_3 0b010001110#9 rm 0b000#3
  unfold isWide decode16
  rw [htop, hseven, hop, hrm, hz]
  refine ⟨by decide, ?_⟩
  rw [if_neg (by decide), if_neg (by decide), if_neg (by decide), if_neg (by decide),
    if_neg (by decide), if_pos ⟨rfl, rfl⟩]

theorem decode32_encodeWide {op : BitVec 6} {rd : Reg} {imm16 : BitVec 16} {i : Instr}
    (h : op = opMovw ∧ i = .movw rd imm16 ∨ op = opMovt ∧ i = .movt rd imm16) :
    isWide (encodeWide op rd imm16).1 = true ∧
      decode32 (encodeWide op rd imm16).1 (encodeWide op rd imm16).2 = some i := by
  obtain ⟨htop, hbit, hop, h4⟩ :=
    fields_5_1_6_4 0b11110#5 (imm16.extractLsb' 11 1) op (imm16.extractLsb' 12 4)
  obtain ⟨hz, h3, hrd, h8⟩ :=
    fields_1_3_4_8 0#1 (imm16.extractLsb' 8 3) rd (imm16.extractLsb' 0 8)
  unfold isWide decode32 wideImm encodeWide
  rw [htop, hbit, hop, h4, hz, h3, hrd, h8, concat_imm16]
  rcases h with ⟨rfl, rfl⟩ | ⟨rfl, rfl⟩
  · refine ⟨by decide, ?_⟩
    rw [if_pos ⟨rfl, rfl⟩, if_pos rfl]
  · refine ⟨by decide, ?_⟩
    rw [if_pos ⟨rfl, rfl⟩, if_neg (by decide), if_pos rfl]

theorem decode_narrow {h : HalfWord} {i : Instr} (hi : isWide h = false ∧ decode16 h = some i)
    (rest : List HalfWord) : decode (h :: rest) = (decode rest).map (i :: ·) := by
  conv_lhs => unfold decode
  rw [hi.1, hi.2]
  cases decode rest <;> rfl

theorem decode_wide {h₁ h₂ : HalfWord} {i : Instr}
    (hi : isWide h₁ = true ∧ decode32 h₁ h₂ = some i) (rest : List HalfWord) :
    decode (h₁ :: h₂ :: rest) = (decode rest).map (i :: ·) := by
  conv_lhs => unfold decode
  rw [hi.1]
  simp only [hi.2, if_true]
  cases decode rest <;> rfl

/-- An encoded instruction in front of a stream is split off and read back. -/
theorem decode_encode_append (i : Instr) (rest : List HalfWord) :
    decode (i.encode ++ rest) = (decode rest).map (i :: ·) := by
  cases i with
  | movsImm rd imm8 => exact decode_narrow (decode16_movsImm rd imm8) rest
  | movsReg rd rm => exact decode_narrow (decode16_two (.inl ⟨rfl, rfl⟩)) rest
  | movw rd imm16 => exact decode_wide (decode32_encodeWide (.inl ⟨rfl, rfl⟩)) rest
  | movt rd imm16 => exact decode_wide (decode32_encodeWide (.inr ⟨rfl, rfl⟩)) rest
  | strImm rt rn imm5 => exact decode_narrow (decode16_mem (.inl ⟨rfl, rfl⟩)) rest
  | ldrImm rt rn imm5 => exact decode_narrow (decode16_mem (.inr ⟨rfl, rfl⟩)) rest
  | adds rd rn rm => exact decode_narrow (decode16_addsub (.inl ⟨rfl, rfl⟩)) rest
  | subs rd rn rm => exact decode_narrow (decode16_addsub (.inr ⟨rfl, rfl⟩)) rest
  | muls rdm rn => exact decode_narrow (decode16_two (.inr ⟨rfl, rfl⟩)) rest
  | bx rm => exact decode_narrow (decode16_bx rm) rest

/-- The halfwords of a sequence of instructions. -/
def encodeAll (is : List Instr) : List HalfWord := is.flatMap Instr.encode

theorem decode_encodeAll (is : List Instr) : decode (encodeAll is) = some is := by
  induction is with
  | nil => rfl
  | cons i is ih =>
      unfold encodeAll at ih ⊢
      rw [List.flatMap_cons, decode_encode_append, ih]
      rfl

/-! ### Execution -/

abbrev Regs := Reg → BitVec 32

/-- The low registers are the first eight. -/
def LowReg.full (r : LowReg) : Reg := r.setWidth 4

/-- The value an instruction that only moves data into a register leaves there;
the manual does not let SP or PC be the target of a wide move. -/
def Instr.exec (regs : Regs) : Instr → Option Regs
  | .movsImm rd imm8 => some (Function.update regs rd.full (imm8.setWidth 32))
  | .movsReg rd rm => some (Function.update regs rd.full (regs rm.full))
  | .movw rd imm16 =>
      if rd = 13#4 ∨ rd = 15#4 then none
      else some (Function.update regs rd (imm16.setWidth 32))
  | .movt rd imm16 =>
      if rd = 13#4 ∨ rd = 15#4 then none
      else some (Function.update regs rd (imm16 ++ (regs rd).setWidth 16))
  | _ => none

/-- Moves one after the other; `none` if there is anything else among them. -/
def execAll (is : List Instr) (regs : Regs) : Option Regs := is.foldlM Instr.exec regs

end HolyRust.Thumb2
