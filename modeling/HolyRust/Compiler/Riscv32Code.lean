import HolyRust.Compiler.CodeImage
import HolyRust.Library.Rv32
import Mathlib.Tactic.IntervalCases

/-!
The RISC-V immediate loader, decoded and executed.

`emit_mov_imm` writes one `ADDI` for an immediate that 12 signed bits hold, else
`LUI` and, unless the low part is zero, `ADDI`. The split is right, but
`encode_lui` puts the 20-bit field at bit 20 of the word instead of bit 12.

* `movImmInstrs` — the instructions the words decode to.
* `loadsImm_iff` — the register ends up with the immediate exactly in the short
  form: the misplaced field is wrong for every other immediate.
-/

namespace HolyRust.Emitter

open Fallible (Ends)

section Encodings

variable (rd rs1 : Reg) (imm : Word)

theorem encodeAddi_eq :
    encodeAddi rd rs1 imm =
      (Rv32.Instr.addi (rd.setWidth 5) (rs1.setWidth 5) (imm.setWidth 12)).encode := by
  refine BitVec.eq_of_getLsbD_eq fun i hi => ?_
  simp only [encodeAddi, Rv32.Instr.encode, Rv32.opImm, Rv32.funct3Addi, BitVec.getLsbD_append,
    BitVec.getLsbD_or, BitVec.getLsbD_and, BitVec.getLsbD_shiftLeft, BitVec.getLsbD_setWidth]
  interval_cases i <;> simp

/-- The word is a `LUI` of the field shifted out by eight bits. -/
theorem encodeLui_eq :
    encodeLui rd imm = (Rv32.Instr.lui (rd.setWidth 5) (imm.setWidth 20 <<< 8)).encode := by
  refine BitVec.eq_of_getLsbD_eq fun i hi => ?_
  simp only [encodeLui, Rv32.Instr.encode, Rv32.opLui, BitVec.getLsbD_append,
    BitVec.getLsbD_or, BitVec.getLsbD_and, BitVec.getLsbD_shiftLeft, BitVec.getLsbD_setWidth]
  interval_cases i <;> simp

end Encodings

/-- The immediates of the short form: 12 bits, sign-extended. -/
def ShortImm (imm : Word) : Prop := imm ≤ 0x7FF ∨ imm ≥ 0xFFFFF800

instance (imm : Word) : Decidable (ShortImm imm) :=
  inferInstanceAs (Decidable (imm ≤ 0x7FF ∨ imm ≥ 0xFFFFF800))

theorem shortImm_iff {imm : Word} :
    ShortImm imm ↔ imm.toNat < 2048 ∨ 2 ^ 32 - 2048 ≤ imm.toNat := by
  unfold ShortImm
  bv_omega

/-- The low 12 bits of a short immediate give it back. -/
theorem signExtend_of_shortImm {imm : Word} (h : ShortImm imm) :
    (imm.setWidth 12).signExtend 32 = imm := by
  have hlt := imm.isLt
  rw [shortImm_iff] at h
  apply BitVec.eq_of_toNat_eq
  rw [BitVec.toNat_signExtend, BitVec.msb_eq_decide, BitVec.toNat_setWidth, BitVec.toNat_setWidth]
  by_cases hneg : 2 ^ (12 - 1) ≤ imm.toNat % 2 ^ 12
  · simp only [hneg, decide_true, if_true]
    omega
  · simp only [hneg, decide_false, Bool.false_eq_true, if_false]
    omega

/-- `imm.wrapping_add(0x800) >> 12`. -/
def hi20 (imm : Word) : Word := (imm + 0x800#32) >>> 12

/-- `imm.wrapping_sub(hi20 << 12)`. -/
def lo12 (imm : Word) : Word := imm - (hi20 imm <<< 12)

theorem toNat_hi20 (imm : Word) :
    (hi20 imm).toNat = (imm.toNat + 2048) % 2 ^ 32 / 2 ^ 12 := by
  rw [hi20, BitVec.toNat_ushiftRight, BitVec.toNat_add, BitVec.toNat_ofNat,
    Nat.shiftRight_eq_div_pow]

theorem toNat_lo12 (imm : Word) :
    (lo12 imm).toNat =
      (2 ^ 32 - (hi20 imm).toNat * 2 ^ 12 % 2 ^ 32 + imm.toNat) % 2 ^ 32 := by
  rw [lo12, BitVec.toNat_sub, BitVec.toNat_shiftLeft, Nat.shiftLeft_eq]

/-- The rounding leaves a short low part. -/
theorem shortImm_lo12 (imm : Word) : ShortImm (lo12 imm) := by
  have hlt := imm.isLt
  rw [shortImm_iff, toNat_lo12, toNat_hi20]
  omega

/-- The instructions behind the words of `emit_mov_imm`. -/
def movImmInstrs (reg : Reg) (imm : Word) : List Rv32.Instr :=
  if ShortImm imm then [.addi (reg.setWidth 5) 0 (imm.setWidth 12)]
  else
    .lui (reg.setWidth 5) ((hi20 imm).setWidth 20 <<< 8) ::
      if lo12 imm ≠ 0 then [.addi (reg.setWidth 5) (reg.setWidth 5) ((lo12 imm).setWidth 12)]
      else []

/-- The units of a list of instructions. -/
def rv32Units (is : List Rv32.Instr) : List (List Byte) := is.map fun i => leBytes 4 i.encode

theorem writes_push32 {word : Word} {i : Rv32.Instr} (h : word = i.encode) :
    Writes (Riscv32Emitter.push32 word) (rv32Units [i]) := by
  subst h
  exact writes_push _

theorem emitMovImm_eq (reg : Reg) (imm : Word) :
    Riscv32Emitter.emitMovImm reg imm =
      if ShortImm imm then Riscv32Emitter.push32 (encodeAddi reg 0 imm)
      else
        Riscv32Emitter.push32 (encodeLui reg (hi20 imm)) >>= fun _ =>
          if lo12 imm ≠ 0 then Riscv32Emitter.push32 (encodeAddi reg reg (lo12 imm))
          else pure ⟨⟩ :=
  rfl

theorem writes_movImm (reg : Reg) (imm : Word) :
    Writes (Riscv32Emitter.emitMovImm reg imm) (rv32Units (movImmInstrs reg imm)) := by
  rw [emitMovImm_eq]
  unfold movImmInstrs
  by_cases hshort : ShortImm imm
  · rw [if_pos hshort, if_pos hshort]
    exact writes_push32 (encodeAddi_eq reg 0 imm)
  · rw [if_neg hshort, if_neg hshort]
    refine (writes_push32 (encodeLui_eq reg (hi20 imm))).seq ?_
    by_cases hlow : lo12 imm ≠ 0
    · rw [if_pos hlow, if_pos hlow]
      exact writes_push32 (encodeAddi_eq reg reg (lo12 imm))
    · rw [if_neg hlow, if_neg hlow]
      exact writes_pure

/-! ### What the instructions do -/

/-- From any buffer with room for two words the call succeeds, the words it adds
decode, and executing them puts `imm` in `reg` and changes nothing else. -/
def LoadsImm (reg : Reg) (imm : Word) : Prop :=
  ∀ e : CodeBuffer .riscv32, e.lenWords + 2 ≤ e.capWords → ∃ e' is,
    Riscv32Emitter.emitMovImm reg imm e = .ok ⟨⟩ e' ∧
      Rv32.decodeAll ((codeWords e').drop e.lenWords) = some is ∧
        ∀ regs, Rv32.execAll is regs = Rv32.write regs (reg.setWidth 5) imm

/-- The value the instructions leave in a register that is not `x0`. -/
def loadedValue (imm : Word) : Word :=
  if ShortImm imm then imm else (((hi20 imm).setWidth 20 <<< 8) ++ 0#12) + lo12 imm

theorem execAll_movImmInstrs {reg : Reg} (hreg : reg.setWidth 5 ≠ 0#5) (imm : Word)
    (regs : Rv32.Regs) :
    Rv32.execAll (movImmInstrs reg imm) regs =
      Rv32.write regs (reg.setWidth 5) (loadedValue imm) := by
  unfold movImmInstrs loadedValue
  by_cases hshort : ShortImm imm
  · rw [if_pos hshort, if_pos hshort]
    show Rv32.write regs _ (Rv32.read regs 0#5 + (imm.setWidth 12).signExtend 32) = _
    rw [Rv32.read_zero, BitVec.zero_add, signExtend_of_shortImm hshort]
  · rw [if_neg hshort, if_neg hshort]
    by_cases hlow : lo12 imm ≠ 0
    · rw [if_pos hlow]
      simp only [Rv32.execAll_cons, Rv32.execAll_nil, Rv32.Instr.exec]
      rw [Rv32.read_write_self hreg, Rv32.write_write, signExtend_of_shortImm (shortImm_lo12 imm)]
    · rw [if_neg hlow, Decidable.not_not.mp hlow]
      simp only [Rv32.execAll_cons, Rv32.execAll_nil, Rv32.Instr.exec]
      exact congrArg _ (BitVec.add_zero _).symm

theorem toNat_misplaced (x : Word) :
    ((x.setWidth 20 <<< 8) ++ 0#12).toNat = x.toNat % 2 ^ 20 * 2 ^ 8 % 2 ^ 20 * 2 ^ 12 := by
  rw [BitVec.toNat_append, BitVec.toNat_shiftLeft, BitVec.toNat_setWidth, BitVec.toNat_ofNat,
    Nat.zero_mod, Nat.or_zero, Nat.shiftLeft_eq, Nat.shiftLeft_eq]

/-- The field in the wrong place is never the one in the right place. -/
theorem loadedValue_eq_iff (imm : Word) : loadedValue imm = imm ↔ ShortImm imm := by
  unfold loadedValue
  by_cases hshort : ShortImm imm
  · rw [if_pos hshort]
    exact iff_of_true rfl hshort
  · rw [if_neg hshort]
    refine iff_of_false (fun heq => hshort ?_) hshort
    have hlt := imm.isLt
    have hnat := congrArg BitVec.toNat heq
    rw [shortImm_iff]
    rw [BitVec.toNat_add, toNat_misplaced, toNat_lo12, toNat_hi20] at hnat
    omega

/-- What the call leaves behind, from a buffer with room for it. -/
theorem movImm_decodes (reg : Reg) (imm : Word) {e : CodeBuffer .riscv32}
    (hroom : e.lenWords + 2 ≤ e.capWords) :
    ∃ e', Riscv32Emitter.emitMovImm reg imm e = .ok ⟨⟩ e' ∧
      Rv32.decodeAll ((codeWords e').drop e.lenWords) = some (movImmInstrs reg imm) := by
  obtain ⟨e', hrun, hunits⟩ :=
    (writes_movImm reg imm).appends (riscv32_movImm_fits reg imm) hroom
  refine ⟨e', hrun, ?_⟩
  have hcode : (codeWords e').drop e.lenWords =
      (movImmInstrs reg imm).map Rv32.Instr.encode := by
    unfold codeWords
    rw [← List.map_drop, hunits, rv32Units, List.map_map]
    exact List.map_congr_left fun i _ => ofLeBytes_leBytes32 _
  rw [hcode, Rv32.decodeAll_map_encode]

/-- The loader loads what its instructions leave. -/
theorem loadsImm_iff_loadedValue {reg : Reg} (hreg : reg.setWidth 5 ≠ 0#5) (imm : Word) :
    LoadsImm reg imm ↔ loadedValue imm = imm := by
  constructor
  · intro hloads
    have hroom : (CodeBuffer.intoExecBuffer .riscv32).lenWords + 2 ≤
        (CodeBuffer.intoExecBuffer .riscv32).capWords := by decide
    obtain ⟨e', is, hrun, hdecode, hexec⟩ := hloads _ hroom
    obtain ⟨e₁, hrun₁, hdecode₁⟩ := movImm_decodes reg imm hroom
    cases hrun.symm.trans hrun₁
    cases hdecode.symm.trans hdecode₁
    have hsame := (execAll_movImmInstrs hreg imm fun _ => 0).symm.trans (hexec fun _ => 0)
    exact (Rv32.write_inj hreg).mp hsame
  · intro heq e hroom
    obtain ⟨e', hrun, hdecode⟩ := movImm_decodes reg imm hroom
    refine ⟨e', _, hrun, hdecode, fun regs => ?_⟩
    rw [execAll_movImmInstrs hreg, heq]

/-- For `x1` to `x31`: the loader loads exactly the immediates of the short
form. -/
theorem loadsImm_iff {reg : Reg} (h : 1 ≤ reg ∧ reg ≤ 31) (imm : Word) :
    LoadsImm reg imm ↔ ShortImm imm := by
  have hreg : reg.setWidth 5 ≠ 0#5 := by bv_omega
  exact (loadsImm_iff_loadedValue hreg imm).trans (loadedValue_eq_iff imm)

/-- `a0 = -5` is one `ADDI`. -/
theorem loadsImm_minus_five : LoadsImm 10 0xFFFFFFFB :=
  (loadsImm_iff (by decide) 0xFFFFFFFB).mpr (by decide)

/-- `0x1000` arrives as `0x100000`. -/
theorem not_loadsImm_0x1000 : ¬ ∀ reg imm, 1 ≤ reg ∧ reg ≤ 31 → LoadsImm reg imm := by
  intro h
  have heq := (loadsImm_iff_loadedValue (by decide) 0x1000).mp (h 10 0x1000 (by decide))
  exact absurd heq (by decide)

end HolyRust.Emitter
