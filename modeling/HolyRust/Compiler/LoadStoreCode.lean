import HolyRust.Compiler.Encodings
import HolyRust.Library.Rv32Formats
import Mathlib.Tactic.IntervalCases

/-!
The offsets of `encode_sw` and `encode_lw`. A word accepted is the store or load
of the manual with the low twelve bits of the offset; the range that is refused
ends at `0xFFFFF000`, half of the twelve-bit negatives too early.

* `encodeSw_eq`, `encodeLw_eq` — the words.
* `signExtend_low12_iff` — which offsets twelve bits hold.
* `loadStore_roundTrips_iff` — the offsets on which both encoders are right.
-/

namespace HolyRust.Emitter

/-- `&off 0xFFF`, as the field of the instruction. -/
def low12 (offset : Word) : BitVec 12 := offset.setWidth 12

/-- Read as a signed number, the offset fits twelve bits. -/
def Imm12 (offset : Word) : Prop := -2048 ≤ offset.toInt ∧ offset.toInt ≤ 2047

instance (offset : Word) : Decidable (Imm12 offset) := inferInstanceAs (Decidable (_ ∧ _))

theorem imm12_iff {offset : Word} :
    Imm12 offset ↔ offset.toNat < 2 ^ 11 ∨ 2 ^ 32 - 2 ^ 11 ≤ offset.toNat := by
  have hlt := offset.isLt
  unfold Imm12
  rw [BitVec.toInt_eq_toNat_cond]
  split <;> omega

/-- Twelve bits hold the offsets of `Imm12` and no others. -/
theorem signExtend_low12_iff {offset : Word} :
    (low12 offset).signExtend 32 = offset ↔ Imm12 offset := by
  have hlt := offset.isLt
  rw [imm12_iff, ← BitVec.toNat_inj, BitVec.toNat_signExtend, BitVec.msb_eq_decide, low12,
    BitVec.toNat_setWidth, BitVec.toNat_setWidth]
  by_cases hneg : 2 ^ (12 - 1) ≤ offset.toNat % 2 ^ 12
  · simp only [hneg, decide_true, if_true]
    omega
  · simp only [hneg, decide_false, Bool.false_eq_true, if_false]
    omega

section Encodings

variable {r base : Reg} {offset w : Word}

theorem encodeSw_eq (h : encodeSw r base offset = some w) :
    w = (Rv32.Op.sw (r.setWidth 5) (base.setWidth 5) (low12 offset)).encode := by
  unfold encodeSw at h
  split at h
  · cases h
  · cases h
    refine BitVec.eq_of_getLsbD_eq fun i hi => ?_
    simp only [low12, Rv32.Op.encode, Rv32.opStore, Rv32.funct3Word, BitVec.getLsbD_append,
      BitVec.getLsbD_or, BitVec.getLsbD_and, BitVec.getLsbD_shiftLeft, BitVec.getLsbD_setWidth,
      BitVec.getLsbD_ushiftRight, BitVec.getLsbD_extractLsb']
    interval_cases i <;> simp

theorem encodeLw_eq (h : encodeLw r base offset = some w) :
    w = (Rv32.Op.lw (r.setWidth 5) (base.setWidth 5) (low12 offset)).encode := by
  unfold encodeLw at h
  split at h
  · cases h
  · cases h
    refine BitVec.eq_of_getLsbD_eq fun i hi => ?_
    simp only [low12, Rv32.Op.encode, Rv32.opLoad, Rv32.funct3Word, BitVec.getLsbD_append,
      BitVec.getLsbD_or, BitVec.getLsbD_and, BitVec.getLsbD_shiftLeft, BitVec.getLsbD_setWidth]
    interval_cases i <;> simp

end Encodings

theorem isSome_encodeSw (r base : Reg) (offset : Word) :
    (encodeSw r base offset).isSome = !outOfImm12 offset := by
  unfold encodeSw
  cases outOfImm12 offset <;> rfl

theorem isSome_encodeLw (r base : Reg) (offset : Word) :
    (encodeLw r base offset).isSome = !outOfImm12 offset := by
  unfold encodeLw
  cases outOfImm12 offset <;> rfl

/-! ### Both encoders -/

/-- The encoder accepts exactly the offsets of twelve signed bits, and the word is
read back as the operation on these registers with this offset. -/
def RoundTrips (encoder : Reg → Reg → Word → Option Word)
    (op : Rv32.Reg → Rv32.Reg → BitVec 12 → Rv32.Op) (r base : Reg) (offset : Word) : Prop :=
  ((encoder r base offset).isSome = true ↔ Imm12 offset) ∧
    ∀ w, encoder r base offset = some w → ∃ r' base' imm12,
      Rv32.decodeOp w = some (op r' base' imm12) ∧
        r'.setWidth 8 = r ∧ base'.setWidth 8 = base ∧ imm12.signExtend 32 = offset

/-- The negatives the range test lets through: they need more than twelve bits. -/
def PastImm12 (offset : Word) : Prop := 0xFFFFF000 ≤ offset ∧ offset < 0xFFFFF800

instance (offset : Word) : Decidable (PastImm12 offset) := inferInstanceAs (Decidable (_ ∧ _))

/-- The range test is right about every other offset. -/
theorem outOfImm12_iff {offset : Word} :
    ((!outOfImm12 offset) = true ↔ Imm12 offset) ↔ ¬ PastImm12 offset := by
  have hlt := offset.isLt
  rw [imm12_iff]
  simp only [outOfImm12, PastImm12, Bool.not_eq_true', Bool.and_eq_false_iff,
    decide_eq_false_iff_not, BitVec.le_def, BitVec.lt_def, BitVec.ofNat_eq_ofNat,
    BitVec.reduceToNat]
  omega

/-- A register number below 32 survives its field. -/
theorem setWidth_field {r : Reg} (h : r < 32) : (r.setWidth 5).setWidth 8 = r := by
  bv_omega

theorem roundTrips_iff {encoder : Reg → Reg → Word → Option Word}
    {op : Rv32.Reg → Rv32.Reg → BitVec 12 → Rv32.Op} {r base : Reg} {offset : Word}
    (hsome : (encoder r base offset).isSome = !outOfImm12 offset)
    (hword : ∀ {w}, encoder r base offset = some w →
      w = (op (r.setWidth 5) (base.setWidth 5) (low12 offset)).encode)
    (hr : r < 32) (hbase : base < 32) :
    RoundTrips encoder op r base offset ↔ ¬ PastImm12 offset := by
  rw [← outOfImm12_iff, ← hsome]
  refine ⟨fun h => h.1, fun hiff => ⟨hiff, fun w hw => ?_⟩⟩
  have hshort : Imm12 offset := hiff.mp (by rw [hw, Option.isSome_some])
  refine ⟨r.setWidth 5, base.setWidth 5, low12 offset, ?_, setWidth_field hr,
    setWidth_field hbase, signExtend_low12_iff.mpr hshort⟩
  rw [hword hw, Rv32.decodeOp_encode]

/-- For all registers below 32: both encoders accept what they should and are read
back exactly when the offset is not one of the negatives let through. -/
theorem loadStore_roundTrips_iff (r base : Reg) (hr : r < 32) (hbase : base < 32) (offset : Word) :
    (RoundTrips encodeSw .sw r base offset ∧ RoundTrips encodeLw .lw r base offset) ↔
      ¬ PastImm12 offset := by
  rw [roundTrips_iff (isSome_encodeSw r base offset) encodeSw_eq hr hbase,
    roundTrips_iff (isSome_encodeLw r base offset) encodeLw_eq hr hbase, and_self_iff]

/-- A store four bytes below its base. -/
theorem loadStore_roundTrips_minus_four :
    RoundTrips encodeSw .sw 10 2 0xFFFFFFFC ∧ RoundTrips encodeLw .lw 10 2 0xFFFFFFFC :=
  (loadStore_roundTrips_iff 10 2 (by decide) (by decide) 0xFFFFFFFC).mpr (by decide)

/-- The offset -4096 is encoded as 0. -/
theorem encodeSw_minus_4096 :
    encodeSw 10 2 0xFFFFF000 = encodeSw 10 2 0 ∧
      ¬ ∀ (r base : Reg) (offset : Word), r < 32 → base < 32 →
        RoundTrips encodeSw .sw r base offset ∧ RoundTrips encodeLw .lw r base offset := by
  refine ⟨by decide, fun hall => ?_⟩
  have haccepts := (hall 10 2 0xFFFFF000 (by decide) (by decide)).1.1
  exact absurd (haccepts.mp (by decide)) (by decide)

end HolyRust.Emitter
