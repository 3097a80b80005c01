import HolyRust.Compiler.Multiplication
import HolyRust.Library.Rv32Formats

/-!
The division of the emitter contract, executed on both backends. `encode_sdiv` has
`0001` in a field of its second halfword where the manual has `1111`, so what it
writes is no instruction; the RISC-V `DIV` is right but for a zero divisor, where
it leaves -1.

* `run_emitDiv_arm`, `run_emitDiv_riscv32` — what the code of each backend does.
* `divides_iff` — on which operands the contract is met.
-/

namespace HolyRust.Emitter

/-! ### Register files -/

/-- The registers of a target. -/
def RegFile : Target → Type
  | .arm => Thumb2.Regs
  | .riscv32 => Rv32.Regs

def readReg : (t : Target) → RegFile t → Reg → Word
  | .arm, regs, r => regs (wide r)
  | .riscv32, regs, r => Rv32.read regs (r.setWidth 5)

def writeReg : (t : Target) → RegFile t → Reg → Word → RegFile t
  | .arm, regs, r, v => Function.update regs (wide r) v
  | .riscv32, regs, r, v => Rv32.write regs (r.setWidth 5) v

/-- Units of code, decoded and executed. -/
def runUnits : (t : Target) → List (List Byte) → RegFile t → Option (RegFile t)
  | .arm, us, regs => Thumb2.run (us.map (ofLeBytes 16)) regs
  | .riscv32, us, regs => Rv32.run (us.map (ofLeBytes 32)) regs

/-- `r0` to `r12`, `x1` to `x31`. -/
def General : Target → Reg → Prop
  | .arm, r => r ≤ 12
  | .riscv32, r => 1 ≤ r ∧ r ≤ 31

instance (t : Target) (r : Reg) : Decidable (General t r) :=
  match t with
  | .arm => inferInstanceAs (Decidable (r ≤ 12))
  | .riscv32 => inferInstanceAs (Decidable (1 ≤ r ∧ r ≤ 31))

/-- From any buffer with room for it the call succeeds, and executing what it adds
leaves the quotient of the contract in `dst` and changes nothing else. -/
def Divides (t : Target) (dst a b : Reg) (regs : RegFile t) : Prop :=
  ∀ e : CodeBuffer t, e.lenWords + instrUnits t ≤ e.capWords → ∃ e',
    emit t (.div dst a b) e = .ok ⟨⟩ e' ∧
      runUnits t (e'.units.drop e.lenWords) regs =
        some (writeReg t regs dst (signedDivOr0 (readReg t regs a) (readReg t regs b)))

/-! ### Thumb-2 -/

theorem exists_wide {r : Reg} (h : r ≤ 15) : ∃ q : Thumb2.Reg, r = q.setWidth 8 := by
  refine ⟨r.setWidth 4, BitVec.eq_of_toNat_eq ?_⟩
  rw [BitVec.toNat_setWidth, BitVec.toNat_setWidth]
  have : r.toNat ≤ 15 := h
  omega

/-- The halfwords of `encode_sdiv`, field by field. -/
theorem encodeSdiv_eq {rd rn rm : Reg} (hd : rd ≤ 15) (hn : rn ≤ 15) (hm : rm ≤ 15) :
    encodeSdiv rd rn rm =
      (Thumb2.opSdiv ++ wide rn, 0b1111#4 ++ wide rd ++ 0b0001#4 ++ wide rm) := by
  obtain ⟨d, rfl⟩ := exists_wide hd
  obtain ⟨n, rfl⟩ := exists_wide hn
  obtain ⟨m, rfl⟩ := exists_wide hm
  refine Prod.ext (BitVec.eq_of_getLsbD_eq fun i hi => ?_)
    (BitVec.eq_of_getLsbD_eq fun i hi => ?_)
  all_goals
    simp only [encodeSdiv, Thumb2.opSdiv, wide, BitVec.getLsbD_append, BitVec.getLsbD_or,
      BitVec.getLsbD_shiftLeft, BitVec.getLsbD_setWidth]
    interval_cases i <;> simp

theorem emitDiv_writes {dst a b : Reg} (hd : dst ≤ 15) (ha : a ≤ 15) (hb : b ≤ 15) :
    Fits 2 (emit .arm (.div dst a b)) ∧
      Writes (emit .arm (.div dst a b))
        [leBytes 2 (encodeSdiv dst a b).1, leBytes 2 (encodeSdiv dst a b).2] := by
  have hcall : emit .arm (.div dst a b) =
      (Thumb2Emitter.push16 (encodeSdiv dst a b).1 >>= fun _ =>
        Thumb2Emitter.push16 (encodeSdiv dst a b).2) := by
    show Thumb2Emitter.emitDiv dst a b = _
    unfold Thumb2Emitter.emitDiv
    rw [if_neg]
    rintro (h | h | h)
    · exact absurd h (BitVec.not_lt.mpr hd)
    · exact absurd h (BitVec.not_lt.mpr ha)
    · exact absurd h (BitVec.not_lt.mpr hb)
  rw [hcall]
  exact ⟨(fits_push16 _).seq (fits_push16 _), (writes_push _).seq (writes_push _)⟩

/-- The second halfword decodes to nothing. -/
theorem run_emitDiv_arm {dst a b : Reg} (hd : dst ≤ 15) (ha : a ≤ 15) (hb : b ≤ 15)
    {e : CodeBuffer .arm} (hroom : e.lenWords + 2 ≤ e.capWords) (regs : RegFile .arm) :
    ∃ e', emit .arm (.div dst a b) e = .ok ⟨⟩ e' ∧
      runUnits .arm (e'.units.drop e.lenWords) regs = none := by
  obtain ⟨hfits, hwrites⟩ := emitDiv_writes hd ha hb
  obtain ⟨e', hrun, hunits⟩ := hwrites.appends hfits hroom
  refine ⟨e', hrun, ?_⟩
  rw [hunits, encodeSdiv_eq hd ha hb]
  show Thumb2.run [_, _] regs = none
  rw [ofLeBytes_leBytes16, ofLeBytes_leBytes16]
  exact Thumb2.run_sdiv_undefined _ _ _ (by decide) regs

/-! ### RV32M -/

theorem encodeRtype_div (rd rs1 rs2 : Reg) :
    encodeRtype rd rs1 rs2 0x01 0x04 =
      (Rv32.Op.div (rd.setWidth 5) (rs1.setWidth 5) (rs2.setWidth 5)).encode := by
  refine BitVec.eq_of_getLsbD_eq fun i hi => ?_
  simp only [encodeRtype, Rv32.Op.encode, Rv32.opReg, Rv32.funct3Div, Rv32.funct7M,
    BitVec.getLsbD_append, BitVec.getLsbD_or, BitVec.getLsbD_and, BitVec.getLsbD_shiftLeft,
    BitVec.getLsbD_setWidth]
  interval_cases i <;> simp

theorem run_emitDiv_riscv32 (dst a b : Reg) {e : CodeBuffer .riscv32}
    (hroom : e.lenWords + 1 ≤ e.capWords) (regs : Rv32.Regs) :
    ∃ e', emit .riscv32 (.div dst a b) e = .ok ⟨⟩ e' ∧
      runUnits .riscv32 (e'.units.drop e.lenWords) regs =
        some (writeReg .riscv32 regs dst
          (Rv32.divSigned (readReg .riscv32 regs a) (readReg .riscv32 regs b))) := by
  have hwrites : Writes (emit .riscv32 (.div dst a b))
      [leBytes 4 (encodeRtype dst a b 0x01 0x04)] := writes_push (length_leBytes 4 _)
  obtain ⟨e', hrun, hunits⟩ := hwrites.appends (fits_push32 _) hroom
  refine ⟨e', hrun, ?_⟩
  rw [hunits]
  show Rv32.run [_] regs = _
  rw [ofLeBytes_leBytes32, encodeRtype_div, Rv32.run_singleton]
  rfl

/-- The quotients of `DIV` and of the contract differ at zero divisors only. -/
theorem divSigned_eq_iff {a b : Word} : Rv32.divSigned a b = signedDivOr0 a b ↔ b ≠ 0 := by
  unfold Rv32.divSigned signedDivOr0
  by_cases hb : b = 0#32
  · rw [if_pos hb, if_pos hb]
    exact iff_of_false (by decide) (not_not_intro hb)
  · rw [if_neg hb, if_neg hb]
    exact iff_of_true rfl hb

/-! ### The contract -/

theorem not_divides_arm {dst a b : Reg} (h : ∀ r ∈ [dst, a, b], General .arm r)
    (regs : RegFile .arm) : ¬ Divides .arm dst a b regs := by
  intro hdiv
  have hle : ∀ r ∈ [dst, a, b], r ≤ 15 := fun r hr => BitVec.le_trans (h r hr) (by decide)
  have hroom : (CodeBuffer.intoExecBuffer .arm).lenWords + 2 ≤
      (CodeBuffer.intoExecBuffer .arm).capWords := by decide
  obtain ⟨e', hrun, hexec⟩ := hdiv _ hroom
  obtain ⟨e₁, hrun₁, hnone⟩ := run_emitDiv_arm (hle dst (by simp)) (hle a (by simp))
    (hle b (by simp)) hroom regs
  cases hrun.symm.trans hrun₁
  exact absurd (hexec.symm.trans hnone) (by simp)

theorem divides_riscv32_iff {dst : Reg} (hd : General .riscv32 dst) (a b : Reg)
    (regs : RegFile .riscv32) :
    Divides .riscv32 dst a b regs ↔ readReg .riscv32 regs b ≠ 0 := by
  have hdst : dst.setWidth 5 ≠ 0#5 := by
    obtain ⟨hlo, hhi⟩ := hd
    bv_omega
  rw [← divSigned_eq_iff (a := readReg .riscv32 regs a)]
  constructor
  · intro hdiv
    have hroom : (CodeBuffer.intoExecBuffer .riscv32).lenWords + 1 ≤
        (CodeBuffer.intoExecBuffer .riscv32).capWords := by decide
    obtain ⟨e', hrun, hexec⟩ := hdiv _ hroom
    obtain ⟨e₁, hrun₁, hexec₁⟩ := run_emitDiv_riscv32 dst a b hroom regs
    cases hrun.symm.trans hrun₁
    exact (Rv32.write_inj hdst).mp (Option.some.inj (hexec₁.symm.trans hexec))
  · intro heq e hroom
    obtain ⟨e', hrun, hexec⟩ := run_emitDiv_riscv32 dst a b hroom regs
    exact ⟨e', hrun, by rw [hexec, heq]⟩

/-- For all general registers and operands: the contract is met exactly on RISC-V
with a divisor that is not zero. -/
theorem divides_iff (t : Target) (dst a b : Reg) (h : ∀ r ∈ [dst, a, b], General t r)
    (regs : RegFile t) : Divides t dst a b regs ↔ t = .riscv32 ∧ readReg t regs b ≠ 0 := by
  cases t with
  | arm => exact iff_of_false (not_divides_arm h regs) fun hand => absurd hand.1 (by decide)
  | riscv32 =>
      rw [divides_riscv32_iff (h dst List.mem_cons_self)]
      exact (and_iff_right rfl).symm

/-- The most negative value over -1, which wraps. -/
theorem divides_min : Divides .riscv32 10 10 11 fun r => if r = 10 then 0x80000000 else -1 :=
  (divides_iff .riscv32 10 10 11 (by decide) _).mpr (by decide)

/-- What `emit_div(0, 0, 1)` writes on ARM is no instruction, and on RISC-V `0 / 0`
is not 0. -/
theorem not_divides_arm_r0 :
    Thumb2.decodeOps [(encodeSdiv 0 0 1).1, (encodeSdiv 0 0 1).2] = none ∧
      ¬ Divides .riscv32 10 10 11 (fun _ => 0) ∧
      ¬ ∀ (t : Target) (dst a b : Reg), (∀ r ∈ [dst, a, b], General t r) → ∀ regs,
        Divides t dst a b regs := by
  refine ⟨by decide, fun hzero => ?_, fun hall => ?_⟩
  · exact (divides_riscv32_iff (by decide) 10 11 _).mp hzero rfl
  · have hregs : ∀ r ∈ [0, 0, 1], General .arm r := by decide
    exact not_divides_arm hregs (fun _ => 0) (hall .arm 0 0 1 hregs _)

end HolyRust.Emitter
