import HolyRust.Compiler.Thumb2Code
import HolyRust.Library.Thumb2Alu

/-!
The Thumb-2 product, executed. MULS multiplies in place, so `emit_mul` first moves
the first factor into the destination; when that is where the second factor is,
the move overwrites it.

* `run_thumbMul` — what the halfwords leave.
* `multiplies_iff` — the registers for which that is the product.
-/

namespace HolyRust.Emitter

/-- The number of a register in a 4-bit field. -/
def wide (r : Reg) : Thumb2.Reg := r.setWidth 4

theorem full_low {r : Reg} (h : r ≤ 7) : Thumb2.LowReg.full (low r) = wide r := by
  unfold Thumb2.LowReg.full low wide
  bv_omega

theorem wide_inj {r r' : Reg} (h : r ≤ 7) (h' : r' ≤ 7) : wide r = wide r' ↔ r = r' := by
  unfold wide
  bv_omega

/-- The move in front overwrites the second factor. -/
def Clobbers (dst a b : Reg) : Prop := b = dst ∧ a ≠ dst

instance (dst a b : Reg) : Decidable (Clobbers dst a b) := inferInstanceAs (Decidable (_ ∧ _))

/-- What `MULS` finds in the register of the second factor. -/
def secondFactor (dst a b : Reg) (regs : Thumb2.Regs) : Word :=
  if Clobbers dst a b then regs (wide a) else regs (wide b)

theorem secondFactor_of_clobbers {dst a b : Reg} (h : Clobbers dst a b) (regs : Thumb2.Regs) :
    secondFactor dst a b regs = regs (wide a) :=
  if_pos h

theorem secondFactor_of_not_clobbers {dst a b : Reg} (h : ¬ Clobbers dst a b)
    (regs : Thumb2.Regs) : secondFactor dst a b regs = regs (wide b) :=
  if_neg h

/-- The halfwords leave a product in `dst` and change nothing else. -/
theorem run_thumbMul {dst a b : Reg} (hd : dst ≤ 7) (ha : a ≤ 7) (hb : b ≤ 7)
    (regs : Thumb2.Regs) :
    Thumb2.run (Thumb2.encodeAll (thumbMul dst a b)) regs =
      some (Function.update regs (wide dst) (regs (wide a) * secondFactor dst a b regs)) := by
  rw [Thumb2.run_encodeAll, thumbMul]
  by_cases hmove : a = dst
  · subst hmove
    have hkeep : ¬ Clobbers a a b := fun h => h.2 rfl
    rw [secondFactor_of_not_clobbers hkeep]
    simp [Thumb2.Instr.execAlu, full_low ha, full_low hb, BitVec.mul_comm]
  · by_cases hclobber : b = dst
    · subst hclobber
      rw [secondFactor_of_clobbers ⟨rfl, hmove⟩]
      simp [Thumb2.Instr.execAlu, Thumb2.Instr.exec, hmove, full_low ha, full_low hd]
    · have hkeep : ¬ Clobbers dst a b := fun h => hclobber h.1
      have hne : wide b ≠ wide dst := fun h => hclobber ((wide_inj hb hd).mp h)
      rw [secondFactor_of_not_clobbers hkeep]
      simp [Thumb2.Instr.execAlu, Thumb2.Instr.exec, hmove, full_low ha, full_low hb, full_low hd,
        Function.update_of_ne hne, BitVec.mul_comm]

/-- From any buffer with room for two halfwords the call succeeds, and executing
what it adds leaves the product of `a` and `b` in `dst` and changes nothing else. -/
def Multiplies (dst a b : Reg) : Prop :=
  ∀ e : CodeBuffer .arm, e.lenWords + 2 ≤ e.capWords → ∃ e',
    Thumb2Emitter.emitMul dst a b e = .ok ⟨⟩ e' ∧
      ∀ regs, Thumb2.run ((halfwords e').drop e.lenWords) regs =
        some (Function.update regs (wide dst) (regs (wide a) * regs (wide b)))

/-- The call adds the halfwords of `thumbMul`. -/
theorem emitMul_appends {dst a b : Reg} (hd : dst ≤ 7) (ha : a ≤ 7) (hb : b ≤ 7)
    {e : CodeBuffer .arm} (hroom : e.lenWords + 2 ≤ e.capWords) :
    ∃ e', Thumb2Emitter.emitMul dst a b e = .ok ⟨⟩ e' ∧
      (halfwords e').drop e.lenWords = Thumb2.encodeAll (thumbMul dst a b) := by
  have hlow : ∀ r ∈ (Instr.mul dst a b).regs, r ≤ 7 := by
    intro r hr
    simp only [Instr.regs, List.mem_cons, List.not_mem_nil, or_false] at hr
    rcases hr with rfl | rfl | rfl <;> assumption
  have hfits : Fits 2 (Thumb2Emitter.emit (.mul dst a b)) :=
    thumb2_emit_fits (i := .mul dst a b) hlow
  obtain ⟨e', hrun, hunits⟩ :=
    (writes_emit (i := .mul dst a b) trivial hlow).appends hfits hroom
  refine ⟨e', hrun, ?_⟩
  rw [halfwords, ← List.map_drop, hunits, thumbInstrs, thumbUnits, List.map_map]
  exact (List.map_congr_left fun hw _ => ofLeBytes_leBytes16 hw).trans (List.map_id _)

/-- An overwritten second factor shows on factors 1 and 0. -/
theorem not_multiplies_of_clobbers {dst a b : Reg} (hd : dst ≤ 7) (ha : a ≤ 7) (hb : b ≤ 7)
    (hmul : Multiplies dst a b) : ¬ Clobbers dst a b := by
  rintro ⟨rfl, hne⟩
  have hroom : (CodeBuffer.intoExecBuffer .arm).lenWords + 2 ≤
      (CodeBuffer.intoExecBuffer .arm).capWords := by decide
  obtain ⟨e', hrun, hexec⟩ := hmul _ hroom
  obtain ⟨e₁, hrun₁, hcode⟩ := emitMul_appends hd ha hb hroom
  cases hrun.symm.trans hrun₁
  have hwide : wide a ≠ wide b := fun h => hne ((wide_inj ha hb).mp h)
  have hregs := hexec fun r => if r = wide b then 0 else 1
  rw [hcode, run_thumbMul hd ha hb, secondFactor_of_clobbers ⟨rfl, hne⟩] at hregs
  have hdst := congrFun (Option.some.inj hregs) (wide b)
  simp [hwide] at hdst

/-- For all of `r0` to `r7`: the product arrives exactly when the move does not
overwrite the second factor. -/
theorem multiplies_iff (dst a b : Reg) (hd : dst ≤ 7) (ha : a ≤ 7) (hb : b ≤ 7) :
    Multiplies dst a b ↔ ¬ Clobbers dst a b := by
  constructor
  · exact not_multiplies_of_clobbers hd ha hb
  · intro hkeep e hroom
    obtain ⟨e', hrun, hcode⟩ := emitMul_appends hd ha hb hroom
    refine ⟨e', hrun, fun regs => ?_⟩
    rw [hcode, run_thumbMul hd ha hb, secondFactor_of_not_clobbers hkeep]

/-- A square, with both factors and the result in one register. -/
theorem multiplies_square : Multiplies 3 3 3 :=
  (multiplies_iff 3 3 3 (by decide) (by decide) (by decide)).mpr (by decide)

/-- `r0 = r1 * r0` is `r1 * r1`. -/
theorem not_multiplies_r0_r1_r0 :
    Thumb2.run (Thumb2.encodeAll (thumbMul 0 1 0)) (fun r => if r = 1 then 3 else 5) =
        some (Function.update (fun r => if r = 1 then 3 else 5) 0 9) ∧
      ¬ ∀ dst a b : Reg, dst ≤ 7 → a ≤ 7 → b ≤ 7 → Multiplies dst a b := by
  constructor
  · exact run_thumbMul (by decide) (by decide) (by decide) _
  · exact fun hall => not_multiplies_of_clobbers (by decide) (by decide) (by decide)
      (hall 0 1 0 (by decide) (by decide) (by decide)) (by decide)

end HolyRust.Emitter
