import HolyRust.Library.Thumb2

/-!
The arithmetic of the ARMv7-M subset on the register file, and its signed
division, a 32-bit instruction with a fixed field in its second halfword.

* `decodeOps` — the decoding of `Thumb2` with SDIV T1; `decodeOps_of_decode` says
  that it reads everything else as before.
* `Op.exec` — sums, differences, products and quotients beside the moves.
* `run` — halfwords decoded and executed one after the other.
-/

namespace HolyRust.Thumb2

inductive Op where
  | base (i : Instr)
  /-- SDIV T1. -/
  | sdiv (rd rn rm : Reg)
deriving DecidableEq, Repr

/-- The upper bits of the first halfword of SDIV, `1111 1011 1001 nnnn`. -/
def opSdiv : BitVec 12 := 0b111110111001

/-- SDIV is `1111 dddd 1111 mmmm` in its second halfword; other values of the two
fixed fields are undefined. -/
def decodeOp32 (h₁ h₂ : HalfWord) : Option Op :=
  if h₁.extractLsb' 4 12 = opSdiv then
    if h₂.extractLsb' 12 4 = 0b1111#4 ∧ h₂.extractLsb' 4 4 = 0b1111#4 then
      some (.sdiv (h₂.extractLsb' 8 4) (h₁.extractLsb' 0 4) (h₂.extractLsb' 0 4))
    else none
  else (decode32 h₁ h₂).map .base

/-- Split by the length rule and decode, with SDIV among the wide instructions. -/
def decodeOps : List HalfWord → Option (List Op)
  | [] => some []
  | h :: rest =>
      if isWide h then
        match rest with
        | [] => none
        | h₂ :: rest => do return (← decodeOp32 h h₂) :: (← decodeOps rest)
      else do return .base (← decode16 h) :: (← decodeOps rest)

/-- `SDIV r0, r1, r2`, and the same with a wrong fixed field. -/
example : decodeOps [0xFB91, 0xF0F2] = some [.sdiv 0 1 2] ∧ decodeOps [0xFB91, 0xF012] = none := by
  decide

/-- A wide move is no division. -/
theorem decodeOp32_of_decode32 {h₁ h₂ : HalfWord} {i : Instr} (h : decode32 h₁ h₂ = some i) :
    decodeOp32 h₁ h₂ = some (.base i) := by
  have htop : h₁.extractLsb' 11 5 = 0b11110#5 := by
    by_contra hne
    rw [decode32, if_neg fun hand => hne hand.1] at h
    cases h
  have hne : h₁.extractLsb' 4 12 ≠ opSdiv := by
    intro heq
    -- bit 11 tells the two apart
    have hmove : h₁.getLsbD 11 = false := by
      simpa using congrArg (fun v => v.getLsbD 0) htop
    have hdiv : h₁.getLsbD 11 = true := by
      simpa [opSdiv] using congrArg (fun v => v.getLsbD 7) heq
    rw [hmove] at hdiv
    cases hdiv
  rw [decodeOp32, if_neg hne, h, Option.map_some]

theorem decodeOps_of_decode {hs : List HalfWord} {is : List Instr} (h : decode hs = some is) :
    decodeOps hs = some (is.map .base) := by
  induction hs using decode.induct generalizing is with
  | case1 =>
      cases h
      rfl
  | case2 hw hwide => simp [decode, hwide] at h
  | case3 hw hwide h₂ rest ih =>
      cases hop : decode32 hw h₂ with
      | none => simp [decode, hwide, hop] at h
      | some i =>
          rw [decode_wide ⟨hwide, hop⟩, Option.map_eq_some_iff] at h
          obtain ⟨js, hrest, rfl⟩ := h
          simp [decodeOps, hwide, decodeOp32_of_decode32 hop, ih hrest]
  | case4 hw rest hwide ih =>
      have hnarrow : isWide hw = false := Bool.eq_false_iff.mpr hwide
      cases hop : decode16 hw with
      | none =>
          unfold decode at h
          simp [hnarrow, hop] at h
      | some i =>
          rw [decode_narrow ⟨hnarrow, hop⟩, Option.map_eq_some_iff] at h
          obtain ⟨js, hrest, rfl⟩ := h
          unfold decodeOps
          simp [hnarrow, hop, ih hrest]

section Sdiv

open BitVec

/-- Four fields of four bits. -/
theorem fields_4_4_4_4 (w x y z : BitVec 4) :
    (w ++ x ++ y ++ z).extractLsb' 12 4 = w ∧ (w ++ x ++ y ++ z).extractLsb' 8 4 = x ∧
      (w ++ x ++ y ++ z).extractLsb' 4 4 = y ∧ (w ++ x ++ y ++ z).extractLsb' 0 4 = z := by
  refine ⟨?_, ?_, ?_, extractLsb'_append_eq_right⟩
  · exact (extract_above (w ++ x ++ y) z 8 4).trans
      ((extract_above (w ++ x) y 4 4).trans extractLsb'_append_eq_left)
  · exact (extract_above (w ++ x ++ y) z 4 4).trans
      ((extract_above (w ++ x) y 0 4).trans extractLsb'_append_eq_right)
  · exact (extract_above (w ++ x ++ y) z 0 4).trans extractLsb'_append_eq_right

/-- The lower fixed field of a division decides whether it is one. -/
theorem decodeOps_sdiv (rd rn fixed rm : BitVec 4) :
    decodeOps [opSdiv ++ rn, 0b1111#4 ++ rd ++ fixed ++ rm] =
      if fixed = 0b1111#4 then some [.sdiv rd rn rm] else none := by
  have htop : (opSdiv ++ rn).extractLsb' 11 5 = 0b11111#5 := extract_above opSdiv rn 7 5
  have hop : (opSdiv ++ rn).extractLsb' 4 12 = opSdiv := extractLsb'_append_eq_left
  have hrn : (opSdiv ++ rn).extractLsb' 0 4 = rn := extractLsb'_append_eq_right
  have hwide : isWide (opSdiv ++ rn) = true := by simp [isWide, htop]
  obtain ⟨hhigh, hrd, hfixed, hrm⟩ := fields_4_4_4_4 0b1111#4 rd fixed rm
  simp only [decodeOps, hwide, if_true, decodeOp32, hop, hrn, hhigh, hrd, hfixed, hrm, true_and]
  by_cases h : fixed = 0b1111#4
  · simp [h]
  · simp [h]

end Sdiv

/-! ### Execution -/

/-- What an instruction on registers alone leaves, flags left out. -/
def Instr.execAlu (regs : Regs) : Instr → Option Regs
  | .adds rd rn rm => some (Function.update regs rd.full (regs rn.full + regs rm.full))
  | .subs rd rn rm => some (Function.update regs rd.full (regs rn.full - regs rm.full))
  | .muls rdm rn => some (Function.update regs rdm.full (regs rn.full * regs rdm.full))
  | i => i.exec regs

/-- SP and PC. -/
def Special (r : Reg) : Prop := r = 13#4 ∨ r = 15#4

instance (r : Reg) : Decidable (Special r) := inferInstanceAs (Decidable (_ ∨ _))

/-- Division rounds toward zero and gives 0 for a zero divisor; the manual does not
let SP or PC take part in it. -/
def Op.exec (regs : Regs) : Op → Option Regs
  | .base i => i.execAlu regs
  | .sdiv rd rn rm =>
      if Special rd ∨ Special rn ∨ Special rm then none
      else some (Function.update regs rd
        (if regs rm = 0#32 then 0#32 else (regs rn).sdiv (regs rm)))

/-- The halfwords decoded and executed one after the other. -/
def run (hs : List HalfWord) (regs : Regs) : Option Regs :=
  (decodeOps hs).bind fun os => os.foldlM Op.exec regs

/-- Encoded instructions run one after the other. -/
theorem run_encodeAll (is : List Instr) (regs : Regs) :
    run (encodeAll is) regs = is.foldlM Instr.execAlu regs := by
  rw [run, decodeOps_of_decode (decode_encodeAll is), Option.bind_some, List.foldlM_map]
  rfl

/-- A division with another lower field runs as nothing. -/
theorem run_sdiv_undefined (rd rn rm : Reg) {fixed : BitVec 4} (h : fixed ≠ 0b1111#4)
    (regs : Regs) : run [opSdiv ++ rn, 0b1111#4 ++ rd ++ fixed ++ rm] regs = none := by
  unfold run
  rw [decodeOps_sdiv, if_neg h, Option.bind_none]

end HolyRust.Thumb2
