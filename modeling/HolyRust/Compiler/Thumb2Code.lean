import HolyRust.Compiler.CodeImage
import HolyRust.Library.Thumb2
import Mathlib.Tactic.IntervalCases

/-!
What the Thumb-2 emitter writes, read back by the manual.

* `thumbInstrs` — the instructions each call stands for.
* `writes_emit` — a call that succeeds writes their encodings.
* `decode_emitCalls` — the halfwords of any sequence of calls split and decode to
  the instructions of the calls, and an immediate load, executed, loads.
-/

namespace HolyRust.Emitter

open Thumb2 (encodeWide opMovw opMovt)

/-- The number of a low register in its 3-bit field. -/
def low (r : Reg) : Thumb2.LowReg := r.setWidth 3

/-- An immediate of eight bits, of sixteen, or of more. -/
def thumbMovImm (reg : Reg) (imm : Word) : List Thumb2.Instr :=
  if imm ≤ 0xFF ∧ reg < 8 then [.movsImm (low reg) (imm.setWidth 8)]
  else
    .movw (reg.setWidth 4) (imm.setWidth 16) ::
      if imm >>> 16 ≠ 0 then [.movt (reg.setWidth 4) ((imm >>> 16).setWidth 16)] else []

/-- A product, behind a move of the first factor unless it is in place. -/
def thumbMul (dst a b : Reg) : List Thumb2.Instr :=
  (if a ≠ dst then [.movsReg (low dst) (low a)] else []) ++ [.muls (low dst) (low b)]

/-- The instructions a call stands for; division is not among them. -/
def thumbInstrs : Instr → List Thumb2.Instr
  | .movImm reg imm => thumbMovImm reg imm
  | .storeU32 src addr => [.strImm (low src) (low addr) 0]
  | .loadU32 dst addr => [.ldrImm (low dst) (low addr) 0]
  | .add dst a b => [.adds (low dst) (low a) (low b)]
  | .sub dst a b => [.subs (low dst) (low a) (low b)]
  | .mul dst a b => thumbMul dst a b
  | .div _ _ _ => []
  | .ret => [.bx 14]

/-- The registers a call takes. -/
def Takes : Instr → Prop
  | .movImm reg _ => reg ≤ 15
  | i => ∀ r ∈ i.regs, r ≤ 7

/-! ### Encodings -/

theorem exists_low {r : Reg} (h : r ≤ 7) : ∃ q : Thumb2.LowReg, r = q.setWidth 8 := by
  refine ⟨r.setWidth 3, BitVec.eq_of_toNat_eq ?_⟩
  rw [BitVec.toNat_setWidth, BitVec.toNat_setWidth]
  have : r.toNat ≤ 7 := h
  omega

section Encodings

variable {rt rn rm : Reg}

theorem movsImm_eq {imm : Word} (h : rt ≤ 7) :
    0x2000#16 ||| (rt.setWidth 16 <<< 8) ||| (imm.setWidth 16 &&& 0xFF) =
      0b00100#5 ++ low rt ++ imm.setWidth 8 := by
  obtain ⟨q, rfl⟩ := exists_low h
  refine BitVec.eq_of_getLsbD_eq fun i hi => ?_
  simp only [low, BitVec.getLsbD_append, BitVec.getLsbD_or, BitVec.getLsbD_and,
    BitVec.getLsbD_shiftLeft, BitVec.getLsbD_setWidth]
  interval_cases i <;> simp

/-- Two registers below an opcode of ten bits. -/
theorem two_eq (op : BitVec 10) (hn : rn ≤ 7) (ht : rt ≤ 7) :
    (op.setWidth 16 <<< 6) ||| (rn.setWidth 16 <<< 3) ||| rt.setWidth 16 =
      op ++ low rn ++ low rt := by
  obtain ⟨n, rfl⟩ := exists_low hn
  obtain ⟨t, rfl⟩ := exists_low ht
  refine BitVec.eq_of_getLsbD_eq fun i hi => ?_
  simp only [low, BitVec.getLsbD_append, BitVec.getLsbD_or, BitVec.getLsbD_shiftLeft,
    BitVec.getLsbD_setWidth]
  interval_cases i <;> simp

/-- Three registers below an opcode of seven bits. -/
theorem three_eq (op : BitVec 7) (hm : rm ≤ 7) (hn : rn ≤ 7) (ht : rt ≤ 7) :
    (op.setWidth 16 <<< 9) ||| (rm.setWidth 16 <<< 6) ||| (rn.setWidth 16 <<< 3) |||
      rt.setWidth 16 = op ++ low rm ++ low rn ++ low rt := by
  obtain ⟨m, rfl⟩ := exists_low hm
  obtain ⟨n, rfl⟩ := exists_low hn
  obtain ⟨t, rfl⟩ := exists_low ht
  refine BitVec.eq_of_getLsbD_eq fun i hi => ?_
  simp only [low, BitVec.getLsbD_append, BitVec.getLsbD_or, BitVec.getLsbD_shiftLeft,
    BitVec.getLsbD_setWidth]
  interval_cases i <;> simp

/-- A load or store at offset 0. -/
theorem memImm_eq (op : BitVec 5) (ht : rt ≤ 7) (hn : rn ≤ 7) :
    memImm (op.setWidth 16 <<< 11) rt rn 0 = some (op ++ 0#5 ++ low rn ++ low rt) := by
  unfold memImm
  rw [if_neg]
  · obtain ⟨n, rfl⟩ := exists_low hn
    obtain ⟨t, rfl⟩ := exists_low ht
    refine congrArg some (BitVec.eq_of_getLsbD_eq fun i hi => ?_)
    simp only [low, BitVec.getLsbD_append, BitVec.getLsbD_or, BitVec.getLsbD_shiftLeft,
      BitVec.getLsbD_setWidth]
    interval_cases i <;> simp
  · rintro (h | h | h | h)
    · exact absurd h (BitVec.not_lt.mpr ht)
    · exact absurd h (BitVec.not_lt.mpr hn)
    · exact absurd h (by decide)
    · exact h (by decide)

/-- The two halfwords of a wide move. -/
theorem movImm16_eq (op : BitVec 6) (rd : Reg) (imm16 : Word) :
    movImm16 (0xF000 ||| op.setWidth 16 <<< 4) rd imm16 =
      encodeWide op (rd.setWidth 4) (imm16.setWidth 16) := by
  refine Prod.ext (BitVec.eq_of_getLsbD_eq fun i hi => ?_)
    (BitVec.eq_of_getLsbD_eq fun i hi => ?_)
  all_goals
    simp only [movImm16, encodeWide, BitVec.getLsbD_append, BitVec.getLsbD_or, BitVec.getLsbD_and,
      BitVec.getLsbD_shiftLeft, BitVec.getLsbD_setWidth, BitVec.getLsbD_extractLsb',
      BitVec.getLsbD_ushiftRight]
    interval_cases i <;> simp

end Encodings

/-! ### What a call writes -/

/-- The units of a list of instructions. -/
def thumbUnits (is : List Thumb2.Instr) : List (List Byte) := (Thumb2.encodeAll is).map (leBytes 2)

theorem thumbUnits_append (is js : List Thumb2.Instr) :
    thumbUnits (is ++ js) = thumbUnits is ++ thumbUnits js := by
  simp [thumbUnits, Thumb2.encodeAll]

/-- A halfword that is an instruction. -/
theorem writes_push16 {hw : HalfWord} {i : Thumb2.Instr} (h : [hw] = i.encode) :
    Writes (Thumb2Emitter.push16 hw) (thumbUnits [i]) := by
  have hunits : thumbUnits [i] = [leBytes 2 hw] := by
    simp [thumbUnits, Thumb2.encodeAll, ← h]
  rw [hunits]
  exact writes_push _

/-- Two halfwords that are an instruction. -/
theorem writes_push16_pair {hws : HalfWord × HalfWord} {i : Thumb2.Instr}
    (h : [hws.1, hws.2] = i.encode) :
    Writes (do Thumb2Emitter.push16 hws.1; Thumb2Emitter.push16 hws.2) (thumbUnits [i]) := by
  have hunits : thumbUnits [i] = [leBytes 2 hws.1] ++ [leBytes 2 hws.2] := by
    simp [thumbUnits, Thumb2.encodeAll, ← h]
  rw [hunits]
  exact (writes_push _).seq (writes_push _)

/-- The pairs of the immediate load are MOVW and MOVT. -/
theorem writes_movImm16 (reg : Reg) (imm : Word) :
    [(encodeMovw reg imm).1, (encodeMovw reg imm).2] =
        (Thumb2.Instr.movw (reg.setWidth 4) (imm.setWidth 16)).encode ∧
      [(encodeMovt reg imm).1, (encodeMovt reg imm).2] =
        (Thumb2.Instr.movt (reg.setWidth 4) ((imm >>> 16).setWidth 16)).encode := by
  have hw : encodeMovw reg imm = encodeWide opMovw (reg.setWidth 4) (imm.setWidth 16) :=
    movImm16_eq opMovw reg imm
  have ht : encodeMovt reg imm = encodeWide opMovt (reg.setWidth 4) ((imm >>> 16).setWidth 16) :=
    movImm16_eq opMovt reg (imm >>> 16)
  rw [hw, ht]
  exact ⟨rfl, rfl⟩

theorem writes_emitMovImm {reg : Reg} {imm : Word} (h : reg ≤ 15) :
    Writes (Thumb2Emitter.emitMovImm reg imm) (thumbUnits (thumbMovImm reg imm)) := by
  unfold Thumb2Emitter.emitMovImm thumbMovImm
  rw [if_neg (BitVec.not_lt.mpr h)]
  by_cases hshort : imm ≤ 0xFF ∧ reg < 8
  · rw [if_pos hshort, if_pos hshort]
    have hlow : reg ≤ 7 := by
      have hlt := hshort.2
      bv_omega
    exact writes_push16 (congrArg (fun hw => [hw]) (movsImm_eq hlow))
  · rw [if_neg hshort, if_neg hshort]
    have hlow := writes_push16_pair (writes_movImm16 reg imm).1
    have hrest : Writes
        (if imm >>> 16 ≠ 0 then do
          Thumb2Emitter.push16 (encodeMovt reg imm).1
          Thumb2Emitter.push16 (encodeMovt reg imm).2
        else pure ⟨⟩)
        (thumbUnits
          (if imm >>> 16 ≠ 0 then [.movt (reg.setWidth 4) ((imm >>> 16).setWidth 16)]
            else [])) := by
      split
      · exact writes_push16_pair (writes_movImm16 reg imm).2
      · exact writes_pure
    have hboth := hlow.seq hrest
    rw [bind_assoc] at hboth
    rw [← List.singleton_append, thumbUnits_append]
    exact hboth

/-- The check of three low registers in front of a call. -/
theorem writes_triple {dst a b : Reg} {x : EmitM .arm PUnit} {us : List (List Byte)}
    (h : ∀ r ∈ [dst, a, b], r ≤ 7) (hx : Writes x us) :
    Writes (if dst > 7 ∨ a > 7 ∨ b > 7 then throw .badRegister else x) us := by
  rw [if_neg]
  · exact hx
  · rintro (hr | hr | hr)
    · exact absurd hr (BitVec.not_lt.mpr (h dst (by simp)))
    · exact absurd hr (BitVec.not_lt.mpr (h a (by simp)))
    · exact absurd hr (BitVec.not_lt.mpr (h b (by simp)))

theorem writes_emitMul {dst a b : Reg} (hd : dst ≤ 7) (ha : a ≤ 7) (hb : b ≤ 7) :
    Writes
      (do
        if a ≠ dst then Thumb2Emitter.push16 ((a.setWidth 16 <<< 3) ||| dst.setWidth 16)
        Thumb2Emitter.push16 (0x4340 ||| (b.setWidth 16 <<< 3) ||| dst.setWidth 16))
      (thumbUnits (thumbMul dst a b)) := by
  have hmul : [(0x4340 ||| (b.setWidth 16 <<< 3) ||| dst.setWidth 16 : HalfWord)] =
      (Thumb2.Instr.muls (low dst) (low b)).encode :=
    congrArg (fun hw => [hw]) (two_eq 0b0100001101#10 hb hd)
  have hmov : [((a.setWidth 16 <<< 3) ||| dst.setWidth 16 : HalfWord)] =
      (Thumb2.Instr.movsReg (low dst) (low a)).encode := by
    have htwo := two_eq 0#10 ha hd
    rw [BitVec.setWidth_zero, BitVec.zero_shiftLeft, BitVec.zero_or] at htwo
    exact congrArg (fun hw => [hw]) htwo
  unfold thumbMul
  by_cases hne : a ≠ dst
  · rw [if_pos hne, if_pos hne, thumbUnits_append]
    exact (writes_push16 hmov).seq (writes_push16 hmul)
  · rw [if_neg hne, if_neg hne]
    exact writes_push16 hmul

/-- Not a division. -/
def NotDiv : Instr → Prop
  | .div _ _ _ => False
  | _ => True

/-- A call on registers it takes writes the instructions it stands for. -/
theorem writes_emit {i : Instr} (hdiv : NotDiv i) (h : Takes i) :
    Writes (Thumb2Emitter.emit i) (thumbUnits (thumbInstrs i)) := by
  cases i with
  | movImm reg imm => exact writes_emitMovImm h
  | storeU32 src addr =>
      have hs : src ≤ 7 := h src (by simp [Instr.regs])
      have ha : addr ≤ 7 := h addr (by simp [Instr.regs])
      have heq : encodeStrImm src addr 0 = _ := memImm_eq 0b01100#5 hs ha
      simp only [Thumb2Emitter.emit, Thumb2Emitter.emitStoreU32, heq]
      exact writes_push16 rfl
  | loadU32 dst addr =>
      have hd : dst ≤ 7 := h dst (by simp [Instr.regs])
      have ha : addr ≤ 7 := h addr (by simp [Instr.regs])
      have heq : encodeLdrImm dst addr 0 = _ := memImm_eq 0b01101#5 hd ha
      simp only [Thumb2Emitter.emit, Thumb2Emitter.emitLoadU32, heq]
      exact writes_push16 rfl
  | add dst a b =>
      refine writes_triple h (writes_push16 (congrArg (fun hw => [hw]) ?_))
      exact three_eq 0b0001100#7 (h b (by simp [Instr.regs])) (h a (by simp [Instr.regs]))
        (h dst (by simp [Instr.regs]))
  | sub dst a b =>
      refine writes_triple h (writes_push16 (congrArg (fun hw => [hw]) ?_))
      exact three_eq 0b0001101#7 (h b (by simp [Instr.regs])) (h a (by simp [Instr.regs]))
        (h dst (by simp [Instr.regs]))
  | mul dst a b =>
      exact writes_triple h (writes_emitMul (h dst (by simp [Instr.regs]))
        (h a (by simp [Instr.regs])) (h b (by simp [Instr.regs])))
  | div dst a b => exact hdiv.elim
  | ret => exact writes_push16 rfl

/-- The guard of the three-register operations. -/
theorem low_of_guard {dst a b : Reg} {x : EmitM .arm PUnit} {e e' : CodeBuffer .arm}
    (h : (if dst > 7 ∨ a > 7 ∨ b > 7 then throw .badRegister else x) e = .ok ⟨⟩ e') :
    ∀ r ∈ [dst, a, b], r ≤ 7 := by
  intro r hr
  by_contra hhigh
  have hgt : r > 7 := BitVec.not_le.mp hhigh
  rw [if_pos] at h
  · cases h
  · simp only [List.mem_cons, List.not_mem_nil, or_false] at hr
    rcases hr with rfl | rfl | rfl
    · exact .inl hgt
    · exact .inr (.inl hgt)
    · exact .inr (.inr hgt)

theorem low_of_memImm {op : HalfWord} {rt rn : Reg} {hw : HalfWord}
    (h : memImm op rt rn 0 = some hw) : ∀ r ∈ [rt, rn], r ≤ 7 := by
  intro r hr
  by_contra hhigh
  have hgt : r > 7 := BitVec.not_le.mp hhigh
  unfold memImm at h
  rw [if_pos] at h
  · cases h
  · simp only [List.mem_cons, List.not_mem_nil, or_false] at hr
    rcases hr with rfl | rfl
    · exact .inl hgt
    · exact .inr (.inl hgt)

/-- A call that succeeds was given registers it takes. -/
theorem takes_of_emit {i : Instr} (hdiv : NotDiv i) {e e' : CodeBuffer .arm}
    (h : Thumb2Emitter.emit i e = .ok ⟨⟩ e') : Takes i := by
  cases i with
  | movImm reg imm =>
      by_contra hhigh
      have hgt : reg > 15 := BitVec.not_le.mp hhigh
      simp only [Thumb2Emitter.emit, Thumb2Emitter.emitMovImm, if_pos hgt] at h
      cases h
  | storeU32 src addr =>
      cases hmem : encodeStrImm src addr 0 with
      | none =>
          simp only [Thumb2Emitter.emit, Thumb2Emitter.emitStoreU32, hmem] at h
          cases h
      | some hw => exact low_of_memImm hmem
  | loadU32 dst addr =>
      cases hmem : encodeLdrImm dst addr 0 with
      | none =>
          simp only [Thumb2Emitter.emit, Thumb2Emitter.emitLoadU32, hmem] at h
          cases h
      | some hw => exact low_of_memImm hmem
  | add dst a b => exact low_of_guard h
  | sub dst a b => exact low_of_guard h
  | mul dst a b => exact low_of_guard h
  | div dst a b => exact hdiv.elim
  | ret => exact fun r hr => absurd hr (by simp [Instr.regs])

/-! ### Sequences of calls -/

/-- The calls, one after the other. -/
def emitCalls : List Instr → EmitM .arm PUnit
  | [] => pure ⟨⟩
  | i :: is => Thumb2Emitter.emit i >>= fun _ => emitCalls is

/-- Calls on low registers succeed while there is room for their units. -/
theorem emitCalls_fits {is : List Instr} (h : ∀ i ∈ is, ∀ r ∈ i.regs, Usable .arm r) :
    Fits (is.map (Instr.units .arm)).sum (emitCalls is) := by
  induction is with
  | nil => exact fits_pure
  | cons i is ih =>
      rw [List.map_cons, List.sum_cons]
      exact (thumb2_emit_fits (h i List.mem_cons_self)).seq
        (ih fun j hj => h j (List.mem_cons_of_mem i hj))

theorem emitCalls_ok {is : List Instr} (h : ∀ i ∈ is, ∀ r ∈ i.regs, Usable .arm r)
    (hroom : (is.map (Instr.units .arm)).sum ≤ (CodeBuffer.intoExecBuffer .arm).capWords) :
    ∃ e, emitCalls is (CodeBuffer.intoExecBuffer .arm) = .ok ⟨⟩ e := by
  have hends := emitCalls_fits h (CodeBuffer.intoExecBuffer .arm) ((Nat.zero_add _).le.trans hroom)
  unfold Fallible.Ends at hends
  cases hrun : emitCalls is (CodeBuffer.intoExecBuffer .arm) with
  | error err e =>
      rw [hrun] at hends
      exact hends.elim
  | ok u e => exact ⟨e, rfl⟩

/-- Calls that succeed were given registers they take and write their
instructions behind one another. -/
theorem emitCalls_writes : ∀ {is : List Instr} {e e' : CodeBuffer .arm}, (∀ i ∈ is, NotDiv i) →
    emitCalls is e = .ok ⟨⟩ e' →
      (∀ i ∈ is, Takes i) ∧ e'.units = e.units ++ thumbUnits (is.flatMap thumbInstrs) := by
  intro is
  induction is with
  | nil =>
      intro e e' _ h
      cases h
      exact ⟨by simp, by simp [thumbUnits, Thumb2.encodeAll]⟩
  | cons i is ih =>
      intro e e' hdiv h
      obtain ⟨_, e₁, hcall, hrest⟩ := Fallible.bind_eq_ok.mp h
      have hnot := hdiv i List.mem_cons_self
      have htakes := takes_of_emit hnot hcall
      obtain ⟨htake, hunits⟩ := ih (fun j hj => hdiv j (List.mem_cons_of_mem i hj)) hrest
      refine ⟨List.forall_mem_cons.mpr ⟨htakes, htake⟩, ?_⟩
      rw [hunits, writes_emit hnot htakes hcall, List.flatMap_cons, thumbUnits_append,
        List.append_assoc]

/-- The registers an immediate can be moved into without consequences for the
stack or the program counter. -/
def GeneralReg (reg : Reg) : Prop := reg ≠ 13 ∧ reg ≠ 15

/-- The moves of an immediate load leave it in the register, and nothing else
changes. -/
theorem execAll_thumbMovImm {reg : Reg} (h : reg ≤ 15) (hreg : GeneralReg reg) (imm : Word)
    (regs : Thumb2.Regs) :
    Thumb2.execAll (thumbMovImm reg imm) regs =
      some (Function.update regs (reg.setWidth 4) imm) := by
  have hwide : ¬ (reg.setWidth 4 = 13#4 ∨ reg.setWidth 4 = 15#4) := by
    obtain ⟨h13, h15⟩ := hreg
    bv_omega
  unfold thumbMovImm
  by_cases hshort : imm ≤ 0xFF ∧ reg < 8
  · have himm : (imm.setWidth 8).setWidth 32 = imm := by
      have hle := hshort.1
      bv_omega
    have hrd : Thumb2.LowReg.full (low reg) = reg.setWidth 4 := by
      have hlt := hshort.2
      unfold Thumb2.LowReg.full low
      bv_omega
    rw [if_pos hshort]
    simp [Thumb2.execAll, Thumb2.Instr.exec, himm, hrd]
  · rw [if_neg hshort]
    by_cases hhigh : imm >>> 16 ≠ 0
    · have hjoin : ((imm >>> 16).setWidth 16 ++ (imm.setWidth 16 : HalfWord)) = imm := by
        refine BitVec.eq_of_getLsbD_eq fun i hi => ?_
        simp only [BitVec.getLsbD_append, BitVec.getLsbD_setWidth, BitVec.getLsbD_ushiftRight]
        grind
      rw [if_pos hhigh]
      simp [Thumb2.execAll, Thumb2.Instr.exec, hwide, hjoin]
    · have himm : (imm.setWidth 16).setWidth 32 = imm := by
        have hzero := Decidable.not_not.mp hhigh
        bv_omega
      rw [if_neg hhigh]
      simp [Thumb2.execAll, Thumb2.Instr.exec, hwide, himm]

/-- The halfwords of any calls but divisions that all succeed, from the start of
the buffer, split and decode to the instructions of the calls, with the registers
they name; executing those of an immediate load into `r0` to `r12` or `r14` loads
the immediate and changes no other register. -/
theorem decode_emitCalls {is : List Instr} (hdiv : ∀ i ∈ is, NotDiv i) {e : CodeBuffer .arm}
    (h : emitCalls is (CodeBuffer.intoExecBuffer .arm) = .ok ⟨⟩ e) :
    (∀ i ∈ is, Takes i) ∧ Thumb2.decode (halfwords e) = some (is.flatMap thumbInstrs) ∧
      ∀ reg imm, .movImm reg imm ∈ is → GeneralReg reg → ∀ regs,
        Thumb2.execAll (thumbInstrs (.movImm reg imm)) regs =
          some (Function.update regs (reg.setWidth 4) imm) := by
  obtain ⟨htakes, hunits⟩ := emitCalls_writes hdiv h
  refine ⟨htakes, ?_, fun reg imm hmem hreg regs => ?_⟩
  · have hcode : halfwords e = Thumb2.encodeAll (is.flatMap thumbInstrs) := by
      unfold halfwords
      rw [hunits, CodeBuffer.units_intoExecBuffer, List.nil_append, thumbUnits, List.map_map]
      exact (List.map_congr_left fun hw _ => ofLeBytes_leBytes16 hw).trans (List.map_id _)
    rw [hcode, Thumb2.decode_encodeAll]
  · exact execAll_thumbMovImm (htakes _ hmem) hreg imm regs

/-- A full immediate, a byte, a product and the return. -/
theorem decode_emitCalls_product :
    ∃ e, emitCalls [.movImm 0 0x12345678, .movImm 1 5, .mul 0 0 1, .ret]
        (CodeBuffer.intoExecBuffer .arm) = .ok ⟨⟩ e ∧
      Thumb2.decode (halfwords e) =
        some [.movw 0 0x5678, .movt 0 0x1234, .movsImm 1 5, .muls 0 1, .bx 14] := by
  have hlow : ∀ i ∈ [Instr.movImm 0 0x12345678, .movImm 1 5, .mul 0 0 1, .ret],
      ∀ r ∈ i.regs, Usable .arm r := by
    simp [Instr.regs, Usable]
  have hdiv : ∀ i ∈ [Instr.movImm 0 0x12345678, .movImm 1 5, .mul 0 0 1, .ret], NotDiv i := by
    simp [NotDiv]
  have hinstrs : [Instr.movImm 0 0x12345678, .movImm 1 5, .mul 0 0 1, .ret].flatMap thumbInstrs =
      [.movw 0 0x5678, .movt 0 0x1234, .movsImm 1 5, .muls 0 1, .bx 14] := by
    decide
  obtain ⟨e, hrun⟩ := emitCalls_ok hlow (by decide)
  exact ⟨e, hrun, (decode_emitCalls hdiv hrun).2.1.trans (congrArg some hinstrs)⟩

end HolyRust.Emitter
