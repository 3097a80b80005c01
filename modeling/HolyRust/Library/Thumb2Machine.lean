import HolyRust.Library.FetchExecute
import HolyRust.Library.Thumb2Alu

/-!
The ARMv7-M subset as a machine: halfwords fetched by the length rule, loads and
stores on a data port, and the branch that leaves the code.

* `isa` — `Thumb2` with SDIV as an instruction set of `FetchExecute`.
* `block_alu`, `block_str`, `block_ldr` — what single instructions are as blocks.
* `block_sdiv_undefined` — SDIV with a wrong fixed field faults.
-/

namespace HolyRust.Thumb2

open FetchExecute (Flow Isa Starts DataPort Block)

/-- The halfwords of an operation. -/
def Op.encode : Op → List HalfWord
  | .base i => i.encode
  | .sdiv rd rn rm => [opSdiv ++ rn, 0b1111#4 ++ rd ++ 0b1111#4 ++ rm]

/-- The operation the halfwords begin with. -/
def decodeAt (f : Nat → HalfWord) : Option Op :=
  if isWide (f 0) then decodeOp32 (f 0) (f 1) else (decode16 (f 0)).map .base

/-- One halfword, or two of which the first says so. -/
theorem encode_cases (i : Instr) :
    (∃ h, i.encode = [h] ∧ isWide h = false ∧ decode16 h = some i) ∨
      ∃ h₁ h₂, i.encode = [h₁, h₂] ∧ isWide h₁ = true ∧ decode32 h₁ h₂ = some i := by
  cases i with
  | movsImm rd imm8 => exact .inl ⟨_, rfl, decode16_movsImm rd imm8⟩
  | movsReg rd rm => exact .inl ⟨_, rfl, decode16_two (.inl ⟨rfl, rfl⟩)⟩
  | movw rd imm16 => exact .inr ⟨_, _, rfl, decode32_encodeWide (.inl ⟨rfl, rfl⟩)⟩
  | movt rd imm16 => exact .inr ⟨_, _, rfl, decode32_encodeWide (.inr ⟨rfl, rfl⟩)⟩
  | strImm rt rn imm5 => exact .inl ⟨_, rfl, decode16_mem (.inl ⟨rfl, rfl⟩)⟩
  | ldrImm rt rn imm5 => exact .inl ⟨_, rfl, decode16_mem (.inr ⟨rfl, rfl⟩)⟩
  | adds rd rn rm => exact .inl ⟨_, rfl, decode16_addsub (.inl ⟨rfl, rfl⟩)⟩
  | subs rd rn rm => exact .inl ⟨_, rfl, decode16_addsub (.inr ⟨rfl, rfl⟩)⟩
  | muls rdm rn => exact .inl ⟨_, rfl, decode16_two (.inr ⟨rfl, rfl⟩)⟩
  | bx rm => exact .inl ⟨_, rfl, decode16_bx rm⟩

/-- The two halfwords at the start of a division, whatever its fixed field holds. -/
theorem decodeAt_sdiv (rd rn fixed rm : BitVec 4) {f : Nat → HalfWord}
    (h : Starts f [opSdiv ++ rn, 0b1111#4 ++ rd ++ fixed ++ rm]) :
    decodeAt f = if fixed = 0b1111#4 then some (.sdiv rd rn rm) else none := by
  have hfirst : f 0 = opSdiv ++ rn := h 0 (by simp)
  have hsecond : f 1 = 0b1111#4 ++ rd ++ fixed ++ rm := h 1 (by simp)
  have htop : (opSdiv ++ rn).extractLsb' 11 5 = 0b11111#5 := extract_above opSdiv rn 7 5
  have hwide : isWide (opSdiv ++ rn) = true := by simp [isWide, htop]
  have hop : (opSdiv ++ rn).extractLsb' 4 12 = opSdiv := BitVec.extractLsb'_append_eq_left
  have hrn : (opSdiv ++ rn).extractLsb' 0 4 = rn := BitVec.extractLsb'_append_eq_right
  obtain ⟨hhigh, hrd, hfixed, hrm⟩ := fields_4_4_4_4 0b1111#4 rd fixed rm
  rw [decodeAt, hfirst, hsecond, if_pos hwide, decodeOp32, hop, hrn, hhigh, hrd, hfixed, hrm,
    if_pos rfl]
  simp only [true_and]

theorem decodeAt_encode (o : Op) (f : Nat → HalfWord) (h : Starts f o.encode) :
    decodeAt f = some o := by
  cases o with
  | base i =>
      simp only [Op.encode] at h
      rcases encode_cases i with ⟨h₁, henc, hnarrow, hdec⟩ | ⟨h₁, h₂, henc, hwide, hdec⟩
      · rw [henc] at h
        have hfirst : f 0 = h₁ := h 0 (by simp)
        rw [decodeAt, hfirst, hnarrow, hdec]
        rfl
      · rw [henc] at h
        have hfirst : f 0 = h₁ := h 0 (by simp)
        have hsecond : f 1 = h₂ := h 1 (by simp)
        rw [decodeAt, hfirst, hsecond, if_pos hwide, decodeOp32_of_decode32 hdec]
  | sdiv rd rn rm => rw [decodeAt_sdiv rd rn 0b1111#4 rm h, if_pos rfl]

/-! ### Execution -/

/-- The register file and the data memory. -/
@[ext] structure State (μ : Type) where
  regs : Regs
  mem : μ

/-- The byte offset of a field that counts words. -/
def offset (imm5 : BitVec 5) : BitVec 32 := imm5.setWidth 32 <<< 2

section Machine

variable {μ : Type} (port : DataPort (BitVec 32) (BitVec 32) μ)

/-- `BX` takes its target from a register and stays in Thumb state only if bit 0 is
set; the manual does not let it take the PC. -/
def Op.flow : Op → State μ → Option (Flow (BitVec 32) (State μ))
  | .base (.strImm rt rn imm5), s =>
      some (.next ⟨s.regs, port.store (s.regs rn.full + offset imm5) (s.regs rt.full) s.mem⟩)
  | .base (.ldrImm rt rn imm5), s =>
      let (value, mem) := port.load (s.regs rn.full + offset imm5) s.mem
      some (.next ⟨Function.update s.regs rt.full value, mem⟩)
  | .base (.bx rm), s =>
      if rm = 15#4 ∨ (s.regs rm).getLsbD 0 = false then none
      else some (.leave (s.regs rm &&& ~~~1#32) s)
  | o, s => (o.exec s.regs).map fun regs => .next ⟨regs, s.mem⟩

/-- The instruction set over a data port. -/
def isa : Isa HalfWord Op (BitVec 32) (State μ) where
  encode := Op.encode
  decode := decodeAt
  exec := Op.flow port
  decode_encode := decodeAt_encode

/-- Neither a load, a store nor a branch. -/
def Instr.IsAlu : Instr → Prop
  | .strImm _ _ _ | .ldrImm _ _ _ | .bx _ => False
  | _ => True

theorem flow_alu {i : Instr} (h : i.IsAlu) (s : State μ) :
    Op.flow port (.base i) s = (i.execAlu s.regs).map fun regs => .next ⟨regs, s.mem⟩ := by
  cases i <;> first | exact h.elim | rfl

theorem block_alu {i : Instr} (h : i.IsAlu) :
    Block (isa port) i.encode 1 fun s => (i.execAlu s.regs).map fun regs => ⟨regs, s.mem⟩ := by
  have hstays : (isa port).Stays (.base i) := by
    intro s a s' hleave
    rw [show (isa port).exec (.base i) s = _ from flow_alu port h s] at hleave
    cases hexec : i.execAlu s.regs <;> rw [hexec] at hleave <;> cases hleave
  refine (FetchExecute.block_instr hstays).congr fun s => ?_
  rw [Isa.step, show (isa port).exec (.base i) s = _ from flow_alu port h s]
  cases i.execAlu s.regs <;> rfl

/-- Moves, sums, differences and products in order. -/
theorem block_alus {is : List Instr} (h : ∀ i ∈ is, i.IsAlu) :
    Block (isa port) (encodeAll is) is.length fun s =>
      (is.foldlM Instr.execAlu s.regs).map fun regs => ⟨regs, s.mem⟩ := by
  induction is with
  | nil => exact FetchExecute.block_nil
  | cons i is ih =>
      have hboth := (block_alu port (h i List.mem_cons_self)).seq
        (ih fun j hj => h j (List.mem_cons_of_mem i hj))
      rw [encodeAll, List.flatMap_cons, List.length_cons]
      refine hboth.congr fun s => ?_
      rw [List.foldlM_cons]
      cases i.execAlu s.regs <;> rfl

theorem block_str (rt rn : LowReg) (imm5 : BitVec 5) :
    Block (isa port) (Instr.strImm rt rn imm5).encode 1 fun s =>
      some ⟨s.regs, port.store (s.regs rn.full + offset imm5) (s.regs rt.full) s.mem⟩ := by
  have hstays : (isa port).Stays (.base (.strImm rt rn imm5)) := nofun
  exact FetchExecute.block_instr hstays

theorem block_ldr (rt rn : LowReg) (imm5 : BitVec 5) :
    Block (isa port) (Instr.ldrImm rt rn imm5).encode 1 fun s =>
      some ⟨Function.update s.regs rt.full (port.load (s.regs rn.full + offset imm5) s.mem).1,
        (port.load (s.regs rn.full + offset imm5) s.mem).2⟩ := by
  have hstays : (isa port).Stays (.base (.ldrImm rt rn imm5)) := nofun
  exact FetchExecute.block_instr hstays

/-- A division with another lower field faults. -/
theorem block_sdiv_undefined (rd rn rm : Reg) {fixed : BitVec 4} (h : fixed ≠ 0b1111#4) :
    Block (isa port) [opSdiv ++ rn, 0b1111#4 ++ rd ++ fixed ++ rm] 1 fun _ => none := by
  refine FetchExecute.block_undefined fun f hf => ?_
  show decodeAt f = none
  rw [decodeAt_sdiv rd rn fixed rm hf, if_neg h]

end Machine

end HolyRust.Thumb2
