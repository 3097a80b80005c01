import HolyRust.Compiler.Encodings
import HolyRust.Library.Fallible

/-!
The two emitters (`Thumb2Emitter` and `Riscv32Emitter` in `compiler/emitter.rs`)
and where they write.

An emitter is a cursor into EXEC_BUFFER, kept as the byte offset from its start,
with the volatile stores made through it. That the cursor moves in lockstep with
`lenWords`, which stops at the capacity, is part of the structure; so is what
follows from it, that no store leaves the buffer. A call that fails keeps the
stores it made first.

* `Fits k x` — with room for `k` more units `x` succeeds in at most `k` units.
* `emit_fits` — on registers the backend takes, each call fits `Instr.units`.
-/

namespace HolyRust

/-- Size of the executable SRAM region. -/
def execBufferSize : Target → Nat
  | .riscv32 => 1024
  | .arm => 4096

namespace Emitter

/-- Bytes of the unit a backend writes: a halfword or a word. -/
def unitBytes : Target → Nat
  | .arm => 2
  | .riscv32 => 4

/-- A volatile store into EXEC_BUFFER, `offset` bytes from its start. -/
structure Store where
  offset : Nat
  bytes : List Byte
deriving DecidableEq, Repr

/-- The store ends inside the buffer. -/
def Store.Inside (size : Nat) (s : Store) : Prop := s.offset + s.bytes.length ≤ size

/-- The little-endian bytes of a value. -/
def leBytes {w : Nat} (n : Nat) (v : BitVec w) : List Byte :=
  (List.range n).map fun i => v.extractLsb' (8 * i) 8

@[simp] theorem length_leBytes {w : Nat} (n : Nat) (v : BitVec w) : (leBytes n v).length = n := by
  simp [leBytes]

/-- An emitter at work: `Thumb2Emitter` and `Riscv32Emitter` have the same
fields over different units. -/
structure CodeBuffer (t : Target) where
  cursor : Nat
  capWords : Nat
  lenWords : Nat
  stores : List Store
  cap_eq : capWords = execBufferSize t / unitBytes t
  len_le : lenWords ≤ capWords
  cursor_eq : cursor = unitBytes t * lenWords
  inside : ∀ s ∈ stores, s.Inside (execBufferSize t)

abbrev EmitM (t : Target) := EStateM EmitError (CodeBuffer t)

namespace CodeBuffer

variable {t : Target}

/-- `into_exec_buffer`: positioned at the start of EXEC_BUFFER. -/
def intoExecBuffer (t : Target) : CodeBuffer t :=
  ⟨0, execBufferSize t / unitBytes t, 0, [], rfl, Nat.zero_le _, rfl, by simp⟩

/-- The unit at the cursor is inside the buffer while `lenWords` is below the
capacity. -/
theorem next_inside (e : CodeBuffer t) (h : e.lenWords < e.capWords) :
    e.cursor + unitBytes t ≤ execBufferSize t := by
  have hcap : (e.lenWords + 1) * unitBytes t ≤ e.capWords * unitBytes t :=
    Nat.mul_le_mul_right _ h
  have hsize : e.capWords * unitBytes t ≤ execBufferSize t := by
    rw [e.cap_eq]
    exact Nat.div_mul_le_self _ _
  calc e.cursor + unitBytes t = (e.lenWords + 1) * unitBytes t := by
        rw [e.cursor_eq, Nat.mul_comm, Nat.add_mul, Nat.one_mul]
    _ ≤ execBufferSize t := Nat.le_trans hcap hsize

/-- `push16` and `push32`: store one unit at the cursor. -/
def push (bytes : List Byte) (hbytes : bytes.length = unitBytes t) : EmitM t PUnit := fun e =>
  if h : e.lenWords < e.capWords then
    .ok ⟨⟩
      { e with
        cursor := e.cursor + unitBytes t
        lenWords := e.lenWords + 1
        stores := e.stores ++ [⟨e.cursor, bytes⟩]
        len_le := h
        cursor_eq := by rw [e.cursor_eq, Nat.mul_succ]
        inside := by
          intro s hs
          rcases List.mem_append.mp hs with hs | hs
          · exact e.inside s hs
          · rw [List.mem_singleton.mp hs, Store.Inside, hbytes]
            exact e.next_inside h }
  else .error .overflow e

end CodeBuffer

/-! ### Thumb-2 backend -/

namespace Thumb2Emitter

def push16 (hw : HalfWord) : EmitM .arm PUnit :=
  CodeBuffer.push (leBytes 2 hw) (length_leBytes 2 hw)

def emitMovImm (reg : Reg) (imm : Word) : EmitM .arm PUnit := do
  if reg > 15 then throw .badRegister
  -- MOVS Rd, #imm8 covers 0..=255 in one 16-bit slot
  else if imm ≤ 0xFF ∧ reg < 8 then
    push16 (0x2000 ||| (reg.setWidth 16 <<< 8) ||| (imm.setWidth 16 &&& 0xFF))
  else
    let (w1, w2) := encodeMovw reg imm
    push16 w1
    push16 w2
    if imm >>> 16 ≠ 0 then
      let (t1, t2) := encodeMovt reg imm
      push16 t1
      push16 t2

def emitStoreU32 (srcReg addrReg : Reg) : EmitM .arm PUnit :=
  match encodeStrImm srcReg addrReg 0 with
  | some hw => push16 hw
  | none => throw .badRegister

def emitLoadU32 (dstReg addrReg : Reg) : EmitM .arm PUnit :=
  match encodeLdrImm dstReg addrReg 0 with
  | some hw => push16 hw
  | none => throw .badRegister

/-- ADDS Rd, Rn, Rm. -/
def emitAdd (dst a b : Reg) : EmitM .arm PUnit :=
  if dst > 7 ∨ a > 7 ∨ b > 7 then throw .badRegister
  else push16 (0x1800 ||| (b.setWidth 16 <<< 6) ||| (a.setWidth 16 <<< 3) ||| dst.setWidth 16)

/-- SUBS Rd, Rn, Rm. -/
def emitSub (dst a b : Reg) : EmitM .arm PUnit :=
  if dst > 7 ∨ a > 7 ∨ b > 7 then throw .badRegister
  else push16 (0x1A00 ||| (b.setWidth 16 <<< 6) ||| (a.setWidth 16 <<< 3) ||| dst.setWidth 16)

/-- MULS Rdm, Rm, behind a MOVS Rd, Rn if `a` is not `dst`. -/
def emitMul (dst a b : Reg) : EmitM .arm PUnit := do
  if dst > 7 ∨ a > 7 ∨ b > 7 then throw .badRegister
  else
    if a ≠ dst then push16 ((a.setWidth 16 <<< 3) ||| dst.setWidth 16)
    push16 (0x4340 ||| (b.setWidth 16 <<< 3) ||| dst.setWidth 16)

def emitDiv (dst a b : Reg) : EmitM .arm PUnit := do
  if dst > 15 ∨ a > 15 ∨ b > 15 then throw .badRegister
  else
    let (hw1, hw2) := encodeSdiv dst a b
    push16 hw1
    push16 hw2

/-- BX LR. -/
def emitRet : EmitM .arm PUnit := push16 0x4770

/-- The call of the trait `i` stands for. -/
def emit : Instr → EmitM .arm PUnit
  | .movImm reg imm => emitMovImm reg imm
  | .storeU32 src addr => emitStoreU32 src addr
  | .loadU32 dst addr => emitLoadU32 dst addr
  | .add dst a b => emitAdd dst a b
  | .sub dst a b => emitSub dst a b
  | .mul dst a b => emitMul dst a b
  | .div dst a b => emitDiv dst a b
  | .ret => emitRet

end Thumb2Emitter

/-! ### RV32I backend -/

namespace Riscv32Emitter

def push32 (word : Word) : EmitM .riscv32 PUnit :=
  CodeBuffer.push (leBytes 4 word) (length_leBytes 4 word)

def emitMovImm (reg : Reg) (imm : Word) : EmitM .riscv32 PUnit := do
  -- LUI/ADDI with 0x800 rounding so that the ADDI sign-extension cancels
  if imm ≤ 0x7FF ∨ imm ≥ 0xFFFFF800 then push32 (encodeAddi reg 0 imm)
  else
    let hi20 := (imm + 0x800) >>> 12
    let lo12 := imm - (hi20 <<< 12)
    push32 (encodeLui reg hi20)
    if lo12 ≠ 0 then push32 (encodeAddi reg reg lo12)

def emitStoreU32 (srcReg addrReg : Reg) : EmitM .riscv32 PUnit :=
  match encodeSw srcReg addrReg 0 with
  | some word => push32 word
  | none => throw .badRegister

def emitLoadU32 (dstReg addrReg : Reg) : EmitM .riscv32 PUnit :=
  match encodeLw dstReg addrReg 0 with
  | some word => push32 word
  | none => throw .badRegister

def emitAdd (dst a b : Reg) : EmitM .riscv32 PUnit := push32 (encodeRtypeAddsub dst a b false)

def emitSub (dst a b : Reg) : EmitM .riscv32 PUnit := push32 (encodeRtypeAddsub dst a b true)

def emitMul (dst a b : Reg) : EmitM .riscv32 PUnit := push32 (encodeRtype dst a b 0x01 0x00)

def emitDiv (dst a b : Reg) : EmitM .riscv32 PUnit := push32 (encodeRtype dst a b 0x01 0x04)

def emitRet : EmitM .riscv32 PUnit := push32 rv32Ret

/-- The call of the trait `i` stands for. -/
def emit : Instr → EmitM .riscv32 PUnit
  | .movImm reg imm => emitMovImm reg imm
  | .storeU32 src addr => emitStoreU32 src addr
  | .loadU32 dst addr => emitLoadU32 dst addr
  | .add dst a b => emitAdd dst a b
  | .sub dst a b => emitSub dst a b
  | .mul dst a b => emitMul dst a b
  | .div dst a b => emitDiv dst a b
  | .ret => emitRet

end Riscv32Emitter

/-- A call on the target's emitter. -/
def emit : (t : Target) → Instr → EmitM t PUnit
  | .arm => Thumb2Emitter.emit
  | .riscv32 => Riscv32Emitter.emit

/-! ### Sizes -/

section Fits

open Fallible (Ends)

variable {t : Target} {j k : Nat} {x y : EmitM t PUnit}

theorem push_ok {bytes : List Byte} (hbytes : bytes.length = unitBytes t) {e : CodeBuffer t}
    (h : e.lenWords < e.capWords) :
    ∃ e', CodeBuffer.push bytes hbytes e = .ok ⟨⟩ e' ∧ e'.lenWords = e.lenWords + 1 ∧
      e'.stores = e.stores ++ [⟨e.cursor, bytes⟩] := by
  unfold CodeBuffer.push
  rw [dif_pos h]
  exact ⟨_, rfl, rfl, rfl⟩

/-- With room for `k` more units, `x` succeeds and writes at most `k`. -/
def Fits (k : Nat) (x : EmitM t PUnit) : Prop :=
  ∀ e, e.lenWords + k ≤ e.capWords →
    Ends x e (fun _ e' => e'.lenWords ≤ e.lenWords + k) fun _ _ => False

theorem CodeBuffer.capWords_eq (e e' : CodeBuffer t) : e'.capWords = e.capWords :=
  e'.cap_eq.trans e.cap_eq.symm

theorem fits_push {bytes : List Byte} (hbytes : bytes.length = unitBytes t) :
    Fits 1 (CodeBuffer.push bytes hbytes) := by
  intro e hroom
  obtain ⟨e', hpush, hlen, _⟩ := push_ok hbytes hroom
  unfold Ends
  rw [hpush]
  exact Nat.le_of_eq hlen

theorem fits_pure : Fits 0 (pure ⟨⟩ : EmitM t PUnit) := fun _ _ => Nat.le_refl _

theorem Fits.mono (h : Fits j x) (hle : j ≤ k) : Fits k x := by
  intro e hroom
  refine (h e (by omega)).mono ?_ fun _ _ he => he
  intro _ e' hlen
  exact Nat.le_trans hlen (by omega)

theorem Fits.seq (hx : Fits j x) (hy : Fits k y) : Fits (j + k) (x >>= fun _ => y) := by
  intro e hroom
  refine (hx e (by omega)).bind fun _ e₁ hlen₁ => ?_
  have hroom₁ : e₁.lenWords + k ≤ e₁.capWords := by
    rw [e.capWords_eq e₁]
    omega
  refine (hy e₁ hroom₁).mono ?_ fun _ _ he => he
  intro _ e' hlen
  omega

theorem fits_push16 (hw : HalfWord) : Fits 1 (Thumb2Emitter.push16 hw) := fits_push _

theorem fits_push32 (word : Word) : Fits 1 (Riscv32Emitter.push32 word) := fits_push _

/-- The registers a call names. -/
def Instr.regs : Instr → List Reg
  | .movImm reg _ => [reg]
  | .storeU32 src addr => [src, addr]
  | .loadU32 dst addr => [dst, addr]
  | .add dst a b | .sub dst a b | .mul dst a b | .div dst a b => [dst, a, b]
  | .ret => []

/-- The units an instruction of the backend takes at most. -/
def instrUnits : Target → Nat
  | .arm => 2
  | .riscv32 => 1

/-- The units a call may take: an immediate may need two instructions, a return
is one unit. -/
def Instr.units (t : Target) : Instr → Nat
  | .movImm _ _ => 2 * instrUnits t
  | .storeU32 _ _ | .loadU32 _ _ => instrUnits t
  | .add _ _ _ | .sub _ _ _ | .mul _ _ _ | .div _ _ _ => instrUnits t
  | .ret => 1

/-- The registers every call of the backend takes: the low ones on Thumb-2. -/
def Usable : Target → Reg → Prop
  | .arm, r => r ≤ 7
  | .riscv32, _ => True

/-- A low register passes both of the register checks. -/
theorem low_reg {r : Reg} (h : Usable .arm r) : ¬ r > 7 ∧ ¬ r > 15 := by
  have : r ≤ 7 := h
  constructor <;> bv_omega

theorem thumb2_movImm_fits {reg : Reg} (h : Usable .arm reg) (imm : Word) :
    Fits 4 (Thumb2Emitter.emitMovImm reg imm) := by
  unfold Thumb2Emitter.emitMovImm
  rw [if_neg (low_reg h).2]
  split
  · exact (fits_push16 _).mono (by omega)
  · refine ((fits_push16 _).seq ((fits_push16 _).seq (k := 2) ?_)).mono (by omega)
    split
    · exact (fits_push16 _).seq (fits_push16 _)
    · exact fits_pure.mono (Nat.zero_le _)

theorem memImm_zero (opcode : HalfWord) {rt rn : Reg} (ht : ¬ rt > 7) (hn : ¬ rn > 7) :
    ∃ hw, memImm opcode rt rn 0 = some hw := by
  unfold memImm
  rw [if_neg]
  · exact ⟨_, rfl⟩
  · rintro (hr | hr | hr | hr)
    · exact ht hr
    · exact hn hr
    · exact absurd hr (by decide)
    · exact hr (by decide)

/-- The calls on three low registers pass their check. -/
theorem thumb2_triple_fits {dst a b : Reg} {f : EmitM .arm PUnit} {lim : Reg}
    (hlim : lim = 7 ∨ lim = 15) (h : ∀ r ∈ [dst, a, b], Usable .arm r) (hf : Fits 2 f) :
    Fits 2 (if dst > lim ∨ a > lim ∨ b > lim then throw .badRegister else f) := by
  have hlow : ∀ r ∈ [dst, a, b], ¬ r > lim := by
    intro r hr
    rcases hlim with rfl | rfl
    · exact (low_reg (h r hr)).1
    · exact (low_reg (h r hr)).2
  rw [if_neg]
  · exact hf
  · rintro (hr | hr | hr)
    · exact hlow dst (by simp) hr
    · exact hlow a (by simp) hr
    · exact hlow b (by simp) hr

theorem thumb2_emit_fits {i : Instr} (h : ∀ r ∈ i.regs, Usable .arm r) :
    Fits (i.units .arm) (Thumb2Emitter.emit i) := by
  cases i with
  | movImm reg imm => exact thumb2_movImm_fits (h reg (by simp [Instr.regs])) imm
  | storeU32 src addr =>
      obtain ⟨hw, heq⟩ := memImm_zero 0x6000 (low_reg (h src (by simp [Instr.regs]))).1
        (low_reg (h addr (by simp [Instr.regs]))).1
      simp only [Thumb2Emitter.emit, Thumb2Emitter.emitStoreU32, encodeStrImm, heq]
      exact (fits_push16 hw).mono (Nat.le_succ 1)
  | loadU32 dst addr =>
      obtain ⟨hw, heq⟩ := memImm_zero 0x6800 (low_reg (h dst (by simp [Instr.regs]))).1
        (low_reg (h addr (by simp [Instr.regs]))).1
      simp only [Thumb2Emitter.emit, Thumb2Emitter.emitLoadU32, encodeLdrImm, heq]
      exact (fits_push16 hw).mono (Nat.le_succ 1)
  | add dst a b =>
      exact thumb2_triple_fits (.inl rfl) h ((fits_push16 _).mono (Nat.le_succ 1))
  | sub dst a b =>
      exact thumb2_triple_fits (.inl rfl) h ((fits_push16 _).mono (Nat.le_succ 1))
  | mul dst a b =>
      refine thumb2_triple_fits (.inl rfl) h ?_
      split
      · exact (fits_push16 _).seq (fits_push16 _)
      · exact (fits_push16 _).mono (Nat.le_succ 1)
  | div dst a b =>
      exact thumb2_triple_fits (.inr rfl) h ((fits_push16 _).seq (fits_push16 _))
  | ret => exact fits_push16 _

theorem riscv32_movImm_fits (reg : Reg) (imm : Word) :
    Fits 2 (Riscv32Emitter.emitMovImm reg imm) := by
  unfold Riscv32Emitter.emitMovImm
  split
  · exact (fits_push32 _).mono (by omega)
  · refine (fits_push32 _).seq (k := 1) ?_
    split
    · exact fits_push32 _
    · exact fits_pure.mono (Nat.zero_le _)

theorem outOfImm12_zero : outOfImm12 0 = false := by decide

theorem riscv32_emit_fits (i : Instr) : Fits (i.units .riscv32) (Riscv32Emitter.emit i) := by
  cases i with
  | movImm reg imm =>
      exact riscv32_movImm_fits reg imm
  | storeU32 src addr =>
      show Fits 1 (Riscv32Emitter.emitStoreU32 src addr)
      simp only [Riscv32Emitter.emitStoreU32, encodeSw, outOfImm12_zero]
      exact fits_push32 _
  | loadU32 dst addr =>
      show Fits 1 (Riscv32Emitter.emitLoadU32 dst addr)
      simp only [Riscv32Emitter.emitLoadU32, encodeLw, outOfImm12_zero]
      exact fits_push32 _
  | add dst a b => exact fits_push32 (encodeRtypeAddsub dst a b false)
  | sub dst a b => exact fits_push32 (encodeRtypeAddsub dst a b true)
  | mul dst a b => exact fits_push32 (encodeRtype dst a b 0x01 0x00)
  | div dst a b => exact fits_push32 (encodeRtype dst a b 0x01 0x04)
  | ret => exact fits_push32 rv32Ret

/-- A call on usable registers succeeds within its units. -/
theorem emit_fits {i : Instr} (h : ∀ r ∈ i.regs, Usable t r) : Fits (i.units t) (emit t i) := by
  cases t with
  | arm => exact thumb2_emit_fits h
  | riscv32 => exact riscv32_emit_fits i

end Fits

end Emitter

end HolyRust
