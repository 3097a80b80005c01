import HolyRust.Compiler.Division
import HolyRust.Compiler.LoadStoreCode
import HolyRust.Compiler.Riscv32Code
import HolyRust.Library.Rv32Machine
import HolyRust.Library.Thumb2Machine

/-!
The bytes of the emitters executed: what a processor of the target does when
EXEC_BUFFER is called (`exec_buffer_entry`, `jump_to_sram` in `kernel/exec.rs`).

* `CpuState`, `processor` — the registers with the data bus, and the instruction set
  of the target over them.
* `effect` — what the code of one emitter call does; `block_call` proves it.
* `callCode` — fetch and execute from the start of the buffer until control leaves;
  `callCode_emitted` is the effect of a whole sequence of calls.
-/

namespace HolyRust.Emitter

open FetchExecute (Isa DataPort Block Loaded Starts)

/-! ### Processors -/

/-- The data bus as the instructions see it. -/
def port : DataPort Word Word Bus where
  load addr b := b.peekU32 addr
  store addr value b := b.pokeU32 addr value

/-- The registers of a target and the data bus. -/
def CpuState : Target → Type
  | .arm => Thumb2.State Bus
  | .riscv32 => Rv32.State Bus

namespace CpuState

def regs : {t : Target} → CpuState t → RegFile t
  | .arm, s => Thumb2.State.regs s
  | .riscv32, s => Rv32.State.regs s

def bus : {t : Target} → CpuState t → Bus
  | .arm, s => Thumb2.State.mem s
  | .riscv32, s => Rv32.State.mem s

def mk : {t : Target} → RegFile t → Bus → CpuState t
  | .arm, regs, bus => Thumb2.State.mk regs bus
  | .riscv32, regs, bus => Rv32.State.mk regs bus

/-- The processor with these words in its registers. -/
def holding : (t : Target) → (Reg → Word) → Bus → CpuState t
  | .arm, words, bus => Thumb2.State.mk (fun r => words (r.setWidth 8)) bus
  | .riscv32, words, bus => Rv32.State.mk (fun r => words (r.setWidth 8)) bus

variable {t : Target}

def reg (s : CpuState t) (r : Reg) : Word := readReg t s.regs r

def set (s : CpuState t) (r : Reg) (v : Word) : CpuState t := mk (writeReg t s.regs r v) s.bus

def withBus (s : CpuState t) (b : Bus) : CpuState t := mk s.regs b

@[simp] theorem regs_mk (regs : RegFile t) (b : Bus) : (mk regs b).regs = regs := by
  cases t <;> rfl

@[simp] theorem bus_mk (regs : RegFile t) (b : Bus) : (mk regs b).bus = b := by
  cases t <;> rfl

@[simp] theorem bus_holding (words : Reg → Word) (b : Bus) : (holding t words b).bus = b := by
  cases t <;> rfl

@[simp] theorem bus_set (s : CpuState t) (r : Reg) (v : Word) : (s.set r v).bus = s.bus :=
  bus_mk _ _

@[simp] theorem bus_withBus (s : CpuState t) (b : Bus) : (s.withBus b).bus = b := bus_mk _ _

@[simp] theorem reg_withBus (s : CpuState t) (b : Bus) (r : Reg) :
    (s.withBus b).reg r = s.reg r := by
  simp [reg, withBus]

end CpuState

/-- The registers code may name: the low ones, and `x2` to `x31`, not the one that
holds the return address. -/
def Named : Target → Reg → Prop
  | .arm, r => r ≤ 7
  | .riscv32, r => 2 ≤ r ∧ r ≤ 31

instance (t : Target) (r : Reg) : Decidable (Named t r) :=
  match t with
  | .arm => inferInstanceAs (Decidable (r ≤ 7))
  | .riscv32 => inferInstanceAs (Decidable (2 ≤ r ∧ r ≤ 31))

theorem Named.usable {t : Target} {r : Reg} (h : Named t r) : Usable t r := by
  cases t with
  | arm => exact h
  | riscv32 => trivial

theorem named_field {r : Reg} (h : Named .riscv32 r) : r.setWidth 5 ≠ 0#5 := by
  obtain ⟨hlo, hhi⟩ := h
  bv_omega

/-- The registers there are. -/
def IsReg : Target → Reg → Prop
  | .arm, r => r ≤ 15
  | .riscv32, r => r ≤ 31

instance (t : Target) (r : Reg) : Decidable (IsReg t r) :=
  match t with
  | .arm => inferInstanceAs (Decidable (r ≤ 15))
  | .riscv32 => inferInstanceAs (Decidable (r ≤ 31))

theorem Named.isReg {t : Target} {r : Reg} (h : Named t r) : IsReg t r := by
  cases t with
  | arm => exact BitVec.le_trans h (by decide)
  | riscv32 => exact h.2

namespace CpuState

variable {t : Target}

theorem reg_set_self (s : CpuState t) {r : Reg} (h : Named t r) (v : Word) :
    (s.set r v).reg r = v := by
  cases t with
  | arm => exact Function.update_self _ _ _
  | riscv32 => exact Rv32.read_write_self (named_field h) _ _

theorem reg_set_of_ne (s : CpuState t) {r q : Reg} (hr : Named t r) (hq : IsReg t q)
    (hne : q ≠ r) (v : Word) : (s.set r v).reg q = s.reg q := by
  have hr' := hr.isReg
  cases t with
  | arm =>
      have hle : q ≤ 15 ∧ r ≤ 15 := ⟨hq, hr'⟩
      have hfield : wide q ≠ wide r := by
        unfold wide
        bv_omega
      exact Function.update_of_ne hfield _ _
  | riscv32 =>
      have hle : q ≤ 31 ∧ r ≤ 31 := ⟨hq, hr'⟩
      have hfield : q.setWidth 5 ≠ r.setWidth 5 := by bv_omega
      exact Rv32.read_write_of_ne hfield _ _

end CpuState

/-- What the backend writes at a time. -/
def CodeUnit : Target → Type
  | .arm => HalfWord
  | .riscv32 => Word

/-- The unit little-endian bytes stand for. -/
def unitOf : (t : Target) → List Byte → CodeUnit t
  | .arm => ofLeBytes 16
  | .riscv32 => ofLeBytes 32

/-- The bytes of a unit. -/
def unitLe : (t : Target) → CodeUnit t → List Byte
  | .arm => leBytes 2
  | .riscv32 => leBytes 4

theorem unitOf_unitLe : ∀ (t : Target) (u : CodeUnit t), unitOf t (unitLe t u) = u
  | .arm, u => ofLeBytes_leBytes16 u
  | .riscv32, u => ofLeBytes_leBytes32 u

def Operation : Target → Type
  | .arm => Thumb2.Op
  | .riscv32 => Rv32.Insn

/-- The instruction set of a target over its registers and the data bus. -/
def processor : (t : Target) → Isa (CodeUnit t) (Operation t) Word (CpuState t)
  | .arm => Thumb2.isa port
  | .riscv32 => Rv32.isa port

/-! ### What one call leaves behind -/

/-- The value an immediate load brings: on RISC-V the misplaced field spoils every
immediate of more than 12 bits. -/
def arrives : Target → Word → Word
  | .arm, imm => imm
  | .riscv32, imm => loadedValue imm

/-- The quotient the code leaves, if it is code at all. -/
def quotient : Target → Word → Word → Option Word
  | .arm, _, _ => none
  | .riscv32, a, b => some (Rv32.divSigned a b)

/-- The register the product takes its second factor from. -/
def factorReg (t : Target) (dst a b : Reg) : Reg := if t = .arm ∧ Clobbers dst a b then a else b

/-- What the code of a call does; `none` is a fault. -/
def effect {t : Target} (s : CpuState t) : Instr → Option (CpuState t)
  | .movImm reg imm => some (s.set reg (arrives t imm))
  | .storeU32 src addr => some (s.withBus (s.bus.pokeU32 (s.reg addr) (s.reg src)))
  | .loadU32 dst addr =>
      let (value, bus) := s.bus.peekU32 (s.reg addr)
      some ((s.withBus bus).set dst value)
  | .add dst a b => some (s.set dst (s.reg a + s.reg b))
  | .sub dst a b => some (s.set dst (s.reg a - s.reg b))
  | .mul dst a b => some (s.set dst (s.reg a * s.reg (factorReg t dst a b)))
  | .div dst a b => (quotient t (s.reg a) (s.reg b)).map (s.set dst)
  | .ret => some s

/-- The calls one after the other. -/
def effects {t : Target} (is : List Instr) (s : CpuState t) : Option (CpuState t) :=
  is.foldlM effect s

/-- A call that is no return, on registers code may name. -/
def Plain (t : Target) (i : Instr) : Prop := i ≠ .ret ∧ ∀ r ∈ i.regs, Named t r

/-- The halfwords of a call; a division has the fixed field wrong. -/
def armUnits : Instr → List HalfWord
  | .div dst a b => [(encodeSdiv dst a b).1, (encodeSdiv dst a b).2]
  | i => Thumb2.encodeAll (thumbInstrs i)

theorem armUnits_of_notDiv {i : Instr} (h : NotDiv i) :
    armUnits i = Thumb2.encodeAll (thumbInstrs i) := by
  cases i <;> first | exact h.elim | rfl

/-- The instructions of a call on RISC-V. -/
def rvInsns : Instr → List Rv32.Insn
  | .movImm reg imm => (movImmInstrs reg imm).map fun i => .op (.base i)
  | .storeU32 src addr => [.op (.sw (src.setWidth 5) (addr.setWidth 5) 0)]
  | .loadU32 dst addr => [.op (.lw (dst.setWidth 5) (addr.setWidth 5) 0)]
  | .add dst a b => [.add (dst.setWidth 5) (a.setWidth 5) (b.setWidth 5)]
  | .sub dst a b => [.sub (dst.setWidth 5) (a.setWidth 5) (b.setWidth 5)]
  | .mul dst a b => [.mul (dst.setWidth 5) (a.setWidth 5) (b.setWidth 5)]
  | .div dst a b => [.op (.div (dst.setWidth 5) (a.setWidth 5) (b.setWidth 5))]
  | .ret => [.jr 1 0]

/-- The units of a call. -/
def callUnits : (t : Target) → Instr → List (CodeUnit t)
  | .arm, i => armUnits i
  | .riscv32, i => (rvInsns i).map Rv32.Insn.encode

/-- The instructions of a call. -/
def callSteps : Target → Instr → Nat
  | .arm, .div _ _ _ => 1
  | .arm, i => (thumbInstrs i).length
  | .riscv32, i => (rvInsns i).length

theorem callSteps_le (t : Target) (i : Instr) : callSteps t i ≤ 2 := by
  cases t with
  | arm =>
      cases i with
      | movImm reg imm =>
          show (thumbMovImm reg imm).length ≤ 2
          unfold thumbMovImm
          split_ifs <;> simp
      | mul dst a b =>
          show (thumbMul dst a b).length ≤ 2
          unfold thumbMul
          split_ifs <;> simp
      | storeU32 | loadU32 | add | sub | div | ret => exact Nat.le_succ 1
  | riscv32 =>
      cases i with
      | movImm reg imm =>
          show ((movImmInstrs reg imm).map _).length ≤ 2
          unfold movImmInstrs
          split_ifs <;> simp
      | storeU32 | loadU32 | add | sub | mul | div | ret => exact Nat.le_succ 1

/-! ### Thumb-2 -/

theorem thumb_alu (reg dst a b : Reg) (imm : Word) :
    (∀ i ∈ thumbMovImm reg imm, i.IsAlu) ∧ ∀ i ∈ thumbMul dst a b, i.IsAlu := by
  constructor
  · intro i hi
    unfold thumbMovImm at hi
    split_ifs at hi <;> simp only [List.mem_cons, List.not_mem_nil, or_false] at hi
    · subst hi
      trivial
    · rcases hi with rfl | rfl <;> trivial
    · subst hi
      trivial
  · intro i hi
    unfold thumbMul at hi
    split_ifs at hi <;> simp only [List.cons_append, List.nil_append, List.mem_cons,
      List.not_mem_nil, or_false] at hi
    · rcases hi with rfl | rfl <;> trivial
    · subst hi
      trivial

/-- The moves of an immediate load leave it in the register. -/
theorem foldlM_execAlu_thumbMovImm {reg : Reg} (h : reg ≤ 7) (imm : Word) (regs : Thumb2.Regs) :
    (thumbMovImm reg imm).foldlM Thumb2.Instr.execAlu regs =
      some (Function.update regs (wide reg) imm) := by
  have hle : reg ≤ 15 := BitVec.le_trans h (by decide)
  have hgeneral : GeneralReg reg := by
    constructor <;> rintro rfl <;> exact absurd h (by decide)
  have hmoves : (thumbMovImm reg imm).foldlM Thumb2.Instr.execAlu regs =
      Thumb2.execAll (thumbMovImm reg imm) regs := by
    unfold thumbMovImm Thumb2.execAll
    split_ifs <;> rfl
  rw [hmoves, execAll_thumbMovImm hle hgeneral]
  rfl

theorem foldlM_execAlu_thumbMul {dst a b : Reg} (hd : dst ≤ 7) (ha : a ≤ 7) (hb : b ≤ 7)
    (regs : Thumb2.Regs) :
    (thumbMul dst a b).foldlM Thumb2.Instr.execAlu regs =
      some (Function.update regs (wide dst)
        (regs (wide a) * regs (wide (factorReg .arm dst a b)))) := by
  rw [← Thumb2.run_encodeAll, run_thumbMul hd ha hb]
  unfold secondFactor factorReg
  by_cases h : Clobbers dst a b
  · simp [h]
  · simp [h]

/-- The code of a call on low registers is its effect. -/
theorem block_arm {i : Instr} (h : Plain .arm i) :
    Block (processor .arm) (armUnits i) (callSteps .arm i) fun s => effect s i := by
  obtain ⟨hret, hlow⟩ := h
  cases i with
  | movImm reg imm =>
      have hreg : reg ≤ 7 := hlow reg (by simp [Instr.regs])
      refine (Thumb2.block_alus port (thumb_alu reg 0 0 0 imm).1).congr fun s => ?_
      rw [foldlM_execAlu_thumbMovImm hreg]
      rfl
  | storeU32 src addr =>
      have hs : src ≤ 7 := hlow src (by simp [Instr.regs])
      have ha : addr ≤ 7 := hlow addr (by simp [Instr.regs])
      refine (Thumb2.block_str port (low src) (low addr) 0).congr fun s => ?_
      rw [full_low hs, full_low ha]
      simp [Thumb2.offset]
      rfl
  | loadU32 dst addr =>
      have hd : dst ≤ 7 := hlow dst (by simp [Instr.regs])
      have ha : addr ≤ 7 := hlow addr (by simp [Instr.regs])
      refine (Thumb2.block_ldr port (low dst) (low addr) 0).congr fun s => ?_
      rw [full_low hd, full_low ha]
      simp [Thumb2.offset]
      rfl
  | add dst a b =>
      have hd : dst ≤ 7 := hlow dst (by simp [Instr.regs])
      have ha : a ≤ 7 := hlow a (by simp [Instr.regs])
      have hb : b ≤ 7 := hlow b (by simp [Instr.regs])
      refine (Thumb2.block_alu port (i := .adds (low dst) (low a) (low b))
        trivial).congr fun s => ?_
      simp only [Thumb2.Instr.execAlu, full_low hd, full_low ha, full_low hb]
      rfl
  | sub dst a b =>
      have hd : dst ≤ 7 := hlow dst (by simp [Instr.regs])
      have ha : a ≤ 7 := hlow a (by simp [Instr.regs])
      have hb : b ≤ 7 := hlow b (by simp [Instr.regs])
      refine (Thumb2.block_alu port (i := .subs (low dst) (low a) (low b))
        trivial).congr fun s => ?_
      simp only [Thumb2.Instr.execAlu, full_low hd, full_low ha, full_low hb]
      rfl
  | mul dst a b =>
      have hd : dst ≤ 7 := hlow dst (by simp [Instr.regs])
      have ha : a ≤ 7 := hlow a (by simp [Instr.regs])
      have hb : b ≤ 7 := hlow b (by simp [Instr.regs])
      refine (Thumb2.block_alus port (thumb_alu 0 dst a b 0).2).congr fun s => ?_
      rw [foldlM_execAlu_thumbMul hd ha hb]
      rfl
  | div dst a b =>
      have hle : ∀ r ∈ [dst, a, b], r ≤ 15 := fun r hr => BitVec.le_trans (hlow r hr) (by decide)
      have hunits := encodeSdiv_eq (hle dst (by simp)) (hle a (by simp)) (hle b (by simp))
      have hfixed : 0b0001#4 ≠ 0b1111#4 := by decide
      have hblock := Thumb2.block_sdiv_undefined port (wide dst) (wide a) (wide b) hfixed
      simp only [armUnits, hunits]
      exact hblock
  | ret => exact absurd rfl hret

/-! ### RV32IM -/

section Encodings

variable (rd rs1 rs2 : Reg)

theorem encodeRtypeAddsub_add :
    encodeRtypeAddsub rd rs1 rs2 false =
      (Rv32.Insn.add (rd.setWidth 5) (rs1.setWidth 5) (rs2.setWidth 5)).encode := by
  refine BitVec.eq_of_getLsbD_eq fun i hi => ?_
  simp only [encodeRtypeAddsub, Rv32.Insn.encode, Rv32.opReg, Rv32.funct3Add, Rv32.funct7Add,
    BitVec.getLsbD_append, BitVec.getLsbD_or, BitVec.getLsbD_and, BitVec.getLsbD_shiftLeft,
    BitVec.getLsbD_setWidth]
  interval_cases i <;> simp

theorem encodeRtypeAddsub_sub :
    encodeRtypeAddsub rd rs1 rs2 true =
      (Rv32.Insn.sub (rd.setWidth 5) (rs1.setWidth 5) (rs2.setWidth 5)).encode := by
  refine BitVec.eq_of_getLsbD_eq fun i hi => ?_
  simp only [encodeRtypeAddsub, Rv32.Insn.encode, Rv32.opReg, Rv32.funct3Add, Rv32.funct7Sub,
    BitVec.getLsbD_append, BitVec.getLsbD_or, BitVec.getLsbD_and, BitVec.getLsbD_shiftLeft,
    BitVec.getLsbD_setWidth]
  interval_cases i <;> simp

theorem encodeRtype_mul :
    encodeRtype rd rs1 rs2 0x01 0x00 =
      (Rv32.Insn.mul (rd.setWidth 5) (rs1.setWidth 5) (rs2.setWidth 5)).encode := by
  refine BitVec.eq_of_getLsbD_eq fun i hi => ?_
  simp only [encodeRtype, Rv32.Insn.encode, Rv32.opReg, Rv32.funct3Add, Rv32.funct7M,
    BitVec.getLsbD_append, BitVec.getLsbD_or, BitVec.getLsbD_and, BitVec.getLsbD_shiftLeft,
    BitVec.getLsbD_setWidth]
  interval_cases i <;> simp

theorem rv32Ret_eq : rv32Ret = (Rv32.Insn.jr 1 0).encode := by decide

end Encodings

/-- The code of a call on `x2` to `x31` is its effect. -/
theorem block_riscv32 {i : Instr} (h : Plain .riscv32 i) :
    Block (processor .riscv32) (callUnits .riscv32 i) (callSteps .riscv32 i)
      fun s => effect s i := by
  obtain ⟨hret, hnamed⟩ := h
  cases i with
  | movImm reg imm =>
      have hreg := named_field (hnamed reg (by simp [Instr.regs]))
      have hunits : callUnits .riscv32 (.movImm reg imm) =
          (movImmInstrs reg imm).map Rv32.Instr.encode := List.map_map
      have hsteps : callSteps .riscv32 (.movImm reg imm) = (movImmInstrs reg imm).length := by
        simp [callSteps, rvInsns]
      rw [hunits, hsteps]
      refine (Rv32.block_bases port (movImmInstrs reg imm)).congr fun s => ?_
      rw [execAll_movImmInstrs hreg]
      rfl
  | storeU32 src addr =>
      refine Rv32.block_next port fun s => ?_
      simp [Rv32.Insn.flow, Rv32.State.address]
      rfl
  | loadU32 dst addr =>
      refine Rv32.block_next port fun s => ?_
      simp [Rv32.Insn.flow, Rv32.State.address]
      rfl
  | add dst a b => exact Rv32.block_next port fun s => rfl
  | sub dst a b => exact Rv32.block_next port fun s => rfl
  | mul dst a b =>
      refine (Rv32.block_next port
        (i := .mul (dst.setWidth 5) (a.setWidth 5) (b.setWidth 5)) fun s => rfl).congr fun s => ?_
      simp [effect, factorReg]
      rfl
  | div dst a b => exact Rv32.block_next port fun s => rfl
  | ret => exact absurd rfl hret

theorem block_call {t : Target} {i : Instr} (h : Plain t i) :
    Block (processor t) (callUnits t i) (callSteps t i) fun s => effect s i := by
  cases t with
  | arm => exact block_arm h
  | riscv32 => exact block_riscv32 h

/-! ### The units in the buffer -/

theorem writes_arm {i : Instr} (h : ∀ r ∈ i.regs, Named .arm r) :
    Writes (emit .arm i) ((callUnits .arm i).map (unitLe .arm)) := by
  by_cases hdiv : NotDiv i
  · have htakes : Takes i := by
      cases i with
      | movImm reg imm => exact BitVec.le_trans (h reg (by simp [Instr.regs])) (by decide)
      | storeU32 | loadU32 | add | sub | mul | div | ret => exact h
    show Writes (Thumb2Emitter.emit i) ((armUnits i).map (leBytes 2))
    rw [armUnits_of_notDiv hdiv]
    exact writes_emit hdiv htakes
  · cases i with
    | div dst a b =>
        have hle : ∀ r ∈ [dst, a, b], r ≤ 15 := fun r hr => BitVec.le_trans (h r hr) (by decide)
        exact (emitDiv_writes (hle dst (by simp)) (hle a (by simp)) (hle b (by simp))).2
    | movImm | storeU32 | loadU32 | add | sub | mul | ret => exact absurd trivial hdiv

/-- The words of instructions. -/
def insnUnits (is : List Rv32.Insn) : List (List Byte) := (is.map Rv32.Insn.encode).map (leBytes 4)

theorem writes_insn {word : Word} {i : Rv32.Insn} (h : word = i.encode) :
    Writes (Riscv32Emitter.push32 word) (insnUnits [i]) := by
  subst h
  exact writes_push _

theorem insnUnits_bases (is : List Rv32.Instr) :
    insnUnits (is.map fun i => .op (.base i)) = rv32Units is := by
  rw [insnUnits, rv32Units, List.map_map, List.map_map]
  rfl

theorem encodeSw_zero (src addr : Reg) :
    encodeSw src addr 0 = some (Rv32.Op.sw (src.setWidth 5) (addr.setWidth 5) 0).encode := by
  obtain ⟨word, hword⟩ := Option.isSome_iff_exists.mp
    (show (encodeSw src addr 0).isSome by rw [isSome_encodeSw, outOfImm12_zero]; rfl)
  rw [hword, encodeSw_eq hword]
  rfl

theorem encodeLw_zero (dst addr : Reg) :
    encodeLw dst addr 0 = some (Rv32.Op.lw (dst.setWidth 5) (addr.setWidth 5) 0).encode := by
  obtain ⟨word, hword⟩ := Option.isSome_iff_exists.mp
    (show (encodeLw dst addr 0).isSome by rw [isSome_encodeLw, outOfImm12_zero]; rfl)
  rw [hword, encodeLw_eq hword]
  rfl

theorem writes_riscv32 (i : Instr) : Writes (Riscv32Emitter.emit i) (insnUnits (rvInsns i)) := by
  cases i with
  | movImm reg imm =>
      rw [rvInsns, insnUnits_bases]
      exact writes_movImm reg imm
  | storeU32 src addr =>
      simp only [Riscv32Emitter.emit, Riscv32Emitter.emitStoreU32, encodeSw_zero]
      exact writes_insn (i := .op _) rfl
  | loadU32 dst addr =>
      simp only [Riscv32Emitter.emit, Riscv32Emitter.emitLoadU32, encodeLw_zero]
      exact writes_insn (i := .op _) rfl
  | add dst a b => exact writes_insn (encodeRtypeAddsub_add dst a b)
  | sub dst a b => exact writes_insn (encodeRtypeAddsub_sub dst a b)
  | mul dst a b => exact writes_insn (encodeRtype_mul dst a b)
  | div dst a b => exact writes_insn (i := .op _) (encodeRtype_div dst a b)
  | ret => exact writes_insn rv32Ret_eq

/-- A call writes its units. -/
theorem writes_call {t : Target} {i : Instr} (h : ∀ r ∈ i.regs, Named t r) :
    Writes (emit t i) ((callUnits t i).map (unitLe t)) := by
  cases t with
  | arm => exact writes_arm h
  | riscv32 => exact writes_riscv32 i

/-! ### The return -/

/-- The register that holds the return address. -/
def linkReg : Target → Reg
  | .arm => 14
  | .riscv32 => 1

/-- The operation behind a return. -/
def returnOp : (t : Target) → Operation t
  | .arm => Thumb2.Op.base (.bx 14)
  | .riscv32 => Rv32.Insn.jr 1 0

theorem callUnits_ret (t : Target) : callUnits t .ret = (processor t).encode (returnOp t) := by
  cases t <;> rfl

/-- The caller left the address behind its call in the link register; a Thumb caller
sets bit 0. -/
def Linked {t : Target} (s : CpuState t) (back : Word) : Prop :=
  s.reg (linkReg t) &&& ~~~1#32 = back ∧ (t = .arm → (s.reg (linkReg t)).getLsbD 0 = true)

instance {t : Target} (s : CpuState t) (back : Word) : Decidable (Linked s back) :=
  inferInstanceAs (Decidable (_ ∧ (_ → _)))

theorem exec_return {t : Target} {s : CpuState t} {back : Word} (h : Linked s back) :
    (processor t).exec (returnOp t) s = some (.leave back s) := by
  obtain ⟨rfl, hthumb⟩ := h
  cases t with
  | arm =>
      have hbit : (Thumb2.State.regs s 14#4).getLsbD 0 = true := hthumb rfl
      refine if_neg ?_
      rintro (h | h)
      · exact absurd h (by decide)
      · exact absurd (hbit.symm.trans h) (by decide)
  | riscv32 =>
      show Rv32.Insn.flow port (.jr 1 0) s = _
      simp [Rv32.Insn.flow, Rv32.State.address]
      rfl

/-- A call changes no register but those it names. -/
theorem reg_effect {t : Target} {s s' : CpuState t} {i : Instr} (hplain : Plain t i)
    (h : effect s i = some s') {q : Reg} (hq : IsReg t q) (hne : q ∉ i.regs) :
    s'.reg q = s.reg q := by
  obtain ⟨-, hnamed⟩ := hplain
  -- every call but a store and a return sets the first register it names
  have hset : ∀ (s : CpuState t) (r : Reg) (v : Word), r ∈ i.regs → (s.set r v).reg q = s.reg q :=
    fun s r v hr => s.reg_set_of_ne (hnamed r hr) hq (fun heq => hne (heq ▸ hr)) v
  cases i with
  | storeU32 src addr =>
      cases h
      exact CpuState.reg_withBus _ _ _
  | loadU32 dst addr =>
      cases h
      rw [hset _ dst _ (by simp [Instr.regs]), CpuState.reg_withBus]
  | div dst a b =>
      obtain ⟨v, -, rfl⟩ := Option.map_eq_some_iff.mp h
      exact hset s dst v (by simp [Instr.regs])
  | ret =>
      cases h
      rfl
  | movImm reg imm =>
      cases h
      exact hset s reg _ (by simp [Instr.regs])
  | add dst a b =>
      cases h
      exact hset s dst _ (by simp [Instr.regs])
  | sub dst a b =>
      cases h
      exact hset s dst _ (by simp [Instr.regs])
  | mul dst a b =>
      cases h
      exact hset s dst _ (by simp [Instr.regs])

theorem reg_effects {t : Target} {is : List Instr} (hplain : ∀ i ∈ is, Plain t i)
    {s s' : CpuState t} (h : effects is s = some s') {q : Reg} (hq : IsReg t q)
    (hne : ∀ i ∈ is, q ∉ i.regs) : s'.reg q = s.reg q := by
  induction is generalizing s with
  | nil =>
      cases h
      rfl
  | cons i is ih =>
      rw [effects, List.foldlM_cons] at h
      obtain ⟨s₁, hone, hrest⟩ := Option.bind_eq_some_iff.mp h
      rw [ih (fun j hj => hplain j (List.mem_cons_of_mem i hj)) hrest
        fun j hj => hne j (List.mem_cons_of_mem i hj)]
      exact reg_effect (hplain i List.mem_cons_self) hone hq (hne i List.mem_cons_self)

theorem isReg_linkReg (t : Target) : IsReg t (linkReg t) := by
  cases t <;> decide

theorem not_named_linkReg (t : Target) : ¬ Named t (linkReg t) := by
  cases t <;> decide

/-- Code never writes the link register. -/
theorem linked_effects {t : Target} {is : List Instr} (hplain : ∀ i ∈ is, Plain t i)
    {s s' : CpuState t} {back : Word} (hlinked : Linked s back) (h : effects is s = some s') :
    Linked s' back := by
  have hsame := reg_effects hplain h (isReg_linkReg t)
    fun i hi hmem => not_named_linkReg t ((hplain i hi).2 _ hmem)
  rwa [Linked, hsame]

/-! ### Calling the buffer -/

/-- A unit of code, `k` units behind `pos`, from the bytes a fetch brings. -/
def fetchUnit (t : Target) (fetch : Nat → Nat → Byte) (pos n k : Nat) : CodeUnit t :=
  unitOf t ((List.range (unitBytes t)).map fun j => fetch n (pos + unitBytes t * k + j))

/-- Call the code `offset` bytes into EXEC_BUFFER: where control goes when it leaves,
and the processor then. Bit 0 of the entry is no part of the address. -/
def callCode (t : Target) (fetch : Nat → Nat → Byte) (fuel offset : Nat) (s : CpuState t) :
    Option (Word × CpuState t) :=
  FetchExecute.run (processor t) (fetchUnit t fetch (offset - offset % 2)) fuel 0 s

/-- `bytes_written`. -/
def CodeBuffer.bytesWritten {t : Target} (e : CodeBuffer t) : Nat := unitBytes t * e.lenWords

/-- Every fetch sees what was written to the buffer, up to the cursor. -/
def Shows {t : Target} (e : CodeBuffer t) (fetch : Nat → Nat → Byte) : Prop :=
  ∀ n i, i < e.cursor → fetch n i = e.content i

/-- From the boundary `us` on, fetches see the units `vs`. -/
theorem loaded_of_shows {t : Target} {e : CodeBuffer t} {us vs : List (CodeUnit t)}
    (hunits : e.units = (us ++ vs).map (unitLe t)) {fetch : Nat → Nat → Byte}
    (hshows : Shows e fetch) : Loaded (fetchUnit t fetch (unitBytes t * us.length)) 0 vs := by
  intro n k hk
  have hlen : e.lenWords = us.length + vs.length := by
    rw [← length_units, hunits, List.length_map, List.length_append]
  have hunit : e.units[us.length + k]? = some (unitLe t vs[k]) := by
    rw [hunits, List.getElem?_map, List.getElem?_append_right (Nat.le_add_right _ _),
      Nat.add_sub_cancel_left, List.getElem?_eq_getElem hk]
    rfl
  have hbytes : (List.range (unitBytes t)).map
      (fun j => fetch n (unitBytes t * us.length + unitBytes t * (0 + k) + j)) =
        unitLe t vs[k] := by
    rw [← Option.some_inj, ← hunit, CodeBuffer.units, List.getElem?_map,
      List.getElem?_range (by omega), Option.map_some, Option.some_inj]
    refine List.map_congr_left fun j hj => ?_
    have hj' := List.mem_range.mp hj
    have hpos : unitBytes t * us.length + unitBytes t * (0 + k) + j =
        unitBytes t * (us.length + k) + j := by
      rw [Nat.zero_add, Nat.mul_add]
    rw [hpos]
    refine hshows n _ ?_
    calc unitBytes t * (us.length + k) + j < unitBytes t * (us.length + k + 1) := by
          rw [Nat.mul_succ]
          omega
      _ ≤ unitBytes t * e.lenWords := Nat.mul_le_mul_left _ (by omega)
      _ = e.cursor := e.cursor_eq.symm
  show unitOf t _ = _
  rw [hbytes, unitOf_unitLe]

/-- A unit has an even number of bytes. -/
theorem unitBytes_mod_two (t : Target) (n : Nat) : unitBytes t * n % 2 = 0 := by
  cases t with
  | arm => exact Nat.mul_mod_right 2 n
  | riscv32 =>
      show 4 * n % 2 = 0
      omega

/-- The bytes of calls, from the start. -/
def codeUnits (t : Target) (is : List Instr) : List (CodeUnit t) := is.flatMap (callUnits t)

/-- Code that is in the buffer behind some calls, down to a return, does what its
calls do and goes back to the caller. -/
theorem callCode_emitted {t : Target} {e : CodeBuffer t} (before : List Instr)
    {is after : List Instr}
    (hunits : e.units = (codeUnits t (before ++ (is ++ .ret :: after))).map (unitLe t))
    (hplain : ∀ i ∈ is, Plain t i) {fetch : Nat → Nat → Byte} (hshows : Shows e fetch)
    {s : CpuState t} {back : Word} (hlinked : Linked s back) (fuel : Nat) :
    callCode t fetch (fuel + 1 + (is.map (callSteps t)).sum)
        (unitBytes t * (codeUnits t before).length) s =
      (effects is s).map fun s' => (back, s') := by
  have hsplit : codeUnits t (before ++ (is ++ .ret :: after)) =
      codeUnits t before ++ (codeUnits t is ++ (processor t).encode (returnOp t) ++
        codeUnits t after) := by
    simp only [codeUnits, List.flatMap_append, List.flatMap_cons, callUnits_ret,
      List.append_assoc]
  have hloaded := (loaded_of_shows (hsplit ▸ hunits) hshows).left
  have hblock : Block (processor t) (codeUnits t is) (is.map (callSteps t)).sum (effects is) :=
    FetchExecute.block_flatMap fun i hi => block_call (hplain i hi)
  unfold callCode
  rw [unitBytes_mod_two, Nat.sub_zero]
  refine FetchExecute.run_block_leave hblock (fun s' hs' => ?_) hloaded fuel
  exact exec_return (linked_effects hplain hlinked hs')

end HolyRust.Emitter
