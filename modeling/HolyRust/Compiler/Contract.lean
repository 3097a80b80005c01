import HolyRust.Compiler.BufferCalls

/-!
The emitter contract and the machine code. The trait says what each call does; its
code does that unless the call is one of those that go wrong: a division, a product
that overwrites its second factor on Thumb-2, a long immediate on RISC-V.

* `Sound` — the calls whose code keeps the contract, `agrees_effect`.
* `code_meets_contract` — code without any other call, executed from the buffer, does
  what the trait says of its calls.
-/

namespace HolyRust.Emitter

variable {t : Target}

/-- The immediate load brings the immediate. -/
def Loads (t : Target) (imm : Word) : Prop := t = .riscv32 → ShortImm imm

instance (t : Target) (imm : Word) : Decidable (Loads t imm) :=
  inferInstanceAs (Decidable (t = .riscv32 → ShortImm imm))

theorem arrives_eq_iff {imm : Word} : arrives t imm = imm ↔ Loads t imm := by
  cases t with
  | arm => exact iff_of_true rfl nofun
  | riscv32 => exact (loadedValue_eq_iff imm).trans ⟨fun h _ => h, fun h => h rfl⟩

/-- The code of the call does in this state what the trait says. -/
def Sound (s : CpuState t) : Instr → Prop
  | .movImm _ imm => Loads t imm
  | .mul dst a b => t = .arm → ¬ Clobbers dst a b
  | .div _ _ b => t = .riscv32 ∧ s.reg b ≠ 0
  | _ => True

instance (s : CpuState t) (i : Instr) : Decidable (Sound s i) :=
  match i with
  | .movImm _ imm => inferInstanceAs (Decidable (Loads t imm))
  | .mul dst a b => inferInstanceAs (Decidable (t = .arm → ¬ Clobbers dst a b))
  | .div _ _ b => inferInstanceAs (Decidable (t = .riscv32 ∧ s.reg b ≠ 0))
  | .storeU32 _ _ | .loadU32 _ _ | .add _ _ _ | .sub _ _ _ | .ret => .isTrue trivial

/-- The same bus, and the same words in the registers code may name. -/
structure Agrees (s : CpuState t) (c : Core) : Prop where
  bus : s.bus = c.bus
  regs : ∀ r, Named t r → s.reg r = c.regs r

theorem Agrees.set {s : CpuState t} {c : Core} (h : Agrees s c) {r : Reg} (hr : Named t r)
    (v : Word) : Agrees (s.set r v) (c.setReg r v) where
  bus := by rw [CpuState.bus_set, h.bus, Core.setReg_bus]
  regs q hq := by
    by_cases hqr : q = r
    · subst hqr
      rw [CpuState.reg_set_self s hr, Core.setReg_self]
    · rw [CpuState.reg_set_of_ne s hr hq.isReg hqr, Core.setReg_of_ne c v hqr, h.regs q hq]

theorem Agrees.withBus {s : CpuState t} {c : Core} (h : Agrees s c) (b : Bus) :
    Agrees (s.withBus b) (c.withBus b) where
  bus := by rw [CpuState.bus_withBus, Core.withBus_bus]
  regs q hq := by rw [CpuState.reg_withBus, Core.withBus_regs, h.regs q hq]

theorem factorReg_eq {dst a b : Reg} (h : t = .arm → ¬ Clobbers dst a b) :
    factorReg t dst a b = b := by
  rw [factorReg, if_neg]
  exact fun hand => h hand.1 hand.2

theorem quotient_eq {a b : Word} (h : t = .riscv32 ∧ b ≠ 0) :
    quotient t a b = some (signedDivOr0 a b) := by
  obtain ⟨rfl, hb⟩ := h
  exact congrArg some (divSigned_eq_iff.mpr hb)

/-- A call that keeps the contract. -/
theorem agrees_effect {s : CpuState t} {c : Core} (h : Agrees s c) {i : Instr}
    (hplain : Plain t i) (hsound : Sound s i) :
    ∃ s', effect s i = some s' ∧ Agrees s' (i.exec c) := by
  obtain ⟨hret, hnamed⟩ := hplain
  cases i with
  | movImm reg imm =>
      refine ⟨_, rfl, ?_⟩
      rw [arrives_eq_iff.mpr hsound]
      exact h.set (hnamed reg (by simp [Instr.regs])) imm
  | storeU32 src addr =>
      refine ⟨_, rfl, ?_⟩
      rw [h.bus, h.regs src (hnamed src (by simp [Instr.regs])),
        h.regs addr (hnamed addr (by simp [Instr.regs]))]
      exact h.withBus _
  | loadU32 dst addr =>
      refine ⟨_, rfl, ?_⟩
      rw [h.bus, h.regs addr (hnamed addr (by simp [Instr.regs]))]
      exact (h.withBus _).set (hnamed dst (by simp [Instr.regs])) _
  | add dst a b =>
      refine ⟨_, rfl, ?_⟩
      rw [h.regs a (hnamed a (by simp [Instr.regs])), h.regs b (hnamed b (by simp [Instr.regs]))]
      exact h.set (hnamed dst (by simp [Instr.regs])) _
  | sub dst a b =>
      refine ⟨_, rfl, ?_⟩
      rw [h.regs a (hnamed a (by simp [Instr.regs])), h.regs b (hnamed b (by simp [Instr.regs]))]
      exact h.set (hnamed dst (by simp [Instr.regs])) _
  | mul dst a b =>
      refine ⟨_, rfl, ?_⟩
      rw [factorReg_eq hsound, h.regs a (hnamed a (by simp [Instr.regs])),
        h.regs b (hnamed b (by simp [Instr.regs]))]
      exact h.set (hnamed dst (by simp [Instr.regs])) _
  | div dst a b =>
      refine ⟨_, by rw [effect, quotient_eq hsound, Option.map_some], ?_⟩
      rw [h.regs a (hnamed a (by simp [Instr.regs])), h.regs b (hnamed b (by simp [Instr.regs]))]
      exact h.set (hnamed dst (by simp [Instr.regs])) _
  | ret => exact absurd rfl hret

/-- Each call keeps the contract in the state the calls before it lead to. -/
def SoundRun : List Instr → CpuState t → Prop
  | [], _ => True
  | i :: is, s => Sound s i ∧ ∀ s', effect s i = some s' → SoundRun is s'

theorem agrees_effects {is : List Instr} {s : CpuState t} {c : Core} (h : Agrees s c)
    (hplain : ∀ i ∈ is, Plain t i) (hsound : SoundRun is s) :
    ∃ s', effects is s = some s' ∧ Agrees s' (runCode (is ++ [.ret]) c) := by
  induction is generalizing s c with
  | nil => exact ⟨s, rfl, h⟩
  | cons i is ih =>
      obtain ⟨hone, hrest⟩ := hsound
      have hi := hplain i List.mem_cons_self
      obtain ⟨s₁, heff, hagrees⟩ := agrees_effect h hi hone
      obtain ⟨s', heffs, hlast⟩ := ih hagrees (fun j hj => hplain j (List.mem_cons_of_mem i hj))
        (hrest s₁ heff)
      refine ⟨s', ?_, ?_⟩
      · rw [effects, List.foldlM_cons, heff]
        exact heffs
      · rwa [List.cons_append, runCode_cons hi.1]

open Coherence (Event) in
/-- A function of emitter calls on registers code may name, anywhere in the buffer,
called by `execute_sram_buffer` at the offset `bytes_written` told before it: if each of
its calls keeps the contract where it is reached, the caller gets control back with the
bus and the registers as the trait says, whatever is in front of it and behind it,
whatever the buffer held and whatever each fetch may return. The data bus is apart from
the buffer: a store into the running code is not covered. -/
theorem code_meets_contract {before is after : List Instr} {e₀ e : CodeBuffer t}
    (hstart : Native.emitAll before (CodeBuffer.intoExecBuffer t) = .ok ⟨⟩ e₀)
    (hemit : Native.emitAll (is ++ .ret :: after) e₀ = .ok ⟨⟩ e)
    (hnamed : ∀ i ∈ before ++ after, ∀ r ∈ i.regs, Named t r) (hplain : ∀ i ∈ is, Plain t i)
    (image : Nat → Byte) (old : List (Event Store)) {s : CpuState t} {back : Word}
    (hlinked : Linked s back) (hsound : SoundRun is s) {c : Core} (hagrees : Agrees s c)
    {fuel : Nat} (hfuel : Native.stepsOf t is ≤ fuel) {r : Option (Word × CpuState t)}
    (hrun : Native.ExecutesSram image (old ++ e.stores.map .write) e₀.bytesWritten s fuel r) :
    ∃ s', r = some (back, s') ∧ Agrees s' (runCode (is ++ [.ret]) c) := by
  obtain ⟨s', heffects, hlast⟩ := agrees_effects hagrees hplain hsound
  have hall := Native.executesSram_eq hstart hemit hnamed hplain image old hlinked hfuel hrun
  rw [heffects] at hall
  exact ⟨s', hall, hlast⟩

/-- The processor as a caller leaves it: the return address in the link register,
everything else zero. -/
def calledFrom (t : Target) (back : Word) : CpuState t :=
  .mk (match t with
    | .arm => fun r => if r = 14#4 then back ||| 1 else 0
    | .riscv32 => fun r => if r = 1#5 then back else 0) ⟨fun _ => 0, []⟩

open Coherence (Event contents)

/-- What `execute_sram_buffer` does if each fetch returns what memory holds. -/
theorem executesSram_contents (image : Nat → Byte) (es : List (Event Store)) (offset : Nat)
    (s : CpuState t) (fuel : Nat) :
    Native.ExecutesSram image es offset s fuel
      (callCode t (fun _ => contents Store.put image (es ++ [.flush])) fuel offset s) :=
  ⟨fun _ => contents Store.put image (es ++ [.flush]),
    fun _ _ => ⟨_, [], (List.append_nil _).symm, List.not_mem_nil, rfl⟩, rfl⟩

/-- Six times seven, behind another function. -/
theorem code_meets_contract_product :
    ∃ e₀ e, Native.emitAll [.movImm 0 1, .ret] (CodeBuffer.intoExecBuffer .arm) = .ok ⟨⟩ e₀ ∧
      Native.emitAll [.movImm 0 6, .movImm 1 7, .mul 2 0 1, .ret] e₀ = .ok ⟨⟩ e ∧
      ∃ r s', Native.ExecutesSram (fun _ => 0xFF) ([] ++ e.stores.map .write) e₀.bytesWritten
          (calledFrom .arm 0x08000100) 10 r ∧ r = some (0x08000100, s') ∧ s'.reg 2 = 42 := by
  have hnamed : ∀ i ∈ [Instr.movImm 0 1, .ret] ++ [], ∀ r ∈ i.regs, Named .arm r := by
    simp [Instr.regs, Named]
  have hplain : ∀ i ∈ [Instr.movImm 0 6, .movImm 1 7, .mul 2 0 1], Plain .arm i := by
    simp [Plain, Instr.regs, Named]
  obtain ⟨e₀, hstart, hlen⟩ := Native.exists_emitAll [.movImm 0 1, .ret] hnamed
    (CodeBuffer.intoExecBuffer .arm) (by decide)
  obtain ⟨e, hemit, -⟩ := Native.exists_emitAll [.movImm 0 6, .movImm 1 7, .mul 2 0 1, .ret]
    (by simp [Instr.regs, Named]) e₀ (by
      rw [e₀.cap_eq]
      exact (Nat.add_le_add_right hlen _).trans (by decide))
  have hsound : SoundRun [.movImm 0 6, .movImm 1 7, .mul 2 0 1] (calledFrom .arm 0x08000100) := by
    simp [SoundRun, Sound, Clobbers, Loads]
  have hlinked : Linked (calledFrom .arm 0x08000100) 0x08000100 := by decide
  have hagrees : Agrees (calledFrom .arm 0x08000100)
      ⟨(calledFrom .arm 0x08000100).reg, (calledFrom .arm 0x08000100).bus⟩ :=
    ⟨rfl, fun _ _ => rfl⟩
  have hrun := executesSram_contents (fun _ => 0xFF) ([] ++ e.stores.map .write) e₀.bytesWritten
    (calledFrom .arm 0x08000100) 10
  obtain ⟨s', hr, hlast⟩ := code_meets_contract hstart hemit hnamed hplain (fun _ => 0xFF) []
    hlinked hsound hagrees (by decide) hrun
  refine ⟨e₀, e, hstart, hemit, _, s', hrun, hr, ?_⟩
  rw [hlast.regs 2 (by decide)]
  decide

/-! ### `emit_mov_ret` -/

/-- The register of the return value. -/
def returnReg : Target → Reg
  | .arm => 0
  | .riscv32 => 10

/-- `emit_mov_ret`. -/
def emitMovRet (t : Target) (imm : Word) : EmitM t PUnit := do
  emit t (.movImm (returnReg t) imm)
  emit t .ret

theorem named_returnReg (t : Target) : Named t (returnReg t) := by
  cases t <;> decide

theorem call_of_emit {i : Instr} {e e' : CodeBuffer t} (h : emit t i e = .ok ⟨⟩ e') :
    Native.call i e = .ok ⟨⟩ e' := by
  unfold Native.call
  rw [h]

/-- Behind any calls and in front of any: what `emit_mov_ret` writes goes back to its
caller with the bus as it was, and returns the immediate exactly if its load brings
it. -/
theorem movRet_returns_iff {before after : List Instr} {e₀ e₁ e : CodeBuffer t} {imm : Word}
    (hstart : Native.emitAll before (CodeBuffer.intoExecBuffer t) = .ok ⟨⟩ e₀)
    (hmov : emitMovRet t imm e₀ = .ok ⟨⟩ e₁) (hafter : Native.emitAll after e₁ = .ok ⟨⟩ e)
    (hnamed : ∀ i ∈ before ++ after, ∀ r ∈ i.regs, Named t r) (image : Nat → Byte)
    (old : List (Event Store)) {s : CpuState t} {back : Word} (hlinked : Linked s back)
    {fuel : Nat} (hfuel : 3 ≤ fuel) {r : Option (Word × CpuState t)}
    (hrun : Native.ExecutesSram image (old ++ e.stores.map .write) e₀.bytesWritten s fuel r) :
    ∃ s', r = some (back, s') ∧ s'.bus = s.bus ∧ (s'.reg (returnReg t) = imm ↔ Loads t imm) := by
  obtain ⟨_, e', hload, hret⟩ := Fallible.bind_eq_ok.mp hmov
  have hemit : Native.emitAll ([.movImm (returnReg t) imm] ++ .ret :: after) e₀ = .ok ⟨⟩ e :=
    (Fallible.bind_ok (call_of_emit hload)).trans
      ((Fallible.bind_ok (call_of_emit hret)).trans hafter)
  have hplain : ∀ i ∈ [Instr.movImm (returnReg t) imm], Plain t i := by
    intro i hi
    rw [List.mem_singleton.mp hi]
    refine ⟨nofun, fun reg hreg => ?_⟩
    rw [List.mem_singleton.mp hreg]
    exact named_returnReg t
  have hsteps : Native.stepsOf t [.movImm (returnReg t) imm] ≤ 3 := by
    have hle := callSteps_le t (.movImm (returnReg t) imm)
    simp only [Native.stepsOf, List.map_cons, List.map_nil, List.sum_cons, List.sum_nil]
    omega
  have hall := Native.executesSram_eq hstart hemit hnamed hplain image old hlinked
    (hsteps.trans hfuel) hrun
  refine ⟨s.set (returnReg t) (arrives t imm), hall, CpuState.bus_set _ _ _, ?_⟩
  rw [CpuState.reg_set_self s (named_returnReg t), arrives_eq_iff]

/-- A long immediate on Thumb-2. -/
theorem movRet_returns_long :
    ∃ e₁, emitMovRet .arm 0xDEADBEEF (CodeBuffer.intoExecBuffer .arm) = .ok ⟨⟩ e₁ ∧
      ∃ s', callCode .arm (fun _ => contents Store.put (fun _ => 0)
          ([] ++ e₁.stores.map .write ++ [.flush])) 3 0 (calledFrom .arm 0x08000100) =
            some (0x08000100, s') ∧ s'.reg 0 = 0xDEADBEEF := by
  obtain ⟨e₁, hmov⟩ : ∃ e₁, emitMovRet .arm 0xDEADBEEF (CodeBuffer.intoExecBuffer .arm) =
      .ok ⟨⟩ e₁ := ⟨_, rfl⟩
  have hlinked : Linked (calledFrom .arm 0x08000100) 0x08000100 := by decide
  have hstart : Native.emitAll [] (CodeBuffer.intoExecBuffer .arm) = .ok ⟨⟩ _ := rfl
  have hafter : Native.emitAll [] e₁ = .ok ⟨⟩ e₁ := rfl
  obtain ⟨s', hr, -, hvalue⟩ := movRet_returns_iff hstart hmov hafter (by simp) (fun _ => 0) []
    hlinked (le_refl 3) (executesSram_contents _ _ _ _ _)
  exact ⟨e₁, hmov, s', hr, hvalue.mpr nofun⟩

end HolyRust.Emitter
