import HolyRust.Drivers.Effects

/-!
`reg_set_bit` and `reg_clr_bit`, for every bit number an expression can give.

The bit number goes unchecked from the operand to `1u32 << bit`. Below 32 the
command changes that bit of the word and no other. From 32 on a build with
overflow checks panics, and one without masks the number and changes another bit.

* `bitCommand_checked` — in a checked build the command completes exactly if the
  bit is one of the word's.
* `bitLine_lawful_iff` — a line that parse accepts keeps its law exactly then.

The audit log is not part of the memory here: a write under SUPERUSER is
recorded there as well.
-/

namespace HolyRust.Repl

open ByteMemory (readWord writeWord OnlyBit)
open HolyRust.Sessions (Reachable)
open Registry (Permitted)

/-- The two commands. -/
inductive BitAction where
  | set | clear
deriving DecidableEq, Repr

namespace BitAction

def outcome : BitAction → Word → Word → Outcome
  | .set => .setBit
  | .clear => .clrBit

/-- How a word and the mask are combined. -/
def combine : BitAction → Word → Word → Word
  | .set, old, mask => old ||| mask
  | .clear, old, mask => old &&& ~~~mask

/-- The bit afterwards. -/
def value : BitAction → Bool
  | .set => true
  | .clear => false

theorem execute_outcome (img : Image) (action : BitAction) (path : Path) (cycles addr bit : Word)
    (m : Machine) :
    execute img path cycles (action.outcome addr bit) m =
      bitCommand img action.combine cycles addr bit m := by
  cases action <;> rfl

/-- The bits of the word that is put back. -/
theorem getLsbD_combine (action : BitAction) (old : Word) {n : Nat} (hn : n < 32) (j : Nat) :
    (action.combine old (1#32 <<< n)).getLsbD j =
      if j = n then action.value else old.getLsbD j := by
  rw [← BitVec.twoPow_eq]
  by_cases hj : j = n
  · subst hj
    cases action <;> simp [combine, value, hn]
  · by_cases hlt : j < 32
    · cases action <;> simp [combine, hj, hlt]
    · simp [hj, BitVec.getLsbD_of_ge _ _ (Nat.le_of_not_lt hlt)]

end BitAction

/-- The same code built with or without overflow checks. -/
def Image.build (img : Image) (checks : Bool) : Image := { img with overflowChecks := checks }

/-! ### The mask -/

theorem bitMask_of_lt (img : Image) {bit : Word} (h : bit.toNat < 32) :
    bitMask img bit = some (1#32 <<< bit.toNat) := by
  simp [bitMask, h]

/-- A shift past the word is the overflow panic. -/
theorem bitMask_checked (img : Image) {bit : Word} (h : ¬ bit.toNat < 32) :
    bitMask (img.build true) bit = none := by
  simp [bitMask, h, Image.build]

/-! ### The command -/

section Command

variable (img : Image) {m : Machine} {addr bit : Word} (action : BitAction) (cycles : Word)

/-- In a checked build the command completes exactly if the bit is one of the
word's. -/
theorem bitCommand_checked (addr bit : Word) (m : Machine) :
    (∃ m', bitCommand (img.build true) action.combine cycles addr bit m = some m') ↔
      bit.toNat < 32 := by
  unfold bitCommand
  by_cases hbit : bit.toNat < 32
  · simp [bitMask_of_lt, hbit]
  · simp [bitMask_checked, hbit]

/-- The memory after a permitted command on a bit of the word. -/
theorem bitCommand_mem {m' : Machine}
    (hperm : Permitted img.target (m.registry img.target) addr) (hbit : bit.toNat < 32)
    (h : bitCommand img action.combine cycles addr bit m = some m') :
    m'.vm.bus.mem = writeWord m.vm.bus.mem addr
      (action.combine (readWord m.vm.bus.mem addr) (1#32 <<< bit.toNat)) := by
  unfold bitCommand at h
  rw [bitMask_of_lt img hbit] at h
  cases h
  have hq := Parser.quiet_peekU32 m.vm.bus addr
  rw [← registry_of_quiet hq] at hperm
  obtain ⟨hbus, _, _⟩ := guardedPoke_of_permitted hperm cycles
    (action.combine (m.vm.bus.peekU32 addr).1 (1#32 <<< bit.toNat))
  exact congrArg Bus.mem hbus

end Command

/-! ### The line -/

/-- What a bit command on `addr` and `bit` promises on a line. -/
structure BitLawful (img : Image) (m : Machine) (line : List Byte) (action : BitAction)
    (addr bit : Word) : Prop where
  completes : ∀ path cycles, ∃ m', feedLine (img.build true) m ⟨line, path, cycles⟩ = some m'
  only : ∀ checks path cycles m',
    feedLine (img.build checks) m ⟨line, path, cycles⟩ = some m' →
      OnlyBit addr bit.toNat m.vm.bus.mem m'.vm.bus.mem
  changes : bit.toNat < 32 → ∀ checks path cycles m',
    feedLine (img.build checks) m ⟨line, path, cycles⟩ = some m' →
      (readWord m'.vm.bus.mem addr).getLsbD bit.toNat = action.value

section Lines

variable {img : Image} {m : Machine} {line : List Byte} {action : BitAction} {addr bit : Word}

/-- An accepted bit command's line is the command on the memory as it was. -/
theorem feedLine_bitCommand (h : verdict img m line = .ok (action.outcome addr bit))
    (checks : Bool) (path : Path) (cycles : Word) :
    feedLine (img.build checks) m ⟨line, path, cycles⟩ =
      (bitCommand (img.build checks) action.combine cycles addr bit
        (m.compiled (m.comp.parse (m.env img) m.vm.bus line))).map (·.put prompt) := by
  rw [feedLine_of_verdict (img.build checks) h, action.execute_outcome]
  rfl

theorem permitted_of_verdict (hreach : Reachable img.target img.code m.comp)
    (h : verdict img m line = .ok (action.outcome addr bit)) :
    Permitted img.target (m.registry img.target) addr := by
  have hacc := Sessions.accepted (m.env img) hreach.tablesOk h
  cases action with
  | set => exact hacc.2
  | clear => exact hacc.2

/-- The memory after the line, when the bit is one of the word's. -/
theorem feedLine_mem (hreach : Reachable img.target img.code m.comp)
    (h : verdict img m line = .ok (action.outcome addr bit)) (hbit : bit.toNat < 32)
    {checks : Bool} {path : Path} {cycles : Word} {m' : Machine}
    (hrun : feedLine (img.build checks) m ⟨line, path, cycles⟩ = some m') :
    m'.vm.bus.mem = writeWord m.vm.bus.mem addr
      (action.combine (readWord m.vm.bus.mem addr) (1#32 <<< bit.toNat)) := by
  set c := m.compiled (m.comp.parse (m.env img) m.vm.bus line) with hc
  have hq : Parser.Quiet m.vm.bus c.vm.bus := Sessions.parse_quiet (m.env img) hreach.tablesOk _ _
  have hperm : Permitted img.target (c.registry img.target) addr := by
    have hreg : c.registry img.target = m.registry img.target := registry_of_quiet hq
    rw [hreg]
    exact permitted_of_verdict hreach h
  rw [feedLine_bitCommand h, ← hc] at hrun
  obtain ⟨m₁, hcommand, rfl⟩ := Option.map_eq_some_iff.mp hrun
  have hmem := bitCommand_mem (img.build checks) action cycles hperm hbit hcommand
  rw [hq.1] at hmem
  exact hmem

theorem bitLawful_of_lt (hreach : Reachable img.target img.code m.comp)
    (h : verdict img m line = .ok (action.outcome addr bit)) (hbit : bit.toNat < 32) :
    BitLawful img m line action addr bit where
  completes path cycles := by
    obtain ⟨m₁, hcommand⟩ := (bitCommand_checked img action cycles addr bit
      (m.compiled (m.comp.parse (m.env img) m.vm.bus line))).mpr hbit
    exact ⟨m₁.put prompt, by rw [feedLine_bitCommand h, hcommand]; rfl⟩
  only checks path cycles m' hrun := by
    rw [feedLine_mem hreach h hbit hrun]
    refine ByteMemory.onlyBit_writeWord _ fun j hj => ?_
    rw [action.getLsbD_combine _ hbit, if_neg hj]
  changes _ checks path cycles m' hrun := by
    rw [feedLine_mem hreach h hbit hrun, ByteMemory.readWord_writeWord (by decide),
      action.getLsbD_combine _ hbit, if_pos rfl]

/-- From bit 32 on, a checked build stops. -/
theorem not_bitLawful (h : verdict img m line = .ok (action.outcome addr bit))
    (hbit : ¬ bit.toNat < 32) : ¬ BitLawful img m line action addr bit := by
  intro hlawful
  obtain ⟨m', hrun⟩ := hlawful.completes .threaded 0
  rw [feedLine_bitCommand h] at hrun
  obtain ⟨m₁, hcommand, _⟩ := Option.map_eq_some_iff.mp hrun
  exact hbit ((bitCommand_checked img action 0 _ _ _).mp ⟨m₁, hcommand⟩)

/-- An accepted bit command keeps its law exactly if the bit is one of the word's
32. -/
theorem bitLine_lawful_iff (hreach : Reachable img.target img.code m.comp)
    (h : verdict img m line = .ok (action.outcome addr bit)) :
    BitLawful img m line action addr bit ↔ bit.toNat < 32 :=
  ⟨fun hlawful => by_contra fun hbit => not_bitLawful h hbit hlawful, bitLawful_of_lt hreach h⟩

end Lines

/-- Bit 4 of a word of SRAM. -/
theorem bitLine_lawful_sram :
    BitLawful armImage (Machine.boot Sessions.blank) (bytes "reg_set_bit 0x20000100 4;") .set
      0x20000100 4 :=
  (bitLine_lawful_iff (reachable_boot armImage _) (by decide +kernel)).mpr (by decide)

/-- `reg_set_bit 0x20000100 32;` is accepted and stops a checked build. -/
theorem bit_past_word_unlawful : ¬ ∀ img m line action addr bit,
    Reachable img.target img.code m.comp →
      verdict img m line = .ok (BitAction.outcome action addr bit) →
        BitLawful img m line action addr bit := by
  intro h
  have hverdict : verdict armImage (Machine.boot Sessions.blank)
      (bytes "reg_set_bit 0x20000100 32;") = .ok (BitAction.set.outcome 0x20000100 32) := by
    decide +kernel
  exact not_bitLawful hverdict (by decide)
    (h _ _ _ _ _ _ (reachable_boot armImage Sessions.blank) hverdict)

end HolyRust.Repl
