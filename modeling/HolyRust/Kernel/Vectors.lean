import HolyRust.Kernel.Boot
import HolyRust.Library.Runs

/-!
Interrupt dispatch on ARM (`attach_jit_irq` and `generic_irq_trampoline_ch16` in
`kernel/interrupt.rs`) over the memory start-up leaves: the processor takes IRQ line
`n` by calling word `16 + n` of the table VTOR points at.

What an address other than the trampoline's does when it is called is a parameter.

* `slots_run` — after any attachments the slots hold the handlers attached last, and
  memory is otherwise as start-up left it.
* `returns_trampoline` — the trampoline returns unless slot 16 holds it or a handler
  that does not return.
* `irq_after_attachments` — what taking a line comes to after any attachments.
-/

namespace HolyRust.Vectors

open Boot (Sections boot irqHandler ramVectorTable vtor)
open ByteMemory (byteAt wordAt setWordAt)

/-! ### Attaching -/

/-- `extern "C" fn()`: an address that is not null. -/
structure Handler where
  addr : Word
  not_null : addr ≠ 0#32

/-- `RAM_VECTOR_TABLE.irq_handlers[i]`. -/
def slot (i : Nat) : Nat := ramVectorTable + 64 + 4 * i

/-- `attach_jit_irq`. -/
def attachJitIrq (irqIndex : Nat) (jitFn : Handler) (m : Memory) : Memory :=
  if irqIndex < 32 then setWordAt m (slot irqIndex) jitFn.addr else m

def attach (m : Memory) (a : Nat × Handler) : Memory := attachJitIrq a.1 a.2 m

/-! ### Dispatch -/

/-- The example peripheral's status register. -/
def pendingReg : Nat := 0x40010004

/-- Clear pending bit 16. -/
def acknowledge (m : Memory) : Memory :=
  setWordAt m pendingReg (wordAt m pendingReg &&& ~~~(1#32 <<< 16))

/-- What calling an address does: memory when it returns. -/
abbrev Code := Word → Memory → Option Memory

/-- `generic_irq_trampoline_ch16`: slot 16 is read after the acknowledge. -/
def genericIrqTrampolineCh16 (call : Code) (m : Memory) : Option Memory :=
  match irqHandler (acknowledge m) 16 with
  | some handler => call handler (acknowledge m)
  | none => some (acknowledge m)

/-- The word the processor takes line `n` through. -/
def vector (m : Memory) (n : Nat) : Word := wordAt m ((wordAt m vtor).toNat + 64 + 4 * n)

section Calls

variable (code : Code) (trampoline : Handler)

/-- Call an address, with fewer than `fuel` calls of the trampoline under way. -/
def call : Nat → Code
  | 0, _, _ => none
  | fuel + 1, f, m =>
      if f = trampoline.addr then genericIrqTrampolineCh16 (call fuel) m else code f m

/-- A call of the address returns, with memory `out`. -/
def Returns (f : Word) (m out : Memory) : Prop := ∃ fuel, call code trampoline fuel f m = some out

/-! ### The slots, each on its own -/

/-- The handlers of the 32 lines. -/
abbrev Slots := Fin 32 → Option Word

namespace Slots

/-- The slots as memory holds them. -/
def ofMemory (m : Memory) : Slots := fun n => irqHandler m n

/-- An index past the last line attaches nothing. -/
def attach (s : Slots) (a : Nat × Handler) : Slots :=
  if h : a.1 < 32 then Function.update s ⟨a.1, h⟩ (some a.2.addr) else s

/-- What taking line `n` comes to. A slot without a handler sends the processor to
address 0. -/
def take (s : Slots) (n : Fin 32) (m : Memory) : Option Memory :=
  match s n with
  | none => code 0#32 m
  | some f =>
      if f = trampoline.addr then
        match s 16 with
        | none => some (acknowledge m)
        | some g => if g = trampoline.addr then none else code g (acknowledge m)
      else code f m

end Slots

end Calls

/-! ### What attaching keeps -/

/-- The bytes of the slots. -/
def InSlots (x : Nat) : Prop := slot 0 ≤ x ∧ x < slot 32

section Attaching

variable {m m₀ : Memory} {i n : Nat} {f : Handler}

theorem irqHandler_congr {m' : Memory}
    (h : ∀ k < 4, byteAt m (slot n + k) = byteAt m' (slot n + k)) :
    irqHandler m n = irqHandler m' n := by
  have hword : wordAt m (slot n) = wordAt m' (slot n) := ByteMemory.wordAt_congr h
  unfold slot at hword
  unfold irqHandler
  rw [hword]

theorem irqHandler_attach_self (hi : i < 32) :
    irqHandler (attachJitIrq i f m) i = some f.addr := by
  have hword : wordAt (setWordAt m (slot i) f.addr) (slot i) = f.addr :=
    ByteMemory.readWord_writeWord (by decide) m _ _
  unfold slot at hword
  unfold attachJitIrq irqHandler slot
  rw [if_pos hi]
  simp only [hword, if_neg f.not_null]

theorem irqHandler_attach_ne (hi : i < 32) (hn : n < 32) (h : n ≠ i) :
    irqHandler (attachJitIrq i f m) n = irqHandler m n := by
  refine irqHandler_congr fun k hk => ?_
  unfold attachJitIrq slot ramVectorTable
  rw [if_pos hi]
  exact ByteMemory.byteAt_setWordAt_out (by omega) (by omega) (by omega)

theorem attach_frame {x : Nat} (hx : x < 2 ^ 32) (hout : ¬ InSlots x) (a : Nat × Handler) :
    byteAt (attach m a) x = byteAt m x := by
  unfold InSlots slot ramVectorTable at hout
  unfold attach attachJitIrq slot ramVectorTable
  split
  · exact ByteMemory.byteAt_setWordAt_out (by omega) hx (by omega)
  · rfl

theorem slots_attach (a : Nat × Handler) :
    Slots.ofMemory (attach m a) = (Slots.ofMemory m).attach a := by
  obtain ⟨i, f⟩ := a
  unfold Slots.attach
  by_cases hi : i < 32
  · rw [dif_pos hi]
    funext n
    by_cases hn : n = ⟨i, hi⟩
    · subst hn
      rw [Function.update_self]
      exact irqHandler_attach_self hi
    · rw [Function.update_of_ne hn]
      exact irqHandler_attach_ne hi n.isLt fun h => hn (Fin.ext h)
  · rw [dif_neg hi]
    exact congrArg Slots.ofMemory (if_neg hi)

/-- Any attachments from any memory. -/
theorem slots_run (as : List (Nat × Handler)) (m : Memory) :
    Slots.ofMemory (Runs.run attach m as) = Runs.run Slots.attach (Slots.ofMemory m) as ∧
      ∀ x < 2 ^ 32, ¬ InSlots x → byteAt (Runs.run attach m as) x = byteAt m x := by
  induction as generalizing m with
  | nil => exact ⟨rfl, fun _ _ _ => rfl⟩
  | cons a as ih =>
      obtain ⟨hslots, hframe⟩ := ih (attach m a)
      refine ⟨?_, fun x hx hout => ?_⟩
      · rw [Runs.run_cons, Runs.run_cons, ← slots_attach]
        exact hslots
      · rw [Runs.run_cons, hframe x hx hout, attach_frame hx hout]

end Attaching

/-! ### What the trampoline does -/

section Trampoline

variable {code : Code} {trampoline : Handler} {m out : Memory}

theorem irqHandler_acknowledge {n : Nat} (hn : n < 32) :
    irqHandler (acknowledge m) n = irqHandler m n := by
  refine irqHandler_congr fun k hk => ?_
  unfold acknowledge pendingReg slot ramVectorTable
  exact ByteMemory.byteAt_setWordAt_out (by omega) (by omega) (by omega)

/-- In its own slot the trampoline calls itself again and again. -/
theorem call_own_slot (h : irqHandler m 16 = some trampoline.addr) (fuel : Nat) :
    call code trampoline fuel trampoline.addr m = none := by
  induction fuel generalizing m with
  | zero => rfl
  | succ fuel ih =>
      have hkept : irqHandler (acknowledge m) 16 = some trampoline.addr :=
        (irqHandler_acknowledge (by decide)).trans h
      rw [call, if_pos rfl, genericIrqTrampolineCh16, hkept]
      exact ih hkept

theorem returns_code {f : Word} (h : f ≠ trampoline.addr) :
    Returns code trampoline f m out ↔ code f m = some out := by
  constructor
  · rintro ⟨fuel, hcall⟩
    cases fuel with
    | zero => cases hcall
    | succ fuel => rwa [call, if_neg h] at hcall
  · intro hcode
    exact ⟨1, by rw [call, if_neg h, hcode]⟩

/-- A call of the trampoline is a call of what slot 16 holds. -/
theorem returns_trampoline : Returns code trampoline trampoline.addr m out ↔
    match irqHandler m 16 with
    | none => acknowledge m = out
    | some g => g ≠ trampoline.addr ∧ code g (acknowledge m) = some out := by
  have hkept : irqHandler (acknowledge m) 16 = irqHandler m 16 :=
    irqHandler_acknowledge (by decide)
  have hstep : ∀ fuel, call code trampoline (fuel + 1) trampoline.addr m =
      match irqHandler m 16 with
      | some g => call code trampoline fuel g (acknowledge m)
      | none => some (acknowledge m) := by
    intro fuel
    rw [call, if_pos rfl, genericIrqTrampolineCh16, hkept]
  cases hslot : irqHandler m 16 with
  | none =>
      simp only [hslot] at hstep
      constructor
      · rintro ⟨fuel, hcall⟩
        cases fuel with
        | zero => cases hcall
        | succ fuel => exact Option.some.inj ((hstep fuel).symm.trans hcall)
      · rintro rfl
        exact ⟨1, hstep 0⟩
  | some g =>
      simp only [hslot] at hstep
      by_cases hg : g = trampoline.addr
      · subst hg
        refine iff_of_false ?_ fun h => h.1 rfl
        rintro ⟨fuel, hcall⟩
        rw [call_own_slot hslot] at hcall
        cases hcall
      · refine Iff.trans ?_ (and_iff_right hg).symm
        rw [← returns_code hg]
        constructor
        · rintro ⟨fuel, hcall⟩
          cases fuel with
          | zero => cases hcall
          | succ fuel => exact ⟨fuel, (hstep fuel).symm.trans hcall⟩
        · rintro ⟨fuel, hcall⟩
          exact ⟨fuel + 1, (hstep fuel).trans hcall⟩

/-- VTOR as start-up leaves it. -/
theorem boot_vtor (l : Sections) (m : Memory) :
    wordAt (boot l m) vtor = BitVec.ofNat 32 ramVectorTable :=
  ByteMemory.readWord_writeWord (by decide) _ _ _

/-- The word of a line, where VTOR points at the table. -/
theorem vector_eq (h : wordAt m vtor = BitVec.ofNat 32 ramVectorTable) (n : Fin 32) :
    vector m n = (Slots.ofMemory m n).getD 0#32 := by
  unfold vector
  rw [h, show (BitVec.ofNat 32 ramVectorTable).toNat = ramVectorTable from rfl]
  unfold Slots.ofMemory irqHandler
  dsimp only
  by_cases hword : wordAt m (ramVectorTable + 64 + 4 * n) = 0#32
  · rw [if_pos hword, hword]
    rfl
  · rw [if_neg hword]
    rfl

theorem returns_vector (h : wordAt m vtor = BitVec.ofNat 32 ramVectorTable) (n : Fin 32) :
    Returns code trampoline (vector m n) m out ↔
      (Slots.ofMemory m).take code trampoline n m = some out := by
  rw [vector_eq h]
  unfold Slots.take
  cases hslot : Slots.ofMemory m n with
  | none => exact returns_code trampoline.not_null.symm
  | some f =>
      by_cases hf : f = trampoline.addr
      · subst hf
        dsimp only [Option.getD_some]
        rw [if_pos rfl, returns_trampoline]
        have hsixteen : irqHandler m 16 = Slots.ofMemory m 16 := rfl
        rw [hsixteen]
        cases Slots.ofMemory m 16 with
        | none => simp
        | some g => by_cases hg : g = trampoline.addr <;> simp [hg]
      · dsimp only [Option.getD_some]
        rw [if_neg hf]
        exact returns_code hf

end Trampoline

/-- After start-up over any memory and any attachments, whatever their indices: nothing
but the slots has changed, and taking any line returns exactly as the handlers attached
last say, each slot nothing was attached to being as SRAM held it at reset. In particular
a line whose handler is the trampoline never returns once slot 16 holds the trampoline. -/
theorem irq_after_attachments (l : Sections) (m : Memory) (as : List (Nat × Handler))
    (code : Code) (trampoline : Handler) :
    let after := Runs.run attach (boot l m) as
    let slots := Runs.run Slots.attach (Slots.ofMemory m) as
    (∀ x < 2 ^ 32, ¬ InSlots x → byteAt after x = byteAt (boot l m) x) ∧
      ∀ (n : Fin 32) (out : Memory), Returns code trampoline (vector after n) after out ↔
        slots.take code trampoline n after = some out := by
  intro after slots
  obtain ⟨hslots, hframe⟩ := slots_run as (boot l m)
  have hboot : Slots.ofMemory (boot l m) = Slots.ofMemory m :=
    funext fun n => Boot.boot_irqHandler l m n.isLt
  have hvtor : wordAt after vtor = BitVec.ofNat 32 ramVectorTable := by
    refine (ByteMemory.wordAt_congr fun k hk => ?_).trans (boot_vtor l m)
    refine hframe _ (by unfold vtor; omega) ?_
    unfold InSlots slot ramVectorTable vtor
    omega
  refine ⟨hframe, fun n out => ?_⟩
  rw [returns_vector hvtor, hslots, hboot]

end HolyRust.Vectors
