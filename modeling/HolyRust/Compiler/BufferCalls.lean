import HolyRust.Compiler.Fallback
import HolyRust.Compiler.MachineCode

/-!
EXEC_BUFFER as memory: what a fetch finds after emitter calls, and
`execute_sram_buffer` (`kernel/exec.rs`), which flushes before it jumps.

* `HoldsCode` — the buffer's units are those of these calls and none of its bytes is
  left from before; every successful call keeps it (`HoldsCode.call`).
* `contents_eq_content` — so memory holds the code whatever was there.
* `executesSram_eq` — behind the flush every fetch sees it.
-/

namespace HolyRust.Native

open Emitter
open Coherence (Event Fetched contents)

variable {t : Target}

/-! ### What was stored -/

/-- The byte is one of those stored. -/
def Covers (s : Store) (i : Nat) : Prop := s.offset ≤ i ∧ i < s.offset + s.bytes.length

theorem put_congr {s : Store} {m m' : Nat → Byte} {i : Nat} (h : m i = m' i ∨ Covers s i) :
    s.put m i = s.put m' i := by
  unfold Store.put
  split
  · rfl
  · rename_i hout
    exact h.resolve_right hout

/-- A byte that some store covers does not depend on what was there first. -/
theorem foldl_put_congr (ss : List Store) {m m' : Nat → Byte} {i : Nat}
    (h : m i = m' i ∨ ∃ s ∈ ss, Covers s i) :
    ss.foldl (fun m s => s.put m) m i = ss.foldl (fun m s => s.put m) m' i := by
  induction ss generalizing m m' with
  | nil => exact h.resolve_right (by simp)
  | cons s ss ih =>
      refine ih ?_
      rcases h with h | ⟨s', hs', hcovers⟩
      · exact .inl (put_congr (.inl h))
      · rcases List.mem_cons.mp hs' with rfl | hmem
        · exact .inl (put_congr (.inr hcovers))
        · exact .inr ⟨s', hmem, hcovers⟩

theorem contents_writes (m : Nat → Byte) (ss : List Store) :
    contents Store.put m (ss.map .write) = ss.foldl (fun m s => s.put m) m := by
  induction ss generalizing m with
  | nil => rfl
  | cons s ss ih => exact ih (s.put m)

/-- Every byte up to the cursor was stored. -/
def Filled (e : CodeBuffer t) : Prop := ∀ i, i < e.cursor → ∃ s ∈ e.stores, Covers s i

/-- After the stores of a buffer memory holds its content, whatever was there. -/
theorem contents_eq_content {e : CodeBuffer t} (h : Filled e) (image : Nat → Byte)
    (old : List (Event Store)) {i : Nat} (hi : i < e.cursor) :
    contents Store.put image (old ++ e.stores.map .write) i = e.content i := by
  rw [Coherence.contents_append, contents_writes]
  exact foldl_put_congr e.stores (.inr (h i hi))

/-- A computation that succeeds leaves no byte behind the cursor out. -/
def Fills (x : EmitM t PUnit) : Prop := ∀ ⦃e e'⦄, x e = .ok ⟨⟩ e' → Filled e → Filled e'

theorem fills_pure : Fills (pure ⟨⟩ : EmitM t PUnit) := by
  intro e e' h hfilled
  cases h
  exact hfilled

theorem fills_throw (err : EmitError) : Fills (throw err : EmitM t PUnit) := by
  intro e e' h
  cases h

theorem fills_push {bytes : List Byte} (hbytes : bytes.length = unitBytes t) :
    Fills (CodeBuffer.push bytes hbytes) := by
  intro e e' h hfilled i hi
  unfold CodeBuffer.push at h
  split at h
  · cases h
    by_cases hlt : i < e.cursor
    · obtain ⟨s, hs, hcovers⟩ := hfilled i hlt
      exact ⟨s, List.mem_append_left _ hs, hcovers⟩
    · refine ⟨_, List.mem_append_right _ List.mem_cons_self, Nat.not_lt.mp hlt, ?_⟩
      rw [hbytes]
      exact hi
  · cases h

theorem fills_push16 (hw : HalfWord) : Fills (Thumb2Emitter.push16 hw) := fills_push _

theorem fills_push32 (word : Word) : Fills (Riscv32Emitter.push32 word) := fills_push _

theorem Fills.seq {x y : EmitM t PUnit} (hx : Fills x) (hy : Fills y) :
    Fills (x >>= fun _ => y) := by
  intro e e' h hfilled
  obtain ⟨_, e₁, h₁, h₂⟩ := Fallible.bind_eq_ok.mp h
  exact hy h₂ (hx h₁ hfilled)

theorem fills_ite {p : Prop} [Decidable p] {x y : EmitM t PUnit} (hx : Fills x) (hy : Fills y) :
    Fills (if p then x else y) := by
  split
  · exact hx
  · exact hy

/-- One halfword, or two, behind a check. -/
theorem fills_arm (i : Instr) : Fills (emit .arm i) := by
  cases i with
  | movImm reg imm =>
      refine fills_ite (fills_throw _) (fills_ite (fills_push _) ?_)
      refine (fills_push _).seq ((fills_push _).seq (fills_ite ?_ fills_pure))
      exact (fills_push _).seq (fills_push _)
  | storeU32 src addr =>
      show Fills (Thumb2Emitter.emitStoreU32 src addr)
      unfold Thumb2Emitter.emitStoreU32
      split
      · exact fills_push _
      · exact fills_throw _
  | loadU32 dst addr =>
      show Fills (Thumb2Emitter.emitLoadU32 dst addr)
      unfold Thumb2Emitter.emitLoadU32
      split
      · exact fills_push _
      · exact fills_throw _
  | add dst a b => exact fills_ite (fills_throw _) (fills_push _)
  | sub dst a b => exact fills_ite (fills_throw _) (fills_push _)
  | mul dst a b =>
      refine fills_ite (fills_throw _) ?_
      split
      · exact (fills_push _).seq (fills_push _)
      · exact fills_push _
  | div dst a b => exact fills_ite (fills_throw _) ((fills_push _).seq (fills_push _))
  | ret => exact fills_push16 0x4770

theorem fills_riscv32 (i : Instr) : Fills (emit .riscv32 i) := by
  cases i with
  | movImm reg imm =>
      refine fills_ite (fills_push _) ?_
      exact (fills_push _).seq (fills_ite (fills_push _) fills_pure)
  | storeU32 src addr =>
      show Fills (Riscv32Emitter.emitStoreU32 src addr)
      unfold Riscv32Emitter.emitStoreU32
      split
      · exact fills_push _
      · exact fills_throw _
  | loadU32 dst addr =>
      show Fills (Riscv32Emitter.emitLoadU32 dst addr)
      unfold Riscv32Emitter.emitLoadU32
      split
      · exact fills_push _
      · exact fills_throw _
  | add dst a b => exact fills_push32 (encodeRtypeAddsub dst a b false)
  | sub dst a b => exact fills_push32 (encodeRtypeAddsub dst a b true)
  | mul dst a b => exact fills_push32 (encodeRtype dst a b 0x01 0x00)
  | div dst a b => exact fills_push32 (encodeRtype dst a b 0x01 0x04)
  | ret => exact fills_push32 rv32Ret

theorem fills_emit (t : Target) (i : Instr) : Fills (emit t i) := by
  cases t with
  | arm => exact fills_arm i
  | riscv32 => exact fills_riscv32 i

/-! ### The code in the buffer -/

/-- The buffer holds the units of these calls, and has stored every byte of them. -/
structure HoldsCode (e : CodeBuffer t) (is : List Instr) : Prop where
  units : e.units = (codeUnits t is).map (unitLe t)
  filled : Filled e

theorem holdsCode_nil (t : Target) : HoldsCode (CodeBuffer.intoExecBuffer t) [] where
  units := rfl
  filled i hi := absurd hi (Nat.not_lt_zero i)

theorem HoldsCode.call {e e' : CodeBuffer t} {is : List Instr} {i : Instr} (h : HoldsCode e is)
    (hnamed : ∀ r ∈ i.regs, Named t r) (hcall : emit t i e = .ok ⟨⟩ e') :
    HoldsCode e' (is ++ [i]) where
  units := by
    rw [writes_call hnamed hcall, h.units, ← List.map_append]
    simp only [codeUnits, List.flatMap_append, List.flatMap_singleton]
  filled := fills_emit t i hcall h.filled

theorem emit_of_call {i : Instr} {e e' : CodeBuffer t} (h : call i e = .ok ⟨⟩ e') :
    emit t i e = .ok ⟨⟩ e' := by
  unfold call at h
  split at h
  · cases h
    assumption
  · cases h

theorem HoldsCode.emitAll {js : List Instr} :
    ∀ {e e' : CodeBuffer t} {is : List Instr}, HoldsCode e is →
      (∀ i ∈ js, ∀ r ∈ i.regs, Named t r) → emitAll js e = .ok ⟨⟩ e' → HoldsCode e' (is ++ js) := by
  induction js with
  | nil =>
      intro e e' is h _ hrun
      cases hrun
      rwa [List.append_nil]
  | cons j js ih =>
      intro e e' is h hnamed hrun
      obtain ⟨_, e₁, hcall, hrest⟩ := Fallible.bind_eq_ok.mp hrun
      have hone := h.call (hnamed j List.mem_cons_self) (emit_of_call hcall)
      have hall := ih hone (fun i hi => hnamed i (List.mem_cons_of_mem j hi)) hrest
      rwa [List.append_assoc, List.singleton_append] at hall

/-- A fetch that returns what memory holds after the stores sees the buffer. -/
theorem HoldsCode.shows {e : CodeBuffer t} {is : List Instr} (h : HoldsCode e is)
    {image : Nat → Byte} {old : List (Event Store)} {fetch : Nat → Nat → Byte}
    (hfetch : ∀ n i, fetch n i = contents Store.put image (old ++ e.stores.map .write) i) :
    Shows e fetch := by
  intro n i hi
  rw [hfetch, contents_eq_content h.filled image old hi]

/-! ### `execute_sram_buffer` -/

/-- The processor may do this when `execute_sram_buffer(offset)` is called: every fetch
behind the flush brings some byte it may bring, at each step anew. -/
def ExecutesSram (image : Nat → Byte) (es : List (Event Store)) (offset : Nat) (s : CpuState t)
    (fuel : Nat) (r : Option (Word × CpuState t)) : Prop :=
  ∃ fetch : Nat → Nat → Byte,
    (∀ n i, Fetched Store.put image (es ++ [.flush]) i (fetch n i)) ∧
      r = callCode t fetch fuel offset s

/-- The most instructions the code of these calls takes. -/
def stepsOf (t : Target) (is : List Instr) : Nat := (is.map (callSteps t)).sum + 1

/-- Calls on registers code may name succeed while there is room. -/
theorem exists_emitAll (is : List Instr) (h : ∀ i ∈ is, ∀ r ∈ i.regs, Named t r)
    (e : CodeBuffer t) (hroom : e.lenWords + (is.map (Instr.units t)).sum ≤ e.capWords) :
    ∃ e', Native.emitAll is e = .ok ⟨⟩ e' ∧
      e'.lenWords ≤ e.lenWords + (is.map (Instr.units t)).sum := by
  have hends := emitAll_fits (fun i hi r hr => (h i hi r hr).usable) hroom
  unfold Fallible.Ends at hends
  cases hrun : Native.emitAll is e with
  | ok u e' =>
      rw [hrun] at hends
      exact ⟨e', rfl, hends⟩
  | error err e' =>
      rw [hrun] at hends
      exact hends.elim

theorem HoldsCode.bytesWritten {e : CodeBuffer t} {is : List Instr} (h : HoldsCode e is) :
    e.bytesWritten = unitBytes t * (codeUnits t is).length := by
  rw [CodeBuffer.bytesWritten, ← length_units, h.units, List.length_map]

/-- Behind any calls, and whatever calls follow: `execute_sram_buffer` at the offset
that `bytes_written` told does what the calls from there to the return do, and goes back
to its caller. The buffer may have held anything, and each fetch behind the flush may
return any byte it may. -/
theorem executesSram_eq {before is after : List Instr} {e₀ e : CodeBuffer t}
    (hstart : Native.emitAll before (CodeBuffer.intoExecBuffer t) = .ok ⟨⟩ e₀)
    (hemit : Native.emitAll (is ++ .ret :: after) e₀ = .ok ⟨⟩ e)
    (hnamed : ∀ i ∈ before ++ after, ∀ r ∈ i.regs, Named t r) (hplain : ∀ i ∈ is, Plain t i)
    (image : Nat → Byte) (old : List (Event Store)) {s : CpuState t} {back : Word}
    (hlinked : Linked s back) {fuel : Nat} (hfuel : stepsOf t is ≤ fuel)
    {r : Option (Word × CpuState t)}
    (hrun : ExecutesSram image (old ++ e.stores.map .write) e₀.bytesWritten s fuel r) :
    r = (effects is s).map fun s' => (back, s') := by
  obtain ⟨fetch, hfetched, rfl⟩ := hrun
  have hbefore := (holdsCode_nil t).emitAll (fun i hi => hnamed i (List.mem_append_left _ hi))
    hstart
  have hrest : ∀ i ∈ is ++ .ret :: after, ∀ reg ∈ i.regs, Named t reg := by
    intro i hi
    rcases List.mem_append.mp hi with hi | hi
    · exact (hplain i hi).2
    · rcases List.mem_cons.mp hi with rfl | hi
      · simp [Instr.regs]
      · exact hnamed i (List.mem_append_right _ hi)
  have hholds := hbefore.emitAll hrest hemit
  rw [List.nil_append] at hbefore hholds
  have hshows : Shows e fetch := by
    have hfetch : ∀ n i, fetch n i = contents Store.put image (old ++ e.stores.map .write) i := by
      intro n i
      rw [Coherence.fetched_of_settled (Coherence.settled_flush _) (hfetched n i),
        Coherence.contents_append]
      rfl
    exact hholds.shows hfetch
  obtain ⟨k, rfl⟩ := Nat.exists_eq_add_of_le hfuel
  have hsteps : stepsOf t is + k = k + 1 + (is.map (callSteps t)).sum := by
    unfold stepsOf
    omega
  rw [hsteps, hbefore.bytesWritten]
  exact callCode_emitted before hholds.units hplain hshows hlinked k

end HolyRust.Native
