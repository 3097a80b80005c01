import HolyRust.Compiler.Contract
import HolyRust.Compiler.Lines
import HolyRust.Compiler.NativeGate

/-!
What `compile_and_run` writes, executed: streams of words in, machine code out, the
processor run on it.

* `Generated` — the calls the generation loop makes; `generateInto_calls` gives them
  for a stream with the buffer they leave.
* `Stands` — and that they divide where the words do.
* `generated_code_runs` — the code of any accepted stream comes back to its caller, or
  faults at a division on Thumb-2; without one it does what the calls say.
-/

namespace HolyRust.Native

open Emitter
open Coherence (Event contents)

variable {t : Target} {code : CodeMap}

/-! ### The calls of a stream -/

/-- The generation loop loads a literal into one of its two registers, or makes the
call of an operation. -/
def Generated (t : Target) (i : Instr) : Prop :=
  (∃ reg v, (reg = acc t ∨ reg = scratch t) ∧ i = .movImm reg v) ∨
    ∃ p, p ≠ .lit ∧ p ≠ .halt ∧ i = operation t p

theorem named_pair {reg : Reg} (h : reg = acc t ∨ reg = scratch t) : Named t reg := by
  rcases h with rfl | rfl <;> cases t <;> decide

theorem Generated.regs {i : Instr} (h : Generated t i) :
    ∀ reg ∈ i.regs, reg = acc t ∨ reg = scratch t := by
  rcases h with ⟨reg, v, hreg, rfl⟩ | ⟨p, hlit, hhalt, rfl⟩
  · intro q hq
    rwa [List.mem_singleton.mp hq]
  · intro q hq
    cases p <;> simp_all [operation, Instr.regs, or_comm]

theorem Generated.plain {i : Instr} (h : Generated t i) : Plain t i := by
  refine ⟨?_, fun reg hreg => named_pair (h.regs reg hreg)⟩
  rcases h with ⟨reg, v, -, rfl⟩ | ⟨p, hlit, hhalt, rfl⟩
  · nofun
  · cases p <;> first | exact absurd rfl hlit | exact absurd rfl hhalt | nofun

/-- A literal goes to one of the two registers. -/
theorem generated_lit (v : Word) (ws : List Word) (loaded : Bool) :
    Generated t (.movImm (litTarget t code ws loaded).1 v) := by
  refine .inl ⟨_, v, ?_, rfl⟩
  unfold litTarget
  split_ifs
  · exact .inr rfl
  · exact .inr rfl
  · exact .inl rfl

/-- There is a division among the calls. -/
def HasDivision (is : List Instr) : Prop := ∃ dst a b, .div dst a b ∈ is

theorem not_hasDivision_nil : ¬ HasDivision [] := by
  rintro ⟨dst, a, b, h⟩
  cases h

theorem hasDivision_cons {i : Instr} {is : List Instr} :
    HasDivision (i :: is) ↔ (∃ dst a b, i = .div dst a b) ∨ HasDivision is := by
  simp only [HasDivision, List.mem_cons, exists_or, eq_comm]

theorem operation_eq_div {p : MicroPrimitive} :
    (∃ dst a b, operation t p = .div dst a b) ↔ p = .div := by
  cases p <;> simp [operation]

variable (t code) in
/-- The calls are of the generator's kinds, and divide if the words do. -/
structure Stands (ws : List Word) (is : List Instr) : Prop where
  generated : ∀ i ∈ is, Generated t i
  divides : HasDivision is ↔ .div ∈ scanned code ws

/-- What the loop adds to its record. -/
theorem genLoop_stands (ws : List Word) : ∀ (loaded : Bool) (out out' : List Instr),
    genLoop recorder t code ws loaded out = some out' →
      ∃ is, out' = out ++ is ∧ Stands t code ws is := by
  have hstops : ∀ ws, Exec.Stops code ws → Stands t code ws [] := by
    intro ws hstop
    refine ⟨by simp, iff_of_false not_hasDivision_nil ?_⟩
    rw [scanned_of_stops hstop]
    exact List.not_mem_nil
  fun_induction ending code ws with
  | case1 =>
      intro loaded out out' h
      exact ⟨[], by simpa [genLoop] using h.symm, hstops _ .nil⟩
  | case2 w ws hstop =>
      intro loaded out out' h
      unfold genLoop at h
      rcases hstop with rfl | rfl
      · exact ⟨[], by simpa using h.symm, hstops _ (.zero ws)⟩
      · exact ⟨[], by simpa using h.symm, hstops _ (.halt ws)⟩
  | case3 =>
      intro loaded out out' h
      simp [genLoop, code.ne_zero] at h
  | case4 v ws hstop ih =>
      intro loaded out out' h
      rw [genLoop_lit] at h
      obtain ⟨is, rfl, hgenerated, hdivides⟩ := ih _ _ _ h
      refine ⟨.movImm (litTarget t code ws loaded).1 v :: is, by simp, ?_, ?_⟩
      · exact List.forall_mem_cons.mpr ⟨generated_lit v ws loaded, hgenerated⟩
      · rw [hasDivision_cons, hdivides, scanned_lit]
        simp
  | case5 w ws hstop hlit hop ih =>
      intro loaded out out' h
      obtain ⟨p, hplit, hphalt, rfl⟩ := exists_operation hop
      rw [genLoop_operation hplit hphalt] at h
      obtain ⟨is, rfl, hgenerated, hdivides⟩ := ih _ _ _ h
      refine ⟨operation t p :: is, by simp, ?_, ?_⟩
      · exact List.forall_mem_cons.mpr ⟨.inr ⟨p, hplit, hphalt, rfl⟩, hgenerated⟩
      · rw [hasDivision_cons, operation_eq_div, hdivides, scanned_prim hplit hphalt, List.mem_cons,
          eq_comm]
  | case6 w ws hstop hlit hop =>
      intro loaded out out' h
      unfold genLoop at h
      simp_all

theorem emitAll_concat (is : List Instr) (i : Instr) :
    (emitAll (is ++ [i]) : GenM t PUnit) = emitAll is >>= fun _ => call i := by
  induction is with
  | nil =>
      rw [List.nil_append, emitAll, emitAll, emitAll, pure_bind]
      exact bind_pure (call i)
  | cons j is ih => rw [List.cons_append, emitAll, ih, emitAll, bind_assoc]

/-- A generated call takes at least the units of one instruction. -/
theorem Generated.units_le {i : Instr} (h : Generated t i) : instrUnits t ≤ i.units t := by
  rcases h with ⟨reg, v, -, rfl⟩ | ⟨p, hlit, hhalt, rfl⟩
  · show instrUnits t ≤ 2 * instrUnits t
    omega
  · exact (operation_units hlit hhalt).ge

theorem length_le_of_units {is : List Instr} (h : ∀ i ∈ is, Generated t i) {n : Nat}
    (hunits : (is.map (Instr.units t)).sum ≤ instrUnits t * n) : is.length ≤ n := by
  have hsum : instrUnits t * is.length ≤ (is.map (Instr.units t)).sum := by
    clear hunits
    induction is with
    | nil => simp
    | cons i is ih =>
        have hone := (h i List.mem_cons_self).units_le
        have hrest := ih fun j hj => h j (List.mem_cons_of_mem i hj)
        rw [List.map_cons, List.sum_cons, List.length_cons, Nat.mul_succ]
        omega
  refine Nat.le_of_mul_le_mul_left (hsum.trans hunits) ?_
  cases t <;> decide

/-- An accepted stream whose literals have their arguments: its calls, and the buffer
they and the return leave. -/
theorem generateInto_calls {ws : List Word} (hlen : ws.length ≤ maxStreamWords)
    (hcompilable : isCompilable code ws = true) (hcut : ¬ CutsLit code ws) :
    ∃ is e, generate recorder t code ws [] = some (is ++ [.ret]) ∧
      generateInto t code ws (CodeBuffer.intoExecBuffer t) = .ok ⟨⟩ e ∧
      emitAll (is ++ [.ret]) (CodeBuffer.intoExecBuffer t) = .ok ⟨⟩ e ∧
      Stands t code ws is ∧ is.length ≤ ws.length := by
  have hend : ending code ws = none := by
    rcases ending_of_compilable ws false hcompilable with hend | hend
    · exact hend
    · exact absurd (ending_eq_missingArgument.mp hend) hcut
  obtain ⟨is, hplan⟩ := exists_plan t code ws false
  rw [hend] at hplan
  have hrecord : genLoop recorder t code ws false [] = some is := by
    rw [hplan.recorded, if_pos rfl, List.nil_append]
  have hstands : Stands t code ws is := by
    obtain ⟨is', heq, hall⟩ := genLoop_stands ws false [] is hrecord
    rw [heq, List.nil_append]
    exact hall
  obtain ⟨e, hrun, hlt⟩ := hplan.run hlen
  obtain ⟨e', s, hret, -⟩ := call_ret hlt
  have hcount := length_le_of_units hstands.generated hplan.units_le
  refine ⟨is, e', ?_, ?_, ?_, hstands, hcount⟩
  · rw [generate, if_pos hcompilable, hrecord]
    rfl
  · unfold generateInto
    rw [if_pos hcompilable, hplan.generated]
    refine (Fallible.bind_ok (a := ⟨⟩) ?_).trans hret
    exact Fallible.bind_ok hrun
  · rw [emitAll_concat]
    exact (Fallible.bind_ok hrun).trans hret

/-! ### The code of a stream -/

/-- Instructions enough for any stream. -/
def stepLimit : Nat := 2 * maxStreamWords + 1

theorem stepsOf_le {is : List Instr} (h : is.length ≤ maxStreamWords) :
    stepsOf t is ≤ stepLimit := by
  have hsum : (is.map (callSteps t)).sum ≤ 2 * is.length := by
    clear h
    induction is with
    | nil => simp
    | cons i is ih =>
        have hone := callSteps_le t i
        rw [List.map_cons, List.sum_cons, List.length_cons]
        omega
  unfold stepsOf stepLimit
  omega

/-- The processor sees what was stored in the buffer `e`, after whatever was stored
before. -/
def Coherent (image : Nat → Byte) (old : List (Event Store)) (e : CodeBuffer t)
    (fetch : Nat → Nat → Byte) : Prop :=
  ∀ n i, fetch n i = contents Store.put image (old ++ e.stores.map .write) i

/-- Calling the code of a stream is the effect of its calls. -/
theorem callCode_generated {is : List Instr} {e : CodeBuffer t}
    (hemit : emitAll (is ++ [.ret]) (CodeBuffer.intoExecBuffer t) = .ok ⟨⟩ e)
    (hgenerated : ∀ i ∈ is, Generated t i) (hlen : is.length ≤ maxStreamWords)
    {image : Nat → Byte} {old : List (Event Store)} {fetch : Nat → Nat → Byte}
    (hfetch : Coherent image old e fetch) {s : CpuState t} {back : Word} (hlinked : Linked s back)
    {fuel : Nat} (hfuel : stepLimit ≤ fuel) :
    callCode t fetch fuel 0 s = (effects is s).map fun s' => (back, s') := by
  have hnamed : ∀ i ∈ is ++ [.ret], ∀ reg ∈ i.regs, Named t reg := by
    intro i hi
    rcases List.mem_append.mp hi with hi | hi
    · exact (hgenerated i hi).plain.2
    · rw [List.mem_singleton.mp hi]
      simp [Instr.regs]
  have hholds := (holdsCode_nil t).emitAll hnamed hemit
  obtain ⟨k, rfl⟩ := Nat.exists_eq_add_of_le ((stepsOf_le (t := t) hlen).trans hfuel)
  have hsteps : stepsOf t is + k = k + 1 + (is.map (callSteps t)).sum := by
    unfold stepsOf
    omega
  rw [hsteps]
  exact callCode_emitted [] hholds.units (fun i hi => (hgenerated i hi).plain)
    (hholds.shows hfetch) hlinked k

theorem effect_eq_none_iff {s : CpuState t} {i : Instr} :
    effect s i = none ↔ t = .arm ∧ ∃ dst a b, i = .div dst a b := by
  cases i with
  | div dst a b => cases t <;> simp [effect, quotient]
  | movImm | storeU32 | loadU32 | add | sub | mul | ret => simp [effect]

/-- Calls fault only at a division. -/
theorem effects_eq_none_iff {is : List Instr} {s : CpuState t} :
    effects is s = none ↔ t = .arm ∧ HasDivision is := by
  induction is generalizing s with
  | nil => exact iff_of_false nofun fun h => not_hasDivision_nil h.2
  | cons i is ih =>
      rw [effects, List.foldlM_cons, hasDivision_cons]
      cases heff : effect s i with
      | none =>
          obtain ⟨harm, hdiv⟩ := effect_eq_none_iff.mp heff
          exact iff_of_true rfl ⟨harm, .inl hdiv⟩
      | some s₁ =>
          refine (ih (s := s₁)).trans (and_congr_right fun harm => (or_iff_right ?_).symm)
          intro hdiv
          have hnone := (effect_eq_none_iff (s := s)).mpr ⟨harm, hdiv⟩
          rw [heff] at hnone
          cases hnone

/-- A processor that fetches what was stored, in any state its caller may leave it in,
given steps enough: the code of an accepted stream never ends anywhere but at its
caller, with no register changed but the two the generator uses; it faults exactly on
Thumb-2 and if there is a division in the stream; and where each call keeps the
contract when it is reached, it does what the trait says of the calls. The data bus is
apart from the buffer: a store into the running code is not covered. -/
theorem generated_code_runs (t : Target) (code : CodeMap) {p : StreamProgram}
    (h : Generates code p) :
    ∃ is e, instructions t code p = some (is ++ [.ret]) ∧
      generateInto t code p.code (CodeBuffer.intoExecBuffer t) = .ok ⟨⟩ e ∧
      ∀ image old fetch, Coherent image old e fetch → ∀ (s : CpuState t) back, Linked s back →
        ∀ fuel, stepLimit ≤ fuel →
          (∀ target s', callCode t fetch fuel 0 s = some (target, s') → target = back ∧
            ∀ q, IsReg t q → q ≠ acc t → q ≠ scratch t → s'.reg q = s.reg q) ∧
          (callCode t fetch fuel 0 s = none ↔ t = .arm ∧ .div ∈ scanned code p.code) ∧
          (SoundRun is s → ∀ c, Agrees s c → ∃ s', callCode t fetch fuel 0 s = some (back, s') ∧
            Agrees s' (runCode (is ++ [.ret]) c)) := by
  obtain ⟨is, e, hrecord, hgen, hemit, ⟨hgenerated, hdivides⟩, hlen⟩ :=
    generateInto_calls (t := t) p.length_code_le h.1 h.2
  refine ⟨is, e, hrecord, hgen, fun image old fetch hfetch s back hlinked fuel hfuel => ?_⟩
  have hplain : ∀ i ∈ is, Plain t i := fun i hi => (hgenerated i hi).plain
  rw [callCode_generated hemit hgenerated (hlen.trans p.length_code_le) hfetch hlinked hfuel]
  refine ⟨fun target s' hrun => ?_, ?_, fun hsound c hagrees => ?_⟩
  · obtain ⟨s₁, heffects, heq⟩ := Option.map_eq_some_iff.mp hrun
    cases heq
    refine ⟨rfl, fun q hq hacc hscratch => reg_effects hplain heffects hq fun i hi hmem => ?_⟩
    rcases (hgenerated i hi).regs q hmem with heq | heq
    · exact hacc heq
    · exact hscratch heq
  · rw [Option.map_eq_none_iff, effects_eq_none_iff, hdivides]
  · obtain ⟨s', heffects, hlast⟩ := agrees_effects hagrees hplain hsound
    exact ⟨s', by rw [heffects]; rfl, hlast⟩

/-- `lit 7 lit 2 sub lit 3 mul halt`. -/
def chainWords : List Word :=
  [CodeMap.sample.wordOf .lit, 7, CodeMap.sample.wordOf .lit, 2, CodeMap.sample.wordOf .sub,
    CodeMap.sample.wordOf .lit, 3, CodeMap.sample.wordOf .mul, CodeMap.sample.wordOf .halt]

/-- On RISC-V the chain comes back with 15 in `a0`. -/
theorem generated_code_runs_chain :
    ∃ e, generateInto .riscv32 .sample (Parser.programOf chainWords true).code
        (CodeBuffer.intoExecBuffer .riscv32) = .ok ⟨⟩ e ∧
      ∃ s', callCode .riscv32
          (fun _ => contents Store.put (fun _ => 0) ([] ++ e.stores.map .write)) stepLimit 0
          (calledFrom .riscv32 0x20400100) = some (0x20400100, s') ∧ s'.reg 10 = 15 := by
  have hcode : (Parser.programOf chainWords true).code = chainWords :=
    Parser.programOf_code true (by decide)
  have hgenerates : Generates .sample (Parser.programOf chainWords true) := by
    rw [Generates, hcode]
    exact ⟨by decide, fun hcut => absurd hcut.ending_eq (by decide)⟩
  have hinstrs : instructions .riscv32 .sample (Parser.programOf chainWords true) =
      some ([.movImm 10 7, .movImm 11 2, .sub 10 10 11, .movImm 11 3, .mul 10 10 11] ++
        [.ret]) := by
    decide
  obtain ⟨is, e, hrecord, hgen, hrun⟩ := generated_code_runs .riscv32 .sample hgenerates
  obtain rfl := List.append_cancel_right (Option.some.inj (hrecord.symm.trans hinstrs))
  have hlinked : Linked (calledFrom .riscv32 0x20400100) 0x20400100 := by decide
  obtain ⟨-, -, hsound⟩ := hrun (fun _ => 0) [] _ (fun _ _ => rfl) _ _ hlinked stepLimit le_rfl
  obtain ⟨s', hcall, hagrees⟩ := hsound (by simp [SoundRun, Sound]; decide)
    ⟨(calledFrom .riscv32 0x20400100).reg, (calledFrom .riscv32 0x20400100).bus⟩
    ⟨rfl, fun _ _ => rfl⟩
  refine ⟨e, hgen, s', hcall, ?_⟩
  rw [hagrees.regs 10 (by decide)]
  decide

end HolyRust.Native
