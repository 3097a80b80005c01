import HolyRust.Compiler.CodeImage
import HolyRust.Compiler.Fallback
import HolyRust.Compiler.Lines
import HolyRust.Library.Runs

/-!
Generated code and the instruction fetch (`flush_instruction_cache` in
`kernel/exec.rs`).

The barrier must come between writing code and jumping to it, says its comment.
`execute_sram_buffer` issues it; `compile_and_run` jumps through `jump_to_sram`,
which does not. So the entries that find EXEC_BUFFER settled are those of the
runs that make none.

* `run_entry_iff` — one run enters settled code only iff it enters none.
* `entries_fresh_iff` — so does a whole sequence of runs.
* `stale_code` — the second of two programs may execute the first.
-/

namespace HolyRust.Native

open Coherence (Event Settled EntriesSettled EntriesFresh Fetched contents)
open Emitter (Store)

/-- The machine after `StreamProgram::run`. -/
def runStep (cpu : Cpu) (t : Target) (code : CodeMap) (m : Machine) (p : StreamProgram) :
    Machine := (run cpu t code p m).machine

/-- The machine after the programs, first to last. -/
abbrev runAll (cpu : Cpu) (t : Target) (code : CodeMap) : Machine → List StreamProgram → Machine :=
  Runs.run (runStep cpu t code)

variable {cpu : Cpu} {t : Target} {code : CodeMap}

/-- A run that enters EXEC_BUFFER does so right after a store. -/
theorem run_entry_iff (cpu : Cpu) (t : Target) (code : CodeMap) (p : StreamProgram)
    (m : Machine) :
    ∃ new, (runStep cpu t code m p).events = m.events ++ new ∧
      (EntriesSettled m.events new ↔ ¬ TakesNative code p) := by
  by_cases hnative : TakesNative code p
  · obtain ⟨_, ss, s, _, hevents, _⟩ := run_native cpu t m hnative
    refine ⟨(ss ++ [s]).map .write ++ [.enter], by rw [← List.append_assoc]; exact hevents, ?_⟩
    refine iff_of_false (fun hsettled => ?_) (fun hnot => hnot hnative)
    have hlast := hsettled ((ss ++ [s]).map .write) [] rfl
    rw [List.map_append, List.map_singleton, ← List.append_assoc] at hlast
    exact Coherence.not_settled_of_last _ s hlast
  · obtain ⟨ss, _, _, _, hevents, _⟩ := run_threaded cpu t m hnative
    refine ⟨ss.map .write, hevents, iff_of_true ?_ hnative⟩
    exact Coherence.entriesSettled_of_no_entry (by simp)

theorem entries_settled_iff (cpu : Cpu) (t : Target) (code : CodeMap) (ps : List StreamProgram)
    (m : Machine) :
    ∃ new, (runAll cpu t code m ps).events = m.events ++ new ∧
      (EntriesSettled m.events new ↔ ∀ p ∈ ps, ¬ TakesNative code p) := by
  induction ps generalizing m with
  | nil =>
      refine ⟨[], by simp, iff_of_true ?_ (by simp)⟩
      exact Coherence.entriesSettled_of_no_entry (by simp)
  | cons p ps ih =>
      obtain ⟨first, hfirst, hone⟩ := run_entry_iff cpu t code p m
      obtain ⟨new, hnew, hrest⟩ := ih (runStep cpu t code m p)
      refine ⟨first ++ new, ?_, ?_⟩
      · show (runAll cpu t code (runStep cpu t code m p) ps).events = _
        rw [hnew, hfirst, List.append_assoc]
      · rw [Coherence.entriesSettled_append, hone, ← hfirst, hrest, List.forall_mem_cons]

/-- Over any sequence of runs, from any machine and whatever EXEC_BUFFER held:
every entry into it has a flush between the last store and it, and fetches what
was stored, exactly if no program of the sequence runs natively. -/
theorem entries_fresh_iff (cpu : Cpu) (t : Target) (code : CodeMap) (image : Nat → Byte)
    (ps : List StreamProgram) (m : Machine) :
    ∃ new, (runAll cpu t code m ps).events = m.events ++ new ∧
      (EntriesFresh Store.put image m.events new ↔ ∀ p ∈ ps, ¬ TakesNative code p) := by
  obtain ⟨new, hnew, hsettled⟩ := entries_settled_iff cpu t code ps m
  exact ⟨new, hnew, Coherence.entriesFresh_iff.trans hsettled⟩

/-! ### A stale run -/

/-- The program of the line `v;`. -/
def valueProgram (code : CodeMap) (v : Word) : StreamProgram :=
  Parser.programOf [code.wordOf .lit, v, code.wordOf .halt] true

/-- The machine at power-up, EXEC_BUFFER never written. -/
def powerUp : Machine := ⟨.new ⟨fun _ => 0, []⟩, fun _ => 0, []⟩

/-- The stores of `MOVS r0, #v; BX LR`. -/
def movsCode (v : Byte) : List (Event Store) :=
  [.write ⟨0, [v, 0x20]⟩, .write ⟨2, [0x70, 0x47]⟩]

theorem events_two_values :
    (runAll (fun _ c => c) .arm .sample powerUp
        [valueProgram .sample 1, valueProgram .sample 2]).events =
      movsCode 1 ++ .enter :: movsCode 2 ++ [.enter] := by
  decide +kernel

/-- Two lines that print a literal: at the second entry no flush has come since
the code of the first was written, and a fetch of the first byte may still return
what the first program put there. -/
theorem stale_code :
    let es := (runAll (fun _ c => c) .arm .sample powerUp
      [valueProgram .sample 1, valueProgram .sample 2]).events
    ¬ EntriesFresh Store.put (fun _ => 0) [] es ∧ ∃ before, es = before ++ [.enter] ∧
      Fetched Store.put (fun _ => 0) before 0 1 ∧
      contents Store.put (fun _ => 0) before 0 = 2 := by
  refine ⟨fun h => ?_, movsCode 1 ++ .enter :: movsCode 2, events_two_values, ?_, rfl⟩
  · have hlast := Coherence.entriesFresh_iff.mp h _ [] events_two_values
    exact Coherence.not_settled_of_last (movsCode 1 ++ [.enter, .write ⟨0, [2, 0x20]⟩])
      ⟨2, [0x70, 0x47]⟩ hlast
  · exact ⟨movsCode 1 ++ [.enter], movsCode 2, rfl, by simp [movsCode], rfl⟩

end HolyRust.Native
