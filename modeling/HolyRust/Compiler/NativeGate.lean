import HolyRust.Compiler.Native
import HolyRust.Kernel.Unbounded
import HolyRust.Library.ClampedCounter
import Mathlib.Algebra.Order.Group.Int

/-!
How deep the operand stack gets on the streams `is_compilable` lets through. The
generator has two registers, but the scan only asks for known primitives: the
depth is a counter clamped by underflow, and the words alone decide how high it
climbs.

* `scanned` — the primitives dispatch calls, in order.
* `history_atMost_iff` — no push of a run exceeds a depth, read off the words.
* `holdsAtMost_iff` — the streams a number of operands is enough for; the gate's two are
  not enough for all it accepts.
-/

namespace HolyRust.Native

open Exec
open ClampedCounter (Move Stays BlocksLe stays_nil stays_cons stays_iff_blocksLe)

/-! ### The depth as a clamped counter -/

/-- What a primitive does to the depth. Underflow leaves what it pushes. -/
def move (p : MicroPrimitive) : Move Int := ⟨pushes p - pops p, pushes p⟩

theorem move_apply (p : MicroPrimitive) (d : Nat) :
    Move.apply (d : Int) (move p) = ((d - pops p + pushes p : Nat) : Int) := by
  simp only [Move.apply, move]
  omega

/-- The primitives called up to the first halt, zero or unknown word; a literal
without its argument pushes nothing. -/
def scanned (code : CodeMap) : List Word → List MicroPrimitive
  | [] => []
  | word :: rest =>
      if word = 0#32 then []
      else
        match code.primAt word with
        | none => []
        | some .halt => []
        | some .lit =>
            match rest with
            | [] => []
            | _ :: rest => .lit :: scanned code rest
        | some p => p :: scanned code rest

section Scan

variable {code : CodeMap}

theorem scanned_of_stops {ws : List Word} (h : Stops code ws) : scanned code ws = [] := by
  unfold scanned
  cases h with
  | nil => rfl
  | zero rest => rfl
  | wild hne h rest => simp [hne, h]
  | halt rest => simp [code.ne_zero]
  | lit => simp [code.ne_zero]

theorem scanned_lit (v : Word) (rest : List Word) :
    scanned code (code.wordOf .lit :: v :: rest) = .lit :: scanned code rest := by
  simp [scanned, code.ne_zero]

theorem scanned_prim {p : MicroPrimitive} (hlit : p ≠ .lit) (hhalt : p ≠ .halt)
    (rest : List Word) : scanned code (code.wordOf p :: rest) = p :: scanned code rest := by
  rw [scanned.eq_def]
  cases p <;> simp_all [code.ne_zero]

end Scan

/-- The moves of a whole stream. -/
def moves (code : CodeMap) (ws : List Word) : List (Move Int) := (scanned code ws).map move

/-! ### Pushes of a run -/

/-- Every push leaves at most `k` operands. -/
def AtMost (k : Nat) (new : List Step) : Prop := ∀ d, .push d ∈ new → d + 1 ≤ k

theorem atMost_append {k : Nat} {old new : List Step} :
    AtMost k (old ++ new) ↔ AtMost k old ∧ AtMost k new := by
  simp only [AtMost, List.mem_append, or_imp, forall_and]

/-- A primitive pushes at most once, at the end. -/
theorem stackSteps_atMost {k d : Nat} (hd : d ≤ k) {p : MicroPrimitive} (hlit : p ≠ .lit) :
    AtMost k (stackSteps d p) ↔ d - pops p + pushes p ≤ k := by
  cases p with
  | lit => exact absurd rfl hlit
  | halt | writeReg =>
      simp [AtMost, stackSteps, pops, pushes]
      omega
  | loadReg | add | sub | mul | div => simp [AtMost, stackSteps, pops, pushes]

/-- A step that pushes within `k` exactly if it ends within `k`, and the rest. -/
theorem atMost_step {k d' : Nat} {new rest : List Step} {ms : List (Move Int)}
    (hnew : AtMost k new ↔ d' ≤ k) (hrest : d' ≤ k → (AtMost k rest ↔ Stays (k : Int) d' ms)) :
    AtMost k (new ++ rest) ↔ Stays (k : Int) d' ms := by
  rw [atMost_append, hnew]
  constructor
  · rintro ⟨hd, hall⟩
    exact (hrest hd).mp hall
  · intro hstays
    have hd : d' ≤ k := Int.ofNat_le.mp hstays.start
    exact ⟨hd, (hrest hd).mpr hstays⟩

/-- The induction is on the words; the counter carries the depth. -/
theorem history_atMost_iff (code : CodeMap) (k : Nat) (ws : List Word) : ∀ ip d : Nat, d ≤ k →
    (AtMost k (history code ip d ws) ↔ Stays (k : Int) d (moves code ws)) := by
  induction ws using stream_induct code with
  | stops h =>
      intro ip d hd
      have hstart : Stays (k : Int) d [] := stays_nil.mpr (Int.ofNat_le.mpr hd)
      simp only [moves, scanned_of_stops h, List.map_nil, hstart, iff_true]
      intro e hpush
      rcases mem_history_of_stops h hpush with ⟨word, hfetch⟩ | ⟨p, hdispatch⟩
      · cases hfetch
      · cases hdispatch
  | lit v rest ih =>
      intro ip d hd
      have hmove : Move.apply (d : Int) (move .lit) = ((d + 1 : Nat) : Int) := move_apply .lit d
      rw [history_lit, moves, scanned_lit, List.map_cons, stays_cons, hmove,
        and_iff_right (Int.ofNat_le.mpr hd)]
      exact atMost_step (by simp [AtMost]) (ih (ip + 2) (d + 1))
  | prim p rest hlit hhalt ih =>
      intro ip d hd
      rw [history_prim code ip d rest hlit hhalt, moves, scanned_prim hlit hhalt, List.map_cons,
        stays_cons, move_apply, and_iff_right (Int.ofNat_le.mpr hd)]
      refine atMost_step ?_ (ih (ip + 1) (d - pops p + pushes p))
      rw [atMost_append, stackSteps_atMost hd hlit]
      exact and_iff_right (by simp [AtMost])

/-- What a primitive leaves after an underflow is no less than its change. -/
theorem move_change_le (p : MicroPrimitive) : 0 + (move p).change ≤ (move p).floor := by
  simp only [move]
  omega

/-- The dispatcher, run on the stream array from an empty stack, never holds more
than `k` operands. -/
def HoldsAtMost (code : CodeMap) (k : Nat) (stream : Vector Word maxStreamWords) (m : Vm) : Prop :=
  ∃ new, (runThreadedStream code 0 stream.toList m.reset).2.steps = m.steps ++ new ∧ AtMost k new

/-- A run pushes what its history says. -/
theorem holdsAtMost_iff_history (code : CodeMap) (k : Nat)
    (stream : Vector Word maxStreamWords) (m : Vm) :
    HoldsAtMost code k stream m ↔ AtMost k (history code 0 0 stream.toList) := by
  have hsteps : (runThreadedStream code 0 stream.toList m.reset).2.steps =
      m.steps ++ history code 0 0 stream.toList :=
    (run_agrees code stream.toList 0 m.reset (Nat.zero_le _) (by simp)).steps
  simp [HoldsAtMost, hsteps]

/-- So many operands are enough for a stream, whether the gate accepts it or not, exactly
if no block of consecutive primitives climbs past them: what the first leaves after an
underflow, plus the changes of the others. -/
theorem holdsAtMost_iff (code : CodeMap) (k : Nat) (stream : Vector Word maxStreamWords) (m : Vm) :
    HoldsAtMost code k stream m ↔ BlocksLe (k : Int) (moves code stream.toList) := by
  have hstart : ∀ mv ∈ moves code stream.toList, 0 + mv.change ≤ mv.floor := by
    intro mv hmv
    obtain ⟨p, -, rfl⟩ := List.mem_map.mp hmv
    exact move_change_le p
  have hpushes : AtMost k (history code 0 0 stream.toList) ↔
      Stays (k : Int) 0 (moves code stream.toList) :=
    history_atMost_iff code k stream.toList 0 0 (Nat.zero_le k)
  rw [holdsAtMost_iff_history, hpushes, stays_iff_blocksLe (Int.natCast_nonneg k) hstart]

/-! ### The gate -/

/-- The array the parser leaves: the words, then zeros. -/
def zeroFilled (ws : List Word) (h : ws.length ≤ maxStreamWords) : Vector Word maxStreamWords :=
  ⟨(ws ++ List.replicate (maxStreamWords - ws.length) 0#32).toArray, by
    simp only [List.size_toArray, List.length_append, List.length_replicate]
    omega⟩

/-- `lit 2 lit 3 add lit 4 mul halt`: each operation makes room for the next literal. -/
theorem accepted_atMost_two_chain :
    isCompilable .sample [CodeMap.sample.wordOf .lit, 2, CodeMap.sample.wordOf .lit, 3,
        CodeMap.sample.wordOf .add, CodeMap.sample.wordOf .lit, 4, CodeMap.sample.wordOf .mul,
        CodeMap.sample.wordOf .halt] = true ∧
      HoldsAtMost .sample 2
        (zeroFilled [CodeMap.sample.wordOf .lit, 2, CodeMap.sample.wordOf .lit, 3,
          CodeMap.sample.wordOf .add, CodeMap.sample.wordOf .lit, 4, CodeMap.sample.wordOf .mul,
          CodeMap.sample.wordOf .halt] (by decide))
        (Vm.new ⟨fun _ => 0, []⟩) :=
  ⟨by decide, (holdsAtMost_iff .sample 2 _ _).mpr (by decide)⟩

/-- `lit 1 lit 2 lit 3 halt` is accepted, and its third literal finds two operands. -/
theorem accepted_three_literals : ¬ ∀ code stream len m,
    isCompilable code (stream.toList.take len) = true → HoldsAtMost code 2 stream m := by
  intro h
  have hholds := h .sample
    (zeroFilled [CodeMap.sample.wordOf .lit, 1, CodeMap.sample.wordOf .lit, 2,
      CodeMap.sample.wordOf .lit, 3, CodeMap.sample.wordOf .halt] (by decide))
    7 (Vm.new ⟨fun _ => 0, []⟩) (by decide)
  have hthree := (holdsAtMost_iff_history _ _ _ _).mp hholds 2 (by decide)
  exact absurd hthree (by decide)

end HolyRust.Native
