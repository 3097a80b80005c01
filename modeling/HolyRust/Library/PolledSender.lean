import Mathlib.Logic.Function.Iterate
import HolyRust.Library.Runs

/-!
A writer and a device that sends what it is given, interleaved in any way.

The device holds at most `depth` items and sends the oldest whenever it likes; what it
does with an item there is no room for is its own affair. A moment is one access of the
writer, given by how many items the device sends before it.

* `polled` — the writer looks for room before each item.
* `run_polled_all` — nothing is lost, doubled or reordered at any moment of any run.
* `polled_done` — if the device never stops sending, everything is out in the end.
-/

namespace HolyRust.PolledSender

open Runs (run)

variable {α : Type}

structure Sender (α : Type) where
  sent : List α
  /-- What is held back, oldest first. -/
  queue : List α

namespace Sender

/-- The oldest item goes out. -/
def drain : Sender α → Sender α
  | ⟨sent, []⟩ => ⟨sent, []⟩
  | ⟨sent, x :: queue⟩ => ⟨sent ++ [x], queue⟩

/-- The device has time for `n` items. -/
def elapse (n : Nat) (s : Sender α) : Sender α := drain^[n] s

/-- Everything that was accepted. -/
def all (s : Sender α) : List α := s.sent ++ s.queue

@[simp] theorem elapse_zero (s : Sender α) : s.elapse 0 = s := rfl

theorem all_drain (s : Sender α) : s.drain.all = s.all := by
  obtain ⟨sent, queue⟩ := s
  cases queue with
  | nil => rfl
  | cons x queue => simp [drain, all]

@[simp] theorem all_elapse (n : Nat) (s : Sender α) : (s.elapse n).all = s.all := by
  induction n generalizing s with
  | zero => rfl
  | succ n ih => exact (ih s.drain).trans s.all_drain

theorem queue_drain (s : Sender α) : s.drain.queue = s.queue.tail := by
  obtain ⟨sent, queue⟩ := s
  cases queue <;> rfl

theorem queue_elapse (n : Nat) (s : Sender α) : (s.elapse n).queue = s.queue.drop n := by
  induction n generalizing s with
  | zero => rfl
  | succ n ih =>
      refine (ih s.drain).trans ?_
      rw [queue_drain, List.drop_tail]

theorem sent_of_queue {s : Sender α} (h : s.queue = []) : s.sent = s.all := by
  rw [all, h, List.append_nil]

end Sender

/-- How many items fit, and what becomes of the queue when one does not. -/
structure Device (α : Type) where
  depth : Nat
  spill : List α → α → List α

namespace Device

variable (d : Device α)

def HasRoom (s : Sender α) : Prop := s.queue.length < d.depth

instance (s : Sender α) : Decidable (d.HasRoom s) := inferInstanceAs (Decidable (_ < _))

def write (x : α) (s : Sender α) : Sender α :=
  { s with queue := if d.HasRoom s then s.queue ++ [x] else d.spill s.queue x }

variable {d}

theorem all_write {x : α} {s : Sender α} (h : d.HasRoom s) :
    (d.write x s).all = s.all ++ [x] := by
  simp [write, Sender.all, h]

/-- Waiting makes room, it takes none. -/
theorem HasRoom.elapse {s : Sender α} (h : d.HasRoom s) (n : Nat) : d.HasRoom (s.elapse n) := by
  unfold HasRoom at h ⊢
  rw [s.queue_elapse, List.length_drop]
  omega

end Device

/-! ### The writer -/

/-- A writer with its device. -/
structure Writer (α : Type) where
  sender : Sender α
  /-- Room has been seen. -/
  ready : Bool
  left : List α

/-- One access: it looks for room first. -/
def polled (d : Device α) (w : Writer α) (n : Nat) : Writer α :=
  let s := w.sender.elapse n
  match w.left with
  | [] => { w with sender := s }
  | x :: left =>
      if w.ready then ⟨d.write x s, false, left⟩
      else ⟨s, decide (d.HasRoom s), x :: left⟩

section Polled

variable {d : Device α} {w : Writer α}

/-- What was seen is still true. -/
def Writer.Honest (d : Device α) (w : Writer α) : Prop := w.ready = true → d.HasRoom w.sender

theorem polled_honest (h : w.Honest d) (n : Nat) : (polled d w n).Honest d := by
  intro hready
  unfold polled at hready ⊢
  cases hleft : w.left with
  | nil =>
      simp only [hleft] at hready ⊢
      exact (h hready).elapse n
  | cons x left =>
      simp only [hleft] at hready ⊢
      split_ifs at hready ⊢
      exact of_decide_eq_true hready

/-- One access moves an item from what is left to what was accepted, or none. -/
theorem polled_all (h : w.Honest d) (n : Nat) :
    (polled d w n).sender.all ++ (polled d w n).left = w.sender.all ++ w.left := by
  unfold polled
  cases hleft : w.left with
  | nil => simp
  | cons x left =>
      dsimp only
      split_ifs with hready
      · have hroom := (h hready).elapse n
        simp [Device.all_write hroom]
      · simp

/-- So at every moment of a run. -/
theorem run_polled_all (h : w.Honest d) (ns : List Nat) :
    (run (polled d) w ns).Honest d ∧
      (run (polled d) w ns).sender.all ++ (run (polled d) w ns).left = w.sender.all ++ w.left :=
  Runs.run_invariant
    (I := fun w' : Writer α => w'.Honest d ∧ w'.sender.all ++ w'.left = w.sender.all ++ w.left)
    (fun _ n h' => ⟨polled_honest h'.1 n, (polled_all h'.1 n).trans h'.2⟩) ⟨h, rfl⟩

/-- Nothing is left to write and nothing is held back. -/
def Writer.Done (w : Writer α) : Prop := w.left = [] ∧ w.sender.queue = []

/-- Each item has an access to look for room, one to be written and one to go out. -/
def variant (w : Writer α) : Nat :=
  2 * (2 * w.left.length + w.sender.queue.length) + if w.ready then 0 else 1

theorem done_polled (h : w.Done) (n : Nat) : (polled d w n).Done := by
  obtain ⟨hleft, hqueue⟩ := h
  unfold polled
  simp only [hleft]
  refine ⟨rfl, ?_⟩
  rw [w.sender.queue_elapse, hqueue, List.drop_nil]

/-- What one access does to the variant. -/
theorem variant_polled (h : w.Honest d) (n : Nat) :
    variant (polled d w n) + 2 * (w.sender.queue.length - (w.sender.queue.length - n)) +
      (if w.left ≠ [] ∧ d.HasRoom (w.sender.elapse n) then 1 else 0) ≤ variant w := by
  unfold polled variant
  cases hleft : w.left with
  | nil =>
      simp only [Sender.queue_elapse, List.length_drop]
      simp
      omega
  | cons x left =>
      dsimp only
      by_cases hready : w.ready = true
      · have hroom := (h hready).elapse n
        simp [hready, hroom, Device.write, Sender.queue_elapse]
        omega
      · by_cases hroom : d.HasRoom (w.sender.elapse n)
        · simp [hready, hroom, Sender.queue_elapse]
          omega
        · simp [hready, hroom, Sender.queue_elapse]
          omega

/-- If the device sends again and again, in the end everything is out, in order. -/
theorem polled_done (hdepth : 0 < d.depth) (h : w.Honest d) {schedule : Nat → Nat}
    (hfair : ∀ n, ∃ k, n ≤ k ∧ 0 < schedule k) :
    ∃ n, ∀ k, n ≤ k → (run (polled d) w ((List.range k).map schedule)).left = [] ∧
      (run (polled d) w ((List.range k).map schedule)).sender.sent = w.sender.all ++ w.left := by
  set states := fun k => run (polled d) w ((List.range k).map schedule) with hstates
  have hnext : ∀ k, states (k + 1) = polled d (states k) (schedule k) := by
    intro k
    rw [hstates]
    dsimp only
    rw [List.range_succ, List.map_append]
    exact Runs.run_concat _ _ _
  have hhonest : ∀ k, (states k).Honest d := fun k => (run_polled_all h _).1
  obtain ⟨n, hdone⟩ := Runs.eventually_of_variant (x := states) (v := variant)
    (D := Writer.Done) (F := fun k => 0 < schedule k)
    (fun k => by
      have hle := variant_polled (hhonest k) (schedule k)
      rw [hnext]
      omega)
    (fun k hD => by
      rw [hnext]
      exact done_polled hD _)
    (fun k hF hD => by
      have hle := variant_polled (hhonest k) (schedule k)
      rw [hnext]
      by_cases hqueue : (states k).sender.queue = []
      · have hleft : (states k).left ≠ [] := fun hleft => hD ⟨hleft, hqueue⟩
        have hroom : d.HasRoom ((states k).sender.elapse (schedule k)) := by
          rw [Device.HasRoom, Sender.queue_elapse, hqueue, List.drop_nil]
          exact hdepth
        rw [if_pos ⟨hleft, hroom⟩] at hle
        omega
      · have hpos := List.length_pos_iff.mpr hqueue
        omega) hfair
  refine ⟨n, fun k hk => ?_⟩
  obtain ⟨hleft, hqueue⟩ := hdone k hk
  have hall := (run_polled_all h ((List.range k).map schedule)).2
  refine ⟨hleft, ?_⟩
  rw [show (states k).left = [] from hleft, List.append_nil] at hall
  rw [Sender.sent_of_queue hqueue]
  exact hall

end Polled

end HolyRust.PolledSender
