import HolyRust.Library.PolledSender
import HolyRust.Words

/-!
Transmission on ARM (`init`, `put_byte` and `write_str` in `drivers/uart.rs`).

The machine of the REPL puts its text on a console. Here is what becomes of it:
`put_byte` waits for TXE and writes the data register. A `Moment` is one access to a
register with what the UART did before it; the moments come in any order.

* `console_on_wire` — nothing is lost, doubled or reordered, and once `init` has run
  everything is sent if the line does not stand still.
-/

namespace HolyRust.Uart

open PolledSender (Sender Device Writer)

/-! ### USART1 -/

/-- `SR_TXE`. -/
def srTxe : Word := 1#32 <<< 7

/-- `CR1_UE`, `CR1_TE` and `CR1_RE`. -/
def cr1Ue : Word := 1#32 <<< 13
def cr1Te : Word := 1#32 <<< 3
def cr1Re : Word := 1#32 <<< 2

structure Usart where
  cr1 : Word
  /-- The data register and what has left it. -/
  sender : Sender Byte

/-- What the UART did before an access: how many bytes it had time to send, and what the
other bits of the status register are. -/
structure Moment where
  bytes : Nat
  status : Word

/-- The data register holds one byte; a byte written over it replaces it. -/
def dataRegister : Device Byte := ⟨1, fun _ b => [b]⟩

namespace Usart

/-- It sends once UE and TE are set. -/
def enabled (u : Usart) : Bool := (u.cr1 &&& cr1Ue != 0#32) && (u.cr1 &&& cr1Te != 0#32)

/-- How many bytes it sends in the time. -/
def sends (u : Usart) (m : Moment) : Nat := if u.enabled then m.bytes else 0

def elapse (m : Moment) (u : Usart) : Usart := { u with sender := u.sender.elapse (u.sends m) }

/-- Reading SR: TXE is set while the data register is empty. -/
def sr (m : Moment) (u : Usart) : Word :=
  if dataRegister.HasRoom u.sender then m.status ||| srTxe else m.status &&& ~~~srTxe

/-- Writing DR. -/
def writeDr (value : Word) (u : Usart) : Usart :=
  { u with sender := dataRegister.write (value.setWidth 8) u.sender }

/-- Enable UE | TE | RE. -/
def init (u : Usart) : Usart := { u with cr1 := u.cr1 ||| cr1Ue ||| cr1Te ||| cr1Re }

end Usart

/-- `write_str` on ARM: the bytes that are left, and whether the loop of `put_byte` has
seen TXE for the first of them. -/
structure WriteStr where
  usart : Usart
  seen : Bool
  left : List Byte

/-- One access: a read of SR, or behind one that had TXE the write of DR. -/
def WriteStr.step (w : WriteStr) (m : Moment) : WriteStr :=
  let u := w.usart.elapse m
  match w.left with
  | [] => { w with usart := u }
  | byte :: left =>
      if w.seen then ⟨u.writeDr (byte.setWidth 32), false, left⟩
      else ⟨u, u.sr m &&& srTxe != 0#32, byte :: left⟩

section Transmission

variable {u : Usart} {text : List Byte}

/-- After `init` the transmitter sends, whatever CR1 held. -/
theorem enabled_init (u : Usart) : u.init.enabled = true := by
  have hbit (cr1 : Word) {i : Nat} (hi : i = 13 ∨ i = 3) :
      ((cr1 ||| cr1Ue ||| cr1Te ||| cr1Re) &&& 1#32 <<< i) ≠ 0#32 := by
    intro h
    have hget := congrArg (·.getLsbD i) h
    rcases hi with rfl | rfl <;> simp [cr1Ue, cr1Te, cr1Re] at hget
  unfold Usart.enabled Usart.init
  rw [Bool.and_eq_true, bne_iff_ne, bne_iff_ne]
  exact ⟨hbit u.cr1 (.inl rfl), hbit u.cr1 (.inr rfl)⟩

/-- The test of the loop. -/
theorem sr_txe (u : Usart) (m : Moment) :
    (u.sr m &&& srTxe != 0#32) = decide (dataRegister.HasRoom u.sender) := by
  have hset : ((m.status ||| srTxe) &&& srTxe) ≠ 0#32 := by
    intro h
    have hget := congrArg (·.getLsbD 7) h
    simp [srTxe] at hget
  have hclear : (m.status &&& ~~~srTxe) &&& srTxe = 0#32 := by
    rw [BitVec.and_assoc, BitVec.and_comm (~~~srTxe), BitVec.and_not_self]
    exact BitVec.and_zero
  unfold Usart.sr
  by_cases hroom : dataRegister.HasRoom u.sender
  · simp [hroom, hset]
  · simp [hroom, hclear]

/-- `write_str` as a writer that looks for room. -/
def WriteStr.writer (w : WriteStr) : Writer Byte := ⟨w.usart.sender, w.seen, w.left⟩

theorem writer_step (w : WriteStr) (m : Moment) :
    (w.step m).writer = PolledSender.polled dataRegister w.writer (w.usart.sends m) := by
  unfold WriteStr.step PolledSender.polled WriteStr.writer
  cases w.left with
  | nil => rfl
  | cons byte left =>
      dsimp only
      split_ifs
      · simp [Usart.writeDr, Usart.elapse]
      · simp [sr_txe, Usart.elapse]

theorem cr1_step (w : WriteStr) (m : Moment) : (w.step m).usart.cr1 = w.usart.cr1 := by
  unfold WriteStr.step
  cases w.left with
  | nil => rfl
  | cons byte left =>
      dsimp only
      split_ifs <;> rfl

/-- `write_str` leaves CR1 alone, so the UART sends throughout or not at all. -/
theorem writer_run : ∀ (ms : List Moment) (w : WriteStr),
    (Runs.run WriteStr.step w ms).writer =
      Runs.run (PolledSender.polled dataRegister) w.writer (ms.map w.usart.sends) := by
  intro ms
  induction ms with
  | nil => exact fun w => rfl
  | cons m ms ih =>
      intro w
      have hsends : (w.step m).usart.sends = w.usart.sends := by
        funext m'
        unfold Usart.sends Usart.enabled
        rw [cr1_step]
      rw [Runs.run_cons, ih, writer_step, hsends, List.map_cons, Runs.run_cons]

/-- The run of `write_str` over the first moments of a schedule. -/
def writing (u : Usart) (text : List Byte) (schedule : Nat → Moment) (k : Nat) : WriteStr :=
  Runs.run WriteStr.step ⟨u, false, text⟩ ((List.range k).map schedule)

/-- The line is free again and again. -/
def Flows (schedule : Nat → Moment) : Prop := ∀ n, ∃ k, n ≤ k ∧ 0 < (schedule k).bytes

/-- In the end the text is out, behind what was there before. -/
def Arrives (u : Usart) (text : List Byte) : Prop :=
  ∀ schedule, Flows schedule → ∃ n, ∀ k, n ≤ k →
    (writing u text schedule k).left = [] ∧
      (writing u text schedule k).usart.sender.sent = u.sender.all ++ text

/-- Nothing is lost, doubled or reordered at any moment, and DR is written only while
it is empty. -/
def InOrder (u : Usart) (text : List Byte) (w : WriteStr) : Prop :=
  w.usart.sender.all ++ w.left = u.sender.all ++ text ∧
    (w.seen = true → dataRegister.HasRoom w.usart.sender)

theorem run_inOrder (u : Usart) (text : List Byte) (ms : List Moment) :
    InOrder u text (Runs.run WriteStr.step ⟨u, false, text⟩ ms) := by
  have hhonest : (WriteStr.writer ⟨u, false, text⟩).Honest dataRegister := nofun
  have hrun := PolledSender.run_polled_all hhonest (ms.map u.sends)
  rw [← show _ = Runs.run _ _ (ms.map u.sends) from writer_run ms ⟨u, false, text⟩] at hrun
  exact ⟨hrun.2, hrun.1⟩

/-- While UE or TE is clear nothing is sent. -/
theorem sent_of_disabled (hu : u.enabled = false) (text : List Byte) (ms : List Moment) :
    (Runs.run WriteStr.step ⟨u, false, text⟩ ms).usart.sender.sent = u.sender.sent := by
  refine (Runs.run_invariant (I := fun w : WriteStr =>
    w.usart.cr1 = u.cr1 ∧ w.usart.sender.sent = u.sender.sent) ?_ ⟨rfl, rfl⟩).2
  rintro w m ⟨hcr1, hsent⟩
  refine ⟨(cr1_step w m).trans hcr1, ?_⟩
  have hstill : w.usart.elapse m = w.usart := by
    have hdisabled : w.usart.enabled = false := by rw [Usart.enabled, hcr1]; exact hu
    rw [Usart.elapse, Usart.sends, hdisabled]
    rfl
  unfold WriteStr.step
  rw [hstill]
  cases w.left with
  | nil => exact hsent
  | cons byte left =>
      dsimp only
      split_ifs <;> exact hsent

theorem writer_writing (u : Usart) (text : List Byte) (schedule : Nat → Moment) (k : Nat) :
    (writing u text schedule k).writer =
      Runs.run (PolledSender.polled dataRegister) ⟨u.sender, false, text⟩
        ((List.range k).map fun i => u.sends (schedule i)) := by
  rw [writing, writer_run, List.map_map]
  rfl

theorem arrives_of_enabled (hu : u.enabled = true) (text : List Byte) : Arrives u text := by
  intro schedule hflows
  have hfair : ∀ n, ∃ k, n ≤ k ∧ 0 < u.sends (schedule k) := by
    intro n
    obtain ⟨k, hk, hpos⟩ := hflows n
    exact ⟨k, hk, by rw [Usart.sends, if_pos hu]; exact hpos⟩
  obtain ⟨n, hdone⟩ := PolledSender.polled_done (d := dataRegister)
    (w := ⟨u.sender, false, text⟩) Nat.one_pos nofun hfair
  refine ⟨n, fun k hk => ?_⟩
  have hk := hdone k hk
  rw [← writer_writing] at hk
  exact hk

theorem arrives_of_nothing (hnothing : u.sender.queue ++ text = []) : Arrives u text := by
  obtain ⟨hqueue, rfl⟩ := List.append_eq_nil_iff.mp hnothing
  refine fun schedule _ => ⟨0, fun k _ => ?_⟩
  have hdone : (writing u [] schedule k).writer.Done := by
    rw [writer_writing]
    exact Runs.run_invariant (I := Writer.Done) (fun _ n h => PolledSender.done_polled h n)
      ⟨rfl, hqueue⟩
  obtain ⟨hleft, hnone⟩ := hdone
  have hall := (run_inOrder u [] ((List.range k).map schedule)).1
  rw [show Runs.run WriteStr.step ⟨u, false, []⟩ _ = writing u [] schedule k from rfl,
    show (writing u [] schedule k).left = [] from hleft, List.append_nil] at hall
  exact ⟨hleft, (PolledSender.Sender.sent_of_queue hnone).trans hall⟩

/-- The text arrives exactly if the transmitter is enabled or there is nothing to send. -/
theorem arrives_iff (u : Usart) (text : List Byte) :
    Arrives u text ↔ u.enabled = true ∨ u.sender.queue ++ text = [] := by
  constructor
  · intro h
    by_contra hnot
    obtain ⟨hdisabled, hsome⟩ := not_or.mp hnot
    obtain ⟨n, hall⟩ := h (fun _ => ⟨1, 0⟩) fun n => ⟨n, Nat.le_refl n, Nat.one_pos⟩
    have hsent := (hall n (Nat.le_refl n)).2
    rw [writing, sent_of_disabled (Bool.eq_false_iff.mpr hdisabled), PolledSender.Sender.all,
      List.append_assoc] at hsent
    exact hsome (List.append_cancel_left (hsent.symm.trans (List.append_nil _).symm))
  · rintro (henabled | hnothing)
    · exact arrives_of_enabled henabled text
    · exact arrives_of_nothing hnothing

/-- `write_str` on ARM. Nothing is lost, doubled or reordered at any moment; on a line
that does not stand still everything arrives exactly if the transmitter is enabled or
there is nothing to send; so everything does behind `init`. -/
theorem console_on_wire (u : Usart) (text : List Byte) :
    (∀ ms, InOrder u text (Runs.run WriteStr.step ⟨u, false, text⟩ ms)) ∧
      (Arrives u text ↔ u.enabled = true ∨ u.sender.queue ++ text = []) ∧
        Arrives u.init text :=
  ⟨run_inOrder u text, arrives_iff u text, (arrives_iff u.init text).mpr (.inl (enabled_init u))⟩

end Transmission

end HolyRust.Uart
