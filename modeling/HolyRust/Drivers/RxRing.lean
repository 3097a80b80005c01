import HolyRust.Library.CyclicBuffer
import HolyRust.Words

/-!
The UART receive ring (`drivers/uart.rs`) under preemption.

On one core the interrupt handler runs to completion between two loads or
stores of `ring_pop`, so a run is a list of events: one load or store of
`ring_pop`, or one call of `irq_handler`.

* `Holds` — the ring holds a bounded queue, and what `ring_pop` has in its
  registers is still true of it;
* `step_holds` — every event keeps that;
* `rxRing_fifo` — what every run returns is a prefix of what it accepted, and a
  byte is dropped exactly when 255 accepted ones are unreleased.
-/

namespace HolyRust.Uart

open CyclicBuffer (Fifo Represents)

/-- RX ring capacity in bytes. -/
abbrev ringSize : Nat := 256

structure RxRing where
  buf : Vector Byte ringSize
  /-- Write index (producer). -/
  head : Nat
  /-- Read index (consumer). -/
  tail : Nat

/-- `RX_RING` as declared. -/
def RxRing.new : RxRing := ⟨Vector.replicate ringSize 0, 0, 0⟩

/-- `next != tail`: the ring is not full. -/
def RxRing.hasRoom (ring : RxRing) : Bool := (ring.head + 1) % ringSize != ring.tail

/-- UART receive interrupt handler, given what `poll_get_byte` answered; `none`
is the bounds-check panic of the store. -/
def irqHandler (ring : RxRing) : Option Byte → Option RxRing
  | none => some ring
  | some byte =>
      if ring.hasRoom then
        if h : ring.head < ringSize then
          some { ring with
            buf := ring.buf.set ring.head byte h
            head := (ring.head + 1) % ringSize }
        else none
      -- ring full: byte dropped
      else some ring

/-- Pop one byte from the ring, if any, without an interrupt on the way. -/
def ringPop (ring : RxRing) : Option (Option Byte × RxRing) :=
  if ring.tail = ring.head then some (none, ring)
  else
    ring.buf[ring.tail]?.map fun byte =>
      (some byte, { ring with tail := (ring.tail + 1) % ringSize })

/-! ### `ring_pop`, one access at a time -/

/-- Where a call of `ring_pop` is, and what it has loaded. -/
inductive Pop where
  | idle
  | tailLoaded (tail : Nat)
  | nonempty
  | indexLoaded (tail : Nat)
  | byteLoaded (byte : Byte)
  | advancing (byte : Byte) (tail : Nat)
deriving DecidableEq

/-- What one access leaves: the ring, the rest of the call, and the answer if the
call is over. -/
structure PopStep where
  ring : RxRing
  pop : Pop
  answer : Option (Option Byte)

/-- The next load or store of `ring_pop`; `none` is the bounds-check panic. -/
def popStep (ring : RxRing) : Pop → Option PopStep
  | .idle => some ⟨ring, .tailLoaded ring.tail, none⟩
  | .tailLoaded tail =>
      if tail = ring.head then some ⟨ring, .idle, some none⟩ else some ⟨ring, .nonempty, none⟩
  | .nonempty => some ⟨ring, .indexLoaded ring.tail, none⟩
  | .indexLoaded tail => ring.buf[tail]?.map fun byte => ⟨ring, .byteLoaded byte, none⟩
  | .byteLoaded byte => some ⟨ring, .advancing byte ring.tail, none⟩
  | .advancing byte tail =>
      some ⟨{ ring with tail := (tail + 1) % ringSize }, .idle, some (some byte)⟩

/-- The accesses of a call left to itself, at most `n` of them. -/
def popAlone : Nat → RxRing → Pop → Option (Option Byte × RxRing)
  | 0, _, _ => none
  | n + 1, ring, pop =>
      (popStep ring pop).bind fun s =>
        match s.answer with
        | some answer => some (answer, s.ring)
        | none => popAlone n s.ring s.pop

/-- Left to itself a call does what `ring_pop` does. -/
theorem popAlone_eq_ringPop (ring : RxRing) : popAlone 6 ring .idle = ringPop ring := by
  by_cases hempty : ring.tail = ring.head
  · simp [popAlone, popStep, ringPop, hempty]
  · cases hbyte : ring.buf[ring.tail]? <;>
      simp [popAlone, popStep, ringPop, hempty, hbyte]

/-! ### Runs -/

/-- The ring, the consumer's call, and the bytes that went in and came out. -/
structure Console where
  ring : RxRing
  pop : Pop
  accepted : List Byte
  returned : List Byte

def Console.start : Console := ⟨.new, .idle, [], []⟩

/-- One access of `ring_pop`, or one interrupt. -/
inductive RxEvent where
  | access
  | irq (received : Option Byte)

def Console.step (s : Console) : RxEvent → Option Console
  | .access => (popStep s.ring s.pop).map fun out =>
      { s with
        ring := out.ring
        pop := out.pop
        returned := s.returned ++ out.answer.join.toList }
  | .irq received => (irqHandler s.ring received).map fun ring =>
      { s with
        ring := ring
        accepted := s.accepted ++ if s.ring.hasRoom then received.toList else [] }

/-- What `ring_pop` has loaded still holds: the consumer alone moves the read
index, and the slot it points at is not written while a byte waits there. -/
def Loaded (tail : Nat) (q : Fifo Byte ringSize) : Pop → Prop
  | .idle => True
  | .tailLoaded t => t = tail
  | .nonempty => 0 < q.waiting
  | .indexLoaded t => 0 < q.waiting ∧ t = tail
  | .byteLoaded byte => 0 < q.waiting ∧ q.accepted[q.released]? = some byte
  | .advancing byte t => 0 < q.waiting ∧ q.accepted[q.released]? = some byte ∧ t = tail

/-- The ring holds the queue, and the bytes returned are the released ones. -/
structure Holds (s : Console) (q : Fifo Byte ringSize) : Prop where
  ring : Represents s.ring.buf s.ring.head s.ring.tail q
  loaded : Loaded s.ring.tail q s.pop
  accepted : s.accepted = q.accepted
  returned : s.returned = q.accepted.take q.released

theorem holds_start : Holds .start (Fifo.empty (by decide)) where
  ring := .initial (by decide) _
  loaded := trivial
  accepted := rfl
  returned := rfl

theorem Holds.hasRoom_iff {s : Console} {q : Fifo Byte ringSize} (h : Holds s q) :
    s.ring.hasRoom = true ↔ q.waiting + 1 < ringSize := by
  have hle : q.waiting + 1 ≤ ringSize := by
    have := q.bounded
    have := q.released_le
    simp only [Fifo.waiting]
    omega
  rw [RxRing.hasRoom, bne_iff_ne, ne_eq, h.ring.full_iff]
  omega

theorem Holds.length_returned {s : Console} {q : Fifo Byte ringSize} (h : Holds s q) :
    s.returned.length = q.released := by
  rw [h.returned, List.length_take, Nat.min_eq_left q.released_le]

/-- An arriving byte does not disturb what the consumer has loaded. -/
theorem Loaded.push {tail : Nat} {q : Fifo Byte ringSize} {pop : Pop} (h : Loaded tail q pop)
    (byte : Byte) (hroom : q.waiting + 1 < ringSize) : Loaded tail (q.push byte hroom) pop := by
  have hwait : 0 < q.waiting → 0 < (q.push byte hroom).waiting := by
    intro hpos
    simp only [Fifo.waiting, Fifo.push, List.length_append, List.length_singleton] at hpos ⊢
    omega
  have hfront : ∀ b, q.accepted[q.released]? = some b →
      (q.push byte hroom).accepted[(q.push byte hroom).released]? = some b := by
    intro b hb
    obtain ⟨hlt, _⟩ := List.getElem?_eq_some_iff.mp hb
    rw [← hb]
    exact List.getElem?_append_left hlt
  cases pop with
  | idle => trivial
  | tailLoaded t => exact h
  | nonempty => exact hwait h
  | indexLoaded t => exact ⟨hwait h.1, h.2⟩
  | byteLoaded b => exact ⟨hwait h.1, hfront b h.2⟩
  | advancing b t => exact ⟨hwait h.1, hfront b h.2.1, h.2.2⟩

theorem Holds.irq {s : Console} {q : Fifo Byte ringSize} (h : Holds s q) (byte : Byte) :
    (s.ring.hasRoom = false ∧ s.step (.irq (some byte)) = some s) ∨
      ∃ hroom : q.waiting + 1 < ringSize, ∃ s', s.step (.irq (some byte)) = some s' ∧
        s'.accepted = s.accepted ++ [byte] ∧ Holds s' (q.push byte hroom) := by
  cases hroom : s.ring.hasRoom with
  | false =>
      refine .inl ⟨rfl, ?_⟩
      simp [Console.step, irqHandler, hroom]
  | true =>
      have hlt := h.hasRoom_iff.mp hroom
      let ring : RxRing := { s.ring with
        buf := s.ring.buf.set s.ring.head byte h.ring.head_lt
        head := (s.ring.head + 1) % ringSize }
      refine .inr ⟨hlt, { s with ring := ring, accepted := s.accepted ++ [byte] }, ?_, rfl, ?_⟩
      · simp [Console.step, irqHandler, hroom, h.ring.head_lt, ring]
      · exact {
          ring := h.ring.push byte hlt
          loaded := h.loaded.push byte hlt
          accepted := by rw [h.accepted]; rfl
          returned := by
            rw [h.returned]
            exact (List.take_append_of_le_length q.released_le).symm }

/-- One access of `ring_pop` loads what the queue says, or releases its oldest
byte and returns it. -/
theorem Holds.access {s : Console} {q : Fifo Byte ringSize} (h : Holds s q) :
    ∃ s' q', s.step .access = some s' ∧ Holds s' q' := by
  obtain ⟨ring, pop, accepted, returned⟩ := s
  have hloaded := h.loaded
  cases pop with
  | idle =>
      exact ⟨_, q, rfl, ⟨h.ring, rfl, h.accepted, by simpa using h.returned⟩⟩
  | tailLoaded t =>
      obtain rfl : t = ring.tail := hloaded
      by_cases hempty : ring.tail = ring.head
      · exact ⟨⟨ring, .idle, accepted, returned⟩, q, by simp [Console.step, popStep, hempty],
          ⟨h.ring, trivial, h.accepted, h.returned⟩⟩
      · have hwait : 0 < q.waiting := Nat.pos_of_ne_zero fun h0 =>
          hempty (h.ring.empty_iff.mpr h0)
        exact ⟨⟨ring, .nonempty, accepted, returned⟩, q, by simp [Console.step, popStep, hempty],
          ⟨h.ring, hwait, h.accepted, h.returned⟩⟩
  | nonempty =>
      exact ⟨⟨ring, .indexLoaded ring.tail, accepted, returned⟩, q,
        by simp [Console.step, popStep], ⟨h.ring, ⟨hloaded, rfl⟩, h.accepted, h.returned⟩⟩
  | indexLoaded t =>
      obtain ⟨hwait, rfl⟩ : 0 < q.waiting ∧ t = ring.tail := hloaded
      have hfront := h.ring.front hwait
      obtain ⟨byte, hbyte⟩ : ∃ byte, ring.buf[ring.tail]? = some byte :=
        ⟨_, Vector.getElem?_eq_getElem h.ring.tail_lt⟩
      exact ⟨⟨ring, .byteLoaded byte, accepted, returned⟩, q,
        by simp [Console.step, popStep, hbyte],
        ⟨h.ring, ⟨hwait, by rw [← hfront, hbyte]⟩, h.accepted, h.returned⟩⟩
  | byteLoaded byte =>
      exact ⟨⟨ring, .advancing byte ring.tail, accepted, returned⟩, q,
        by simp [Console.step, popStep], ⟨h.ring, ⟨hloaded.1, hloaded.2, rfl⟩, h.accepted,
          h.returned⟩⟩
  | advancing byte t =>
      obtain ⟨hwait, hbyte, rfl⟩ :
        0 < q.waiting ∧ q.accepted[q.released]? = some byte ∧ t = ring.tail := hloaded
      refine ⟨_, q.release hwait, rfl, ⟨h.ring.release hwait, trivial, h.accepted, ?_⟩⟩
      have hreturned : returned = q.accepted.take q.released := h.returned
      simp [hreturned, Fifo.release, List.take_add_one, hbyte]

/-- Every event keeps the ring in step with a queue. -/
theorem Holds.step {s : Console} {q : Fifo Byte ringSize} (h : Holds s q) (e : RxEvent) :
    ∃ s' q', s.step e = some s' ∧ Holds s' q' := by
  rcases e with _ | _ | byte
  · exact h.access
  · exact ⟨s, q, by simp [Console.step, irqHandler], h⟩
  · rcases h.irq byte with ⟨_, hstep⟩ | ⟨_, s', hstep, _, hs'⟩
    · exact ⟨s, q, hstep, h⟩
    · exact ⟨s', _, hstep, hs'⟩

theorem exists_holds (es : List RxEvent) :
    ∃ s q, es.foldlM Console.step .start = some s ∧ Holds s q := by
  suffices hrun : ∀ {s q}, Holds s q → ∃ s' q', es.foldlM Console.step s = some s' ∧ Holds s' q'
    from hrun holds_start
  induction es with
  | nil => exact fun {s q} h => ⟨s, q, rfl, h⟩
  | cons e es ih =>
      intro s q h
      obtain ⟨s₁, q₁, hstep, h₁⟩ := h.step e
      obtain ⟨s', q', hrun, h'⟩ := ih h₁
      refine ⟨s', q', ?_, h'⟩
      rw [List.foldlM_cons, hstep]
      exact hrun

/-- After every interleaving of `ring_pop`'s loads and stores with interrupts,
the indices are in bounds, the bytes returned are a prefix of the bytes accepted,
and the next byte is dropped exactly when 255 accepted bytes are unreleased. A
call that finds the ring empty has nothing accepted left to return. -/
theorem rxRing_fifo (es : List RxEvent) :
    ∃ s, es.foldlM Console.step .start = some s ∧
      s.ring.head < 256 ∧ s.ring.tail < 256 ∧ s.returned <+: s.accepted ∧
      (∀ byte, (s.accepted.length = s.returned.length + 255 ∧
          s.step (.irq (some byte)) = some s) ∨
        (s.accepted.length < s.returned.length + 255 ∧
          ∃ s', s.step (.irq (some byte)) = some s' ∧ s'.accepted = s.accepted ++ [byte])) ∧
      (s.pop = .tailLoaded s.ring.head → s.returned = s.accepted) := by
  obtain ⟨s, q, hrun, h⟩ := exists_holds es
  have hlen : s.accepted.length = s.returned.length + q.waiting := by
    rw [h.length_returned, h.accepted, Fifo.waiting, Nat.add_sub_cancel' q.released_le]
  refine ⟨s, hrun, h.ring.head_lt, h.ring.tail_lt, ?_, fun byte => ?_, fun hpop => ?_⟩
  · rw [h.returned, h.accepted]
    exact List.take_prefix _ _
  · rcases h.irq byte with ⟨hfull, hstep⟩ | ⟨hroom, s', hstep, haccepted, _⟩
    · have hnot : ¬ q.waiting + 1 < ringSize := fun hlt => by
        rw [h.hasRoom_iff.mpr hlt] at hfull
        cases hfull
      have hbound := q.bounded
      have hle := q.released_le
      refine .inl ⟨?_, hstep⟩
      rw [hlen]
      simp only [Fifo.waiting, ringSize] at hnot hbound ⊢
      omega
    · simp only [ringSize] at hroom
      exact .inr ⟨by omega, s', hstep, haccepted⟩
  · have hloaded := h.loaded
    rw [hpop] at hloaded
    have hwait : q.waiting = 0 := h.ring.empty_iff.mp (Eq.symm hloaded)
    rw [h.returned, h.accepted]
    refine List.take_of_length_le ?_
    exact Nat.sub_eq_zero_iff_le.mp hwait

end HolyRust.Uart
