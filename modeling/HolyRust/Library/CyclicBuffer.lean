import Mathlib.Data.Nat.Basic

/-!
Cyclic buffers: a bounded queue in an array with a write and a read index.

* `Fifo` — a queue with its history: what it accepted, how much of that it has
  released, and a bound on what waits in between.
* `Represents` — the array and its two indices hold what waits.
* `Represents.empty_iff`, `full_iff`, `front` — what the indices tell.
* `Represents.push`, `Represents.release` — one store of each side.
-/

namespace HolyRust.CyclicBuffer

/-- What was accepted, oldest first, and how many of it were released. One slot
of the `cap` stays free, so that a full buffer differs from an empty one. -/
structure Fifo (α : Type) (cap : Nat) where
  accepted : List α
  released : Nat
  released_le : released ≤ accepted.length
  bounded : accepted.length < released + cap

namespace Fifo

variable {α : Type} {cap : Nat}

/-- How many accepted elements have not been released. -/
def waiting (q : Fifo α cap) : Nat := q.accepted.length - q.released

def push (q : Fifo α cap) (a : α) (h : q.waiting + 1 < cap) : Fifo α cap where
  accepted := q.accepted ++ [a]
  released := q.released
  released_le := by simp [Nat.le_succ_of_le q.released_le]
  bounded := by
    have := q.released_le
    simp only [waiting] at h
    simp only [List.length_append, List.length_singleton]
    omega

def release (q : Fifo α cap) (h : 0 < q.waiting) : Fifo α cap where
  accepted := q.accepted
  released := q.released + 1
  released_le := Nat.lt_of_sub_pos h
  bounded := Nat.lt_of_lt_of_le q.bounded (by omega)

/-- Nothing accepted yet. -/
def empty (hcap : 0 < cap) : Fifo α cap := ⟨[], 0, Nat.le_refl 0, by simpa using hcap⟩

end Fifo

/-- Two positions less than a lap apart share a slot only if they are one. -/
theorem mod_eq_mod_iff {m n cap : Nat} (hle : m ≤ n) (hlap : n < m + cap) :
    m % cap = n % cap ↔ m = n := by
  constructor
  · intro h
    have hzero := Nat.sub_mod_eq_zero_of_mod_eq h.symm
    rw [Nat.mod_eq_of_lt (by omega)] at hzero
    omega
  · exact fun h => by rw [h]

variable {α : Type} {cap : Nat}

/-- The slots from the read index to the write index hold what waits. -/
structure Represents (buf : Vector α cap) (head tail : Nat) (q : Fifo α cap) : Prop where
  head_eq : head = q.accepted.length % cap
  tail_eq : tail = q.released % cap
  slots : ∀ k, q.released ≤ k → k < q.accepted.length → buf[k % cap]? = q.accepted[k]?

namespace Represents

variable {buf : Vector α cap} {head tail : Nat} {q : Fifo α cap}

theorem cap_pos (q : Fifo α cap) : 0 < cap := by
  have := q.released_le
  have := q.bounded
  omega

theorem head_lt (h : Represents buf head tail q) : head < cap :=
  h.head_eq ▸ Nat.mod_lt _ (cap_pos q)

theorem tail_lt (h : Represents buf head tail q) : tail < cap :=
  h.tail_eq ▸ Nat.mod_lt _ (cap_pos q)

theorem initial (hcap : 0 < cap) (buf : Vector α cap) :
    Represents buf 0 0 (Fifo.empty hcap) where
  head_eq := (Nat.zero_mod cap).symm
  tail_eq := (Nat.zero_mod cap).symm
  slots k _ hk := absurd hk (Nat.not_lt_zero k)

/-- Equal indices mean that nothing waits. -/
theorem empty_iff (h : Represents buf head tail q) : tail = head ↔ q.waiting = 0 := by
  have hle := q.released_le
  rw [h.head_eq, h.tail_eq, mod_eq_mod_iff hle q.bounded, Fifo.waiting]
  omega

/-- A write index just behind the read index means that all but one slot wait. -/
theorem full_iff (h : Represents buf head tail q) :
    (head + 1) % cap = tail ↔ q.waiting + 1 = cap := by
  have hle := q.released_le
  have hlt := q.bounded
  rw [h.head_eq, h.tail_eq, Nat.mod_add_mod, Fifo.waiting]
  by_cases hlap : q.accepted.length + 1 = q.released + cap
  · rw [hlap, Nat.add_mod_right]
    exact iff_of_true rfl (by omega)
  · rw [eq_comm, mod_eq_mod_iff (by omega) (by omega)]
    constructor <;> intro heq <;> omega

/-- The read index points at the oldest waiting element. -/
theorem front (h : Represents buf head tail q) (hwait : 0 < q.waiting) :
    buf[tail]? = q.accepted[q.released]? := by
  rw [h.tail_eq]
  exact h.slots q.released (Nat.le_refl _) (Nat.lt_of_sub_pos hwait)

/-- The producer's stores: the element into the free slot, then the index. -/
theorem push (h : Represents buf head tail q) (a : α) (hroom : q.waiting + 1 < cap) :
    Represents (buf.set head a h.head_lt) ((head + 1) % cap) tail (q.push a hroom) where
  head_eq := by
    rw [h.head_eq, Nat.mod_add_mod, Fifo.push, List.length_append, List.length_singleton]
  tail_eq := h.tail_eq
  slots k hk hlt := by
    have hlt : k < q.accepted.length + 1 := by simpa [Fifo.push] using hlt
    have hk : q.released ≤ k := hk
    have hmod : k % cap < cap := Nat.mod_lt _ (cap_pos q)
    have hbound := q.bounded
    by_cases hlast : k = q.accepted.length
    · subst hlast
      simp [Fifo.push, h.head_eq, hmod]
    · -- an older element sits less than a lap behind the new one
      have hne : head ≠ k % cap := by
        rw [h.head_eq]
        intro heq
        exact hlast ((mod_eq_mod_iff (by omega) (by omega)).mp heq.symm)
      rw [Vector.getElem?_set_ne h.head_lt hne, h.slots k hk (by omega), Fifo.push,
        List.getElem?_append_left (by omega)]

/-- The consumer's store of the index. -/
theorem release (h : Represents buf head tail q) (hwait : 0 < q.waiting) :
    Represents buf head ((tail + 1) % cap) (q.release hwait) where
  head_eq := h.head_eq
  tail_eq := by rw [h.tail_eq, Nat.mod_add_mod]; rfl
  slots k hk hlt := h.slots k (Nat.le_of_succ_le hk) hlt

end Represents

end HolyRust.CyclicBuffer
