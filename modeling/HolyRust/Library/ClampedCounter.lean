import Mathlib.Algebra.BigOperators.Group.List.Basic
import Mathlib.Algebra.Order.Group.Defs
import Mathlib.Algebra.Order.Monoid.Unbundled.MinMax
import Mathlib.Data.List.Infix

/-!
A counter that moves up and down and is lifted to a floor by each move, like the
depth of a stack on which popping too much stops at the bottom.

* `Move.apply`, `runMoves` — one move and a sequence of them.
* `runMoves_le_iff` — where the counter ends is the largest of: the start and all
  changes, or the floor of some move and the changes behind it.
* `stays_iff_blocksLe` — the counter never exceeds a bound, as a condition on the
  blocks of consecutive moves.
-/

namespace HolyRust.ClampedCounter

variable {α : Type} [AddCommGroup α] [LinearOrder α] [IsOrderedAddMonoid α]

/-- Add the change, but end no lower than the floor. -/
structure Move (α : Type) where
  change : α
  floor : α

def Move.apply (d : α) (m : Move α) : α := max (d + m.change) m.floor

def runMoves (d : α) (ms : List (Move α)) : α := ms.foldl Move.apply d

/-- All changes of a sequence. -/
def gain (ms : List (Move α)) : α := (ms.map Move.change).sum

omit [LinearOrder α] [IsOrderedAddMonoid α] in
@[simp] theorem gain_cons (m : Move α) (ms : List (Move α)) :
    gain (m :: ms) = m.change + gain ms := by
  simp [gain]

/-- The floor of every move and what follows it stay below `b`. -/
def SuffixesLe (b : α) (ms : List (Move α)) : Prop :=
  ∀ m post, (m :: post).IsSuffix ms → m.floor + gain post ≤ b

omit [IsOrderedAddMonoid α] in
theorem suffixesLe_cons {b : α} {m : Move α} {ms : List (Move α)} :
    SuffixesLe b (m :: ms) ↔ m.floor + gain ms ≤ b ∧ SuffixesLe b ms := by
  unfold SuffixesLe
  simp only [List.suffix_cons_iff, or_imp, forall_and, List.cons.injEq]
  simp

theorem runMoves_le_iff {b : α} {ms : List (Move α)} :
    ∀ {d : α}, runMoves d ms ≤ b ↔ d + gain ms ≤ b ∧ SuffixesLe b ms := by
  induction ms with
  | nil => intro d; simp [runMoves, gain, SuffixesLe]
  | cons m ms ih =>
      intro d
      have hstep : runMoves d (m :: ms) = runMoves (m.apply d) ms := rfl
      have hmax : Move.apply d m + gain ms ≤ b ↔
          d + gain (m :: ms) ≤ b ∧ m.floor + gain ms ≤ b := by
        rw [Move.apply, ← max_add_add_right, max_le_iff, gain_cons, add_assoc]
      rw [hstep, ih, hmax, suffixesLe_cons, and_assoc]

/-! ### Bounds on the way -/

/-- The counter is below `b` from the start to the end of the moves. -/
def Stays (b d : α) (ms : List (Move α)) : Prop :=
  ∀ q : List (Move α), q.IsPrefix ms → runMoves d q ≤ b

omit [IsOrderedAddMonoid α] in
theorem stays_nil {b d : α} : Stays b d [] ↔ d ≤ b := by
  simp [Stays, runMoves]

omit [IsOrderedAddMonoid α] in
theorem Stays.start {b d : α} {ms : List (Move α)} (h : Stays b d ms) : d ≤ b :=
  h [] List.nil_prefix

omit [IsOrderedAddMonoid α] in
theorem stays_cons {b d : α} {m : Move α} {ms : List (Move α)} :
    Stays b d (m :: ms) ↔ d ≤ b ∧ Stays b (m.apply d) ms := by
  unfold Stays
  constructor
  · intro hall
    exact ⟨Stays.start hall, fun q hq => hall (m :: q) (List.cons_prefix_cons.mpr ⟨rfl, hq⟩)⟩
  · rintro ⟨hd, hall⟩ q hq
    cases q with
    | nil => exact hd
    | cons m' q =>
        obtain ⟨rfl, hrest⟩ := List.cons_prefix_cons.mp hq
        exact hall q hrest

/-- In every block of consecutive moves the floor of the first and the changes of
the others stay below `b`. -/
def BlocksLe (b : α) (ms : List (Move α)) : Prop :=
  ∀ m mid, (m :: mid).IsInfix ms → m.floor + gain mid ≤ b

instance (b : α) (ms : List (Move α)) : Decidable (BlocksLe b ms) :=
  decidable_of_iff (∀ t ∈ ms.tails, ∀ q ∈ t.inits, ∀ m ∈ q.head?, m.floor + gain q.tail ≤ b) <| by
    unfold BlocksLe
    simp only [List.mem_tails, List.mem_inits]
    constructor
    · intro hall m mid hinfix
      obtain ⟨t, hprefix, hsuffix⟩ := List.infix_iff_prefix_suffix.mp hinfix
      exact hall t hsuffix (m :: mid) hprefix m rfl
    · intro hall t hsuffix q hprefix m hm
      rw [List.eq_cons_of_mem_head? hm] at hprefix
      exact hall m q.tail (List.infix_iff_prefix_suffix.mpr ⟨t, hprefix, hsuffix⟩)

/-- The counter stays below `b` exactly when the blocks do, if no single change leads
past the floor of its move. -/
theorem stays_iff_blocksLe {b d : α} {ms : List (Move α)} (hd : d ≤ b)
    (hstart : ∀ m ∈ ms, d + m.change ≤ m.floor) : Stays b d ms ↔ BlocksLe b ms := by
  constructor
  · intro hall m mid hinfix
    obtain ⟨q, hsuffix, hprefix⟩ := List.infix_iff_suffix_prefix.mp hinfix
    exact (runMoves_le_iff.mp (hall q hprefix)).2 m mid hsuffix
  · intro hblocks q hprefix
    refine runMoves_le_iff.mpr ⟨?_, fun m post hsuffix =>
      hblocks m post (hsuffix.isInfix.trans hprefix.isInfix)⟩
    cases q with
    | nil => simpa [gain] using hd
    | cons m mid =>
        have hmem : m ∈ ms := hprefix.subset List.mem_cons_self
        calc d + gain (m :: mid) = d + m.change + gain mid := by rw [gain_cons, add_assoc]
          _ ≤ m.floor + gain mid := add_le_add_left (hstart m hmem) _
          _ ≤ b := hblocks m mid hprefix.isInfix

end HolyRust.ClampedCounter
