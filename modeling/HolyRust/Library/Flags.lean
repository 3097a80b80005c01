import Mathlib.Data.List.Nodup

/-!
Flags taken by test-and-set and given back by a clear, shared by any number of
parties.

* `Store σ ι` — a store of flags named by ids, with the laws of its operations.
* `Shared` — the store and what each party holds; `step` is one call.
* `Sole` — a flag is set exactly while one party holds it, and is kept by every
  call except the release of an id the caller does not hold.
* `Sole.acquire_wins`, `Sole.available_tells`, `Sole.others_unchanged` — what a
  call answers in such a state, and that it leaves every other id alone.
-/

namespace HolyRust.Flags

/-- A store of flags. An id outside `tracked` has no flag. -/
structure Store (σ ι : Type) where
  tracked : ι → Prop
  isSet : σ → ι → Prop
  testAndSet : σ → ι → Bool × σ
  clear : σ → ι → σ
  test : σ → ι → Bool
  testAndSet_answer : ∀ s i, (testAndSet s i).1 = true ↔ tracked i ∧ ¬ isSet s i
  isSet_testAndSet : ∀ s i j, isSet (testAndSet s i).2 j ↔ isSet s j ∨ j = i ∧ tracked i
  isSet_clear : ∀ s i j, isSet (clear s i) j ↔ isSet s j ∧ j ≠ i
  test_answer : ∀ s i, tracked i → (test s i = true ↔ ¬ isSet s i)

variable {σ ι π : Type}

/-- The calls of one party. -/
inductive Call (ι : Type) where
  | acquire (id : ι)
  | release (id : ι)
  | available (id : ι)
deriving DecidableEq, Repr

/-- The id a call names. -/
def Call.id : Call ι → ι
  | .acquire id | .release id | .available id => id

/-- The store, and every id a party was given and has not released. -/
structure Shared (σ ι π : Type) where
  store : σ
  holding : List (π × ι)

namespace Shared

variable (F : Store σ ι)

/-- The party holds the id. -/
def Holds (s : Shared σ ι π) (p : π) (id : ι) : Prop := (p, id) ∈ s.holding

/-- Nobody holds the id. -/
def Unheld (s : Shared σ ι π) (id : ι) : Prop := ∀ p, ¬ s.Holds p id

/-- What the call tells its party; a release tells nothing. -/
def answer (s : Shared σ ι π) : π × Call ι → Bool
  | (_, .acquire id) => (F.testAndSet s.store id).1
  | (_, .release _) => true
  | (_, .available id) => F.test s.store id

/-- A call of one party, in one indivisible step on the store. -/
def step [DecidableEq π] [DecidableEq ι] (s : Shared σ ι π) : π × Call ι → Shared σ ι π
  | (p, .acquire id) =>
      let (won, store) := F.testAndSet s.store id
      ⟨store, if won then (p, id) :: s.holding else s.holding⟩
  | (p, .release id) => ⟨F.clear s.store id, s.holding.erase (p, id)⟩
  | (_, .available _) => s

/-- A party releases only an id it holds. -/
def ReleasesOwn (s : Shared σ ι π) : π × Call ι → Prop
  | (p, .release id) => s.Holds p id
  | _ => True

/-- A flag is set exactly while someone holds it, and nobody holds an id that
someone, the same party included, already holds. -/
structure Sole (s : Shared σ ι π) : Prop where
  isSet_iff : ∀ id, F.isSet s.store id ↔ ∃ p, s.Holds p id
  alone : (s.holding.map Prod.snd).Nodup

variable {F} {s : Shared σ ι π} {p q : π} {id : ι}

/-- Two holders of one id are the same party. -/
theorem Sole.eq_of_holds (h : Sole F s) (hp : s.Holds p id) (hq : s.Holds q id) : p = q := by
  have heq := List.inj_on_of_nodup_map h.alone hp hq rfl
  exact congrArg Prod.fst heq

theorem Sole.not_isSet_iff (h : Sole F s) : ¬ F.isSet s.store id ↔ s.Unheld id := by
  rw [h.isSet_iff, not_exists]
  rfl

/-- An acquire wins exactly if the id has a flag and nobody holds it. -/
theorem Sole.acquire_wins (h : Sole F s) :
    answer F s (p, .acquire id) = true ↔ F.tracked id ∧ s.Unheld id := by
  rw [← h.not_isSet_iff]
  exact F.testAndSet_answer _ _

/-- A test of an id with a flag tells whether nobody holds it. -/
theorem Sole.available_tells (h : Sole F s) (htracked : F.tracked id) :
    answer F s (p, .available id) = true ↔ s.Unheld id := by
  rw [← h.not_isSet_iff]
  exact F.test_answer _ _ htracked

section Steps

variable [DecidableEq π] [DecidableEq ι]

theorem holds_acquire {j : ι} :
    (step F s (p, .acquire id)).Holds q j ↔
      s.Holds q j ∨ answer F s (p, .acquire id) = true ∧ q = p ∧ j = id := by
  by_cases hwon : (F.testAndSet s.store id).1 = true
  · simp only [Holds, step, answer, hwon, if_true, List.mem_cons, Prod.mk.injEq, true_and]
    exact or_comm
  · simp [Holds, step, answer, hwon]

theorem Sole.holds_release (h : Sole F s) (hown : s.Holds p id) {j : ι} :
    (step F s (p, .release id)).Holds q j ↔ s.Holds q j ∧ j ≠ id := by
  simp only [Holds, step]
  rw [(List.Nodup.of_map _ h.alone).mem_erase_iff]
  constructor
  · rintro ⟨hne, hmem⟩
    refine ⟨hmem, ?_⟩
    rintro rfl
    exact hne (Prod.ext (h.eq_of_holds hmem hown) rfl)
  · rintro ⟨hmem, hne⟩
    exact ⟨fun heq => hne (congrArg Prod.snd heq), hmem⟩

theorem Sole.acquire (h : Sole F s) (p : π) (id : ι) : Sole F (step F s (p, .acquire id)) where
  isSet_iff j := by
    simp only [holds_acquire, exists_or, ← h.isSet_iff j]
    rw [show (step F s (p, .acquire id)).store = (F.testAndSet s.store id).2 from rfl,
      F.isSet_testAndSet]
    by_cases hset : F.isSet s.store j
    · simp [hset]
    · simp only [hset, false_or, answer, F.testAndSet_answer]
      constructor
      · rintro ⟨rfl, htracked⟩
        exact ⟨p, ⟨htracked, hset⟩, rfl, rfl⟩
      · rintro ⟨_, ⟨htracked, _⟩, _, hj⟩
        exact ⟨hj, htracked⟩
  alone := by
    by_cases hwon : (F.testAndSet s.store id).1 = true
    · have hfree := h.not_isSet_iff.mp ((F.testAndSet_answer _ _).mp hwon).2
      simp only [step, hwon, if_true, List.map_cons, List.nodup_cons]
      refine ⟨fun hmem => ?_, h.alone⟩
      obtain ⟨⟨q, j⟩, hq, rfl⟩ := List.mem_map.mp hmem
      exact hfree q hq
    · simpa [step, hwon] using h.alone

theorem Sole.release (h : Sole F s) (hown : s.Holds p id) :
    Sole F (step F s (p, .release id)) where
  isSet_iff j := by
    simp only [h.holds_release hown, exists_and_right, ← h.isSet_iff j]
    exact F.isSet_clear _ _ _
  alone := h.alone.sublist (List.erase_sublist.map _)

/-- One call keeps the flags and the holders in step. -/
theorem Sole.step (h : Sole F s) {e : π × Call ι} (hown : ReleasesOwn s e) :
    Sole F (Shared.step F s e) := by
  rcases e with ⟨p, c⟩
  cases c with
  | acquire id => exact h.acquire p id
  | release id => exact h.release hown
  | available id => exact h

/-- A call leaves the flag and the holders of every other id alone. -/
theorem Sole.others_unchanged (h : Sole F s) {e : π × Call ι} (hown : ReleasesOwn s e) {j : ι}
    (hj : j ≠ e.2.id) :
    (F.isSet (Shared.step F s e).store j ↔ F.isSet s.store j) ∧
      ∀ q, (Shared.step F s e).Holds q j ↔ s.Holds q j := by
  rcases e with ⟨p, c⟩
  cases c with
  | acquire id =>
      have hj : j ≠ id := hj
      refine ⟨(F.isSet_testAndSet _ _ _).trans ?_, fun q => holds_acquire.trans ?_⟩ <;> simp [hj]
  | release id =>
      have hj : j ≠ id := hj
      refine ⟨(F.isSet_clear _ _ _).trans ?_, fun q => (h.holds_release hown).trans ?_⟩ <;>
        simp [hj]
  | available id => exact ⟨Iff.rfl, fun q => Iff.rfl⟩

end Steps

end Shared

end HolyRust.Flags
