import HolyRust.Capabilities.Registry
import HolyRust.Library.Flags
import HolyRust.Library.Runs

/-!
Any number of parties on one registry.

Each of `available`, `acquire` and `release` reads or writes one word of the
registry in one indivisible step, so an interleaving of the parties' calls is a
list of calls. The registry is a store of flags, and `Flags.Shared.Sole` holds
in every state of every run in which a party releases only what it holds.
-/

namespace HolyRust.Exclusion

open Flags (Call Shared)
open Flags.Shared (answer ReleasesOwn Sole)
open Registry (held maxResources)
open Runs (EveryStep EveryState)

/-- The registry as a store of flags. -/
def registryFlags : Flags.Store Registry Nat where
  tracked id := id < maxResources
  isSet r id := held r id = true
  testAndSet := Registry.acquire
  clear := Registry.release
  test := Registry.available
  testAndSet_answer r id := by simp [Registry.acquire_fst]
  isSet_testAndSet r id j := by simp [Registry.held_acquire]
  isSet_clear r id j := by simp [Registry.held_release]
  test_answer r id htracked := by simp [Registry.available_eq, htracked]

variable {π : Type}

/-- The registry and what each party holds. -/
abbrev Parties (π : Type) := Shared Registry Nat π

/-- Nothing claimed. -/
def start : Parties π := ⟨Registry.free, []⟩

/-- One call of one party. -/
def step [DecidableEq π] : Parties π → π × Call Nat → Parties π := Shared.step registryFlags

/-- No two parties hold one id, and no party holds it twice. -/
def Exclusive (s : Parties π) : Prop :=
  (∀ id p q, s.Holds p id → s.Holds q id → p = q) ∧ s.holding.Nodup

/-- `acquire` wins exactly for a tracked id nobody holds, and `available` tells
of a tracked id whether nobody holds it. -/
def Answered (s : Parties π) : π × Call Nat → Prop
  | (p, .acquire id) =>
      answer registryFlags s (p, .acquire id) = true ↔ id < maxResources ∧ s.Unheld id
  | (_, .release _) => True
  | (p, .available id) =>
      id < maxResources → (answer registryFlags s (p, .available id) = true ↔ s.Unheld id)

/-- The call leaves the bit and the holders of every other id as they were. -/
def OthersKept [DecidableEq π] (s : Parties π) (e : π × Call Nat) : Prop :=
  ∀ j, j ≠ e.2.id →
    held (step s e).store j = held s.store j ∧
      Registry.available (step s e).store j = Registry.available s.store j ∧
      ∀ q, (step s e).Holds q j ↔ s.Holds q j

theorem sole_start : Sole registryFlags (start : Parties π) where
  isSet_iff id := by simp [registryFlags, start, Shared.Holds]
  alone := List.nodup_nil

theorem exclusive_of_sole {s : Parties π} (h : Sole registryFlags s) :
    Exclusive s := by
  constructor
  · intro id p q hp hq
    exact h.eq_of_holds hp hq
  · exact List.Nodup.of_map _ h.alone

theorem answered_of_sole {s : Parties π} (h : Sole registryFlags s) (e : π × Call Nat) :
    Answered s e := by
  rcases e with ⟨p, c⟩
  cases c with
  | acquire id => exact h.acquire_wins
  | release id => trivial
  | available id => exact fun hid => h.available_tells hid

variable [DecidableEq π]

theorem othersKept_of_sole {s : Parties π} (h : Sole registryFlags s) {e : π × Call Nat}
    (hown : ReleasesOwn s e) : OthersKept s e := by
  intro j hj
  obtain ⟨hbit, hholds⟩ := h.others_unchanged hown hj
  have hbit : held (step s e).store j = held s.store j := Bool.eq_iff_iff.mpr hbit
  refine ⟨hbit, ?_, hholds⟩
  rw [Registry.available_eq, Registry.available_eq, hbit]

/-- Whatever the parties and the order of their calls, as long as each releases
only what it holds: no id ever has two holders, an acquire wins and a test says
"available" exactly when nobody holds the id, and no call touches another id. -/
theorem calls_exclusive (es : List (π × Call Nat)) (hown : EveryStep step ReleasesOwn start es) :
    EveryState step Exclusive start es ∧ EveryStep step Answered start es ∧
      EveryStep step OthersKept start es := by
  have hrun : EveryState step (Sole registryFlags) start es ∧
      EveryStep step (fun s e => Answered s e ∧ OthersKept s e) start es :=
    Runs.everyStep_of_invariant (fun s e h hC => h.step hC)
      (fun s e h hC => ⟨answered_of_sole h e, othersKept_of_sole h hC⟩) sole_start hown
  obtain ⟨hstates, hsteps⟩ := hrun
  exact ⟨hstates.mono fun s h => exclusive_of_sole h, hsteps.mono fun s e h => h.1,
    hsteps.mono fun s e h => h.2⟩

/-- Three parties over two resources of one word and an id past the last word. -/
theorem calls_exclusive_three :
    let es : List (Nat × Call Nat) :=
      [(0, .acquire 3), (1, .acquire 3), (2, .acquire 7), (0, .release 3), (1, .acquire 3),
        (2, .available 3), (1, .acquire 256)]
    EveryState step Exclusive start es ∧ EveryStep step Answered start es ∧
      EveryStep step OthersKept start es := by
  refine calls_exclusive _ ?_
  simp only [Runs.everyStep_cons, Runs.everyStep_nil, ReleasesOwn, true_and, and_true]
  unfold Shared.Holds
  decide

end HolyRust.Exclusion
