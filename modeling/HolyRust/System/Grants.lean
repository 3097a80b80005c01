import HolyRust.Drivers.Repl
import HolyRust.Library.Runs

/-!
The audit count of SUPERUSER grants (`SUPERUSER_AUDIT_COUNT` in
`capabilities/tokens.rs`).

Three routes turn the bit on: `grant_superuser`, `claim::<SuperUserCap>` and the
REPL's `cap_claim`. The first alone adds to the count.

* `step_grants`, `step_count` — what one call adds to the true number of grants
  and to the count.
* `grants_counted_iff` — the count is right throughout a run exactly if no other
  route takes a free SUPERUSER in it.
-/

namespace HolyRust.Grants

open Tokens (HardwareResource Cap)
open Registry (held CapId)
open Runs (EveryStep EveryState)

/-- The registry, the count, and how often the bit went from free to claimed. -/
structure Counted where
  registry : Registry
  auditCount : Word
  grants : Nat

/-- After start-up, which zeroes the count, over the registry SRAM came up with. -/
def boot (r : Registry) : Counted := ⟨r, 0, 0⟩

/-- One call of either interface. -/
inductive Event where
  | grantSuperuser
  | claim (T : HardwareResource)
  | dropCap {T : HardwareResource} (cap : Cap T)
  | replClaim (name : List Byte)
  | replDrop (name : List Byte)

/-- The one call that adds to the count. -/
def Event.counts : Event → Bool
  | .grantSuperuser => true
  | _ => false

/-- The count and the registry after a call. -/
def call (auditCount : Word) (r : Registry) : Event → Word × Registry
  | .grantSuperuser => (Tokens.grantSuperuser auditCount r).2
  | .claim T => (auditCount, (Tokens.claim T r).2)
  | .dropCap cap => (auditCount, Tokens.dropCap cap r)
  | .replClaim name => (auditCount, (Repl.doClaim name r).2)
  | .replDrop name => (auditCount, (Repl.doDrop name r).2)

/-- The SUPERUSER bit. -/
def superuser (r : Registry) : Bool := held r CapId.superUser.index

def step (s : Counted) (e : Event) : Counted where
  registry := (call s.auditCount s.registry e).2
  auditCount := (call s.auditCount s.registry e).1
  grants :=
    if superuser s.registry = false ∧ superuser (call s.auditCount s.registry e).2 = true then
      s.grants + 1
    else s.grants

/-- The count is the number of grants, modulo 2^32. -/
def Right (s : Counted) : Prop := s.auditCount = BitVec.ofNat 32 s.grants

/-- The calls that claim SUPERUSER. -/
def Claims : Event → Prop
  | .grantSuperuser => True
  | .claim T => T = .superUserCap
  | .replClaim name => Tokens.resolveName name = some CapId.superUser.index
  | .dropCap _ | .replDrop _ => False

instance (e : Event) : Decidable (Claims e) := by
  cases e <;> unfold Claims <;> infer_instance

theorem claims_of_counts {e : Event} (h : e.counts = true) : Claims e := by
  cases e with
  | grantSuperuser => trivial
  | _ => exact absurd h Bool.false_ne_true

/-- A grant past the count: SUPERUSER is free and a call other than
`grant_superuser` claims it. -/
def Forgets (s : Counted) (e : Event) : Prop :=
  superuser s.registry = false ∧ Claims e ∧ e.counts = false

/-! ### What a call does -/

theorem superuser_acquire (r : Registry) (id : Nat) :
    superuser (Registry.acquire r id).2 = (superuser r || decide (id = CapId.superUser.index)) := by
  unfold superuser
  rw [Registry.held_acquire]
  by_cases hid : id = CapId.superUser.index
  · simp [hid, CapId.index, Registry.maxResources]
  · simp [hid, Ne.symm hid]

theorem superuser_release {r : Registry} {id : Nat} (h : superuser r = false) :
    superuser (Registry.release r id) = false := by
  unfold superuser at h ⊢
  rw [Registry.held_release, h]
  rfl

theorem resourceId_eq_superuser {T : HardwareResource} :
    T.resourceId = CapId.superUser.index ↔ T = .superUserCap := by
  cases T <;> simp [HardwareResource.resourceId, CapId.index]

theorem doClaim_snd (name : List Byte) (r : Registry) :
    (Repl.doClaim name r).2 =
      match Tokens.resolveName name with
      | some id => (Registry.acquire r id).2
      | none => r := by
  rw [Repl.doClaim_eq]
  cases Tokens.resolveName name with
  | none => rfl
  | some id => simp only [apply_ite Prod.snd, ite_self]

theorem grantSuperuser_snd (count : Word) (r : Registry) :
    (Tokens.grantSuperuser count r).2 =
      (if superuser r then count else count + 1,
        (Registry.acquire r CapId.superUser.index).2) := by
  have hsome : (Tokens.claim .superUserCap r).1.isSome = !superuser r :=
    Tokens.claim_fst_isSome .superUserCap r
  have hreg : (Tokens.claim .superUserCap r).2 = (Registry.acquire r CapId.superUser.index).2 :=
    Tokens.claim_snd .superUserCap r
  unfold Tokens.grantSuperuser
  generalize Tokens.claim .superUserCap r = answer at hsome hreg ⊢
  obtain ⟨_ | cap, r'⟩ := answer
  · have hheld : superuser r = true := by simpa using hsome
    simpa [hheld] using hreg
  · have hfree : superuser r = false := by simpa using hsome
    simpa [hfree] using hreg

/-- From free, the bit is on exactly after a call that claims it. -/
theorem superuser_call {count : Word} {r : Registry} (h : superuser r = false) (e : Event) :
    superuser (call count r e).2 = true ↔ Claims e := by
  cases e with
  | grantSuperuser => simp [call, grantSuperuser_snd, superuser_acquire, Claims]
  | claim T => simp [call, Tokens.claim_snd, superuser_acquire, h, Claims, resourceId_eq_superuser]
  | dropCap cap => simp [call, Tokens.dropCap, superuser_release h, Claims]
  | replClaim name =>
      simp only [call, doClaim_snd, Claims]
      cases Tokens.resolveName name with
      | none => simp [h]
      | some id => simp [superuser_acquire, h]
  | replDrop name =>
      have hdrop : superuser (Repl.doDrop name r).2 = false := by
        rw [Repl.doDrop_eq]
        cases Tokens.resolveName name with
        | none => exact h
        | some id =>
            simp only
            split
            · exact superuser_release h
            · exact h
      simp [call, hdrop, Claims]

/-- A call grants SUPERUSER if it claims it and it is free. -/
theorem step_grants (s : Counted) (e : Event) :
    (step s e).grants =
      if superuser s.registry = false ∧ Claims e then s.grants + 1 else s.grants := by
  unfold step
  by_cases hfree : superuser s.registry = false
  · simp only [superuser_call hfree]
  · simp [hfree]

/-- `grant_superuser` counts its grant, and nothing else counts. -/
theorem step_count (s : Counted) (e : Event) :
    (step s e).auditCount =
      if superuser s.registry = false ∧ e.counts then s.auditCount + 1 else s.auditCount := by
  cases e with
  | grantSuperuser =>
      simp only [step, call, grantSuperuser_snd]
      cases superuser s.registry <;> rfl
  | _ => simp [step, call, Event.counts]

/-! ### Runs -/

/-- A right count stays right exactly over the calls that forget no grant. -/
theorem right_step_iff {s : Counted} (h : Right s) (e : Event) :
    Right (step s e) ↔ ¬ Forgets s e := by
  unfold Right at h ⊢
  rw [step_count, step_grants, h]
  have hone : BitVec.ofNat 32 (s.grants + 1) = BitVec.ofNat 32 s.grants + 1 := by
    rw [BitVec.ofNat_add]
    rfl
  have hne : BitVec.ofNat 32 s.grants ≠ BitVec.ofNat 32 (s.grants + 1) := by
    rw [hone]
    exact fun heq => absurd (BitVec.self_eq_add_right.mp heq) (by decide)
  by_cases hfree : superuser s.registry = false
  · cases hcounts : e.counts with
    | true => simp [hfree, hone, hcounts, claims_of_counts hcounts, Forgets]
    | false =>
        by_cases hclaims : Claims e
        · simp [hfree, hcounts, hclaims, Forgets, hne]
        · simp [hcounts, hclaims, Forgets]
  · simp [hfree, Forgets]

/-- From boot, whatever the registry came up with: the count equals the number of
grants in every state of a run exactly if every grant of the run is one that
`grant_superuser` makes. -/
theorem grants_counted_iff (r : Registry) (es : List Event) :
    EveryState step Right (boot r) es ↔ EveryStep step (fun s e => ¬ Forgets s e) (boot r) es :=
  Runs.everyState_iff_everyStep (fun _ e h => right_step_iff h e) rfl

/-- One `cap_claim SUPERUSER` from an empty registry is a grant, and the count
stays 0. -/
theorem repl_grant_uncounted :
    let s := Runs.run step (boot Registry.free) [.replClaim (bytes "SUPERUSER")]
    s.grants = 1 ∧ s.auditCount = 0 ∧ ¬ Right s := by
  have hgrants : (step (boot Registry.free) (.replClaim (bytes "SUPERUSER"))).grants = 1 := by
    rw [step_grants]
    decide
  have hcount : (step (boot Registry.free) (.replClaim (bytes "SUPERUSER"))).auditCount = 0 := by
    rw [step_count]
    rfl
  refine ⟨hgrants, hcount, fun h => ?_⟩
  have hright := hcount.symm.trans (h.trans (congrArg (BitVec.ofNat 32) hgrants))
  exact absurd hright (by decide)

end HolyRust.Grants
