import HolyRust.Drivers.Repl
import HolyRust.Library.Runs

/-!
Who owns a resource when kernel drivers and the REPL share the registry.

A driver owns what it holds a live `Cap<T>` for; the REPL owns what it answered
`CAP CLAIMED` for and has not dropped since. The registry itself records no
owner, and `cap_drop` releases whatever is claimed:

* `Accounted` — at most one owner, and only of claimed resources — is kept by
  every step except a `cap_drop` of a resource a driver owns;
* `ownership_exclusive_iff` — a run keeps ownership exclusive and its releases
  safe exactly if it has no such step.
-/

namespace HolyRust.Ownership

open Tokens (HardwareResource Cap)
open Registry (held)
open Runs (EveryStep EveryState)

/-- A token some driver holds. -/
abbrev Token := Σ T : HardwareResource, Cap T

/-- The registry, the live tokens and the REPL's claims. -/
structure Parties where
  registry : Registry
  caps : List Token
  repl : List Nat

/-- Nothing claimed by anyone. -/
def start : Parties := ⟨Registry.free, [], []⟩

/-- One call of either interface. -/
inductive Event where
  | claim (T : HardwareResource)
  | dropCap (token : Token)
  | replClaim (name : List Byte)
  | replDrop (name : List Byte)

def step (s : Parties) : Event → Parties
  | .claim T =>
      match Tokens.claim T s.registry with
      | (some cap, r) => { s with registry := r, caps := ⟨T, cap⟩ :: s.caps }
      | (none, r) => { s with registry := r }
  | .dropCap token =>
      { s with registry := Tokens.dropCap token.2 s.registry, caps := s.caps.erase token }
  | .replClaim name =>
      match Repl.doClaim name s.registry with
      | (.claimed id, r) => { s with registry := r, repl := id :: s.repl }
      | (_, r) => { s with registry := r }
  | .replDrop name =>
      match Repl.doDrop name s.registry, Tokens.resolveName name with
      | (.released, r), some id => { s with registry := r, repl := s.repl.filter (· != id) }
      | (_, r), _ => { s with registry := r }

/-- Move semantics: only a live token can be given to `drop_cap`. -/
def Linear (s : Parties) : Event → Prop
  | .dropCap token => token ∈ s.caps
  | _ => True

/-- The number of live owners of resource `id`. -/
def owners (s : Parties) (id : Nat) : Nat :=
  s.caps.countP (fun token => token.2.id == id) + s.repl.count id

/-- Each resource has at most one live owner. -/
def Exclusive (s : Parties) : Prop := ∀ id, owners s id ≤ 1

/-- A resource that the step frees has no owner left. -/
def SafeRelease (s : Parties) (e : Event) : Prop :=
  ∀ id, held s.registry id = true → held (step s e).registry id = false → owners (step s e) id = 0

/-- A `cap_drop` names no resource that a driver owns. -/
def DropsOwn (s : Parties) : Event → Prop
  | .replDrop name =>
      ∀ id, Tokens.resolveName name = some id → ∀ token ∈ s.caps, token.2.id ≠ id
  | _ => True

/-! ### What a step does -/

/-- A losing acquire changes nothing. -/
theorem acquire_of_held {r : Registry} {id : Nat} (hheld : held r id = true) :
    (Registry.acquire r id).2 = r := by
  refine Registry.ext_held fun j => ?_
  rw [Registry.held_acquire]
  by_cases hj : j = id
  · simp [hj, hheld]
  · simp [hj]

section Steps

variable {s : Parties}

theorem step_claim_of_held {T : HardwareResource} (hheld : held s.registry T.resourceId = true) :
    step s (.claim T) = s := by
  have hsome := Tokens.claim_fst_isSome T s.registry
  have hreg := Tokens.claim_snd T s.registry
  rw [acquire_of_held hheld] at hreg
  simp only [step]
  cases hclaim : Tokens.claim T s.registry with
  | mk cap? r =>
      rw [hclaim] at hsome hreg
      cases cap? with
      | none => exact congrArg (fun r => { s with registry := r }) hreg
      | some cap => simp [hheld] at hsome

theorem step_claim_of_free {T : HardwareResource} (hfree : held s.registry T.resourceId = false) :
    ∃ cap : Cap T, cap.id = T.resourceId ∧
      step s (.claim T) =
        { s with registry := (Registry.acquire s.registry T.resourceId).2
                 caps := ⟨T, cap⟩ :: s.caps } := by
  have hsome := Tokens.claim_fst_isSome T s.registry
  have hreg := Tokens.claim_snd T s.registry
  simp only [step]
  cases hclaim : Tokens.claim T s.registry with
  | mk cap? r =>
      rw [hclaim] at hsome hreg
      cases cap? with
      | none => simp [hfree] at hsome
      | some cap => exact ⟨cap, Tokens.claim_id hclaim, by rw [← hreg]⟩

theorem step_replClaim_of_held {name : List Byte} {id : Nat}
    (hname : Tokens.resolveName name = some id) (hheld : held s.registry id = true) :
    step s (.replClaim name) = s := by
  simp [step, Repl.doClaim_eq, hname, hheld, acquire_of_held hheld]

theorem step_replClaim_of_free {name : List Byte} {id : Nat}
    (hname : Tokens.resolveName name = some id) (hfree : held s.registry id = false) :
    step s (.replClaim name) =
      { s with registry := (Registry.acquire s.registry id).2, repl := id :: s.repl } := by
  simp [step, Repl.doClaim_eq, hname, hfree]

theorem step_replDrop_of_held {name : List Byte} {id : Nat}
    (hname : Tokens.resolveName name = some id) (hheld : held s.registry id = true) :
    step s (.replDrop name) =
      { s with registry := Registry.release s.registry id
               repl := s.repl.filter (· != id) } := by
  simp [step, Repl.doDrop_eq, hname, hheld]

theorem step_replDrop_of_free {name : List Byte} {id : Nat}
    (hname : Tokens.resolveName name = some id) (hfree : held s.registry id = false) :
    step s (.replDrop name) = s := by
  simp [step, Repl.doDrop_eq, hname, hfree]

theorem step_repl_unknown {name : List Byte} (hname : Tokens.resolveName name = none) :
    step s (.replClaim name) = s ∧ step s (.replDrop name) = s := by
  simp [step, Repl.doClaim_eq, Repl.doDrop_eq, hname]

end Steps

/-! ### Accounting -/

/-- Owners are counted in the registry: none of a free resource, at most one of
a claimed one. -/
def Accounted (s : Parties) : Prop := ∀ id, owners s id ≤ (held s.registry id).toNat

theorem Accounted.exclusive {s : Parties} (h : Accounted s) : Exclusive s :=
  fun id => Nat.le_trans (h id) (Bool.toNat_le _)

theorem accounted_start : Accounted start := by
  intro id
  simp [owners, start]

/-- One more owner of a resource that was free and now is not. -/
theorem accounted_acquire {s s' : Parties} {id : Nat} (h : Accounted s)
    (hfree : held s.registry id = false) (hid : id < Registry.maxResources)
    (hreg : s'.registry = (Registry.acquire s.registry id).2)
    (hown : ∀ j, owners s' j = owners s j + if j = id then 1 else 0) : Accounted s' := by
  intro j
  have hj := h j
  rw [hown, hreg, Registry.held_acquire]
  by_cases hji : j = id
  · subst hji
    simp only [hfree, Bool.toNat_false, Nat.le_zero_eq] at hj
    simp [hj, hid]
  · simpa [hji] using hj

/-- A release that leaves no owner of the freed resource. -/
theorem accounted_release {s s' : Parties} (id : Nat) (h : Accounted s)
    (hreg : s'.registry = Registry.release s.registry id)
    (hgone : owners s' id = 0) (hown : ∀ j, j ≠ id → owners s' j = owners s j) :
    Accounted s' := by
  intro j
  rw [hreg, Registry.held_release]
  by_cases hji : j = id
  · subst hji
    simp [hgone]
  · simpa [hji, hown j hji] using h j

theorem Accounted.claim {s : Parties} (h : Accounted s) (T : HardwareResource) :
    Accounted (step s (.claim T)) := by
  cases hheld : held s.registry T.resourceId with
  | true => rwa [step_claim_of_held hheld]
  | false =>
      obtain ⟨cap, hid, hstep⟩ := step_claim_of_free hheld
      rw [hstep]
      refine accounted_acquire h hheld (Tokens.resourceId_lt T) rfl fun j => ?_
      simp only [owners, List.countP_cons, hid, beq_iff_eq, eq_comm (a := T.resourceId)]
      omega

theorem Accounted.replClaim {s : Parties} (h : Accounted s) (name : List Byte) :
    Accounted (step s (.replClaim name)) := by
  cases hname : Tokens.resolveName name with
  | none => rwa [(step_repl_unknown hname).1]
  | some id =>
      obtain ⟨T, _, rfl⟩ := Tokens.resolveName_eq_some hname
      cases hheld : held s.registry T.resourceId with
      | true => rwa [step_replClaim_of_held hname hheld]
      | false =>
          rw [step_replClaim_of_free hname hheld]
          refine accounted_acquire h hheld (Tokens.resourceId_lt T) rfl fun j => ?_
          simp only [owners, List.count_cons, beq_iff_eq, eq_comm (a := T.resourceId)]
          omega

/-- Dropping a live token removes the one owner of its resource. -/
theorem Accounted.dropCap {s : Parties} (h : Accounted s) {token : Token}
    (hlive : token ∈ s.caps) : Accounted (step s (.dropCap token)) := by
  have hone : owners s token.2.id ≤ 1 := h.exclusive _
  have hpos : 0 < s.caps.countP (fun t => t.2.id == token.2.id) :=
    List.countP_pos_iff.mpr ⟨token, hlive, by simp⟩
  refine accounted_release token.2.id h rfl ?_ fun j hj => ?_
  · have herase : (s.caps.erase token).countP (fun t => t.2.id == token.2.id) =
        s.caps.countP (fun t => t.2.id == token.2.id) - 1 := by
      simp [List.countP_erase, hlive]
    unfold owners at hone ⊢
    simp only [step, herase]
    omega
  · simp [owners, step, List.countP_erase, Ne.symm hj]

/-- A `cap_drop` of a claimed resource no driver owns ends the REPL's claim. -/
theorem Accounted.replDrop {s : Parties} (h : Accounted s) {name : List Byte}
    (hown : DropsOwn s (.replDrop name)) : Accounted (step s (.replDrop name)) := by
  cases hname : Tokens.resolveName name with
  | none => rwa [(step_repl_unknown hname).2]
  | some id =>
      cases hheld : held s.registry id with
      | false => rwa [step_replDrop_of_free hname hheld]
      | true =>
          rw [step_replDrop_of_held hname hheld]
          refine accounted_release id h rfl ?_ fun j hj => ?_
          · have hcaps : s.caps.countP (fun t => t.2.id == id) = 0 :=
              List.countP_eq_zero.mpr fun t ht => by simpa using hown id hname t ht
            simp [owners, hcaps, List.count_eq_zero]
          · simp [owners, List.count_filter, hj]

theorem Accounted.step {s : Parties} {e : Event} (h : Accounted s) (hlin : Linear s e)
    (hown : DropsOwn s e) : Accounted (step s e) := by
  cases e with
  | claim T => exact h.claim T
  | dropCap token => exact h.dropCap hlin
  | replClaim name => exact h.replClaim name
  | replDrop name => exact h.replDrop hown

/-- Accounts that balance after a step leave no owner of what it freed. -/
theorem Accounted.safeRelease {s : Parties} {e : Event} (h : Accounted (Ownership.step s e)) :
    SafeRelease s e := by
  intro id _ hfree
  have := h id
  simpa [hfree] using this

/-- A safe release by `cap_drop` is not one of a driver's resource: the driver
would still own it afterwards. -/
theorem Accounted.dropsOwn {s : Parties} {e : Event} (h : Accounted s)
    (hsafe : SafeRelease s e) : DropsOwn s e := by
  cases e with
  | claim T => trivial
  | dropCap token => trivial
  | replClaim name => trivial
  | replDrop name =>
      intro id hname token hmem hid
      have hcap : 0 < s.caps.countP (fun t => t.2.id == id) :=
        List.countP_pos_iff.mpr ⟨token, hmem, by simpa using hid⟩
      have hheld : held s.registry id = true := by
        have hle := h id
        cases hb : held s.registry id with
        | true => rfl
        | false =>
            rw [hb, Bool.toNat_false] at hle
            unfold owners at hle
            omega
      have hstep := step_replDrop_of_held hname hheld
      have hzero := hsafe id hheld (by rw [hstep]; simp [Registry.held_release])
      rw [hstep] at hzero
      simp only [owners] at hzero
      omega

/-! ### Runs -/

/-- A run over both interfaces keeps ownership exclusive and every release safe
exactly if no `cap_drop` in it names a resource that a driver owns. -/
theorem ownership_exclusive_iff (es : List Event) (hlin : EveryStep step Linear start es) :
    EveryState step Exclusive start es ∧ EveryStep step SafeRelease start es ↔
      EveryStep step DropsOwn start es := by
  constructor
  · rintro ⟨_, hsafe⟩
    exact (Runs.everyStep_of_invariant (I := Accounted)
      (C := fun s e => Linear s e ∧ SafeRelease s e)
      (fun s e h hC => h.step hC.1 (h.dropsOwn hC.2)) (fun s e h hC => h.dropsOwn hC.2)
      accounted_start fun before e after heq =>
        ⟨hlin before e after heq, hsafe before e after heq⟩).2
  · intro hown
    obtain ⟨hstates, hsteps⟩ := Runs.everyStep_of_invariant (I := Accounted) (P := SafeRelease)
      (C := fun s e => Linear s e ∧ DropsOwn s e)
      (fun s e h hC => h.step hC.1 hC.2) (fun s e h hC => (h.step hC.1 hC.2).safeRelease)
      accounted_start fun before e after heq =>
        ⟨hlin before e after heq, hown before e after heq⟩
    exact ⟨fun before after heq => (hstates before after heq).exclusive, hsteps⟩

/-- A driver and the REPL each use their own resource. -/
theorem ownership_exclusive_disjoint :
    EveryState step Exclusive start
        [.claim .gpioA, .replClaim (bytes "GPIOB"), .replDrop (bytes "GPIOB")] ∧
      EveryStep step SafeRelease start
        [.claim .gpioA, .replClaim (bytes "GPIOB"), .replDrop (bytes "GPIOB")] := by
  refine (ownership_exclusive_iff _ ?_).mpr ?_
  · simp [Runs.everyStep_cons, Runs.everyStep_nil, Linear]
  · simp only [Runs.everyStep_cons, Runs.everyStep_nil, DropsOwn, true_and, and_true]
    intro id hname token hmem
    have hid : id = 1 := Option.some.inj (hname.symm.trans (by decide))
    have hcaps : (step (step start (.claim .gpioA)) (.replClaim (bytes "GPIOB"))).caps =
        [⟨.gpioA, ⟨0⟩⟩] := by decide
    rw [hcaps, List.mem_singleton] at hmem
    subst hid hmem
    decide

/-- The REPL drops a driver's claim and takes the resource itself: two owners. -/
theorem ownership_not_exclusive :
    ¬ ∀ es, EveryStep step Linear start es →
      EveryState step Exclusive start es ∧ EveryStep step SafeRelease start es := by
  intro h
  have hlin : EveryStep step Linear start
      [.claim .gpioA, .replDrop (bytes "GPIOA"), .replClaim (bytes "GPIOA")] := by
    simp [Runs.everyStep_cons, Runs.everyStep_nil, Linear]
  have hone := (h _ hlin).1 _ [] (List.append_nil _).symm 0
  revert hone
  decide

end HolyRust.Ownership
