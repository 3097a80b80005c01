import HolyRust.Capabilities.Registry

/-!
What a claim unlocks. A peripheral address is permitted by the bit of the one
resource that guards it, so turning a bit on or off moves the addresses of its
resource and no other. SUPERUSER guards no address: its bit overrides the check
and leaves no mark once it is released.

* `permitted_acquire`, `permitted_release` — the check after one operation.
* `release_acquire` — releasing what was free before restores the registry.
* `claim_unlocks_its_range` — all of it, for each target and every registry.
-/

namespace HolyRust.Registry

variable {t : Target} {r : Registry} {id : Nat} {addr : Word}

/-- `addr_to_cap_id(addr)` is `id`. -/
def Guards (t : Target) (id : Nat) (addr : Word) : Prop :=
  ∃ c, addrToCapId t addr = some c ∧ c.index = id

/-- Without SUPERUSER the check asks for the guard of the address, or for RAM
and flash where there is none. -/
theorem permitted_of_no_superuser (h : held r CapId.superUser.index = false) :
    Permitted t r addr ↔
      (∃ c, addrToCapId t addr = some c ∧ held r c.index = true) ∨
        (addrToCapId t addr = none ∧ isRamFlash t addr = true) := by
  rw [permitted_iff, h]
  simp

/-- An unguarded address does not depend on the bits of the peripherals. -/
theorem permitted_congr_of_unguarded {r' : Registry} (h : held r CapId.superUser.index = false)
    (h' : held r' CapId.superUser.index = false) (hnone : addrToCapId t addr = none) :
    Permitted t r' addr ↔ Permitted t r addr := by
  rw [permitted_of_no_superuser h, permitted_of_no_superuser h']
  simp [hnone]

theorem permitted_of_guarded {c : CapId} (h : held r CapId.superUser.index = false)
    (hsome : addrToCapId t addr = some c) : Permitted t r addr ↔ held r c.index = true := by
  rw [permitted_of_no_superuser h]
  simp [hsome]

theorem guards_of_some {c : CapId} (hsome : addrToCapId t addr = some c) :
    Guards t id addr ↔ c.index = id := by
  simp [Guards, hsome]

theorem permitted_acquire (h : held r CapId.superUser.index = false) (hid : id < maxResources)
    (hsu : id ≠ CapId.superUser.index) :
    Permitted t (acquire r id).2 addr ↔ Permitted t r addr ∨ Guards t id addr := by
  have h' : held (acquire r id).2 CapId.superUser.index = false := by
    rw [held_acquire, h]
    simp [Ne.symm hsu]
  cases hcap : addrToCapId t addr with
  | none =>
      rw [permitted_congr_of_unguarded h h' hcap]
      simp [Guards, hcap]
  | some c =>
      rw [permitted_of_guarded h hcap, permitted_of_guarded h' hcap, guards_of_some hcap,
        held_acquire]
      simp [hid]

theorem permitted_release (h : held r CapId.superUser.index = false) :
    Permitted t (release r id) addr ↔ Permitted t r addr ∧ ¬ Guards t id addr := by
  have h' : held (release r id) CapId.superUser.index = false := by
    rw [held_release, h]
    simp
  cases hcap : addrToCapId t addr with
  | none =>
      rw [permitted_congr_of_unguarded h h' hcap]
      simp [Guards, hcap]
  | some c =>
      rw [permitted_of_guarded h hcap, permitted_of_guarded h' hcap, guards_of_some hcap,
        held_release]
      simp

/-- SUPERUSER permits every address. -/
theorem permitted_acquire_superuser (r : Registry) (addr : Word) :
    Permitted t (acquire r CapId.superUser.index).2 addr := by
  rw [permitted_iff, held_acquire]
  exact .inl (by simp [CapId.index, maxResources])

/-- A bit that was off is off again after a claim and its release. -/
theorem release_acquire (h : held r id = false) : release (acquire r id).2 id = r := by
  refine ext_held fun j => ?_
  rw [held_release, held_acquire]
  by_cases hj : j = id
  · simp [hj, h]
  · simp [hj]

/-- For each target and every registry that SUPERUSER does not hold: a claim of a
peripheral permits its range besides, its release takes that range away, and
SUPERUSER permits everything until its release restores every answer. -/
theorem claim_unlocks_its_range (t : Target) (r : Registry) (h : isSuperuserActive r = false) :
    (∀ id < maxResources, id ≠ CapId.superUser.index → ∀ addr,
      (Permitted t (acquire r id).2 addr ↔ Permitted t r addr ∨ Guards t id addr) ∧
        (Permitted t (release r id) addr ↔ Permitted t r addr ∧ ¬ Guards t id addr)) ∧
      ∀ addr, Permitted t (acquire r CapId.superUser.index).2 addr ∧
        checkAccess t (release (acquire r CapId.superUser.index).2 CapId.superUser.index) addr =
          checkAccess t r addr := by
  have hheld : held r CapId.superUser.index = false := (isSuperuserActive_eq r).symm.trans h
  refine ⟨fun id hid hsu addr => ⟨permitted_acquire hheld hid hsu, permitted_release hheld⟩,
    fun addr => ⟨permitted_acquire_superuser r addr, ?_⟩⟩
  rw [release_acquire hheld]

/-- TIMER0 on ARM, from an empty registry: its own base opens, SPI0's stays shut. -/
theorem claim_unlocks_its_range_timer0 :
    Permitted .arm (acquire free CapId.timer0.index).2 0x40000000#32 ∧
      ¬ Permitted .arm (acquire free CapId.timer0.index).2 0x40013000#32 := by
  have h := (claim_unlocks_its_range .arm free (by decide)).1 CapId.timer0.index (by decide)
    (by decide)
  rw [(h 0x40000000#32).1, (h 0x40013000#32).1]
  exact ⟨.inr ⟨.timer0, by decide, rfl⟩, not_or.mpr ⟨by decide, by
    rintro ⟨c, hc, hindex⟩
    have : addrToCapId .arm 0x40013000#32 = some .spi0 := by decide
    rw [this] at hc
    cases hc
    exact absurd hindex (by decide)⟩⟩

end HolyRust.Registry
