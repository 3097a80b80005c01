import HolyRust.Kernel.Memory

/-!
The two enforcement layers side by side: the parse-time `check_access` and the
run-time `enforced_peek_u32` / `enforced_poke_u32`.

The run-time pair has no RAM and flash list. It passes every address that no
capability covers, where the parse-time check passes only RAM and flash:

* `enforcedPoke_isOk`, `enforcedPeek_isOk` — what the run-time pair lets through;
* `layers_agree_iff` — the layers decide alike exactly off the unmapped space.
-/

namespace HolyRust.Memory

open Registry

/-- The run-time condition: superuser, or no capability covers the address, or
the covering one is claimed. -/
def Passes (t : Target) (r : Registry) (addr : Word) : Prop :=
  held r CapId.superUser.index = true ∨
    ∀ c, addrToCapId t addr = some c → held r c.index = true

section Layers

variable (t : Target) (r : Registry) (addr : Word)

/-- The decision the run-time pair shares. -/
theorem decision_isOk {α : Type} (super claimed unmapped : α) :
    (if isSuperuserActive r then .ok super
      else
        match addrToCapId t addr with
        | some c => if isClaimed r c.index then .ok claimed else .error .capabilityViolation
        | none => .ok unmapped : Except MemError α).isOk = true ↔ Passes t r addr := by
  unfold Passes
  rw [isSuperuserActive_eq]
  cases held r CapId.superUser.index with
  | true => simp [Except.isOk, Except.toBool]
  | false =>
      cases addrToCapId t addr with
      | none => simp [Except.isOk, Except.toBool]
      | some c =>
          cases hc : held r c.index <;> simp [isClaimed_index, hc, Except.isOk, Except.toBool]

theorem enforcedPoke_isOk (cycles value : Word) (log : Audit.AuditLog) (b : Bus) :
    (enforcedPokeU32 t r cycles addr value log b).isOk = true ↔ Passes t r addr :=
  decision_isOk t r addr _ _ _

theorem enforcedPeek_isOk (b : Bus) :
    (enforcedPeekU32 t r addr b).isOk = true ↔ Passes t r addr :=
  decision_isOk t r addr _ _ _

/-- What the parse-time check permits, the run-time pair passes. -/
theorem passes_of_permitted {t : Target} {r : Registry} {addr : Word}
    (h : Permitted t r addr) : Passes t r addr := by
  rcases permitted_iff.mp h with hsu | ⟨c, hcap, hc⟩ | ⟨hcap, _⟩
  · exact .inl hsu
  · exact .inr fun c' hcap' => by
      cases hcap.symm.trans hcap'
      exact hc
  · exact .inr fun c hc => by simp [hcap] at hc

/-- The three decisions at one address: parse-time check, enforced peek and
enforced poke of any value, over any memory and audit log. -/
def LayersAgree : Prop :=
  ∀ (value cycles : Word) (log : Audit.AuditLog) (b : Bus),
    (Permitted t r addr ↔ (enforcedPeekU32 t r addr b).isOk = true) ∧
    ((enforcedPeekU32 t r addr b).isOk = true ↔
      (enforcedPokeU32 t r cycles addr value log b).isOk = true)

/-- The parse-time check is the stronger one, so agreement is the converse. -/
theorem layersAgree_iff_passes :
    LayersAgree t r addr ↔ (Passes t r addr → Permitted t r addr) := by
  unfold LayersAgree
  simp only [enforcedPeek_isOk, enforcedPoke_isOk, iff_self, and_true]
  constructor
  · intro h
    exact (h 0 0 Audit.new ⟨fun _ => 0, []⟩).mpr
  · intro h _ _ _ _
    exact ⟨passes_of_permitted, h⟩

/-- The layers agree at an address iff superuser is claimed, a capability covers
the address, or the address is RAM or flash. -/
theorem layers_agree_iff :
    LayersAgree t r addr ↔
      held r CapId.superUser.index = true ∨ addrToCapId t addr ≠ none ∨
        isRamFlash t addr = true := by
  rw [layersAgree_iff_passes, permitted_iff]
  unfold Passes
  cases hcap : addrToCapId t addr with
  | none => simp
  | some c =>
      simp only [Option.some.injEq, forall_eq', ne_eq, reduceCtorEq, not_false_eq_true, true_or,
        or_true, iff_true]
      rintro (hsu | hc)
      · exact .inl hsu
      · exact .inr (.inl ⟨c, rfl, hc⟩)

end Layers

/-- An unmapped peripheral address with nothing claimed: refused while parsing,
passed at run time. -/
theorem layers_disagree_unmapped : ¬ ∀ t r addr, LayersAgree t r addr := by
  intro h
  have unmapped : addrToCapId .arm 0x50000000#32 = none := by decide
  have passes : Passes .arm free 0x50000000#32 :=
    .inr fun c hc => by simp [unmapped] at hc
  have refused : ¬ Permitted .arm free 0x50000000#32 := by decide
  exact refused ((layersAgree_iff_passes _ _ _).mp (h _ _ _) passes)

end HolyRust.Memory
