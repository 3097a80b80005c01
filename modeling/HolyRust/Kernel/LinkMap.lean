import HolyRust.Capabilities.Regions

/-!
The memory the image is linked for (`memory.x`, `memory-riscv.x`) against the
address map of the access check. Both are written by hand; an address of a linked
region is accepted for everyone when its region lies inside an unguarded one.

* `memory` — the `MEMORY` blocks.
* `permitted_free_iff` — what is permitted while nothing is claimed.
* `linked_memory_permitted_iff` — of the linked regions, only the RISC-V flash is
  refused.
-/

namespace HolyRust

open Registry (Permitted Region regions permitted_iff_covered)
open AddressRanges (Span)

/-- The names of the linked regions. -/
inductive LinkRegion where
  | flash | sram | vectors | registry | sramCode
deriving DecidableEq, Repr

/-- One line of a `MEMORY` block. -/
structure MemoryLine where
  name : LinkRegion
  origin : Nat
  length : Nat

namespace MemoryLine

/-- The address belongs to the region. -/
def Has (m : MemoryLine) (addr : Word) : Prop :=
  m.origin ≤ addr.toNat ∧ addr.toNat < m.origin + m.length

instance (m : MemoryLine) (addr : Word) : Decidable (m.Has addr) :=
  inferInstanceAs (Decidable (_ ∧ _))

/-- The region lies inside the range. -/
def Inside (m : MemoryLine) (s : Span) : Prop :=
  s.first ≤ m.origin ∧ m.origin + m.length ≤ s.last + 1

instance (m : MemoryLine) (s : Span) : Decidable (m.Inside s) :=
  inferInstanceAs (Decidable (_ ∧ _))

/-- The region has no address in the range. -/
def Outside (m : MemoryLine) (s : Span) : Prop :=
  m.origin + m.length ≤ s.first ∨ s.last < m.origin

instance (m : MemoryLine) (s : Span) : Decidable (m.Outside s) :=
  inferInstanceAs (Decidable (_ ∨ _))

variable {m : MemoryLine} {s : Span} {addr : Word}

theorem Inside.has (h : m.Inside s) (ha : m.Has addr) : s.Has addr.toNat :=
  ⟨Nat.le_trans h.1 ha.1, Nat.le_of_lt_succ (Nat.lt_of_lt_of_le ha.2 h.2)⟩

theorem Outside.not_has (h : m.Outside s) (ha : m.Has addr) : ¬ s.Has addr.toNat := by
  rintro ⟨hfirst, hlast⟩
  rcases h with h | h
  · exact absurd ha.2 (Nat.not_lt.mpr (Nat.le_trans h hfirst))
  · exact absurd ha.1 (Nat.not_le.mpr (Nat.lt_of_le_of_lt hlast h))

end MemoryLine

/-- The `MEMORY` block of each target's linker script. -/
def memory : Target → List MemoryLine
  | .arm =>
      [⟨.flash, 0x08000000, 128 * 1024⟩,
       ⟨.sram, 0x20003000, 52 * 1024⟩,
       ⟨.vectors, 0x20000400, 3 * 1024⟩,
       ⟨.registry, 0x20001000, 256⟩,
       ⟨.sramCode, 0x20002000, 4 * 1024⟩]
  | .riscv32 =>
      [⟨.flash, 0x20400000, 512 * 1024⟩,
       ⟨.sram, 0x80000000, 4 * 1024⟩,
       ⟨.sramCode, 0x80001000, 1024⟩,
       ⟨.vectors, 0x80001400, 1024⟩,
       ⟨.registry, 0x80001800, 256⟩]

/-- The line is the flash of the RISC-V script. -/
def RiscvFlash (t : Target) (m : MemoryLine) : Prop := t = .riscv32 ∧ m.name = .flash

instance (t : Target) (m : MemoryLine) : Decidable (RiscvFlash t m) :=
  inferInstanceAs (Decidable (_ ∧ _))

variable {t : Target} {m : MemoryLine} {addr : Word}

/-- Every other linked region lies inside a range that needs no capability. -/
theorem memory_inside (t : Target) : ∀ m ∈ memory t, ¬ RiscvFlash t m →
    ∃ g ∈ regions t, g.guardedBy = none ∧ m.Inside g.span := by
  cases t <;> decide

/-- The RISC-V flash misses every range of the map. -/
theorem memory_outside (t : Target) : ∀ m ∈ memory t, RiscvFlash t m →
    ∀ g ∈ regions t, m.Outside g.span := by
  cases t <;> decide

/-- While nothing is claimed, the unguarded ranges are all there is. -/
theorem permitted_free_iff :
    Permitted t Registry.free addr ↔
      ∃ g ∈ regions t, g.guardedBy = none ∧ g.span.Has addr.toNat := by
  have hopened : ∀ g : Region, g.opened Registry.free = true ↔ g.guardedBy = none := by
    intro g
    cases hguard : g.guardedBy <;> simp [Region.opened, hguard, Registry.isClaimed_index]
  rw [permitted_iff_covered (Registry.held_free _)]
  constructor
  · rintro ⟨s, hs, hhas⟩
    obtain ⟨g, hg, hopen, rfl⟩ := Registry.mem_openSpans.mp hs
    exact ⟨g, hg, (hopened g).mp hopen, hhas⟩
  · rintro ⟨g, hg, hguard, hhas⟩
    exact ⟨g.span, Registry.mem_openSpans.mpr ⟨g, hg, (hopened g).mpr hguard, rfl⟩, hhas⟩

/-- With an empty registry, an address of a linked region is accepted exactly when
that region is not the flash of the RISC-V image. -/
theorem linked_memory_permitted_iff (t : Target) (m : MemoryLine) (hm : m ∈ memory t)
    (addr : Word) (ha : m.Has addr) :
    Registry.checkAccess t Registry.free addr = .ok () ↔ ¬ RiscvFlash t m := by
  rw [← Permitted, permitted_free_iff]
  constructor
  · rintro ⟨g, hg, _, hhas⟩ hflash
    exact (memory_outside t m hm hflash g hg).not_has ha hhas
  · intro hflash
    obtain ⟨g, hg, hguard, hin⟩ := memory_inside t m hm hflash
    exact ⟨g, hg, hguard, hin.has ha⟩

/-- The JIT buffer of each image is accepted from its first address on. -/
theorem linked_memory_permitted_sramCode :
    Registry.checkAccess .arm Registry.free 0x20002000#32 = .ok () ∧
      Registry.checkAccess .riscv32 Registry.free 0x80001000#32 = .ok () :=
  ⟨(linked_memory_permitted_iff .arm ⟨.sramCode, 0x20002000, 4 * 1024⟩ (by simp [memory]) _
      (by decide)).mpr (by decide),
    (linked_memory_permitted_iff .riscv32 ⟨.sramCode, 0x80001000, 1024⟩ (by simp [memory]) _
      (by decide)).mpr (by decide)⟩

/-- The first word of the RISC-V flash, where the boot code lies, asks for
SUPERUSER. -/
theorem riscv_flash_refused :
    Registry.checkAccess .riscv32 Registry.free 0x20400000#32 = .error .superUser ∧
      ¬ ∀ (t : Target) (m : MemoryLine), m ∈ memory t → ∀ addr, m.Has addr →
        Registry.checkAccess t Registry.free addr = .ok () := by
  have hrefused : Registry.checkAccess .riscv32 Registry.free 0x20400000#32 =
      .error .superUser := by rfl
  refine ⟨hrefused, fun hall => ?_⟩
  have hflash := hall .riscv32 ⟨.flash, 0x20400000, 512 * 1024⟩ (by simp [memory]) 0x20400000#32
    (by decide)
  rw [hrefused] at hflash
  cases hflash

end HolyRust
