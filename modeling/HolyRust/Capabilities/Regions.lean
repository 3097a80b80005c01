import HolyRust.Library.AddressRanges
import HolyRust.Library.ByteMemory
import HolyRust.Capabilities.Unlocking

/-!
The address map as a table of regions. The check looks at one address, an access
touches four: whether the other three are permitted is a question about the last
addresses of the regions.

* `regions` — the arms of both maps, with the resource that guards each.
* `permitted_iff_covered` — without SUPERUSER the check permits just the
  addresses of the opened regions.
* `permitted_bytes_iff` — when all bytes of a permitted word access are permitted.
-/

namespace HolyRust.Registry

open AddressRanges (Span Covered Apart Wide covered_access_iff)

/-- An arm of the map: its range and what guards it, nothing for RAM and flash. -/
structure Region where
  guardedBy : Option CapId
  span : Span

/-- The ranges of `arm_addr_to_cap`, then the RAM and flash of `check_access`. -/
def armRegions : List Region :=
  [⟨some .gpioA, 0x40020000, 0x400203FF, by decide⟩,
   ⟨some .gpioB, 0x40020400, 0x400207FF, by decide⟩,
   ⟨some .uart0, 0x40011000, 0x400113FF, by decide⟩,
   ⟨some .spi0, 0x40013000, 0x400133FF, by decide⟩,
   ⟨some .i2c0, 0x40015400, 0x400157FF, by decide⟩,
   ⟨some .timer0, 0x40000000, 0x400003FF, by decide⟩,
   ⟨some .dma0, 0x40002000, 0x400023FF, by decide⟩,
   ⟨none, 0x08000000, 0x080FFFFF, by decide⟩,
   ⟨none, 0x20000000, 0x2001C000, by decide⟩]

/-- The ranges of `riscv_addr_to_cap`, then the RAM and flash of `check_access`. -/
def riscvRegions : List Region :=
  [⟨some .gpioA, 0x10012000, 0x10012FFF, by decide⟩,
   ⟨some .uart0, 0x10013000, 0x10013FFF, by decide⟩,
   ⟨some .spi0, 0x10014000, 0x10014FFF, by decide⟩,
   ⟨some .i2c0, 0x10020000, 0x10020FFF, by decide⟩,
   ⟨some .timer0, 0x10015000, 0x10015FFF, by decide⟩,
   ⟨some .dma0, 0x10000000, 0x10000FFF, by decide⟩,
   ⟨none, 0x20000000, 0x2000FFFF, by decide⟩,
   ⟨none, 0x80000000, 0x8000FFFF, by decide⟩]

def regions : Target → List Region
  | .arm => armRegions
  | .riscv32 => riscvRegions

variable {t : Target} {r : Registry} {addr : Word} {c : CapId}

theorem addrToCapId_eq_some_iff :
    addrToCapId t addr = some c ↔
      ∃ g ∈ regions t, g.guardedBy = some c ∧ g.span.Has addr.toNat := by
  cases t with
  | arm =>
      simp only [addrToCapId, armAddrToCap, regions, armRegions, inRange_iff, BitVec.le_def,
        BitVec.reduceToNat, List.exists_mem_cons_iff, Span.Has]
      split_ifs <;> cases c <;> simp <;> omega
  | riscv32 =>
      simp only [addrToCapId, riscvAddrToCap, regions, riscvRegions, inRange_iff, BitVec.le_def,
        BitVec.reduceToNat, List.exists_mem_cons_iff, Span.Has]
      split_ifs <;> cases c <;> simp <;> omega

theorem isRamFlash_iff :
    isRamFlash t addr = true ↔ ∃ g ∈ regions t, g.guardedBy = none ∧ g.span.Has addr.toNat := by
  cases t <;>
    simp [isRamFlash, regions, armRegions, riscvRegions, BitVec.le_def, Span.Has]

theorem addrToCapId_of_isRamFlash (h : isRamFlash t addr = true) : addrToCapId t addr = none := by
  cases t with
  | arm =>
      simp [isRamFlash, BitVec.le_def] at h
      simp only [addrToCapId, armAddrToCap, inRange_iff, BitVec.le_def, BitVec.reduceToNat]
      split_ifs <;> first | rfl | omega
  | riscv32 =>
      simp [isRamFlash, BitVec.le_def] at h
      simp only [addrToCapId, riscvAddrToCap, inRange_iff, BitVec.le_def, BitVec.reduceToNat]
      split_ifs <;> first | rfl | omega

theorem regions_apart (t : Target) : Apart ((regions t).map Region.span) := by
  cases t <;> decide

theorem regions_wide (t : Target) : Wide 4 ((regions t).map Region.span) := by
  cases t <;> decide

/-- No word that starts in a region wraps around the address space. -/
theorem regions_below (t : Target) : ∀ g ∈ regions t, g.span.last + 3 < 2 ^ 32 := by
  cases t <;> decide

/-! ### Opened regions -/

/-- RAM and flash are open to everyone, the rest to the holder of its guard. -/
def Region.opened (r : Registry) (g : Region) : Bool :=
  match g.guardedBy with
  | some c => isClaimed r c.index
  | none => true

def openSpans (t : Target) (r : Registry) : List Span :=
  ((regions t).filter (Region.opened r)).map Region.span

theorem openSpans_sublist (t : Target) (r : Registry) :
    (openSpans t r).Sublist ((regions t).map Region.span) :=
  (List.filter_sublist).map _

theorem mem_openSpans {s : Span} :
    s ∈ openSpans t r ↔ ∃ g ∈ regions t, g.opened r = true ∧ g.span = s := by
  simp [openSpans, and_assoc]

theorem permitted_iff_covered (h : held r CapId.superUser.index = false) :
    Permitted t r addr ↔ Covered (openSpans t r) addr.toNat := by
  rw [permitted_of_no_superuser h]
  constructor
  · rintro (⟨c, hcap, hheld⟩ | ⟨_, hram⟩)
    · obtain ⟨g, hg, hguard, hhas⟩ := addrToCapId_eq_some_iff.mp hcap
      have hopen : g.opened r = true := by simp [Region.opened, hguard, isClaimed_index, hheld]
      exact ⟨g.span, mem_openSpans.mpr ⟨g, hg, hopen, rfl⟩, hhas⟩
    · obtain ⟨g, hg, hguard, hhas⟩ := isRamFlash_iff.mp hram
      have hopen : g.opened r = true := by simp [Region.opened, hguard]
      exact ⟨g.span, mem_openSpans.mpr ⟨g, hg, hopen, rfl⟩, hhas⟩
  · rintro ⟨s, hs, hhas⟩
    obtain ⟨g, hg, hopen, rfl⟩ := mem_openSpans.mp hs
    cases hguard : g.guardedBy with
    | some c =>
        have hheld : held r c.index = true := by
          simpa [Region.opened, hguard, isClaimed_index] using hopen
        exact .inl ⟨c, addrToCapId_eq_some_iff.mpr ⟨g, hg, hguard, hhas⟩, hheld⟩
    | none =>
        have hram := isRamFlash_iff.mpr ⟨g, hg, hguard, hhas⟩
        exact .inr ⟨addrToCapId_of_isRamFlash hram, hram⟩

/-! ### Word accesses -/

/-- The bytes of an access that does not wrap. -/
theorem covers_iff {a x : Word} (hroom : a.toNat + 3 < 2 ^ 32) :
    ByteMemory.Covers a x ↔ ∃ k < 4, x.toNat = a.toNat + k := by
  unfold ByteMemory.Covers
  constructor
  · intro h
    exact ⟨(x - a).toNat, h, by bv_omega⟩
  · rintro ⟨k, hk, hx⟩
    bv_omega

theorem bytes_permitted_iff (h : held r CapId.superUser.index = false)
    (hroom : addr.toNat + 3 < 2 ^ 32) :
    (∀ x, ByteMemory.Covers addr x → Permitted t r x) ↔
      ∀ k < 4, Covered (openSpans t r) (addr.toNat + k) := by
  constructor
  · intro hall k hk
    have hx : (addr + BitVec.ofNat 32 k).toNat = addr.toNat + k := by
      rw [BitVec.toNat_add, BitVec.toNat_ofNat]
      omega
    rw [← hx, ← permitted_iff_covered h]
    exact hall _ ((covers_iff hroom).mpr ⟨k, hk, hx⟩)
  · intro hall x hx
    obtain ⟨k, hk, hx⟩ := (covers_iff hroom).mp hx
    rw [permitted_iff_covered h, hx]
    exact hall k hk

/-- Without SUPERUSER, all bytes of a permitted word access are permitted exactly
when the word ends inside the region it starts in, or an opened region begins
right behind that one. -/
theorem permitted_bytes_iff (t : Target) (r : Registry) (h : isSuperuserActive r = false)
    (addr : Word) (hperm : Permitted t r addr) :
    (∀ x, ByteMemory.Covers addr x → Permitted t r x) ↔
      ∃ g ∈ regions t, g.span.Has addr.toNat ∧
        (addr.toNat + 3 ≤ g.span.last ∨
          ∃ g' ∈ regions t, g'.opened r = true ∧ g'.span.Follows g.span) := by
  have hheld : held r CapId.superUser.index = false := (isSuperuserActive_eq r).symm.trans h
  obtain ⟨s, hs, hhas⟩ := (permitted_iff_covered hheld).mp hperm
  obtain ⟨g, hg, hopen, rfl⟩ := mem_openSpans.mp hs
  have hsub := openSpans_sublist t r
  have hroom : addr.toNat + 3 < 2 ^ 32 :=
    Nat.lt_of_le_of_lt (Nat.add_le_add_right hhas.2 3) (regions_below t g hg)
  rw [bytes_permitted_iff hheld hroom, covered_access_iff ((regions_apart t).sublist hsub)
    ((regions_wide t).subset hsub.subset) (by decide) hs hhas]
  constructor
  · rintro (hin | ⟨s', hs', hfollows⟩)
    · exact ⟨g, hg, hhas, .inl hin⟩
    · obtain ⟨g', hg', hopen', rfl⟩ := mem_openSpans.mp hs'
      exact ⟨g, hg, hhas, .inr ⟨g', hg', hopen', hfollows⟩⟩
  · rintro ⟨g₁, hg₁, hhas₁, hend⟩
    -- the region of `addr` is the one found above
    have hspan : g₁.span = g.span := (regions_apart t).unique (List.mem_map_of_mem hg₁)
      (List.mem_map_of_mem hg) hhas₁ hhas
    rw [hspan] at hend
    rcases hend with hin | ⟨g', hg', hopen', hfollows⟩
    · exact .inl hin
    · exact .inr ⟨g'.span, mem_openSpans.mpr ⟨g', hg', hopen', rfl⟩, hfollows⟩

/-- GPIOA and GPIOB of the ARM map are neighbours: with both claimed, a word that
begins in the last bytes of the one ends in the other. With GPIOA alone the same
word is let through into GPIOB. -/
theorem permitted_bytes_across_gpio :
    Permitted .arm (acquire (acquire free CapId.gpioA.index).2 CapId.gpioB.index).2
        0x40020401#32 ∧
      ¬ ∀ x, ByteMemory.Covers 0x400203FE#32 x →
        Permitted .arm (acquire free CapId.gpioA.index).2 x := by
  have hboth := (permitted_bytes_iff .arm
    (acquire (acquire free CapId.gpioA.index).2 CapId.gpioB.index).2 (by decide)
    0x400203FE#32 (by decide)).mpr (by decide)
  have halone := permitted_bytes_iff .arm (acquire free CapId.gpioA.index).2 (by decide)
    0x400203FE#32 (by decide)
  exact ⟨hboth _ (by decide), fun h => absurd (halone.mp h) (by decide)⟩

/-- The RAM of the ARM map ends one address past a multiple of four: the word there
is permitted, and its last three bytes are not. -/
theorem permitted_bytes_spill :
    (isSuperuserActive free = false ∧ Permitted .arm free 0x2001C000#32 ∧
        ByteMemory.Covers 0x2001C000#32 0x2001C001#32 ∧ ¬ Permitted .arm free 0x2001C001#32) ∧
      ¬ ∀ (t : Target) (r : Registry) (addr : Word), isSuperuserActive r = false →
        Permitted t r addr → ∀ x, ByteMemory.Covers addr x → Permitted t r x := by
  have hram : isSuperuserActive free = false ∧ Permitted .arm free 0x2001C000#32 ∧
      ByteMemory.Covers 0x2001C000#32 0x2001C001#32 ∧ ¬ Permitted .arm free 0x2001C001#32 := by
    decide
  exact ⟨hram, fun hall => hram.2.2.2 (hall .arm free _ hram.1 hram.2.1 _ hram.2.2.1)⟩

end HolyRust.Registry
