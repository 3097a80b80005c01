import HolyRust.Capabilities.Storage
import HolyRust.Library.WordLoops

/-!
Start-up on ARM (`init_data_bss` in `kernel/memory.rs`, `boot_relocate_vectors` in
`kernel/interrupt.rs`) over the memory map of `memory.x` and `memory-layout.x`.

`.data` is loaded from flash and `.bss` is zeroed. The sections of the registry
and of the vector table are NOLOAD and lie outside both, and the relocation
copies the sixteen core entries of the table only. So the registry and the IRQ
slots come up as SRAM happened to be.

* `boot_frame` — what start-up does not write.
* `boot_data`, `boot_bss` — what it sets up whatever memory held.
* `declared_iff` — all statics are as declared exactly if the registry's words and
  the IRQ slots were zero at reset.
-/

namespace HolyRust.Boot

open ByteMemory (byteAt wordAt setWordAt copyN copyTo fillTo)

/-! ### The memory map -/

/-- The end of `flash`: 128K from 0x08000000. -/
def flashEnd : Nat := 0x08020000

/-- Origin of `sram`. -/
def sramBase : Nat := 0x20003000

/-- `_stack_top`: 52K from the origin. -/
def sramEnd : Nat := 0x20010000

/-- `__vector_start`: `.isr_vector` is the first section of `flash`. -/
def vectorStart : Nat := 0x08000000

/-- `__vector_end`: sixteen words; no static is placed in the section. -/
def vectorEnd : Nat := 0x08000040

/-- `RAM_VECTOR_TABLE`, at the origin of `vectors`. -/
def ramVectorTable : Nat := 0x20000400

/-- Number of dispatch slots in the SRAM vector table. -/
def vectorSlots : Nat := 256

/-- Vector Table Offset Register. -/
def vtor : Nat := 0xE000ED08

/-- The symbols that the sizes of `.text`, `.data` and `.bss` decide. -/
structure Sections where
  sidata : Nat
  sdata : Nat
  edata : Nat
  sbss : Nat
  ebss : Nat
  sdata_aligned : sdata % 4 = 0
  edata_aligned : edata % 4 = 0
  sbss_aligned : sbss % 4 = 0
  ebss_aligned : ebss % 4 = 0
  sram_le : sramBase ≤ sdata
  data_le : sdata ≤ edata
  data_bss : edata ≤ sbss
  bss_le : sbss ≤ ebss
  le_sram : ebss ≤ sramEnd
  flash_le : vectorEnd ≤ sidata
  le_flash : sidata + (edata - sdata) ≤ flashEnd

/-! ### Start-up -/

/-- Copy `.data` from its load address, then zero `.bss`. -/
def initDataBss (l : Sections) (m : Memory) : Memory :=
  fillTo 0 l.sbss l.ebss (copyTo l.sidata l.sdata l.edata m)

/-- Mirror the flash vector entries into `RAM_VECTOR_TABLE` and point VTOR at it. -/
def bootRelocateVectors (m : Memory) : Memory :=
  let words := min ((vectorEnd - vectorStart) / 4) vectorSlots
  setWordAt (copyN words vectorStart ramVectorTable m) vtor (BitVec.ofNat 32 ramVectorTable)

/-- From reset to the first line. -/
def boot (l : Sections) (m : Memory) : Memory := bootRelocateVectors (initDataBss l m)

/-! ### What the kernel finds -/

/-- `RAM_VECTOR_TABLE.irq_handlers[i]`, behind the sixteen core entries: a null
word is `None`. -/
def irqHandler (m : Memory) (i : Nat) : Option Word :=
  let word := wordAt m (ramVectorTable + 64 + 4 * i)
  if word = 0#32 then none else some word

/-- Nothing is claimed and no handler is installed. -/
structure NothingHeld (m : Memory) : Prop where
  registry : Registry.load .arm m = Registry.free
  handlers : ∀ i < 32, irqHandler m i = none

/-- The declared initial state, in the memory `m'` after start-up from `m`. -/
structure Declared (l : Sections) (m m' : Memory) : Prop where
  data : ∀ k < l.edata - l.sdata, byteAt m' (l.sdata + k) = byteAt m (l.sidata + k)
  bss : ∀ x, l.sbss ≤ x → x < l.ebss → byteAt m' x = 0
  held : NothingHeld m'

variable {l : Sections} {m : Memory}

/-- The places start-up writes. -/
def Written (l : Sections) (x : Nat) : Prop :=
  (l.sdata ≤ x ∧ x < l.edata) ∨ (l.sbss ≤ x ∧ x < l.ebss) ∨
    (ramVectorTable ≤ x ∧ x < ramVectorTable + 64) ∨ (vtor ≤ x ∧ x < vtor + 4)

theorem exists_words {a b : Nat} (ha : a % 4 = 0) (hb : b % 4 = 0) (hle : a ≤ b) :
    ∃ n, b = a + 4 * n :=
  ⟨(b - a) / 4, by omega⟩

theorem initDataBss_frame {x : Nat} (hx : x < 2 ^ 32) (hdata : x < l.sdata ∨ l.edata ≤ x)
    (hbss : x < l.sbss ∨ l.ebss ≤ x) : byteAt (initDataBss l m) x = byteAt m x := by
  obtain ⟨j, hj⟩ := exists_words l.sdata_aligned l.edata_aligned l.data_le
  obtain ⟨k, hk⟩ := exists_words l.sbss_aligned l.ebss_aligned l.bss_le
  have hsram := l.le_sram
  have hdb := l.data_bss
  unfold sramEnd at hsram
  unfold initDataBss
  rw [hj] at hdata hdb ⊢
  rw [hk] at hbss hsram ⊢
  rw [ByteMemory.fillTo_eq, ByteMemory.copyTo_eq, ByteMemory.fillN_frame (by omega) hx hbss,
    ByteMemory.copyN_frame (by omega) hx hdata]

/-- The relocation copies sixteen words. -/
theorem bootRelocateVectors_frame {x : Nat} (hx : x < 2 ^ 32)
    (htable : x < ramVectorTable ∨ ramVectorTable + 64 ≤ x) (hvtor : x < vtor ∨ vtor + 4 ≤ x) :
    byteAt (bootRelocateVectors m) x = byteAt m x := by
  have hwords : min ((vectorEnd - vectorStart) / 4) vectorSlots = 16 := by decide
  unfold bootRelocateVectors
  rw [hwords, ByteMemory.byteAt_setWordAt_out (by decide) hx hvtor,
    ByteMemory.copyN_frame (by decide) hx htable]

theorem boot_frame {x : Nat} (hx : x < 2 ^ 32) (h : ¬ Written l x) :
    byteAt (boot l m) x = byteAt m x := by
  unfold Written at h
  unfold boot
  rw [bootRelocateVectors_frame hx (by omega) (by omega),
    initDataBss_frame hx (by omega) (by omega)]

/-! ### Any memory at reset -/

/-- `.data` comes up as its flash image. -/
theorem boot_data (l : Sections) (m : Memory) {k : Nat} (hk : k < l.edata - l.sdata) :
    byteAt (boot l m) (l.sdata + k) = byteAt m (l.sidata + k) := by
  obtain ⟨j, hj⟩ := exists_words l.sdata_aligned l.edata_aligned l.data_le
  obtain ⟨n, hn⟩ := exists_words l.sbss_aligned l.ebss_aligned l.bss_le
  have hsram := l.sram_le
  have hend := l.le_sram
  have hflash := l.le_flash
  have hdb := l.data_bss
  unfold sramBase at hsram
  unfold sramEnd at hend
  unfold flashEnd at hflash
  unfold boot
  rw [bootRelocateVectors_frame (by omega) (by unfold ramVectorTable; omega)
    (by unfold vtor; omega)]
  unfold initDataBss
  rw [hn, hj, ByteMemory.fillTo_eq, ByteMemory.copyTo_eq,
    ByteMemory.fillN_frame (by omega) (by omega) (by omega),
    ByteMemory.copyN_copies (by omega) (by omega) (by omega) (by omega)]

/-- `.bss` comes up zero. -/
theorem boot_bss (l : Sections) (m : Memory) {x : Nat} (hle : l.sbss ≤ x) (hlt : x < l.ebss) :
    byteAt (boot l m) x = 0 := by
  obtain ⟨n, hn⟩ := exists_words l.sbss_aligned l.ebss_aligned l.bss_le
  obtain ⟨k, rfl⟩ : ∃ k, x = l.sbss + k := ⟨x - l.sbss, by omega⟩
  have hsram := l.sram_le
  have hend := l.le_sram
  have hdata := l.data_le
  have hdb := l.data_bss
  unfold sramBase at hsram
  unfold sramEnd at hend
  unfold boot
  rw [bootRelocateVectors_frame (by omega) (by unfold ramVectorTable; omega)
    (by unfold vtor; omega)]
  unfold initDataBss
  rw [hn, ByteMemory.fillTo_eq, ByteMemory.fillN_zero (by omega) (by omega)]

/-- Below `sram` only the core entries of the table are written. -/
theorem not_written_of_lt {x : Nat} (hx : x < sramBase)
    (htable : x < ramVectorTable ∨ ramVectorTable + 64 ≤ x) : ¬ Written l x := by
  have hsram := l.sram_le
  have hdata := l.data_le
  have hdb := l.data_bss
  have hvtor : sramBase < vtor := by decide
  rintro (h | h | h | h) <;> omega

/-- The registry comes up as SRAM held it. -/
theorem boot_registry (l : Sections) (m : Memory) :
    Registry.load .arm (boot l m) = Registry.load .arm m := by
  refine Registry.load_congr fun x hx => ?_
  have hrange : 0x20001000 ≤ x.toNat ∧ x.toNat < 0x20001020 := by
    unfold Registry.InRegistry Registry.base at hx
    bv_omega
  have hkept := boot_frame (l := l) (m := m) x.isLt
    (not_written_of_lt (by unfold sramBase; omega) (by unfold ramVectorTable; omega))
  simpa [byteAt] using hkept

/-- So do the IRQ slots. -/
theorem boot_irqHandler (l : Sections) (m : Memory) {i : Nat} (hi : i < 32) :
    irqHandler (boot l m) i = irqHandler m i := by
  have hword : wordAt (boot l m) (ramVectorTable + 64 + 4 * i) =
      wordAt m (ramVectorTable + 64 + 4 * i) := by
    refine ByteMemory.wordAt_congr fun k hk => boot_frame ?_ (not_written_of_lt ?_ ?_)
    · unfold ramVectorTable; omega
    · unfold ramVectorTable sramBase; omega
    · omega
  unfold irqHandler
  rw [hword]

theorem nothingHeld_boot (l : Sections) (m : Memory) : NothingHeld (boot l m) ↔ NothingHeld m := by
  constructor
  · intro h
    refine ⟨(boot_registry l m).symm.trans h.registry, fun i hi => ?_⟩
    exact (boot_irqHandler l m hi).symm.trans (h.handlers i hi)
  · intro h
    refine ⟨(boot_registry l m).trans h.registry, fun i hi => ?_⟩
    exact (boot_irqHandler l m hi).trans (h.handlers i hi)

/-- For every link and every memory at reset: the statics are as declared after
start-up exactly if SRAM held a zero registry and zero IRQ slots before it. -/
theorem declared_iff (l : Sections) (m : Memory) : Declared l m (boot l m) ↔ NothingHeld m := by
  constructor
  · intro h
    exact (nothingHeld_boot l m).mp h.held
  · intro h
    exact ⟨fun _ hk => boot_data l m hk, fun _ hle hlt => boot_bss l m hle hlt,
      (nothingHeld_boot l m).mpr h⟩

/-- A link with four bytes of `.data` and eight of `.bss`. -/
def sampleSections : Sections where
  sidata := 0x08001000
  sdata := 0x20003000
  edata := 0x20003004
  sbss := 0x20003004
  ebss := 0x2000300C
  sdata_aligned := by decide
  edata_aligned := by decide
  sbss_aligned := by decide
  ebss_aligned := by decide
  sram_le := by decide
  data_le := by decide
  data_bss := by decide
  bss_le := by decide
  le_sram := by decide
  flash_le := by decide
  le_flash := by decide

/-- SRAM as a session leaves it that has claimed SUPERUSER. -/
def superuserSram : Memory :=
  Registry.store .arm (fun _ => 0) (Registry.acquire Registry.free Registry.CapId.superUser.index).2

/-- A reset with that SRAM boots with SUPERUSER held. -/
theorem boot_keeps_superuser :
    ¬ Declared sampleSections superuserSram (boot sampleSections superuserSram) ∧
      Registry.isSuperuserActive
        (Registry.load .arm (boot sampleSections superuserSram)) = true := by
  have hload : Registry.load .arm (boot sampleSections superuserSram) =
      (Registry.acquire Registry.free Registry.CapId.superUser.index).2 := by
    rw [boot_registry]
    exact Registry.load_store _ _ _
  constructor
  · intro h
    have hfree := hload.symm.trans h.held.registry
    exact absurd hfree (by decide)
  · rw [hload]
    decide

end HolyRust.Boot
