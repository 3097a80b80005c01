import HolyRust.Drivers.Effects

/-!
The registry as part of memory: which lines change it.

SRAM is open to every `poke`, and the registry is in SRAM, so a line may write
to it. What holds is the frame: no line but `cap_claim` and `cap_drop` touches a
registry byte that none of its own writes covers.

* `feedLine_writes` — the writes of a line: none, the one store of a `poke` or a
  register-bit command, or those of the called function.
* `registry_changed_by_own_writes_only` — and nothing else changes the registry.
-/

namespace HolyRust.RegistryFrame

open HolyRust.Repl
open HolyRust.Parser (Quiet)
open HolyRust.Sessions (Reachable)
open ByteMemory (Covers)
open Registry (InRegistry)

/-- Reading shows in the trace and nowhere else. -/
theorem traced_of_quiet {b b' : Bus} (h : Quiet b b') :
    ∃ es, b.Traced b' es ∧ MemEvent.writes es = [] := by
  obtain ⟨hmem, addrs, htrace⟩ := h
  have hnone : MemEvent.writes (addrs.map fun a => .read a (ByteMemory.readWord b.mem a)) = [] := by
    simp [MemEvent.writes, List.filterMap_map]
  exact ⟨_, ⟨htrace, by rw [hnone, hmem]; rfl⟩, hnone⟩

/-- The writes a line may make. -/
def OwnWrites (img : Image) (m : Machine) (line : List Byte) (ws : List (Word × Word)) : Prop :=
  ws = [] ∨ (∃ addr value, StoresAt img m line addr ∧ ws = [(addr, value)]) ∨
    ∃ ops, Calls img m line ops ∧ ws = writesOf ops

section Frame

variable {img : Image} {m m' : Machine} {input : Input}

/-- A line on the threaded path that does not change the registry itself leaves
a trace of its own writes. -/
theorem feedLine_writes (hreach : Reachable img.target img.code m.comp)
    (hline : ¬ CapLine img m input.line) (hpath : input.path = .threaded)
    (h : feedLine img m input = some m') :
    ∃ es, m.vm.bus.Traced m'.vm.bus es ∧ OwnWrites img m input.line (MemEvent.writes es) := by
  cases (feedLine_effect hreach h).1 with
  | reads hq _ =>
      obtain ⟨es, htraced, hnone⟩ := traced_of_quiet hq
      exact ⟨es, htraced, .inl hnone⟩
  | @store b addr value hq hstores hbus _ =>
      obtain ⟨es, htraced, hnone⟩ := traced_of_quiet hq
      refine ⟨_, htraced.trans (hbus ▸ b.traced_pokeU32 addr value), .inr (.inl ?_)⟩
      exact ⟨addr, value, hstores, by simp [hnone]⟩
  | @call b ops hq hcalls hbus _ =>
      obtain ⟨es, htraced, hnone⟩ := traced_of_quiet hq
      have hperform : m'.vm.bus = performAll ops b := by rw [hbus, hpath]; rfl
      obtain ⟨fs, hfs, hwrites⟩ := traced_performAll ops b
      refine ⟨_, htraced.trans (hperform ▸ hfs), .inr (.inr ⟨ops, hcalls, ?_⟩)⟩
      simp [hnone, hwrites]
  | cap _ hcap _ _ => exact absurd hcap hline

/-- What a trace leaves uncovered it leaves unchanged. -/
theorem registry_of_traced {t : Target} {b b' : Bus} {es : List MemEvent}
    (h : b.Traced b' es) :
    (∀ x, InRegistry t x → (∀ p ∈ MemEvent.writes es, ¬ Covers p.1 x) → b'.mem x = b.mem x) ∧
      ((∀ p ∈ MemEvent.writes es, ∀ x, InRegistry t x → ¬ Covers p.1 x) →
        Registry.load t b'.mem = Registry.load t b.mem) := by
  rw [h.mem]
  exact ⟨fun x _ hx => ByteMemory.applyWrites_of_not_covered hx,
    fun hall => Registry.load_applyWrites hall⟩

/-- A line other than `cap_claim` and `cap_drop` changes a registry byte only by
a write of its own to that byte; if none of its writes overlaps the registry,
all 256 bits stay. -/
theorem registry_changed_by_own_writes_only (hreach : Reachable img.target img.code m.comp)
    (hline : ¬ CapLine img m input.line) (hpath : input.path = .threaded)
    (h : feedLine img m input = some m') :
    ∃ es, m.vm.bus.Traced m'.vm.bus es ∧ OwnWrites img m input.line (MemEvent.writes es) ∧
      (∀ x, InRegistry img.target x → (∀ p ∈ MemEvent.writes es, ¬ Covers p.1 x) →
        m'.vm.bus.mem x = m.vm.bus.mem x) ∧
      ((∀ p ∈ MemEvent.writes es, ∀ x, InRegistry img.target x → ¬ Covers p.1 x) →
        m'.registry img.target = m.registry img.target) := by
  obtain ⟨es, htraced, hwrites⟩ := feedLine_writes hreach hline hpath h
  exact ⟨es, htraced, hwrites, registry_of_traced htraced⟩

end Frame

/-! ### A line that writes to the registry -/

/-- ARM at power-up, memory full of zeros. -/
def boot : Machine := .boot Sessions.blank

theorem not_capLine {img : Image} {m : Machine} {line : List Byte} {o : Outcome}
    (h : verdict img m line = .ok o) (hclaim : ∀ name, o ≠ .claim name)
    (hdrop : ∀ name, o ≠ .drop name) : ¬ CapLine img m line := by
  rintro ⟨name, hc | hc⟩
  · exact hclaim name (Except.ok.inj (h.symm.trans hc))
  · exact hdrop name (Except.ok.inj (h.symm.trans hc))

/-- A `poke` beside the registry. -/
theorem registry_kept_by_ram_poke : ∃ m' es,
    feedLine armImage boot (threadedLine "poke 0x20000100 1;") = some m' ∧
      boot.vm.bus.Traced m'.vm.bus es ∧
        OwnWrites armImage boot (bytes "poke 0x20000100 1;") (MemEvent.writes es) := by
  have hverdict : verdict armImage boot (bytes "poke 0x20000100 1;") =
      .ok (.enforcedPoke 0x20000100 1) := by
    decide +kernel
  have hsome : (feedLine armImage boot (threadedLine "poke 0x20000100 1;")).isSome := by
    decide +kernel
  obtain ⟨m', hm'⟩ := Option.isSome_iff_exists.mp hsome
  have hline : ¬ CapLine armImage boot (threadedLine "poke 0x20000100 1;").line :=
    not_capLine hverdict (by simp) (by simp)
  obtain ⟨es, htraced, hwrites, _⟩ :=
    registry_changed_by_own_writes_only (reachable_boot armImage _) hline rfl hm'
  exact ⟨m', es, hm', htraced, hwrites⟩

/-- One line claims everything. -/
theorem registry_forged_by_poke : ¬ ∀ (img : Image) (m : Machine) (input : Input) (m' : Machine),
    Reachable img.target img.code m.comp →
      Registry.isSuperuserActive (m.registry img.target) = false →
        ¬ CapLine img m input.line → input.path = .threaded →
          feedLine img m input = some m' → m'.registry img.target = m.registry img.target := by
  intro h
  have hverdict : verdict armImage boot (bytes "poke 0x20001000 0xFFFFFFFF;") =
      .ok (.enforcedPoke 0x20001000 0xFFFFFFFF) := by
    decide +kernel
  have hforged : (feedLine armImage boot (threadedLine "poke 0x20001000 0xFFFFFFFF;")).map
      (fun m' => Registry.isSuperuserActive (m'.registry .arm)) = some true := by
    decide +kernel
  obtain ⟨m', hm', hactive⟩ := Option.map_eq_some_iff.mp hforged
  have hkept := h armImage boot (threadedLine "poke 0x20001000 0xFFFFFFFF;") m'
    (reachable_boot armImage _)
    (by decide +kernel)
    (not_capLine hverdict (by simp) (by simp)) rfl hm'
  rw [show m'.registry .arm = boot.registry .arm from hkept] at hactive
  exact absurd hactive (by decide +kernel)

end HolyRust.RegistryFrame
