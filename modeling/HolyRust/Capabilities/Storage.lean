import HolyRust.Capabilities.Registry
import HolyRust.Kernel.Memory

/-!
`REGISTRY_BITS` where the linker scripts put it (`memory.x`, `memory-riscv.x`,
section `.capability_registry`): eight words of data memory.

* `load_store` — what is stored is what is read back.
* `load_congr` — the registry is a function of its 32 bytes.
* `load_applyWrites` — writes that touch none of them leave the registry alone.
-/

namespace HolyRust.Registry

open ByteMemory (Covers readWord writeWord applyWrites)

/-- Origin of the `registry` region. -/
def base : Target → Word
  | .arm => 0x20001000#32
  | .riscv32 => 0x80001800#32

/-- Address of word `i`. -/
def wordAddr (t : Target) (i : Nat) : Word := base t + BitVec.ofNat 32 (4 * i)

/-- The 32 bytes of the eight words. -/
def InRegistry (t : Target) (x : Word) : Prop := (x - base t).toNat < 32

instance (t : Target) (x : Word) : Decidable (InRegistry t x) := by
  unfold InRegistry; infer_instance

/-- The registry in a memory. -/
def load (t : Target) (mem : Memory) : Registry :=
  Vector.ofFn fun i => readWord mem (wordAddr t i)

/-- The memory with the registry's words replaced. -/
def store (t : Target) (mem : Memory) (r : Registry) : Memory :=
  applyWrites mem ((List.finRange 8).map fun i : Fin 8 => (wordAddr t i, r[i]))

theorem inRegistry_of_covers {t : Target} {x : Word} {i : Nat} (hi : i < 8)
    (h : Covers (wordAddr t i) x) : InRegistry t x := by
  unfold Covers wordAddr at h
  unfold InRegistry
  bv_omega

/-- Different words of the registry share no byte. -/
theorem wordAddr_apart {t : Target} {i j : Nat} (hi : i < 8) (hj : j < 8) (hne : i ≠ j) :
    ByteMemory.Apart (wordAddr t i) (wordAddr t j) := by
  intro x hx hx'
  unfold Covers wordAddr at hx hx'
  bv_omega

/-- The registry depends on its own bytes only. -/
theorem load_congr {t : Target} {mem mem' : Memory}
    (h : ∀ x, InRegistry t x → mem x = mem' x) : load t mem = load t mem' := by
  refine Vector.ext fun i hi => ?_
  simp only [load, Vector.getElem_ofFn]
  exact ByteMemory.readWord_congr (by decide) fun x hx => h x (inRegistry_of_covers hi hx)

/-- Writes that cover no registry byte leave the registry alone. -/
theorem load_applyWrites {t : Target} {mem : Memory} {writes : List (Word × Word)}
    (h : ∀ p ∈ writes, ∀ x, InRegistry t x → ¬ Covers p.1 x) :
    load t (applyWrites mem writes) = load t mem :=
  load_congr fun x hx => ByteMemory.applyWrites_of_not_covered fun p hp => h p hp x hx

/-- A word of the list is read back, whatever the words after it are. -/
private theorem readWord_applyWrites_map {t : Target} {r : Registry} {i : Fin 8} :
    ∀ {is : List (Fin 8)} {mem : Memory}, is.Nodup → i ∈ is →
      readWord (applyWrites mem (is.map fun j : Fin 8 => (wordAddr t j, r[j]))) (wordAddr t i) =
        r[i] := by
  intro is
  induction is with
  | nil => intro mem _ h; simp at h
  | cons j is ih =>
      intro mem hnodup hmem
      obtain ⟨hj, hnodup⟩ := List.nodup_cons.mp hnodup
      rw [List.map_cons, ByteMemory.applyWrites_cons]
      by_cases hij : i ∈ is
      · exact ih hnodup hij
      · obtain rfl : i = j := (List.mem_cons.mp hmem).resolve_right hij
        have frame : ∀ {js : List (Fin 8)} {m : Memory}, i ∉ js →
            readWord (applyWrites m (js.map fun j : Fin 8 => (wordAddr t j, r[j]))) (wordAddr t i) =
              readWord m (wordAddr t i) := by
          intro js m hi
          refine ByteMemory.readWord_congr (by decide) fun x hx =>
            ByteMemory.applyWrites_of_not_covered fun p hp => ?_
          obtain ⟨k, hk, rfl⟩ := List.mem_map.mp hp
          have hne : i.val ≠ k.val := fun h => hi (Fin.ext h ▸ hk)
          exact wordAddr_apart i.isLt k.isLt hne x hx
        rw [frame hj]
        exact ByteMemory.readWord_writeWord (by decide) _ _ _

theorem load_store (t : Target) (mem : Memory) (r : Registry) : load t (store t mem r) = r := by
  refine Vector.ext fun i hi => ?_
  simp only [load, Vector.getElem_ofFn, store]
  exact readWord_applyWrites_map (i := ⟨i, hi⟩) (List.nodup_finRange 8) (List.mem_finRange _)

end HolyRust.Registry
