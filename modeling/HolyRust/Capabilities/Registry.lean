import HolyRust.Words
import Mathlib.Data.BitVec

/-!
The capability registry (`capabilities/registry.rs`): one bit per hardware
resource in eight 32-bit words, the address map from physical addresses to
resources, and the parse-time access check.

The word-level operations `available`, `acquire` and `release` are stated once
through `held`, the set of bits that are on:

* `available_eq`, `acquire_fst` — what the operations answer;
* `held_acquire`, `held_release` — the bits after them, for every other id too;
* `ext_held` — the words hold nothing but those bits.
-/

namespace HolyRust

/-- `REGISTRY_BITS`: bit set = resource claimed. -/
abbrev Registry := Vector Word 8

namespace Registry

/-- Total tracked resources (8 words x 32 bits). -/
def maxResources : Nat := 256

/-- `REGISTRY_BITS` as declared: nothing claimed. -/
def free : Registry := Vector.replicate 8 0#32

/-- Hardware resource identifiers. -/
inductive CapId where
  | gpioA | gpioB | uart0 | spi0 | i2c0 | timer0 | dma0 | superUser
deriving DecidableEq, Repr

/-- `cap_id as usize`: the bit position in the registry. -/
def CapId.index : CapId → Nat
  | .gpioA => 0
  | .gpioB => 1
  | .uart0 => 2
  | .spi0 => 3
  | .i2c0 => 4
  | .timer0 => 5
  | .dma0 => 6
  | .superUser => 31

/-! ### The bitfield -/

/-- Returns true when no owner holds `id`; an id past the last word is never
available. -/
def available (r : Registry) (id : Nat) : Bool :=
  if h : id / 32 < 8 then r[id / 32] &&& (1#32 <<< (id % 32)) == 0#32 else false

def isClaimed (r : Registry) (id : Nat) : Bool := !available r id

/-- One fetch-or: the answer is whether the bit was clear before. -/
def acquire (r : Registry) (id : Nat) : Bool × Registry :=
  if h : id / 32 < 8 then
    let mask := 1#32 <<< (id % 32)
    let prev := r[id / 32]
    (prev &&& mask == 0#32, r.set (id / 32) (prev ||| mask))
  else (false, r)

/-- One fetch-and with the complement of the bit. -/
def release (r : Registry) (id : Nat) : Registry :=
  if h : id / 32 < 8 then
    r.set (id / 32) (r[id / 32] &&& ~~~(1#32 <<< (id % 32)))
  else r

/-- `SUPERUSER` is currently claimed. -/
def isSuperuserActive (r : Registry) : Bool := !available r CapId.superUser.index

/-! ### The address map -/

/-- ARM Cortex-M peripheral address ranges (STM32F405). -/
def armAddrToCap (addr : Word) : Option CapId :=
  if inRange 0x40020000#32 0x400203FF#32 addr then some .gpioA
  else if inRange 0x40020400#32 0x400207FF#32 addr then some .gpioB
  else if inRange 0x40011000#32 0x400113FF#32 addr then some .uart0
  else if inRange 0x40013000#32 0x400133FF#32 addr then some .spi0
  else if inRange 0x40015400#32 0x400157FF#32 addr then some .i2c0
  else if inRange 0x40000000#32 0x400003FF#32 addr then some .timer0
  else if inRange 0x40002000#32 0x400023FF#32 addr then some .dma0
  else none

/-- RISC-V SiFive FE310 peripheral address ranges. -/
def riscvAddrToCap (addr : Word) : Option CapId :=
  if inRange 0x10012000#32 0x10012FFF#32 addr then some .gpioA
  else if inRange 0x10013000#32 0x10013FFF#32 addr then some .uart0
  else if inRange 0x10014000#32 0x10014FFF#32 addr then some .spi0
  else if inRange 0x10020000#32 0x10020FFF#32 addr then some .i2c0
  else if inRange 0x10015000#32 0x10015FFF#32 addr then some .timer0
  else if inRange 0x10000000#32 0x10000FFF#32 addr then some .dma0
  else none

def addrToCapId : Target → Word → Option CapId
  | .arm => armAddrToCap
  | .riscv32 => riscvAddrToCap

/-- The `is_ram_flash` pattern of `check_access`. -/
def isRamFlash : Target → Word → Bool
  | .arm, addr =>
      inRange 0x08000000#32 0x080FFFFF#32 addr || inRange 0x20000000#32 0x2001C000#32 addr
  | .riscv32, addr =>
      inRange 0x20000000#32 0x2000FFFF#32 addr || inRange 0x80000000#32 0x8000FFFF#32 addr

/-- The parse-time check: superuser first, then the claimed peripheral, then
RAM and flash; everything else is refused. -/
def checkAccess (t : Target) (r : Registry) (addr : Word) : Except CapId Unit :=
  if isSuperuserActive r then .ok ()
  else
    match addrToCapId t addr with
    | some capId => if isClaimed r capId.index then .ok () else .error capId
    | none => if isRamFlash t addr then .ok () else .error .superUser

/-- `check_access` permits the address. -/
def Permitted (t : Target) (r : Registry) (addr : Word) : Prop := checkAccess t r addr = .ok ()

instance (t : Target) (r : Registry) (addr : Word) : Decidable (Permitted t r addr) := by
  unfold Permitted; infer_instance

/-! ### The bits that are on -/

/-- Bit `id` of the registry. -/
def held (r : Registry) (id : Nat) : Bool :=
  if h : id / 32 < 8 then r[id / 32].getLsbD (id % 32) else false

/-- Testing one bit with a mask. -/
theorem and_mask_beq_zero (w : Word) {i : Nat} (hi : i < 32) :
    (w &&& (1#32 <<< i) == 0#32) = !w.getLsbD i := by
  rw [Bool.eq_iff_iff]
  simp only [beq_iff_eq, Bool.not_eq_true']
  constructor
  · intro h
    have bit := congrArg (fun v => v.getLsbD i) h
    simpa [hi] using bit
  · intro h
    refine BitVec.eq_of_getLsbD_eq fun j hj => ?_
    by_cases hij : j = i
    · subst hij; simp [h]
    · by_cases hlt : j < i
      · simp [hlt]
      · have : j - i ≠ 0 := by omega
        simp [hlt, this]

theorem getLsbD_mask {i j : Nat} (hj : j < 32) :
    (1#32 <<< i).getLsbD j = decide (j = i) := by
  by_cases hij : j = i
  · subst hij; simp [hj]
  · by_cases hlt : j < i
    · simp [hlt, hij]
    · have : j - i ≠ 0 := by omega
      simp [hlt, hij, this]

theorem available_eq (r : Registry) (id : Nat) :
    available r id = (decide (id < maxResources) && !held r id) := by
  unfold available held maxResources
  split
  · have hlt : id < 256 := by omega
    rw [and_mask_beq_zero _ (Nat.mod_lt _ (by omega))]
    simp [hlt]
  · have hge : ¬ id < 256 := by omega
    simp [hge]

theorem acquire_fst (r : Registry) (id : Nat) :
    (acquire r id).1 = (decide (id < maxResources) && !held r id) := by
  unfold acquire held maxResources
  split
  · have hlt : id < 256 := by omega
    simp only [and_mask_beq_zero _ (Nat.mod_lt id (show 0 < 32 by omega))]
    simp [hlt]
  · have hge : ¬ id < 256 := by omega
    simp [hge]

/-- Setting a word changes the bits of that word only. -/
theorem held_set (r : Registry) {i : Nat} (hi : i < 8) (w : Word) (j : Nat) :
    held (r.set i w) j = if j / 32 = i then w.getLsbD (j % 32) else held r j := by
  unfold held
  by_cases hj : j / 32 < 8
  · simp only [hj, dite_true]
    by_cases heq : j / 32 = i
    · simp [heq]
    · rw [Vector.getElem_set_ne _ _ (Ne.symm heq), if_neg heq]
  · have : j / 32 ≠ i := by omega
    simp [hj, this]

/-- Acquiring turns on exactly the bit of its id. -/
theorem held_acquire (r : Registry) (id j : Nat) :
    held (acquire r id).2 j = (held r j || (decide (j = id) && decide (id < maxResources))) := by
  unfold acquire
  split
  · rename_i h
    have hlt : id < maxResources := by unfold maxResources; omega
    rw [held_set r h]
    by_cases hw : j / 32 = id / 32
    · rw [if_pos hw, BitVec.getLsbD_or, getLsbD_mask (Nat.mod_lt _ (by omega))]
      have hbit : decide (j % 32 = id % 32) = decide (j = id) :=
        decide_eq_decide.mpr ⟨fun h' => by omega, fun h' => by rw [h']⟩
      simp [held, ← hw, hbit, hlt, show j / 32 < 8 by omega]
    · rw [if_neg hw]
      have : j ≠ id := fun h' => hw (by rw [h'])
      simp [this]
  · rename_i h
    have hge : ¬ id < maxResources := by unfold maxResources; omega
    simp [hge]

/-- Releasing turns off exactly the bit of its id. -/
theorem held_release (r : Registry) (id j : Nat) :
    held (release r id) j = (held r j && decide (j ≠ id)) := by
  unfold release
  split
  · rename_i h
    rw [held_set r h]
    by_cases hw : j / 32 = id / 32
    · rw [if_pos hw, BitVec.getLsbD_and, BitVec.getLsbD_not,
        getLsbD_mask (Nat.mod_lt _ (by omega))]
      have hbit : decide (j % 32 = id % 32) = decide (j = id) :=
        decide_eq_decide.mpr ⟨fun h' => by omega, fun h' => by rw [h']⟩
      have hmod : j % 32 < 32 := Nat.mod_lt _ (by omega)
      simp [held, ← hw, hbit, hmod, show j / 32 < 8 by omega]
    · rw [if_neg hw]
      have : j ≠ id := fun h' => hw (by rw [h'])
      simp [this]
  · rename_i h
    by_cases hj : j = id
    · subst hj; simp [held, h]
    · simp [hj]

/-- The registry is determined by its bits. -/
theorem ext_held {r r' : Registry} (h : ∀ j, held r j = held r' j) : r = r' := by
  refine Vector.ext fun i hi => BitVec.eq_of_getLsbD_eq fun k hk => ?_
  have hdiv : (32 * i + k) / 32 = i := by omega
  have hmod : (32 * i + k) % 32 = k := by omega
  have := h (32 * i + k)
  simpa [held, hdiv, hmod, hi] using this

@[simp] theorem held_free (j : Nat) : held free j = false := by
  unfold held free
  split <;> simp

theorem isClaimed_index (r : Registry) (c : CapId) : isClaimed r c.index = held r c.index := by
  have hlt : c.index < maxResources := by cases c <;> decide
  simp [isClaimed, available_eq, hlt]

theorem isSuperuserActive_eq (r : Registry) :
    isSuperuserActive r = held r CapId.superUser.index :=
  isClaimed_index r .superUser

/-! ### The access check -/

/-- What `check_access` permits, as one proposition. -/
theorem permitted_iff {t : Target} {r : Registry} {addr : Word} :
    Permitted t r addr ↔
      held r CapId.superUser.index = true ∨
        (∃ c, addrToCapId t addr = some c ∧ held r c.index = true) ∨
        (addrToCapId t addr = none ∧ isRamFlash t addr = true) := by
  unfold Permitted checkAccess
  rw [isSuperuserActive_eq]
  cases hsu : held r CapId.superUser.index with
  | true => simp
  | false =>
      cases hcap : addrToCapId t addr with
      | none => cases isRamFlash t addr <;> simp
      | some c => cases hc : held r c.index <;> simp [isClaimed_index, hc]

end Registry

end HolyRust
