import Mathlib.Data.BitVec

/-!
Byte-addressed memory with little-endian 32-bit words, over an address space of
any width. A word access at `a` touches the four bytes `a .. a+3`, wrapping at
the top of the space; nothing is assumed about alignment.

* `readWord_writeWord` — a word read back where it was just written.
* `writeWord_of_not_covers` — a write leaves every byte it does not cover alone.
* `readWord_congr` — a read depends on the four bytes it covers only.
* `applyWrites_of_not_covered` — the frame rule for a whole list of writes.
* `onlyBit_writeWord` — a word put back with one bit changed changes that bit of
  memory at most.
-/

namespace HolyRust.ByteMemory

/-- Memory over `w`-bit byte addresses. -/
abbrev Bytes (w : Nat) := BitVec w → BitVec 8

variable {w : Nat}

/-- The word access at `a` touches the byte at `x`. -/
def Covers (a x : BitVec w) : Prop := (x - a).toNat < 4

instance (a x : BitVec w) : Decidable (Covers a x) := by
  unfold Covers; infer_instance

def readWord (m : Bytes w) (a : BitVec w) : BitVec 32 :=
  m (a + 3#w) ++ m (a + 2#w) ++ m (a + 1#w) ++ m a

def writeWord (m : Bytes w) (a : BitVec w) (v : BitVec 32) : Bytes w := fun x =>
  if Covers a x then v.extractLsb' (8 * (x - a).toNat) 8 else m x

theorem writeWord_of_not_covers {m : Bytes w} {a x : BitVec w} {v : BitVec 32}
    (h : ¬ Covers a x) : writeWord m a v x = m x := by
  simp [writeWord, h]

theorem writeWord_of_covers {m : Bytes w} {a x : BitVec w} {v : BitVec 32}
    (h : Covers a x) : writeWord m a v x = v.extractLsb' (8 * (x - a).toNat) 8 := by
  simp [writeWord, h]

/-- The `k`-th byte after `a`, for the four bytes of a word. -/
private theorem add_sub_toNat (hw : 2 ≤ w) (a : BitVec w) {k : Nat} (hk : k < 4) :
    (a + BitVec.ofNat w k - a).toNat = k := by
  have hpow : 4 ≤ 2 ^ w := by
    calc 4 = 2 ^ 2 := rfl
      _ ≤ 2 ^ w := Nat.pow_le_pow_right (by omega) hw
  have heq : a + BitVec.ofNat w k - a = BitVec.ofNat w k := by
    rw [BitVec.add_comm, BitVec.add_sub_cancel]
  rw [heq, BitVec.toNat_ofNat, Nat.mod_eq_of_lt (by omega)]

/-- The four bytes of a word access, in an address space of at least two bits. -/
theorem covers_add (hw : 2 ≤ w) (a : BitVec w) {k : Nat} (hk : k < 4) :
    Covers a (a + BitVec.ofNat w k) := by
  unfold Covers
  rw [add_sub_toNat hw a hk]
  exact hk

theorem covers_self (a : BitVec w) : Covers a a := by
  simp [Covers]

/-- The four bytes of a word put back together give the word. -/
theorem concat_extract (v : BitVec 32) :
    v.extractLsb' 24 8 ++ v.extractLsb' 16 8 ++ v.extractLsb' 8 8 ++ v.extractLsb' 0 8 = v := by
  ext i hi
  simp only [BitVec.getElem_append, BitVec.getElem_extractLsb']
  rw [← BitVec.getLsbD_eq_getElem (x := v) hi]
  split_ifs <;> exact congrArg v.getLsbD (by omega)

theorem readWord_writeWord (hw : 2 ≤ w) (m : Bytes w) (a : BitVec w) (v : BitVec 32) :
    readWord (writeWord m a v) a = v := by
  have byte : ∀ k, k < 4 →
      writeWord m a v (a + BitVec.ofNat w k) = v.extractLsb' (8 * k) 8 := by
    intro k hk
    rw [writeWord_of_covers (covers_add hw a hk), add_sub_toNat hw a hk]
  have byte0 : writeWord m a v a = v.extractLsb' 0 8 := by
    simpa using byte 0 (by omega)
  unfold readWord
  rw [byte 3 (by omega), byte 2 (by omega), byte 1 (by omega), byte0]
  exact concat_extract v

/-- A read depends on the bytes it covers only. -/
theorem readWord_congr (hw : 2 ≤ w) {m m' : Bytes w} {a : BitVec w}
    (h : ∀ x, Covers a x → m x = m' x) : readWord m a = readWord m' a := by
  have byte : ∀ k, k < 4 → m (a + BitVec.ofNat w k) = m' (a + BitVec.ofNat w k) :=
    fun k hk => h _ (covers_add hw a hk)
  unfold readWord
  rw [byte 3 (by omega), byte 2 (by omega), byte 1 (by omega), h a (covers_self a)]

/-! ### Bits -/

/-- Bit `i` of the byte at `x` is bit `n` of the word at `a`. -/
def IsBit (a : BitVec w) (n : Nat) (x : BitVec w) (i : Nat) : Prop :=
  Covers a x ∧ n = 8 * (x - a).toNat + i

/-- Memory changed in bit `n` of the word at `a` at most. -/
def OnlyBit (a : BitVec w) (n : Nat) (m m' : Bytes w) : Prop :=
  ∀ x i, i < 8 → ¬ IsBit a n x i → (m' x).getLsbD i = (m x).getLsbD i

/-- The bits of a word are those of its bytes. -/
theorem getLsbD_readWord (m : Bytes w) {a x : BitVec w} (h : Covers a x) {i : Nat} (hi : i < 8) :
    (readWord m a).getLsbD (8 * (x - a).toNat + i) = (m x).getLsbD i := by
  have hx : x = a + BitVec.ofNat w (x - a).toNat := by
    rw [BitVec.ofNat_toNat, BitVec.setWidth_eq, BitVec.add_comm, BitVec.sub_add_cancel]
  unfold Covers at h
  generalize (x - a).toNat = k at h hx
  subst hx
  unfold readWord
  simp only [BitVec.getLsbD_append]
  obtain rfl | rfl | rfl | rfl : k = 0 ∨ k = 1 ∨ k = 2 ∨ k = 3 := by omega
  · simp [hi]
  · simp [show ¬ 8 + i < 8 by omega, hi]
  · simp [show ¬ 16 + i < 8 by omega, show ¬ 16 + i - 8 < 8 by omega,
      show 16 + i - 8 - 8 = i by omega, hi]
  · simp [show ¬ 24 + i < 8 by omega, show ¬ 24 + i - 8 < 8 by omega,
      show ¬ 24 + i - 8 - 8 < 8 by omega, show 24 + i - 8 - 8 - 8 = i by omega]

/-- Putting a word back with only its bit `n` changed. -/
theorem onlyBit_writeWord (m : Bytes w) {a : BitVec w} {n : Nat} {v : BitVec 32}
    (h : ∀ j, j ≠ n → v.getLsbD j = (readWord m a).getLsbD j) :
    OnlyBit a n m (writeWord m a v) := by
  intro x i hi hbit
  by_cases hx : Covers a x
  · have hne : 8 * (x - a).toNat + i ≠ n := fun heq => hbit ⟨hx, heq.symm⟩
    rw [writeWord_of_covers hx, BitVec.getLsbD_extractLsb', decide_eq_true hi, Bool.true_and,
      h _ hne, getLsbD_readWord m hx hi]
  · rw [writeWord_of_not_covers hx]

/-- Two word accesses touch no byte in common. -/
def Apart (a b : BitVec w) : Prop := ∀ x, Covers a x → ¬ Covers b x

/-- The memory after a list of word writes, first to last. -/
def applyWrites (m : Bytes w) (writes : List (BitVec w × BitVec 32)) : Bytes w :=
  writes.foldl (fun m p => writeWord m p.1 p.2) m

@[simp] theorem applyWrites_nil (m : Bytes w) : applyWrites m [] = m := rfl

@[simp] theorem applyWrites_cons (m : Bytes w) (p : BitVec w × BitVec 32)
    (ps : List (BitVec w × BitVec 32)) :
    applyWrites m (p :: ps) = applyWrites (writeWord m p.1 p.2) ps := rfl

theorem applyWrites_append (m : Bytes w) (ps qs : List (BitVec w × BitVec 32)) :
    applyWrites m (ps ++ qs) = applyWrites (applyWrites m ps) qs := by
  simp [applyWrites]

/-- A byte no write of the list covers keeps its content. -/
theorem applyWrites_of_not_covered {ps : List (BitVec w × BitVec 32)} {x : BitVec w} :
    ∀ {m : Bytes w}, (∀ p ∈ ps, ¬ Covers p.1 x) → applyWrites m ps x = m x := by
  induction ps with
  | nil => intro m _; rfl
  | cons p ps ih =>
      intro m h
      rw [applyWrites_cons, ih fun q hq => h q (List.mem_cons_of_mem _ hq)]
      exact writeWord_of_not_covers (h p List.mem_cons_self)

end HolyRust.ByteMemory
