import HolyRust.Library.ByteMemory

/-!
Loops that copy and fill memory a word at a time, as start-up code does. A place
is a number below the size of the address space, so that ranges are intervals.

* `copyN`, `fillN` — a number of words; `copyTo`, `fillTo` — up to an end pointer,
  which is the same over whole words (`copyTo_eq`, `fillTo_eq`).
* `copyN_copies`, `fillN_fills` — what is in the range afterwards.
* `copyN_frame`, `fillN_frame` — nothing else changes.
-/

namespace HolyRust.ByteMemory

variable {w : Nat}

/-- The byte at a place. -/
def byteAt (m : Bytes w) (x : Nat) : BitVec 8 := m (BitVec.ofNat w x)

def wordAt (m : Bytes w) (x : Nat) : BitVec 32 := readWord m (BitVec.ofNat w x)

def setWordAt (m : Bytes w) (x : Nat) (v : BitVec 32) : Bytes w :=
  writeWord m (BitVec.ofNat w x) v

/-- The four places of a word. -/
theorem covers_place {a x : Nat} (ha : a + 4 ≤ 2 ^ w) (hx : x < 2 ^ w) :
    Covers (BitVec.ofNat w a) (BitVec.ofNat w x) ↔ a ≤ x ∧ x < a + 4 := by
  unfold Covers
  rw [BitVec.toNat_sub, BitVec.toNat_ofNat, BitVec.toNat_ofNat,
    Nat.mod_eq_of_lt (show a < 2 ^ w by omega), Nat.mod_eq_of_lt hx]
  by_cases hle : a ≤ x
  · have hsum : 2 ^ w - a + x = (x - a) + 2 ^ w := by omega
    rw [hsum, Nat.add_mod_right, Nat.mod_eq_of_lt (by omega)]
    omega
  · rw [Nat.mod_eq_of_lt (by omega)]
    omega

theorem byteAt_setWordAt_out {m : Bytes w} {a x : Nat} {v : BitVec 32} (ha : a + 4 ≤ 2 ^ w)
    (hx : x < 2 ^ w) (hout : x < a ∨ a + 4 ≤ x) : byteAt (setWordAt m a v) x = byteAt m x := by
  refine writeWord_of_not_covers fun hcov => ?_
  have := (covers_place ha hx).mp hcov
  omega

theorem byteAt_setWordAt_in {m : Bytes w} {a k : Nat} {v : BitVec 32} (ha : a + 4 ≤ 2 ^ w)
    (hk : k < 4) : byteAt (setWordAt m a v) (a + k) = v.extractLsb' (8 * k) 8 := by
  have hcov := (covers_place (w := w) ha (show a + k < 2 ^ w by omega)).mpr (by omega)
  unfold byteAt setWordAt
  rw [writeWord_of_covers hcov, BitVec.toNat_sub, BitVec.toNat_ofNat, BitVec.toNat_ofNat,
    Nat.mod_eq_of_lt (show a < 2 ^ w by omega), Nat.mod_eq_of_lt (show a + k < 2 ^ w by omega)]
  have hsum : 2 ^ w - a + (a + k) = k + 2 ^ w := by omega
  rw [hsum, Nat.add_mod_right, Nat.mod_eq_of_lt (by omega)]

/-- The bytes of four put together. -/
theorem extract_concat (b3 b2 b1 b0 : BitVec 8) :
    (b3 ++ b2 ++ b1 ++ b0).extractLsb' 0 8 = b0 ∧ (b3 ++ b2 ++ b1 ++ b0).extractLsb' 8 8 = b1 ∧
      (b3 ++ b2 ++ b1 ++ b0).extractLsb' 16 8 = b2 ∧
      (b3 ++ b2 ++ b1 ++ b0).extractLsb' 24 8 = b3 := by
  have bit : ∀ (b : BitVec 8) {i j : Nat}, i = j → b.getLsbD i = b.getLsbD j :=
    fun b _ _ h => congrArg b.getLsbD h
  refine ⟨?_, ?_, ?_, ?_⟩ <;>
  · ext i hi
    rw [BitVec.getElem_extractLsb', ← BitVec.getLsbD_eq_getElem hi]
    simp only [BitVec.getLsbD_append]
    split_ifs <;> first | omega | exact bit _ (by omega)

/-- A byte of a word read. -/
theorem extract_wordAt (m : Bytes w) (a : Nat) {k : Nat} (hk : k < 4) :
    (wordAt m a).extractLsb' (8 * k) 8 = byteAt m (a + k) := by
  have hplace : ∀ j, BitVec.ofNat w a + BitVec.ofNat w j = BitVec.ofNat w (a + j) :=
    fun j => (BitVec.ofNat_add a j).symm
  obtain ⟨h0, h1, h2, h3⟩ := extract_concat (byteAt m (a + 3)) (byteAt m (a + 2))
    (byteAt m (a + 1)) (byteAt m a)
  unfold wordAt readWord
  rw [hplace, hplace, hplace]
  obtain rfl | rfl | rfl | rfl : k = 0 ∨ k = 1 ∨ k = 2 ∨ k = 3 := by omega
  · exact h0
  · exact h1
  · exact h2
  · exact h3

theorem wordAt_congr {m m' : Bytes w} {a : Nat}
    (h : ∀ k < 4, byteAt m (a + k) = byteAt m' (a + k)) : wordAt m a = wordAt m' a := by
  have hplace : ∀ j, BitVec.ofNat w a + BitVec.ofNat w j = BitVec.ofNat w (a + j) :=
    fun j => (BitVec.ofNat_add a j).symm
  unfold byteAt at h
  unfold wordAt readWord
  rw [hplace, hplace, hplace, h 3 (by omega), h 2 (by omega), h 1 (by omega)]
  have h0 := h 0 (by omega)
  rw [Nat.add_zero] at h0
  rw [h0]

/-! ### Copying -/

/-- `n` words copied, first to last. -/
def copyN : Nat → Nat → Nat → Bytes w → Bytes w
  | 0, _, _, m => m
  | n + 1, src, dst, m => copyN n (src + 4) (dst + 4) (setWordAt m dst (wordAt m src))

/-- `while dst < dstEnd`: a word copied and both pointers moved. -/
def copyTo (src dst dstEnd : Nat) (m : Bytes w) : Bytes w :=
  if dst < dstEnd then copyTo (src + 4) (dst + 4) dstEnd (setWordAt m dst (wordAt m src)) else m
termination_by dstEnd - dst

theorem copyTo_eq (n src dst : Nat) (m : Bytes w) :
    copyTo src dst (dst + 4 * n) m = copyN n src dst m := by
  induction n generalizing src dst m with
  | zero => rw [copyTo, if_neg (by omega), copyN]
  | succ n ih =>
      have hend : dst + 4 * (n + 1) = dst + 4 + 4 * n := by omega
      rw [copyTo, if_pos (by omega), hend, ih, copyN]

theorem copyN_frame {n src dst x : Nat} {m : Bytes w} (hdst : dst + 4 * n ≤ 2 ^ w)
    (hx : x < 2 ^ w) (hout : x < dst ∨ dst + 4 * n ≤ x) :
    byteAt (copyN n src dst m) x = byteAt m x := by
  induction n generalizing src dst m with
  | zero => rfl
  | succ n ih =>
      rw [copyN, ih (by omega) (by omega)]
      exact byteAt_setWordAt_out (by omega) hx (by omega)

/-- Over ranges that do not overlap, the copy is the source. -/
theorem copyN_copies {n src dst k : Nat} {m : Bytes w} (hdst : dst + 4 * n ≤ 2 ^ w)
    (hsrc : src + 4 * n ≤ 2 ^ w) (hapart : src + 4 * n ≤ dst ∨ dst + 4 * n ≤ src)
    (hk : k < 4 * n) : byteAt (copyN n src dst m) (dst + k) = byteAt m (src + k) := by
  induction n generalizing src dst k m with
  | zero => omega
  | succ n ih =>
      rw [copyN]
      by_cases hfirst : k < 4
      · rw [copyN_frame (by omega) (by omega) (by omega), byteAt_setWordAt_in (by omega) hfirst,
          extract_wordAt m src hfirst]
      · have hplace : dst + k = dst + 4 + (k - 4) := by omega
        have hsplace : src + k = src + 4 + (k - 4) := by omega
        rw [hplace, hsplace, ih (by omega) (by omega) (by omega) (by omega)]
        exact byteAt_setWordAt_out (by omega) (by omega) (by omega)

/-! ### Filling -/

/-- `n` words set to `v`, first to last. -/
def fillN (v : BitVec 32) : Nat → Nat → Bytes w → Bytes w
  | 0, _, m => m
  | n + 1, z, m => fillN v n (z + 4) (setWordAt m z v)

/-- `while z < zEnd`: a word set and the pointer moved. -/
def fillTo (v : BitVec 32) (z zEnd : Nat) (m : Bytes w) : Bytes w :=
  if z < zEnd then fillTo v (z + 4) zEnd (setWordAt m z v) else m
termination_by zEnd - z

theorem fillTo_eq (v : BitVec 32) (n z : Nat) (m : Bytes w) :
    fillTo v z (z + 4 * n) m = fillN v n z m := by
  induction n generalizing z m with
  | zero => rw [fillTo, if_neg (by omega), fillN]
  | succ n ih =>
      have hend : z + 4 * (n + 1) = z + 4 + 4 * n := by omega
      rw [fillTo, if_pos (by omega), hend, ih, fillN]

theorem fillN_frame {v : BitVec 32} {n z x : Nat} {m : Bytes w} (hz : z + 4 * n ≤ 2 ^ w)
    (hx : x < 2 ^ w) (hout : x < z ∨ z + 4 * n ≤ x) :
    byteAt (fillN v n z m) x = byteAt m x := by
  induction n generalizing z m with
  | zero => rfl
  | succ n ih =>
      rw [fillN, ih (by omega) (by omega)]
      exact byteAt_setWordAt_out (by omega) hx (by omega)

theorem fillN_zero {n z k : Nat} {m : Bytes w} (hz : z + 4 * n ≤ 2 ^ w) (hk : k < 4 * n) :
    byteAt (fillN 0 n z m) (z + k) = 0 := by
  induction n generalizing z k m with
  | zero => omega
  | succ n ih =>
      rw [fillN]
      by_cases hfirst : k < 4
      · rw [fillN_frame (by omega) (by omega) (by omega), byteAt_setWordAt_in (by omega) hfirst]
        exact BitVec.extractLsb'_zero
      · have hplace : z + k = z + 4 + (k - 4) := by omega
        rw [hplace, ih (by omega) (by omega)]

end HolyRust.ByteMemory
