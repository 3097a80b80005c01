import HolyRust.Words

/-!
The console formatters (`drivers/uart.rs`). Transmission is a stream of bytes
out of the machine, so each formatter is the text it puts; the UART's own
registers are no part of the modelled memory.
-/

namespace HolyRust.Uart

/-- The nibble digits of `write_hex_u32`. -/
def hexDigits : List Byte := bytes "0123456789ABCDEF"

/-- Write `0x` + 8 hex digits. -/
def writeHexU32 (value : Word) : List Byte :=
  bytes "0x" ++ [28, 24, 20, 16, 12, 8, 4, 0].map fun shift =>
    hexDigits.getD ((value >>> shift) &&& 0xF#32).toNat 0

/-- The digit loop of `write_dec_u32`, least digit first, with the slots left in
the scratch buffer; `none` is its bounds-check panic. -/
def decLoop : Nat → Word → Option (List Byte)
  | 0, _ => none
  | free + 1, value =>
      let digit := ascii '0' + (value % 10#32).setWidth 8
      if value / 10#32 = 0#32 then some [digit]
      else (decLoop free (value / 10#32)).map (digit :: ·)

/-- Write a decimal number. -/
def writeDecU32 (value : Word) : Option (List Byte) := (decLoop 10 value).map List.reverse

/-- Convenience: string + newline. -/
def writeLine (s : List Byte) : List Byte := s ++ bytes "\r\n"

/-- Ten slots hold the digits of every 32-bit value. -/
theorem decLoop_isSome : ∀ {free : Nat} {value : Word}, value.toNat < 10 ^ free → 0 < free →
    (decLoop free value).isSome = true := by
  intro free
  induction free with
  | zero => intro value _ h; omega
  | succ free ih =>
      intro value hlt _
      unfold decLoop
      split
      · rfl
      · rename_i hne
        rw [Option.isSome_map]
        have hdiv : (value / 10#32).toNat = value.toNat / 10 := by simp
        have hpos : 0 < value.toNat / 10 := by
          rcases Nat.eq_zero_or_pos (value.toNat / 10) with h0 | hpos
          · exact absurd (BitVec.eq_of_toNat_eq (by rw [hdiv, h0]; rfl)) hne
          · exact hpos
        have hsmall : value.toNat / 10 < 10 ^ free := by
          rw [Nat.div_lt_iff_lt_mul (by omega)]
          calc value.toNat < 10 ^ (free + 1) := hlt
            _ = 10 ^ free * 10 := by rw [Nat.pow_succ]
        have hfree : 0 < free := by
          rcases Nat.eq_zero_or_pos free with rfl | h
          · simp at hsmall; omega
          · exact h
        exact ih (by rw [hdiv]; exact hsmall) hfree

theorem writeDecU32_isSome (value : Word) : (writeDecU32 value).isSome = true := by
  have hlt : value.toNat < 10 ^ 10 := Nat.lt_of_lt_of_le value.isLt (by decide)
  rw [writeDecU32, Option.isSome_map]
  exact decLoop_isSome hlt (by decide)

end HolyRust.Uart
