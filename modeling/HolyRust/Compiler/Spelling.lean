import HolyRust.Compiler.Printing

/-!
Every way to write a line.

* `TokenText t text` — the texts that are read as one token: a literal may have
  either radix, leading zeros and underscores.
* `Written ts text` — the tokens in order with any whitespace around them, none at
  all where the next byte does not continue a word.
* `toks_written` — such a text lexes to exactly these tokens.
-/

namespace HolyRust.Lexer

/-! ### Numerals -/

/-- The number that digits spell behind a value, highest first. -/
def numeral (base value : Nat) (ds : List Word) : Nat :=
  ds.foldl (fun value d => value * base + d.toNat) value

@[simp] theorem numeral_nil (base value : Nat) : numeral base value [] = value := rfl

@[simp] theorem numeral_cons (base value : Nat) (d : Word) (ds : List Word) :
    numeral base value (d :: ds) = numeral base (value * base + d.toNat) ds := rfl

theorem le_numeral {base : Nat} (hbase : 0 < base) : ∀ (ds : List Word) (value : Nat),
    value ≤ numeral base value ds := by
  intro ds
  induction ds with
  | nil => exact fun value => Nat.le_refl value
  | cons d ds ih =>
      intro value
      calc value ≤ value * base := Nat.le_mul_of_pos_right value hbase
        _ ≤ value * base + d.toNat := Nat.le_add_right _ _
        _ ≤ numeral base value (d :: ds) := ih _

/-- The digit loop over a run of digits and underscores. The value never shrinks
along the run, so nothing overflows if the whole numeral fits. -/
theorem digitLoop_run {digit : Byte → Option Word} {v : Word} (base : Word) (hbase : 0 < base.toNat)
    (skip : Byte → Bool) (tail : List Byte) : ∀ {run : List Byte} (value : Word) (n : Nat),
      (∀ b ∈ run, digit b = none → b = ascii '_') →
      numeral base.toNat value.toNat (run.filterMap digit) = v.toNat →
        digitLoop digit base skip (run ++ tail) value n =
          digitLoop digit base skip tail v (n + run.length) := by
  intro run
  induction run with
  | nil =>
      intro value n _ hv
      rw [show value = v from BitVec.eq_of_toNat_eq hv]
      rfl
  | cons b bs ih =>
      intro value n hrun hv
      have hbs : ∀ c ∈ bs, digit c = none → c = ascii '_' :=
        fun c hc => hrun c (List.mem_cons_of_mem b hc)
      have hlen : n + (b :: bs).length = n + 1 + bs.length := by
        rw [List.length_cons]
        omega
      rw [List.cons_append, hlen]
      cases hdigit : digit b with
      | none =>
          rw [List.filterMap_cons_none hdigit] at hv
          have hunder := hrun b List.mem_cons_self hdigit
          rw [← ih value (n + 1) hbs hv]
          simp only [digitLoop, hdigit]
          simp [hunder]
      | some d =>
          rw [List.filterMap_cons_some hdigit, numeral_cons] at hv
          have hlt : value.toNat * base.toNat + d.toNat < 2 ^ 32 := by
            have hle := le_numeral hbase (bs.filterMap digit) (value.toNat * base.toNat + d.toNat)
            have := v.isLt
            omega
          have hnext : value.toNat * base.toNat + d.toNat =
              (BitVec.ofNat 32 (value.toNat * base.toNat + d.toNat)).toNat := by
            rw [BitVec.toNat_ofNat, Nat.mod_eq_of_lt hlt]
          rw [digitLoop_cons hdigit hnext]
          rw [hnext] at hv
          exact ih _ (n + 1) hbs hv

/-! ### One token -/

/-- The texts that are read as one token. -/
inductive TokenText : Token → List Byte → Prop where
  | printed {t : Token} {text : List Byte} (h : Spells t text) : TokenText t text
  | decimal {value : Word} {b : Byte} {run : List Byte} (hb : isAsciiDigit b = true)
      (hrun : ∀ c ∈ run, isAsciiDigit c = true ∨ c = ascii '_')
      (hv : numeral 10 0 ((b :: run).filterMap decDigit) = value.toNat) :
      TokenText (.literal value) (b :: run)
  | hex {value : Word} {x : Byte} {run : List Byte} (hx : x = ascii 'x' ∨ x = ascii 'X')
      (hrun : ∀ c ∈ run, isAsciiHexdigit c = true ∨ c = ascii '_')
      (hdigit : ∃ c ∈ run, isAsciiHexdigit c = true)
      (hv : numeral 16 0 (run.filterMap hexDigit) = value.toNat) :
      TokenText (.literal value) (ascii '0' :: x :: run)

theorem decDigit_eq_none {b : Byte} (h : decDigit b = none) : isAsciiDigit b = false := by
  revert b
  decide

theorem hexDigit_eq_none {b : Byte} (h : hexDigit b = none) : isAsciiHexdigit b = false := by
  revert b
  decide

theorem under_not_x {b : Byte} (h : isAsciiDigit b = true ∨ b = ascii '_') :
    b ≠ ascii 'x' ∧ b ≠ ascii 'X' := by
  revert b
  decide

theorem TokenText.head {t : Token} {text : List Byte} (h : TokenText t text) :
    ∃ b bs, text = b :: bs ∧ isWhitespace b = false := by
  cases h with
  | printed h => exact h.head
  | decimal hb => exact ⟨_, _, rfl, (digit_class hb).1⟩
  | hex => exact ⟨_, _, rfl, by decide⟩

theorem TokenText.ne_eof {t : Token} {text : List Byte} (h : TokenText t text) : t ≠ .eof := by
  cases h with
  | printed h => cases h <;> simp
  | decimal => simp
  | hex => simp

theorem nextToken_text {t : Token} {text : List Byte} (htext : TokenText t text) {lx : Lexer}
    {tail : List Byte} (h : lx.trimmed = text ++ tail) (htail : isWord t = true → Cut tail) :
    ∃ lx' : Lexer, lx.nextToken = some (t, lx') ∧ lx'.rest = tail := by
  cases htext with
  | printed hspell => exact nextToken_spelled hspell h htail
  | @decimal value b run hb hrun hv =>
      have hcut : Cut tail := htail rfl
      have hunder : ∀ c ∈ b :: run, decDigit c = none → c = ascii '_' := by
        intro c hc hnone
        have hno := decDigit_eq_none hnone
        rcases List.mem_cons.mp hc with rfl | hc
        · exact absurd (hno.symm.trans hb) Bool.false_ne_true
        · exact (hrun c hc).resolve_left (by simp [hno])
      have hscan := digitLoop_run 10 (by decide)
        (fun b => isAsciiDigit b || b == ascii '_') tail 0 0 hunder hv
      rw [digitLoop_decimal_cut hcut, Nat.zero_add] at hscan
      refine nextToken_decimal_scan h hb ?_ hscan
      intro c hc
      cases run with
      | nil =>
          obtain ⟨_, _, _, hx, hX⟩ := not_literal_of_cut (hcut c hc)
          exact ⟨hx, hX⟩
      | cons d ds =>
          obtain rfl : d = c := by simpa using hc
          exact under_not_x (hrun d List.mem_cons_self)
  | @hex value x run hx hrun hdigit hv =>
      have hunder : ∀ c ∈ run, hexDigit c = none → c = ascii '_' := fun c hc hnone =>
        (hrun c hc).resolve_left (by simp [hexDigit_eq_none hnone])
      have hscan := digitLoop_run 16 (by decide)
        (fun b => isAsciiHexdigit b || b == ascii '_') tail 0 0 hunder hv
      rw [digitLoop_hex_cut (htail rfl), Nat.zero_add] at hscan
      obtain ⟨c, hc, _⟩ := hdigit
      exact nextToken_hex_scan h hx (List.ne_nil_of_mem hc) hscan

/-! ### Whole texts -/

/-- The tokens in order with any whitespace around them. -/
inductive Written : List Token → List Byte → Prop where
  | nil {gap : List Byte} (hgap : Blank gap) : Written [] gap
  | cons {t : Token} {ts : List Token} {gap text rest : List Byte} (hgap : Blank gap)
      (htext : TokenText t text) (hcut : isWord t = true → Cut rest) (hrest : Written ts rest) :
      Written (t :: ts) (gap ++ text ++ rest)

/-- A keyword, a name or a number in front. -/
theorem Written.word {t : Token} {ts : List Token} {gap text rest : List Byte} (hgap : Blank gap)
    (htext : TokenText t text) (hcut : Cut rest) (h : Written ts rest) :
    Written (t :: ts) (gap ++ text ++ rest) :=
  .cons hgap htext (fun _ => hcut) h

/-- A token of one byte in front. -/
theorem Written.mark {t : Token} {ts : List Token} {gap text rest : List Byte} (hgap : Blank gap)
    (htext : TokenText t text) (ht : isWord t = false) (h : Written ts rest) :
    Written (t :: ts) (gap ++ text ++ rest) :=
  .cons hgap htext (fun hword => absurd (ht.symm.trans hword) Bool.false_ne_true) h

theorem Blank.append {ws ws' : List Byte} (h : Blank ws) (h' : Blank ws') : Blank (ws ++ ws') := by
  intro b hb
  rcases List.mem_append.mp hb with hb | hb
  · exact h b hb
  · exact h' b hb

/-- More whitespace in front changes nothing. -/
theorem Written.blank_append {ts : List Token} {ws text : List Byte} (hws : Blank ws)
    (h : Written ts text) : Written ts (ws ++ text) := by
  cases h with
  | nil hgap => exact .nil (hws.append hgap)
  | @cons t ts gap text rest hgap htext hcut hrest =>
      rw [← List.append_assoc, ← List.append_assoc]
      exact .cons (hws.append hgap) htext hcut hrest

theorem toks_written {ts : List Token} {text : List Byte} (h : Written ts text) :
    ∀ {lx : Lexer}, lx.rest = text → lx.toks = ts := by
  induction h with
  | nil hgap =>
      intro lx hrest
      exact toks_of_trimmed_nil (List.dropWhile_eq_nil_iff.mpr (hrest ▸ hgap))
  | @cons t ts gap text rest hgap htext hcut _ ih =>
      intro lx hrest
      obtain ⟨b, bs, rfl, hb⟩ := htext.head
      rw [List.append_assoc] at hrest
      have htrim : lx.trimmed = b :: bs ++ rest := trimmed_of_blank hgap hb hrest
      obtain ⟨lx', hnext, hrest'⟩ := nextToken_text htext htrim hcut
      rw [toks_of_token hnext htext.ne_eof, ih hrest']

/-- The text of a line of tokens. -/
theorem toks_new_written {ts : List Token} {line : List Byte} (h : Written ts line) :
    (new line).toks = ts :=
  toks_written h (rest_new line)

end HolyRust.Lexer
