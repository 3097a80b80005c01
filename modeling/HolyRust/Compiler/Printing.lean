import HolyRust.Compiler.TokenStream
import HolyRust.Drivers.Uart

/-!
Printed tokens read back.

* `Spells t text` — the text written for a token; a literal is written by
  `write_dec_u32` or by `write_hex_u32`.
* `Printed ts text` — the tokens written with whitespace between them.
* `digitLoop_decLoop` and `digitLoop_nibbles` — the scanning loops undo the
  digit-emission loops, without an overflow on the way.
* `lex_print` — the printed text lexes back to its tokens, then to `eof` forever.
-/

namespace HolyRust

namespace Lexer

/-- The text written for a token. -/
inductive Spells : Token → List Byte → Prop where
  | kwFn : Spells .kwFn (bytes "fn")
  | kwLet : Spells .kwLet (bytes "let")
  | identifier {id : List Byte} (h : IsName id) : Spells (.identifier id) id
  | operator {op : Byte} (h : op ∈ operatorBytes) : Spells (.operator op) [op]
  | lParen : Spells .lParen (bytes "(")
  | rParen : Spells .rParen (bytes ")")
  | lBrace : Spells .lBrace (bytes "\x7b")
  | rBrace : Spells .rBrace (bytes "\x7d")
  | semicolon : Spells .semicolon (bytes ";")
  | comma : Spells .comma (bytes ",")
  | decimal {value : Word} {digits : List Byte} (h : Uart.writeDecU32 value = some digits) :
      Spells (.literal value) digits
  | hex (value : Word) : Spells (.literal value) (Uart.writeHexU32 value)

/-- A run of whitespace, possibly empty. -/
def Blank (ws : List Byte) : Prop := ∀ b ∈ ws, isWhitespace b = true

instance (ws : List Byte) : Decidable (Blank ws) :=
  inferInstanceAs (Decidable (∀ b ∈ ws, isWhitespace b = true))

/-- The tokens written with a non-empty run of whitespace between any two. -/
inductive Printed : List Token → List Byte → Prop where
  | nil : Printed [] []
  | last {t : Token} {text : List Byte} (h : Spells t text) : Printed [t] text
  | cons {t u : Token} {ts : List Token} {text gap rest : List Byte} (h : Spells t text)
      (hne : gap ≠ []) (hgap : Blank gap) (hrest : Printed (u :: ts) rest) :
      Printed (t :: u :: ts) (text ++ gap ++ rest)

/-- The answers of the next calls of `next_token`; `none` is a panic. -/
def answers : Nat → Lexer → Option (List Token)
  | 0, _ => some []
  | n + 1, lx =>
      match lx.nextToken with
      | none => none
      | some (t, lx) => (answers n lx).map (t :: ·)

/-- The first `n` of the tokens, with `eof` forever behind them. -/
def thenEof (ts : List Token) (n : Nat) : List Token := (ts ++ List.replicate n Token.eof).take n

/-! ### Decimal literals -/

theorem checked_of_lt {value base d : Word}
    (hlt : value.toNat * base.toNat + d.toNat < 2 ^ 32) :
    (checkedMul value base).bind (checkedAdd · d) = some (value * base + d) := by
  have hmul : value.toNat * base.toNat < 2 ^ 32 := by omega
  have hto : (value * base).toNat = value.toNat * base.toNat := by
    rw [BitVec.toNat_mul, Nat.mod_eq_of_lt hmul]
  rw [checkedMul, if_pos hmul, Option.bind_some, checkedAdd, if_pos (by rw [hto]; exact hlt)]

/-- One digit read: the value grows by it, and nothing overflows as long as the
result fits. -/
theorem digitLoop_cons {digit : Byte → Option Word} {base value d v : Word} {skip : Byte → Bool}
    {b : Byte} {bs : List Byte} {n : Nat} (hdigit : digit b = some d)
    (hv : value.toNat * base.toNat + d.toNat = v.toNat) :
    digitLoop digit base skip (b :: bs) value n = digitLoop digit base skip bs v (n + 1) := by
  have hlt : value.toNat * base.toNat + d.toNat < 2 ^ 32 := hv ▸ v.isLt
  have heq : value * base + d = v := by
    refine BitVec.eq_of_toNat_eq ?_
    rw [BitVec.toNat_add, BitVec.toNat_mul, Nat.mod_add_mod, hv, Nat.mod_eq_of_lt v.isLt]
  simp only [digitLoop, hdigit, checked_of_lt hlt, heq]

/-- The digit `write_dec_u32` emits is the one the scanner reads. -/
theorem decDigit_emitted (value : Word) :
    decDigit (ascii '0' + (value % 10#32).setWidth 8) = some (value % 10#32) := by
  have htable : ∀ k < 10, decDigit (ascii '0' + (BitVec.ofNat 32 k).setWidth 8) =
      some (BitVec.ofNat 32 k) := by decide
  have hlt : (value % 10#32).toNat < 10 := by
    rw [BitVec.toNat_umod]
    exact Nat.mod_lt _ (by decide)
  have := htable _ hlt
  rwa [BitVec.ofNat_toNat, BitVec.setWidth_eq] at this

/-- The digits come out lowest first and are read highest first, so the induction
goes down the value that is still to be emitted. -/
theorem digitLoop_decLoop {skip : Byte → Bool} :
    ∀ {free : Nat} {value : Word} {ds : List Byte}, Uart.decLoop free value = some ds →
      ∀ (tail : List Byte) (n : Nat),
        digitLoop decDigit 10 skip (ds.reverse ++ tail) 0 n =
          digitLoop decDigit 10 skip tail value (n + ds.length) := by
  intro free
  induction free with
  | zero => intro value ds h; cases h
  | succ free ih =>
      intro value ds h tail n
      have hread : ∀ (tail : List Byte) (n : Nat),
          digitLoop decDigit 10 skip
              ((ascii '0' + (value % 10#32).setWidth 8) :: tail) (value / 10#32) n =
            digitLoop decDigit 10 skip tail value (n + 1) := by
        intro tail n
        refine digitLoop_cons (decDigit_emitted value) ?_
        rw [BitVec.toNat_udiv, BitVec.toNat_umod]
        exact Nat.div_add_mod' _ _
      unfold Uart.decLoop at h
      split at h
      · rename_i hlast
        obtain rfl := Option.some.inj h
        rw [hlast] at hread
        exact hread tail n
      · obtain ⟨rest, hrest, rfl⟩ := Option.map_eq_some_iff.mp h
        rw [List.reverse_cons, List.append_assoc, ih hrest, List.singleton_append, hread,
          List.length_cons, Nat.add_assoc]

/-- `write_dec_u32` writes digits only, and at least one. -/
theorem decLoop_digits : ∀ {free : Nat} {value : Word} {ds : List Byte},
    Uart.decLoop free value = some ds → ds ≠ [] ∧ ∀ b ∈ ds, isAsciiDigit b = true := by
  have hdigit : ∀ value : Word,
      isAsciiDigit (ascii '0' + (value % 10#32).setWidth 8) = true := by
    intro value
    have := decDigit_emitted value
    unfold decDigit at this
    split at this
    · assumption
    · cases this
  intro free
  induction free with
  | zero => intro value ds h; cases h
  | succ free ih =>
      intro value ds h
      unfold Uart.decLoop at h
      split at h
      · obtain rfl := Option.some.inj h
        simpa using hdigit value
      · obtain ⟨rest, hrest, rfl⟩ := Option.map_eq_some_iff.mp h
        simpa using ⟨hdigit value, (ih hrest).2⟩

/-! ### Hexadecimal literals -/

/-- The digit `write_hex_u32` emits is the one the scanner reads. -/
theorem hexDigit_emitted (nibble : Word) (h : nibble.toNat < 16) :
    hexDigit (Uart.hexDigits.getD nibble.toNat 0) = some nibble := by
  have htable : ∀ k < 16, hexDigit (Uart.hexDigits.getD k 0) = some (BitVec.ofNat 32 k) := by
    decide
  have := htable _ h
  rwa [BitVec.ofNat_toNat, BitVec.setWidth_eq] at this

/-- The lowest `k` nibbles, read after the ones above them. -/
theorem digitLoop_nibbles {skip : Byte → Bool} (value : Word) (tail : List Byte) :
    ∀ (k n : Nat), digitLoop hexDigit 16 skip
        (((List.range k).reverse.map fun i =>
          Uart.hexDigits.getD ((value >>> (4 * i)) &&& 0xF#32).toNat 0) ++ tail)
        (value >>> (4 * k)) n =
      digitLoop hexDigit 16 skip tail value (n + k) := by
  intro k
  induction k with
  | zero => intro n; simp
  | succ k ih =>
      intro n
      have hnibble : ((value >>> (4 * k)) &&& 0xF#32).toNat = value.toNat / 2 ^ (4 * k) % 16 := by
        rw [BitVec.toNat_and, BitVec.toNat_ushiftRight, Nat.shiftRight_eq_div_pow]
        exact Nat.and_two_pow_sub_one_eq_mod _ 4
      rw [List.range_succ, List.reverse_append, List.reverse_singleton, List.singleton_append,
        List.map_cons, List.cons_append,
        digitLoop_cons (v := value >>> (4 * k)) (hexDigit_emitted _ (by omega)), ih,
        Nat.add_assoc, Nat.add_comm 1 k]
      rw [hnibble, BitVec.toNat_ushiftRight, BitVec.toNat_ushiftRight, Nat.shiftRight_eq_div_pow,
        Nat.shiftRight_eq_div_pow, Nat.mul_succ, Nat.pow_add, ← Nat.div_div_eq_div_mul]
      exact Nat.div_add_mod' _ 16

/-! ### One printed token -/

/-- Where a printed token ends: at whitespace or at the end of the text. -/
def Ended (tail : List Byte) : Prop := ∀ b ∈ tail.head?, isWhitespace b = true

/-- No byte follows that continues a word. -/
def Cut (tail : List Byte) : Prop := ∀ b ∈ tail.head?, isIdentByte b = false

instance (tail : List Byte) : Decidable (Cut tail) :=
  inferInstanceAs (Decidable (∀ b ∈ tail.head?, isIdentByte b = false))

theorem cut_cons {b : Byte} (h : isIdentByte b = false) (bs : List Byte) : Cut (b :: bs) := by
  intro c hc
  obtain rfl := Option.mem_some_iff.mp hc
  exact h

/-- The tokens whose text a further byte could continue. -/
def isWord : Token → Bool
  | .kwFn | .kwLet | .identifier _ | .literal _ => true
  | _ => false

theorem isIdentByte_of_whitespace {b : Byte} (h : isWhitespace b = true) :
    isIdentByte b = false := by
  revert b
  decide

theorem Ended.cut {tail : List Byte} (h : Ended tail) : Cut tail := fun b hb =>
  isIdentByte_of_whitespace (h b hb)

theorem not_literal_of_cut {b : Byte} (h : isIdentByte b = false) :
    decDigit b = none ∧ hexDigit b = none ∧ b ≠ ascii '_' ∧ b ≠ ascii 'x' ∧ b ≠ ascii 'X' := by
  revert b
  decide

theorem digit_class {b : Byte} (h : isAsciiDigit b = true) :
    isWhitespace b = false ∧ isIdentStart b = false ∧ b ≠ ascii 'x' ∧ b ≠ ascii 'X' := by
  revert b
  decide

/-- A digit loop stops where the token ends. -/
theorem digitLoop_ended {digit : Byte → Option Word} {base value : Word} {skip : Byte → Bool}
    {tail : List Byte} {n : Nat} (h : ∀ b ∈ tail.head?, digit b = none ∧ b ≠ ascii '_') :
    digitLoop digit base skip tail value n = .ok (value, n) := by
  cases tail with
  | nil => rfl
  | cons b bs =>
      obtain ⟨hdigit, hne⟩ := h b rfl
      simp [digitLoop, hdigit, hne]

theorem digitLoop_decimal_cut {value : Word} {skip : Byte → Bool} {tail : List Byte} {n : Nat}
    (h : Cut tail) : digitLoop decDigit 10 skip tail value n = .ok (value, n) :=
  digitLoop_ended fun b hb => by
    obtain ⟨hdigit, _, hunder, _⟩ := not_literal_of_cut (h b hb)
    exact ⟨hdigit, hunder⟩

theorem digitLoop_hex_cut {value : Word} {skip : Byte → Bool} {tail : List Byte} {n : Nat}
    (h : Cut tail) : digitLoop hexDigit 16 skip tail value n = .ok (value, n) :=
  digitLoop_ended fun b hb => by
    obtain ⟨_, hdigit, hunder, _⟩ := not_literal_of_cut (h b hb)
    exact ⟨hdigit, hunder⟩

/-- A decimal literal that the digit loop reads to its end. -/
theorem nextToken_decimal_scan {lx : Lexer} {b : Byte} {bs tail : List Byte} {value : Word}
    (h : lx.trimmed = b :: bs ++ tail) (hb : isAsciiDigit b = true)
    (hx : ∀ c ∈ (bs ++ tail).head?, c ≠ ascii 'x' ∧ c ≠ ascii 'X')
    (hscan : digitLoop decDigit 10 (fun b => isAsciiDigit b || b == ascii '_')
      (b :: bs ++ tail) 0 0 = .ok (value, (b :: bs).length)) :
    ∃ lx' : Lexer, lx.nextToken = some (.literal value, lx') ∧ lx'.rest = tail := by
  have hlex : lx.skipWhitespace.rest = b :: (bs ++ tail) := lx.rest_skip.trans h
  refine ⟨lx.skipWhitespace.advance (b :: bs).length, ?_, ?_⟩
  · rw [nextToken_of_trimmed h, if_neg (by simp [(digit_class hb).2.1]), if_pos hb,
      parseLiteral_eq hlex, if_neg ?_]
    · simp only [parseDecimal]
      rw [drop_cursor, hlex, ← List.cons_append, hscan]
      simp [advance]
    · rintro ⟨_, hhex | hhex⟩
      · exact (hx _ hhex).1 rfl
      · exact (hx _ hhex).2 rfl
  · rw [rest_advance, hlex]
    simp

/-- A hexadecimal literal that the digit loop reads to its end. -/
theorem nextToken_hex_scan {lx : Lexer} {x : Byte} {run tail : List Byte} {value : Word}
    (h : lx.trimmed = ascii '0' :: x :: run ++ tail) (hx : x = ascii 'x' ∨ x = ascii 'X')
    (hne : run ≠ [])
    (hscan : digitLoop hexDigit 16 (fun b => isAsciiHexdigit b || b == ascii '_')
      (run ++ tail) 0 0 = .ok (value, run.length)) :
    ∃ lx' : Lexer, lx.nextToken = some (.literal value, lx') ∧ lx'.rest = tail := by
  have hlex : lx.skipWhitespace.rest = ascii '0' :: x :: (run ++ tail) := lx.rest_skip.trans h
  have hdrop : (lx.skipWhitespace.advance 2).rest = run ++ tail := by
    rw [rest_advance, hlex]
    rfl
  have hpos : run.length ≠ 0 := by simpa using hne
  refine ⟨(lx.skipWhitespace.advance 2).advance run.length, ?_, ?_⟩
  · rw [nextToken_of_trimmed h, if_neg (by decide), if_pos (by decide), parseLiteral_eq hlex,
      if_pos ⟨rfl, hx.imp (congrArg some) (congrArg some)⟩]
    simp only [parseHex]
    rw [drop_cursor, hdrop, hscan]
    simp [advance, hpos]
  · rw [rest_advance, hdrop]
    simp

theorem nextToken_decimal {lx : Lexer} {value : Word} {digits tail : List Byte}
    (hdec : Uart.writeDecU32 value = some digits) (h : lx.trimmed = digits ++ tail)
    (htail : Cut tail) :
    ∃ lx' : Lexer, lx.nextToken = some (.literal value, lx') ∧ lx'.rest = tail := by
  obtain ⟨ds, hloop, rfl⟩ := Option.map_eq_some_iff.mp hdec
  obtain ⟨hne, hdigits⟩ := decLoop_digits hloop
  obtain ⟨b, bs, hcons⟩ := List.exists_cons_of_ne_nil (List.reverse_ne_nil_iff.mpr hne)
  have hall : ∀ c ∈ b :: bs, isAsciiDigit c = true := by
    intro c hc
    rw [← hcons, List.mem_reverse] at hc
    exact hdigits c hc
  have hread := @digitLoop_decLoop (fun b => isAsciiDigit b || b == ascii '_') _ _ _ hloop tail 0
  rw [digitLoop_decimal_cut htail, Nat.zero_add, ← List.length_reverse, hcons] at hread
  rw [hcons] at h
  refine nextToken_decimal_scan h (hall b List.mem_cons_self) ?_ hread
  -- the second byte is a digit or ends the token, so this is no hex prefix
  intro c hc
  cases bs with
  | nil =>
      obtain ⟨_, _, _, hx, hX⟩ := not_literal_of_cut (htail c hc)
      exact ⟨hx, hX⟩
  | cons d ds' =>
      obtain rfl : d = c := by simpa using hc
      exact (digit_class (hall d (by simp))).2.2

theorem nextToken_hex {lx : Lexer} {value : Word} {tail : List Byte}
    (h : lx.trimmed = Uart.writeHexU32 value ++ tail) (htail : Cut tail) :
    ∃ lx' : Lexer, lx.nextToken = some (.literal value, lx') ∧ lx'.rest = tail := by
  have hread := @digitLoop_nibbles (fun b => isAsciiHexdigit b || b == ascii '_') value tail 8 0
  have hzero : value >>> (4 * 8) = 0#32 := by
    refine BitVec.eq_of_toNat_eq ?_
    rw [BitVec.toNat_ushiftRight, Nat.shiftRight_eq_div_pow]
    exact Nat.div_eq_of_lt value.isLt
  rw [hzero, digitLoop_hex_cut htail] at hread
  exact nextToken_hex_scan h (.inl rfl) (by simp) hread

theorem nextToken_name {lx : Lexer} {word tail : List Byte} {b : Byte} {bs : List Byte}
    (hword : word = b :: bs) (hstart : isIdentStart b = true)
    (hbytes : ∀ c ∈ word, isIdentByte c = true) (h : lx.trimmed = word ++ tail)
    (htail : Cut tail) :
    ∃ lx' : Lexer, lx.nextToken =
        some (if word = bytes "fn" then .kwFn
          else if word = bytes "let" then .kwLet
          else .identifier word, lx') ∧ lx'.rest = tail := by
  subst hword
  exact nextToken_word h hstart hbytes htail

/-- A printed token is not blank at its start. -/
theorem Spells.head {t : Token} {text : List Byte} (h : Spells t text) :
    ∃ b bs, text = b :: bs ∧ isWhitespace b = false := by
  have hsingle : ∀ c, isWhitespace (ascii c) = false → ∃ b bs, [ascii c] = b :: bs ∧
      isWhitespace b = false := fun c hc => ⟨_, _, rfl, hc⟩
  cases h with
  | kwFn => exact ⟨ascii 'f', [ascii 'n'], by decide, by decide⟩
  | kwLet => exact ⟨ascii 'l', [ascii 'e', ascii 't'], by decide, by decide⟩
  | identifier hid =>
      obtain ⟨b, bs, hcons, hstart⟩ := hid.start
      exact ⟨b, bs, hcons, not_isWhitespace_of_start hstart⟩
  | operator hop =>
      have hall : ∀ b ∈ operatorBytes, isWhitespace b = false := by decide
      exact ⟨_, _, rfl, hall _ hop⟩
  | lParen => exact hsingle '(' (by decide)
  | rParen => exact hsingle ')' (by decide)
  | lBrace => exact hsingle '\x7b' (by decide)
  | rBrace => exact hsingle '\x7d' (by decide)
  | semicolon => exact hsingle ';' (by decide)
  | comma => exact hsingle ',' (by decide)
  | decimal hdec =>
      obtain ⟨ds, hloop, rfl⟩ := Option.map_eq_some_iff.mp hdec
      obtain ⟨hne, hdigits⟩ := decLoop_digits hloop
      obtain ⟨b, bs, hcons⟩ := List.exists_cons_of_ne_nil (List.reverse_ne_nil_iff.mpr hne)
      have hb : b ∈ ds := List.mem_reverse.mp (hcons ▸ List.mem_cons_self)
      exact ⟨b, bs, hcons, (digit_class (hdigits b hb)).1⟩
  | hex value => exact ⟨ascii '0', _, rfl, by decide⟩

/-- The token and its text are back, and the lexer stands behind it. -/
theorem nextToken_spelled {t : Token} {text : List Byte} (hspell : Spells t text) {lx : Lexer}
    {tail : List Byte} (h : lx.trimmed = text ++ tail) (htail : isWord t = true → Cut tail) :
    ∃ lx' : Lexer, lx.nextToken = some (t, lx') ∧ lx'.rest = tail := by
  cases hspell with
  | kwFn =>
      have hword : bytes "fn" = ascii 'f' :: [ascii 'n'] := by decide
      exact nextToken_name hword (by decide) (by decide) h (htail rfl)
  | kwLet =>
      have hword : bytes "let" = ascii 'l' :: [ascii 'e', ascii 't'] := by decide
      exact nextToken_name hword (by decide) (by decide) h (htail rfl)
  | identifier hid =>
      obtain ⟨b, bs, hcons, hstart⟩ := hid.start
      have hnext := nextToken_name hcons hstart hid.bytes_ok h (htail rfl)
      rwa [if_neg hid.ne_fn, if_neg hid.ne_let] at hnext
  | @operator op hop =>
      have hall : ∀ b ∈ operatorBytes, isIdentStart b = false ∧ isAsciiDigit b = false ∧
          punctuation b = .operator b := by decide
      obtain ⟨hstart, hdigit, hpunct⟩ := hall op hop
      rw [← hpunct]
      exact nextToken_punctuation h hstart hdigit
  | lParen => exact nextToken_punctuation (b := ascii '(') h (by decide) (by decide)
  | rParen => exact nextToken_punctuation (b := ascii ')') h (by decide) (by decide)
  | lBrace => exact nextToken_punctuation (b := ascii '\x7b') h (by decide) (by decide)
  | rBrace => exact nextToken_punctuation (b := ascii '\x7d') h (by decide) (by decide)
  | semicolon => exact nextToken_punctuation (b := ascii ';') h (by decide) (by decide)
  | comma => exact nextToken_punctuation (b := ascii ',') h (by decide) (by decide)
  | decimal hdec => exact nextToken_decimal hdec h (htail rfl)
  | hex value => exact nextToken_hex h (htail rfl)

/-! ### Whole texts -/

/-- At the end of the text every further call answers `eof`. -/
theorem answers_end : ∀ {n : Nat} {lx : Lexer}, Blank lx.rest →
    answers n lx = some (List.replicate n .eof) := by
  intro n
  induction n with
  | zero => intro lx _; rfl
  | succ n ih =>
      intro lx h
      have htrim : lx.trimmed = [] := List.dropWhile_eq_nil_iff.mpr h
      have hrest : lx.skipWhitespace.rest = [] := lx.rest_skip.trans htrim
      have hblank : Blank lx.skipWhitespace.rest := by
        rw [hrest]
        intro b hb
        cases hb
      simp only [answers, nextToken_end htrim, ih hblank, Option.map_some, List.replicate_succ]

theorem answers_of_token {lx lx' : Lexer} {t : Token} {ts : List Token}
    (h : lx.nextToken = some (t, lx'))
    (hrest : ∀ n, answers n lx' = some (thenEof ts n)) (n : Nat) :
    answers n lx = some (thenEof (t :: ts) n) := by
  cases n with
  | zero => rfl
  | succ n =>
      have htake : (ts ++ List.replicate (n + 1) Token.eof).take n = thenEof ts n := by
        rw [thenEof, List.take_append, List.take_append, List.take_replicate, List.take_replicate]
        congr 2
        omega
      simp only [answers, h, hrest, Option.map_some, thenEof, List.cons_append,
        List.take_succ_cons, htake]

theorem trimmed_spelled {t : Token} {text before tail : List Byte} {lx : Lexer}
    (hspell : Spells t text) (hbefore : Blank before) (h : lx.rest = before ++ (text ++ tail)) :
    lx.trimmed = text ++ tail := by
  obtain ⟨b, bs, rfl, hb⟩ := hspell.head
  exact trimmed_of_blank hbefore hb h

/-- Printed tokens, with any whitespace around them, come back in order, and then
`eof` forever. -/
theorem answers_printed {ts : List Token} {text : List Byte} (h : Printed ts text) :
    ∀ {lx : Lexer} {before after : List Byte}, Blank before → Blank after →
      lx.rest = before ++ (text ++ after) →
      ∀ n, answers n lx = some (thenEof ts n) := by
  have hended : ∀ {ws : List Byte}, Blank ws → ∀ rest, ws ≠ [] ∨ rest = [] →
      Ended (ws ++ rest) := by
    intro ws hws rest hor b hb
    cases ws with
    | nil =>
        rcases hor with hne | rfl
        · exact absurd rfl hne
        · cases hb
    | cons c cs =>
        obtain rfl : c = b := by simpa using hb
        exact hws c List.mem_cons_self
  induction h with
  | nil =>
      intro lx before after hbefore hafter hrest n
      have hblank : Blank lx.rest := by
        rw [hrest, List.nil_append]
        intro b hb
        rcases List.mem_append.mp hb with hb | hb
        · exact hbefore b hb
        · exact hafter b hb
      rw [answers_end hblank]
      simp [thenEof]
  | @last t text hspell =>
      intro lx before after hbefore hafter hrest n
      have htail : Ended after := by simpa using hended hafter [] (.inr rfl)
      obtain ⟨lx', hnext, hrest'⟩ :=
        nextToken_spelled hspell (trimmed_spelled hspell hbefore hrest) fun _ => htail.cut
      refine answers_of_token hnext (fun n => ?_) n
      rw [answers_end (hrest' ▸ hafter)]
      simp [thenEof]
  | @cons t u ts text gap rest hspell hne hgap _ ih =>
      intro lx before after hbefore hafter hrest n
      have hrest : lx.rest = before ++ (text ++ (gap ++ (rest ++ after))) := by
        simpa [List.append_assoc] using hrest
      obtain ⟨lx', hnext, hrest'⟩ := nextToken_spelled hspell
        (trimmed_spelled hspell hbefore hrest) fun _ => (hended hgap _ (.inl hne)).cut
      exact answers_of_token hnext (ih hgap hafter hrest') n

/-- Lexing undoes printing, whatever the tokens, the whitespace between them and
the number of calls. Every value reads back as itself from either form, and its
decimal form fits the scratch buffer of ten bytes. -/
theorem lex_print :
    (∀ ts text, Printed ts text → ∀ n,
        answers n (new text) = some (thenEof ts n)) ∧
      ∀ value, answers 2 (new (Uart.writeHexU32 value)) = some [.literal value, .eof] ∧
        ∃ digits, Uart.writeDecU32 value = some digits ∧
          answers 2 (new digits) = some [.literal value, .eof] := by
  have hprint : ∀ ts text, Printed ts text → ∀ n,
      answers n (new text) = some (thenEof ts n) := by
    intro ts text h n
    have hblank : Blank [] := by
      intro b hb
      cases hb
    exact answers_printed h hblank hblank (by simp) n
  refine ⟨hprint, fun value => ⟨hprint _ _ (.last (.hex value)) 2, ?_⟩⟩
  obtain ⟨digits, hdec⟩ := Option.isSome_iff_exists.mp (Uart.writeDecU32_isSome value)
  exact ⟨digits, hdec, hprint _ _ (.last (.decimal hdec)) 2⟩

/-- A keyword, a name and a number, with a tab before the number. -/
theorem lex_print_line :
    answers 5 (new (bytes "fn x\t31")) =
      some [.kwFn, .identifier (bytes "x"), .literal 31, .eof, .eof] := by
  have htext : bytes "fn x\t31" =
      bytes "fn" ++ bytes " " ++ (bytes "x" ++ bytes "\t" ++ bytes "31") := by decide
  rw [htext]
  exact lex_print.1 _ _ (.cons .kwFn (by decide) (by unfold Blank; decide)
    (.cons (.identifier (by decide)) (by decide) (by unfold Blank; decide)
      (.last (.decimal (by decide))))) 5

end Lexer

end HolyRust
