import HolyRust.Compiler.Parser
import Mathlib.Data.List.TakeWhile

/-!
The lexer and the cursor as a stream of tokens.

* `nextToken_cases` — the lexer never panics, stops only at the end of the
  input, and every other token takes at least one byte.
* `toks` — the tokens a lexer still has to give, without the final `eof`.
* `Upcoming s ts` — the cursor `s` is about to give `ts`; `next_upcoming` and
  `peek_upcoming` are the cursor's two operations on such a view.
* `toks_call` — the text `NAME();` lexes back to its four tokens.
-/

namespace HolyRust

namespace Lexer

/-- The bytes not read yet. -/
def rest (lx : Lexer) : List Byte := lx.stream.drop lx.cursor

theorem drop_cursor (lx : Lexer) : lx.stream.drop lx.cursor = lx.rest := rfl

@[simp] theorem rest_new (line : List Byte) : (new line).rest = line := rfl

theorem stream_getElem? (lx : Lexer) : lx.stream[lx.cursor]? = lx.rest.head? := by
  simp [rest]

@[simp] theorem rest_advance (lx : Lexer) (n : Nat) : (lx.advance n).rest = lx.rest.drop n := by
  simp [rest, advance, List.drop_drop]

theorem drop_takeWhile_length {α : Type} (p : α → Bool) (xs : List α) :
    xs.drop (xs.takeWhile p).length = xs.dropWhile p := by
  conv => lhs; arg 2; rw [← List.takeWhile_append_dropWhile (p := p) (l := xs)]
  exact List.drop_left

@[simp] theorem rest_advanceWhile (lx : Lexer) (p : Byte → Bool) :
    (lx.advanceWhile p).rest = lx.rest.dropWhile p := by
  simp only [advanceWhile, rest]
  rw [← List.drop_drop, drop_takeWhile_length]

@[simp] theorem rest_skipWhitespace (lx : Lexer) :
    lx.skipWhitespace.rest = lx.rest.dropWhile isWhitespace := by
  simp only [skipWhitespace, rest]
  rw [← List.drop_drop, drop_takeWhile_length]

/-! ### Progress of the token parsers -/

/-- The bytes a digit loop has gone past, with or without overflow. -/
def consumed : Except Nat (Word × Nat) → Nat
  | .ok (_, n) => n
  | .error n => n

theorem le_consumed {digit : Byte → Option Word} {base : Word} {skip : Byte → Bool} :
    ∀ {bs : List Byte} {value : Word} {n : Nat},
      n ≤ consumed (digitLoop digit base skip bs value n) := by
  intro bs
  induction bs with
  | nil => intro value n; exact Nat.le_refl n
  | cons b bs ih =>
      intro value n
      simp only [digitLoop]
      split
      · split
        · exact Nat.le_trans (Nat.le_succ n) ih
        · simp [consumed]
      · split
        · exact Nat.le_trans (Nat.le_succ n) ih
        · exact Nat.le_refl n

/-- A decimal literal takes its first digit. -/
theorem one_le_consumed {b : Byte} (bs : List Byte) (hb : isAsciiDigit b = true)
    (skip : Byte → Bool) : 1 ≤ consumed (digitLoop decDigit 10 skip (b :: bs) 0 0) := by
  have hadd : ∀ d : Word, d.toNat < 256 → checkedAdd 0 d = some d := by
    intro d hd
    have hlt : (0 : Word).toNat + d.toNat < 2 ^ 32 := by
      simp only [BitVec.ofNat_eq_ofNat, BitVec.toNat_ofNat, Nat.zero_mod]
      omega
    rw [checkedAdd, if_pos hlt]
    simp
  have hlt : ((b - ascii '0').setWidth 32).toNat < 256 := by
    have := (b - ascii '0').isLt
    simp only [BitVec.toNat_setWidth]
    omega
  have hmul : checkedMul 0 10 = some 0 := by decide
  simp only [digitLoop, decDigit, hb, if_true, hmul, Option.bind_some, hadd _ hlt]
  exact le_consumed

theorem parseIdentifier_eq {lx : Lexer} (hin : lx.cursor ≤ lx.stream.length) :
    lx.parseIdentifier =
      some (if lx.rest.takeWhile isIdentByte = bytes "fn" then .kwFn
        else if lx.rest.takeWhile isIdentByte = bytes "let" then .kwLet
        else .identifier (lx.rest.takeWhile isIdentByte), lx.advanceWhile isIdentByte) := by
  have hlen : (lx.rest.takeWhile isIdentByte).length ≤ lx.stream.length - lx.cursor := by
    have := (List.takeWhile_prefix isIdentByte (l := lx.rest)).length_le
    simpa [rest] using this
  have hslice : slice lx.stream lx.cursor
      (lx.cursor + (lx.rest.takeWhile isIdentByte).length) =
        some (lx.rest.takeWhile isIdentByte) := by
    unfold slice
    rw [if_pos ⟨Nat.le_add_right _ _, by omega⟩, List.drop_take, Nat.add_sub_cancel_left]
    exact congrArg some (List.prefix_iff_eq_take.mp (List.takeWhile_prefix isIdentByte)).symm
  simp only [parseIdentifier]
  rw [show (lx.advanceWhile isIdentByte).cursor =
    lx.cursor + (lx.rest.takeWhile isIdentByte).length from rfl,
    show (lx.advanceWhile isIdentByte).stream = lx.stream from rfl, hslice]
  rfl

theorem parseHex_progress {lx : Lexer} (hlen : 2 ≤ lx.rest.length) :
    lx.parseHex.1 ≠ .eof ∧ lx.parseHex.2.rest.length < lx.rest.length := by
  unfold parseHex
  simp only
  split
  · simp; omega
  · split
    · simp; omega
    · simp; omega

theorem parseDecimal_progress {lx : Lexer} {b : Byte} {bs : List Byte} (hrest : lx.rest = b :: bs)
    (hb : isAsciiDigit b = true) :
    ∃ t lx', lx.parseDecimal = some (t, lx') ∧ t ≠ .eof ∧ lx'.rest.length < lx.rest.length := by
  have hloop := one_le_consumed bs hb fun b => isAsciiDigit b || b == ascii '_'
  have hlen : 0 < lx.rest.length := by simp [hrest]
  unfold parseDecimal
  simp only
  rw [lx.drop_cursor.trans hrest]
  split <;> rename_i hres <;> rw [hres, consumed] at hloop
  · exact ⟨_, _, rfl, by simp, by simp; omega⟩
  · rename_i n
    rw [if_pos (show (lx.advance n).cursor > lx.cursor by simp only [advance]; omega)]
    exact ⟨_, _, rfl, by simp, by simp; omega⟩

theorem parseLiteral_eq {lx : Lexer} {b : Byte} {bs : List Byte} (hrest : lx.rest = b :: bs) :
    lx.parseLiteral =
      if b = ascii '0' ∧ (bs.head? = some (ascii 'x') ∨ bs.head? = some (ascii 'X')) then
        some lx.parseHex
      else lx.parseDecimal := by
  have hhead : lx.stream[lx.cursor]? = some b := by rw [stream_getElem?, hrest]; rfl
  have hnext : lx.stream[lx.cursor + 1]? = bs.head? := by
    have : lx.rest[1]? = bs.head? := by rw [hrest]; simp [List.head?_eq_getElem?]
    simpa [rest, Nat.add_comm] using this
  simp only [parseLiteral, hhead, hnext]

theorem parseLiteral_progress {lx : Lexer} {b : Byte} {bs : List Byte} (hrest : lx.rest = b :: bs)
    (hb : isAsciiDigit b = true) :
    ∃ t lx', lx.parseLiteral = some (t, lx') ∧ t ≠ .eof ∧ lx'.rest.length < lx.rest.length := by
  rw [parseLiteral_eq hrest]
  split
  · rename_i hx
    have hlen : 2 ≤ lx.rest.length := by
      rw [hrest]
      rcases hx.2 with h | h <;> (cases bs with
        | nil => simp at h
        | cons c cs => simp)
    obtain ⟨hne, hlt⟩ := parseHex_progress hlen
    exact ⟨_, _, rfl, hne, hlt⟩
  · exact parseDecimal_progress hrest hb

theorem punctuation_ne_eof (b : Byte) : punctuation b ≠ .eof := by
  unfold punctuation
  repeat' split
  all_goals simp

/-! ### One token -/

/-- The bytes once leading whitespace is gone. -/
def trimmed (lx : Lexer) : List Byte := lx.rest.dropWhile isWhitespace

theorem rest_skip (lx : Lexer) : lx.skipWhitespace.rest = lx.trimmed := lx.rest_skipWhitespace

theorem length_trimmed_le (lx : Lexer) : lx.trimmed.length ≤ lx.rest.length :=
  (List.dropWhile_suffix isWhitespace).length_le

theorem nextToken_end {lx : Lexer} (h : lx.trimmed = []) :
    nextToken lx = some (.eof, lx.skipWhitespace) := by
  simp only [nextToken, stream_getElem?, rest_skip, h]
  rfl

theorem nextToken_of_trimmed {lx : Lexer} {b : Byte} {bs : List Byte} (h : lx.trimmed = b :: bs) :
    nextToken lx =
      if isIdentStart b then lx.skipWhitespace.parseIdentifier
      else if isAsciiDigit b then lx.skipWhitespace.parseLiteral
      else some (punctuation b, lx.skipWhitespace.advance 1) := by
  simp only [nextToken, stream_getElem?, rest_skip, h]
  rfl

theorem isIdentByte_of_start {b : Byte} (h : isIdentStart b = true) : isIdentByte b = true := by
  unfold isIdentStart at h
  unfold isIdentByte
  rcases Bool.or_eq_true _ _ ▸ h with h | h <;> simp [h]

/-- A token is the final `eof`, and then nothing is left, or it takes a byte. -/
theorem nextToken_cases (lx : Lexer) :
    (∃ lx', nextToken lx = some (.eof, lx') ∧ lx'.trimmed = []) ∨
      ∃ t lx', nextToken lx = some (t, lx') ∧ t ≠ .eof ∧ lx'.rest.length < lx.rest.length := by
  cases h : lx.trimmed with
  | nil =>
      refine .inl ⟨_, nextToken_end h, ?_⟩
      simp only [trimmed, rest_skipWhitespace] at h ⊢
      simp [h]
  | cons b bs =>
      right
      have hrest : lx.skipWhitespace.rest = b :: bs := lx.rest_skip.trans h
      have hle : lx.skipWhitespace.rest.length ≤ lx.rest.length := by
        rw [rest_skip]
        exact lx.length_trimmed_le
      rw [nextToken_of_trimmed h]
      split
      · rename_i hstart
        have hin : lx.skipWhitespace.cursor ≤ lx.skipWhitespace.stream.length := by
          have : lx.skipWhitespace.rest.length ≠ 0 := by simp [hrest]
          simp only [rest, List.length_drop] at this
          omega
        rw [parseIdentifier_eq hin]
        refine ⟨_, _, rfl, by split <;> [simp; split <;> simp], ?_⟩
        rw [rest_advanceWhile, hrest, List.dropWhile_cons_of_pos (isIdentByte_of_start hstart)]
        have := (List.dropWhile_suffix isIdentByte (l := bs)).length_le
        rw [hrest, List.length_cons] at hle
        omega
      · split
        · rename_i hdigit
          obtain ⟨t, lx', heq, hne, hlt⟩ := parseLiteral_progress hrest hdigit
          exact ⟨t, lx', heq, hne, by omega⟩
        · refine ⟨_, _, rfl, punctuation_ne_eof b, ?_⟩
          rw [rest_advance, hrest]
          rw [hrest, List.length_cons] at hle
          simp
          omega

/-! ### All tokens -/

/-- The tokens up to `eof`, at most so many. -/
def toksUpTo : Nat → Lexer → List Token
  | 0, _ => []
  | n + 1, lx =>
      match lx.nextToken with
      | none => []
      | some (t, lx) => if t = .eof then [] else t :: toksUpTo n lx

/-- The tokens still to come. Each takes a byte, so the bytes bound their number. -/
def toks (lx : Lexer) : List Token := toksUpTo lx.rest.length lx

theorem toksUpTo_stable : ∀ {n m : Nat} {lx : Lexer}, lx.rest.length ≤ n → lx.rest.length ≤ m →
    toksUpTo n lx = toksUpTo m lx := by
  have zero : ∀ {lx : Lexer} (m : Nat), lx.rest.length ≤ 0 → toksUpTo m lx = [] := by
    intro lx m h
    cases m with
    | zero => rfl
    | succ m =>
        rcases nextToken_cases lx with ⟨lx', heq, _⟩ | ⟨t, lx', _, _, hlt⟩
        · simp [toksUpTo, heq]
        · omega
  intro n
  induction n with
  | zero => intro m lx hn _; rw [zero m hn]; rfl
  | succ n ih =>
      intro m lx hn hm
      cases m with
      | zero => rw [zero (n + 1) hm]; rfl
      | succ m =>
          rcases nextToken_cases lx with ⟨lx', heq, _⟩ | ⟨t, lx', heq, hne, hlt⟩
          · simp [toksUpTo, heq]
          · simp only [toksUpTo, heq, hne, if_false]
            rw [ih (m := m) (by omega) (by omega)]

theorem toks_of_eof {lx lx' : Lexer} (h : lx.nextToken = some (.eof, lx')) : lx.toks = [] := by
  unfold toks
  cases lx.rest.length with
  | zero => rfl
  | succ n => simp [toksUpTo, h]

theorem toks_of_token {lx lx' : Lexer} {t : Token} (h : lx.nextToken = some (t, lx'))
    (hne : t ≠ .eof) : lx.toks = t :: lx'.toks := by
  rcases nextToken_cases lx with ⟨lx₁, heq, _⟩ | ⟨t₁, lx₁, heq, _, hlt⟩
  · cases heq.symm.trans h
    exact absurd rfl hne
  · cases heq.symm.trans h
    unfold toks
    rw [toksUpTo_stable (Nat.le_refl _) (show lx.rest.length ≤ (lx.rest.length - 1) + 1 by omega)]
    simp only [toksUpTo, h, hne, if_false]
    rw [toksUpTo_stable (show lx'.rest.length ≤ lx.rest.length - 1 by omega) (Nat.le_refl _)]

theorem toks_of_trimmed_nil {lx : Lexer} (h : lx.trimmed = []) : lx.toks = [] :=
  toks_of_eof (nextToken_end h)

theorem length_toksUpTo_le : ∀ {n : Nat} {lx : Lexer}, (toksUpTo n lx).length ≤ n := by
  intro n
  induction n with
  | zero => intro lx; exact Nat.le_refl 0
  | succ n ih =>
      intro lx
      unfold toksUpTo
      split
      · exact Nat.zero_le _
      · split
        · exact Nat.zero_le _
        · simpa using ih

theorem length_toks_le (lx : Lexer) : lx.toks.length ≤ lx.rest.length := length_toksUpTo_le

/-! ### Names and their spelling -/

/-- The byte strings that lex as one identifier. -/
structure IsName (id : List Byte) : Prop where
  start : ∃ b bs, id = b :: bs ∧ isIdentStart b = true
  bytes_ok : ∀ b ∈ id, isIdentByte b = true
  ne_fn : id ≠ bytes "fn"
  ne_let : id ≠ bytes "let"

instance (id : List Byte) : Decidable (IsName id) :=
  decidable_of_iff ((∃ b ∈ id.head?, isIdentStart b = true) ∧ (∀ b ∈ id, isIdentByte b = true) ∧
    id ≠ bytes "fn" ∧ id ≠ bytes "let") <| by
  constructor
  · rintro ⟨⟨b, hb, hstart⟩, hbytes, hfn, hlet⟩
    exact ⟨⟨b, id.tail, (List.eq_cons_of_mem_head? hb), hstart⟩, hbytes, hfn, hlet⟩
  · rintro ⟨⟨b, bs, rfl, hstart⟩, hbytes, hfn, hlet⟩
    exact ⟨⟨b, rfl, hstart⟩, hbytes, hfn, hlet⟩

theorem isName_of_nextToken {lx lx' : Lexer} {id : List Byte}
    (h : lx.nextToken = some (.identifier id, lx')) : IsName id := by
  cases htrim : lx.trimmed with
  | nil => rw [nextToken_end htrim] at h; cases h
  | cons b bs =>
      have hrest : lx.skipWhitespace.rest = b :: bs := lx.rest_skip.trans htrim
      rw [nextToken_of_trimmed htrim] at h
      split at h
      · rename_i hstart
        have hin : lx.skipWhitespace.cursor ≤ lx.skipWhitespace.stream.length := by
          have : lx.skipWhitespace.rest.length ≠ 0 := by simp [hrest]
          simp only [rest, List.length_drop] at this
          omega
        rw [parseIdentifier_eq hin, Option.some.injEq, Prod.mk.injEq] at h
        have hid := h.1
        split at hid
        · cases hid
        · split at hid
          · cases hid
          · rename_i hfn hlet
            cases hid
            refine ⟨⟨b, bs.takeWhile isIdentByte, ?_, hstart⟩, ?_, hfn, hlet⟩
            · rw [hrest, List.takeWhile_cons_of_pos (isIdentByte_of_start hstart)]
            · intro c hc
              exact List.mem_takeWhile_imp hc
      · split at h
        · rename_i hdigit
          simp only [parseLiteral, parseDecimal, parseHex] at h
          repeat' split at h
          all_goals cases h
        · rw [Option.some.injEq, Prod.mk.injEq] at h
          have hp := h.1
          unfold punctuation at hp
          repeat' split at hp
          all_goals cases hp

theorem isName_of_mem_toksUpTo {id : List Byte} : ∀ {n : Nat} {lx : Lexer},
    Token.identifier id ∈ toksUpTo n lx → IsName id := by
  intro n
  induction n with
  | zero => intro lx h; simp [toksUpTo] at h
  | succ n ih =>
      intro lx h
      rcases nextToken_cases lx with ⟨lx', heq, _⟩ | ⟨t, lx', heq, hne, _⟩
      · simp [toksUpTo, heq] at h
      · simp only [toksUpTo, heq, hne, if_false, List.mem_cons] at h
        rcases h with rfl | h
        · exact isName_of_nextToken heq
        · exact ih h

theorem isName_of_mem_toks {id : List Byte} {lx : Lexer} (h : Token.identifier id ∈ lx.toks) :
    IsName id :=
  isName_of_mem_toksUpTo h

theorem eof_notMem_toksUpTo : ∀ {n : Nat} {lx : Lexer}, Token.eof ∉ toksUpTo n lx := by
  intro n
  induction n with
  | zero => intro lx; simp [toksUpTo]
  | succ n ih =>
      intro lx
      rcases nextToken_cases lx with ⟨lx', heq, _⟩ | ⟨t, lx', heq, hne, _⟩
      · simp [toksUpTo, heq]
      · simp only [toksUpTo, heq, hne, if_false, List.mem_cons, not_or]
        exact ⟨Ne.symm hne, ih⟩

theorem eof_notMem_toks (lx : Lexer) : Token.eof ∉ lx.toks := eof_notMem_toksUpTo

theorem not_isWhitespace_of_start {b : Byte} (h : isIdentStart b = true) :
    isWhitespace b = false := by
  revert b
  decide

theorem trimmed_of_blank {lx : Lexer} {before bs : List Byte} {b : Byte}
    (hblank : ∀ c ∈ before, isWhitespace c = true) (hb : isWhitespace b = false)
    (h : lx.rest = before ++ b :: bs) : lx.trimmed = b :: bs := by
  rw [trimmed, h, List.dropWhile_append_of_pos hblank, List.dropWhile_cons_of_neg (by simp [hb])]

/-- One byte that is no space, letter or digit is a token by itself. -/
theorem nextToken_punctuation {lx : Lexer} {b : Byte} {bs : List Byte} (h : lx.trimmed = b :: bs)
    (hstart : isIdentStart b = false) (hdigit : isAsciiDigit b = false) :
    ∃ lx' : Lexer, lx.nextToken = some (punctuation b, lx') ∧ lx'.rest = bs := by
  refine ⟨lx.skipWhitespace.advance 1, ?_, ?_⟩
  · rw [nextToken_of_trimmed h]
    simp [hstart, hdigit]
  · rw [rest_advance, rest_skip, h]
    rfl

/-- A run of identifier bytes, up to a byte that does not continue it, lexes as
a keyword or a name. -/
theorem nextToken_word {lx : Lexer} {b : Byte} {bs tail : List Byte}
    (h : lx.trimmed = (b :: bs) ++ tail) (hstart : isIdentStart b = true)
    (hbytes : ∀ c ∈ b :: bs, isIdentByte c = true)
    (htail : ∀ c ∈ tail.head?, isIdentByte c = false) :
    ∃ lx' : Lexer, lx.nextToken =
        some (if b :: bs = bytes "fn" then .kwFn
          else if b :: bs = bytes "let" then .kwLet
          else .identifier (b :: bs), lx') ∧ lx'.rest = tail := by
  have hrest : lx.skipWhitespace.rest = (b :: bs) ++ tail := lx.rest_skip.trans h
  have hdrop : tail.takeWhile isIdentByte = [] ∧ tail.dropWhile isIdentByte = tail := by
    cases tail with
    | nil => exact ⟨rfl, rfl⟩
    | cons c cs =>
        have hc : isIdentByte c = false := htail c rfl
        simp [hc]
  have htake : lx.skipWhitespace.rest.takeWhile isIdentByte = b :: bs := by
    rw [hrest, List.takeWhile_append_of_pos hbytes, hdrop.1, List.append_nil]
  have hin : lx.skipWhitespace.cursor ≤ lx.skipWhitespace.stream.length := by
    have : lx.skipWhitespace.rest.length ≠ 0 := by simp [hrest]
    simp only [rest, List.length_drop] at this
    omega
  refine ⟨lx.skipWhitespace.advanceWhile isIdentByte, ?_, ?_⟩
  · rw [nextToken_of_trimmed h, if_pos hstart, parseIdentifier_eq hin, htake]
  · rw [rest_advanceWhile, hrest, List.dropWhile_append_of_pos hbytes, hdrop.2]

theorem toks_punctuation {lx : Lexer} {b : Byte} {bs : List Byte} (h : lx.rest = b :: bs)
    (hspace : isWhitespace b = false) (hstart : isIdentStart b = false)
    (hdigit : isAsciiDigit b = false) :
    ∃ lx' : Lexer, lx.toks = punctuation b :: lx'.toks ∧ lx'.rest = bs := by
  have htrim := trimmed_of_blank (by simp : ∀ c ∈ ([] : List Byte), _) hspace h
  obtain ⟨lx', hnext, hrest⟩ := nextToken_punctuation htrim hstart hdigit
  exact ⟨lx', toks_of_token hnext (punctuation_ne_eof b), hrest⟩

/-- A name followed by a byte that does not continue it lexes as that name. -/
theorem toks_name {lx : Lexer} {id bs : List Byte} {b : Byte} (hid : IsName id)
    (h : lx.rest = id ++ b :: bs) (hb : isIdentByte b = false) :
    ∃ lx' : Lexer, lx.toks = .identifier id :: lx'.toks ∧ lx'.rest = b :: bs := by
  obtain ⟨c, cs, rfl, hstart⟩ := hid.start
  have htrim : lx.trimmed = c :: (cs ++ b :: bs) :=
    trimmed_of_blank (by simp : ∀ c ∈ ([] : List Byte), _) (not_isWhitespace_of_start hstart) h
  obtain ⟨lx', hnext, hrest⟩ := nextToken_word htrim hstart hid.bytes_ok (by simpa using hb)
  rw [if_neg hid.ne_fn, if_neg hid.ne_let] at hnext
  exact ⟨lx', toks_of_token hnext (by simp), hrest⟩

theorem toks_rest_nil {lx : Lexer} (h : lx.rest = []) : lx.toks = [] :=
  toks_of_trimmed_nil (by simp [trimmed, h])

/-- The line that calls a name. -/
def callText (id : List Byte) : List Byte := id ++ bytes "();"

theorem toks_call {id : List Byte} (hid : IsName id) :
    (new (callText id)).toks = [.identifier id, .lParen, .rParen, .semicolon] := by
  have hbytes : bytes "();" = [ascii '(', ascii ')', ascii ';'] := by decide
  obtain ⟨lx₁, h₁, hrest₁⟩ := toks_name hid
    (show (new (callText id)).rest = id ++ ascii '(' :: [ascii ')', ascii ';'] by
      rw [rest_new, callText, hbytes]) (by decide)
  obtain ⟨lx₂, h₂, hrest₂⟩ := toks_punctuation hrest₁ (by decide) (by decide) (by decide)
  obtain ⟨lx₃, h₃, hrest₃⟩ := toks_punctuation hrest₂ (by decide) (by decide) (by decide)
  obtain ⟨lx₄, h₄, hrest₄⟩ := toks_punctuation hrest₃ (by decide) (by decide) (by decide)
  rw [h₁, h₂, h₃, h₄, toks_rest_nil hrest₄]
  rfl

end Lexer

/-! ### The cursor -/

namespace Parser

/-- The tokens a cursor is about to give: what the lexer has left, behind the
token already looked at. -/
inductive Upcoming : Scan → List Token → Prop where
  | lexer (lx : Lexer) (calls : Nat) (bus : Bus) : Upcoming ⟨lx, none, calls, bus⟩ lx.toks
  | ahead {t : Token} (hne : t ≠ .eof) (lx : Lexer) (calls : Nat) (bus : Bus) :
      Upcoming ⟨lx, some t, calls, bus⟩ (t :: lx.toks)
  | ended {lx : Lexer} (h : lx.toks = []) (calls : Nat) (bus : Bus) :
      Upcoming ⟨lx, some .eof, calls, bus⟩ []

/-- The token at the head, `eof` at the end. -/
def first (ts : List Token) : Token := ts.headD .eof

@[simp] theorem first_nil : first [] = .eof := rfl

@[simp] theorem first_cons (t : Token) (ts : List Token) : first (t :: ts) = t := rfl

theorem upcoming_start (line : List Byte) (bus : Bus) :
    Upcoming (Scan.start line bus) (Lexer.new line).toks :=
  .lexer _ _ _

theorem Upcoming.eof_notMem {s : Scan} {ts : List Token} (h : Upcoming s ts) :
    Token.eof ∉ ts := by
  cases h with
  | lexer lx => exact lx.eof_notMem_toks
  | ahead hne lx => simp [Ne.symm hne, lx.eof_notMem_toks]
  | ended => simp

theorem Upcoming.first_eq_eof {s : Scan} {ts : List Token} (h : Upcoming s ts)
    (hfirst : first ts = .eof) : ts = [] := by
  cases ts with
  | nil => rfl
  | cons t ts =>
      have : t = .eof := hfirst
      exact absurd List.mem_cons_self (this ▸ h.eof_notMem)

theorem Upcoming.setBus {s : Scan} {ts : List Token} (h : Upcoming s ts) (b : Bus) :
    Upcoming { s with bus := b } ts := by
  cases h with
  | lexer lx calls => exact .lexer lx calls b
  | ahead hne lx calls => exact .ahead hne lx calls b
  | ended h calls => exact .ended h calls b

theorem next_upcoming {s : Scan} {ts : List Token} (h : Upcoming s ts) :
    ∃ s', Cur.next s = .ok (first ts) s' ∧ Upcoming s' ts.tail ∧ s'.bus = s.bus := by
  cases h with
  | lexer lx calls bus =>
      rcases lx.nextToken_cases with ⟨lx', heq, htrim⟩ | ⟨t, lx', heq, hne, _⟩
      · refine ⟨⟨lx', none, calls + 1, bus⟩, by simp [Cur.next, Cur.lexToken, heq,
          Lexer.toks_of_eof heq], ?_, rfl⟩
        rw [Lexer.toks_of_eof heq, List.tail_nil, ← Lexer.toks_of_trimmed_nil htrim]
        exact .lexer lx' _ _
      · refine ⟨⟨lx', none, calls + 1, bus⟩, by simp [Cur.next, Cur.lexToken, heq,
          Lexer.toks_of_token heq hne], ?_, rfl⟩
        rw [Lexer.toks_of_token heq hne]
        exact .lexer lx' _ _
  | ahead hne lx calls bus => exact ⟨⟨lx, none, calls, bus⟩, rfl, .lexer lx calls bus, rfl⟩
  | @ended lx h calls bus =>
      refine ⟨⟨lx, none, calls, bus⟩, rfl, ?_, rfl⟩
      rw [List.tail_nil, ← h]
      exact .lexer lx calls bus

theorem peek_upcoming {s : Scan} {ts : List Token} (h : Upcoming s ts) :
    ∃ s', Cur.peek s = .ok (first ts) s' ∧ Upcoming s' ts ∧ s'.bus = s.bus := by
  cases h with
  | lexer lx calls bus =>
      rcases lx.nextToken_cases with ⟨lx', heq, htrim⟩ | ⟨t, lx', heq, hne, _⟩
      · refine ⟨⟨lx', some .eof, calls + 1, bus⟩, by simp [Cur.peek, Cur.lexToken, heq,
          Lexer.toks_of_eof heq], ?_, rfl⟩
        rw [Lexer.toks_of_eof heq]
        exact .ended (Lexer.toks_of_trimmed_nil htrim) _ _
      · refine ⟨⟨lx', some t, calls + 1, bus⟩, by simp [Cur.peek, Cur.lexToken, heq,
          Lexer.toks_of_token heq hne], ?_, rfl⟩
        rw [Lexer.toks_of_token heq hne]
        exact .ahead hne lx' _ _
  | ahead hne lx calls bus => exact ⟨_, rfl, .ahead hne lx calls bus, rfl⟩
  | ended h calls bus => exact ⟨_, rfl, .ended h calls bus, rfl⟩

end Parser

end HolyRust
