import HolyRust.Compiler.Spelling

/-!
What is read where a digit begins a token. The bytes that follow fix the radix and
the run of digits and underscores; the two loops of `parse_literal` take that run
and nothing else, whether or not the value fits.

* `digitLoop_run_eq` — a digit loop over a whole run.
* `nextToken_numeral` — the token and the cursor, by the run alone.
* `readsExactly_iff` — the token is the number or an error as it should be, unless
  only underscores stand behind the hex prefix.
-/

namespace HolyRust.Lexer

/-- The two forms of a literal. -/
inductive Radix where
  | decimal | hex
deriving DecidableEq, Repr

namespace Radix

def digit : Radix → Byte → Option Word
  | .decimal => decDigit
  | .hex => hexDigit

def base : Radix → Word
  | .decimal => 10
  | .hex => 16

/-- The bytes of a run: digits and underscores. -/
def inRun : Radix → Byte → Bool
  | .decimal => fun b => isAsciiDigit b || b == ascii '_'
  | .hex => fun b => isAsciiHexdigit b || b == ascii '_'

/-- What stands in front of the run. -/
def prefixLength : Radix → Nat
  | .decimal => 0
  | .hex => 2

def overflowText : Radix → String
  | .decimal => "literal overflow"
  | .hex => "hex literal overflow"

/-- The number a run spells, underscores left out. -/
def value (r : Radix) (run : List Byte) : Nat := numeral r.base.toNat 0 (run.filterMap r.digit)

/-- A byte of a run is a digit or an underscore. -/
theorem inRun_iff (r : Radix) (b : Byte) :
    r.inRun b = true ↔ (r.digit b).isSome = true ∨ b = ascii '_' := by
  cases r <;> revert b <;> decide

theorem base_pos (r : Radix) : 0 < r.base.toNat := by
  cases r <;> decide

theorem under_of_inRun {r : Radix} {b : Byte} (h : r.inRun b = true) (hnone : r.digit b = none) :
    b = ascii '_' :=
  ((r.inRun_iff b).mp h).resolve_left (by simp [hnone])

theorem stop_of_not_inRun {r : Radix} {b : Byte} (h : r.inRun b = false) :
    r.digit b = none ∧ b ≠ ascii '_' := by
  have hno : ¬ ((r.digit b).isSome = true ∨ b = ascii '_') := by
    rw [← inRun_iff, h]
    exact Bool.false_ne_true
  exact ⟨by simpa using fun hsome => hno (.inl hsome), fun hunder => hno (.inr hunder)⟩

end Radix

/-! ### One run -/

/-- A run in front of a byte that is not in it. -/
theorem takeWhile_run {p : Byte → Bool} {run tail : List Byte} (hrun : ∀ c ∈ run, p c = true)
    (htail : ∀ c ∈ tail.head?, p c = false) : (run ++ tail).takeWhile p = run := by
  have hstop : tail.takeWhile p = [] := by
    cases tail with
    | nil => rfl
    | cons c cs => exact List.takeWhile_cons_of_neg (by simp [htail c rfl])
  rw [List.takeWhile_append_of_pos hrun, hstop, List.append_nil]

theorem checked_of_not_lt {value base d : Word}
    (hge : ¬ value.toNat * base.toNat + d.toNat < 2 ^ 32) :
    (checkedMul value base).bind (checkedAdd · d) = none := by
  unfold checkedMul
  split
  · rename_i hmul
    have hto : (value * base).toNat = value.toNat * base.toNat := by
      rw [BitVec.toNat_mul, Nat.mod_eq_of_lt hmul]
    rw [Option.bind_some, checkedAdd, if_neg (by rw [hto]; exact hge)]
  · rfl

/-- A digit loop over a run whose value does not fit stops somewhere in it, and the
rest is skipped. The value never shrinks along the run, so it is too large at the
end as well. -/
theorem digitLoop_overflow (r : Radix) {tail : List Byte}
    (htail : ∀ c ∈ tail.head?, r.inRun c = false) : ∀ {run : List Byte} (value : Word) (n : Nat),
      (∀ c ∈ run, r.inRun c = true) →
      2 ^ 32 ≤ numeral r.base.toNat value.toNat (run.filterMap r.digit) →
        digitLoop r.digit r.base r.inRun (run ++ tail) value n = .error (n + run.length) := by
  intro run
  induction run with
  | nil =>
      intro value n _ hbig
      exact absurd value.isLt (Nat.not_lt.mpr hbig)
  | cons b bs ih =>
      intro value n hrun hbig
      have hbs : ∀ c ∈ bs, r.inRun c = true := fun c hc => hrun c (List.mem_cons_of_mem b hc)
      have hlen : n + (b :: bs).length = n + 1 + bs.length := by
        rw [List.length_cons]
        omega
      rw [List.cons_append]
      cases hdigit : r.digit b with
      | none =>
          rw [List.filterMap_cons_none hdigit] at hbig
          have hunder := Radix.under_of_inRun (hrun b List.mem_cons_self) hdigit
          rw [hlen, ← ih value (n + 1) hbs hbig]
          simp only [digitLoop, hdigit]
          simp [hunder]
      | some d =>
          rw [List.filterMap_cons_some hdigit, numeral_cons] at hbig
          by_cases hlt : value.toNat * r.base.toNat + d.toNat < 2 ^ 32
          · have hnext : value.toNat * r.base.toNat + d.toNat =
                (BitVec.ofNat 32 (value.toNat * r.base.toNat + d.toNat)).toNat := by
              rw [BitVec.toNat_ofNat, Nat.mod_eq_of_lt hlt]
            rw [digitLoop_cons hdigit hnext, hlen]
            rw [hnext] at hbig
            exact ih _ (n + 1) hbs hbig
          · have hskip : (b :: (bs ++ tail)).takeWhile r.inRun = b :: bs := by
              rw [← List.cons_append]
              exact takeWhile_run hrun htail
            simp only [digitLoop, hdigit, checked_of_not_lt hlt, hskip]

/-- A digit loop over a whole run gives its value, or says that it does not fit;
either way it takes the run. -/
theorem digitLoop_run_eq (r : Radix) {run tail : List Byte} (hrun : ∀ c ∈ run, r.inRun c = true)
    (htail : ∀ c ∈ tail.head?, r.inRun c = false) :
    digitLoop r.digit r.base r.inRun (run ++ tail) 0 0 =
      if r.value run < 2 ^ 32 then .ok (BitVec.ofNat 32 (r.value run), run.length)
      else .error run.length := by
  by_cases hfits : r.value run < 2 ^ 32
  · have hv : numeral r.base.toNat (0 : Word).toNat (run.filterMap r.digit) =
        (BitVec.ofNat 32 (r.value run)).toNat := by
      rw [BitVec.toNat_ofNat, Nat.mod_eq_of_lt hfits]
      rfl
    rw [if_pos hfits, digitLoop_run r.base r.base_pos r.inRun tail 0 0
      (fun c hc => Radix.under_of_inRun (hrun c hc)) hv,
      digitLoop_ended fun c hc => Radix.stop_of_not_inRun (htail c hc), Nat.zero_add]
  · rw [if_neg hfits, digitLoop_overflow r htail 0 0 hrun (Nat.not_lt.mp hfits), Nat.zero_add]

/-! ### The token -/

/-- The radix of a numeral, by its first two bytes. -/
def radixOf (text : List Byte) : Radix :=
  if text.head? = some (ascii '0') ∧
      (text.tail.head? = some (ascii 'x') ∨ text.tail.head? = some (ascii 'X')) then .hex
  else .decimal

/-- The longest run of digits and underscores of a numeral, behind its prefix. -/
def numeralRun (text : List Byte) : List Byte :=
  (text.drop (radixOf text).prefixLength).takeWhile (radixOf text).inRun

/-- The token read from a run. -/
def Radix.answer (r : Radix) (run : List Byte) : Token :=
  if r.value run < 2 ^ 32 then
    if run = [] then .error "malformed hex literal" else .literal (BitVec.ofNat 32 (r.value run))
  else .error r.overflowText

/-- The digit loop on any text takes its longest run. -/
theorem digitLoop_eq (r : Radix) (text : List Byte) :
    digitLoop r.digit r.base r.inRun text 0 0 =
      if r.value (text.takeWhile r.inRun) < 2 ^ 32 then
        .ok (BitVec.ofNat 32 (r.value (text.takeWhile r.inRun)), (text.takeWhile r.inRun).length)
      else .error (text.takeWhile r.inRun).length := by
  have hrest : ∀ c ∈ (text.dropWhile r.inRun).head?, r.inRun c = false := by
    intro c hc
    have hhead := List.head?_dropWhile_not r.inRun text
    rw [Option.mem_def.mp hc] at hhead
    exact hhead
  have hscan := digitLoop_run_eq r (fun c hc => List.mem_takeWhile_imp (l := text) hc) hrest
  rwa [List.takeWhile_append_dropWhile] at hscan

theorem parseHex_eq (lx : Lexer) :
    lx.parseHex =
      (Radix.hex.answer ((lx.rest.drop 2).takeWhile Radix.hex.inRun),
        lx.advance (2 + ((lx.rest.drop 2).takeWhile Radix.hex.inRun).length)) := by
  have hscan := digitLoop_eq .hex (lx.advance 2).rest
  rw [rest_advance] at hscan
  generalize (lx.rest.drop 2).takeWhile Radix.hex.inRun = run at hscan ⊢
  have hadvance : (lx.advance 2).advance run.length = lx.advance (2 + run.length) := by
    simp [advance, Nat.add_assoc]
  have hloop : digitLoop hexDigit 16 (fun b => isAsciiHexdigit b || b == ascii '_')
      ((lx.advance 2).stream.drop (lx.advance 2).cursor) 0 0 = _ :=
    (congrArg (digitLoop hexDigit 16 (fun b => isAsciiHexdigit b || b == ascii '_') · 0 0)
      (rest_advance lx 2)).trans hscan
  have hcursor : (lx.advance (2 + run.length)).cursor = (lx.advance 2).cursor ↔ run = [] := by
    simp [advance]
  unfold parseHex Radix.answer
  by_cases hfits : Radix.hex.value run < 2 ^ 32
  · rw [if_pos hfits] at hloop
    simp only [hloop, hadvance, hcursor, if_pos hfits]
    split <;> rfl
  · rw [if_neg hfits] at hloop
    simp only [hloop, hadvance, if_neg hfits]
    rfl

theorem parseDecimal_eq {lx : Lexer} (hne : lx.rest.takeWhile Radix.decimal.inRun ≠ []) :
    lx.parseDecimal =
      some (Radix.decimal.answer (lx.rest.takeWhile Radix.decimal.inRun),
        lx.advance (lx.rest.takeWhile Radix.decimal.inRun).length) := by
  have hloop : digitLoop decDigit 10 (fun b => isAsciiDigit b || b == ascii '_')
      (lx.stream.drop lx.cursor) 0 0 = _ := digitLoop_eq .decimal lx.rest
  generalize lx.rest.takeWhile Radix.decimal.inRun = run at hloop hne ⊢
  have hcursor : (lx.advance run.length).cursor > lx.cursor := by
    simp [advance, List.length_pos_iff.mpr hne]
  unfold parseDecimal Radix.answer
  by_cases hfits : Radix.decimal.value run < 2 ^ 32
  · rw [if_pos hfits] at hloop
    simp only [hloop, if_pos hcursor, if_pos hfits, if_neg hne]
  · rw [if_neg hfits] at hloop
    simp only [hloop, if_neg hfits]
    rfl

/-- The token and the cursor depend on the run alone. -/
theorem nextToken_numeral {lx : Lexer} {b : Byte} {bs : List Byte} (h : lx.trimmed = b :: bs)
    (hb : isAsciiDigit b = true) :
    lx.nextToken = some ((radixOf lx.trimmed).answer (numeralRun lx.trimmed),
      lx.skipWhitespace.advance
        ((radixOf lx.trimmed).prefixLength + (numeralRun lx.trimmed).length)) := by
  have hrest : lx.skipWhitespace.rest = b :: bs := lx.rest_skip.trans h
  have hstart : isIdentStart b = false := (digit_class hb).2.1
  rw [nextToken_of_trimmed h, if_neg (by simp [hstart]), if_pos hb, parseLiteral_eq hrest, h]
  unfold numeralRun
  by_cases hhex : b = ascii '0' ∧ (bs.head? = some (ascii 'x') ∨ bs.head? = some (ascii 'X'))
  · have hradix : radixOf (b :: bs) = .hex := if_pos ⟨congrArg some hhex.1, hhex.2⟩
    rw [if_pos hhex, hradix, parseHex_eq, hrest]
    rfl
  · have hradix : radixOf (b :: bs) = .decimal :=
      if_neg fun hand => hhex ⟨Option.some.inj hand.1, hand.2⟩
    have hne : lx.skipWhitespace.rest.takeWhile Radix.decimal.inRun ≠ [] := by
      rw [hrest, List.takeWhile_cons_of_pos (by simp [Radix.inRun, hb])]
      exact List.cons_ne_nil _ _
    rw [if_neg hhex, hradix, parseDecimal_eq hne, hrest]
    simp [Radix.prefixLength]

/-! ### Exactness -/

/-- A run spells something: it has a digit. -/
def HasDigit (r : Radix) (run : List Byte) : Prop := ∃ c ∈ run, (r.digit c).isSome = true

instance (r : Radix) (run : List Byte) : Decidable (HasDigit r run) :=
  inferInstanceAs (Decidable (∃ c ∈ run, _))

/-- At a digit: the cursor ends behind the run; the token is the number of the run
if that has a digit and fits 32 bits, and an error otherwise. -/
def ReadsExactly (lx : Lexer) : Prop :=
  ∃ t, lx.nextToken = some (t, lx.skipWhitespace.advance
      ((radixOf lx.trimmed).prefixLength + (numeralRun lx.trimmed).length)) ∧
    (∀ v, t = .literal v ↔
      HasDigit (radixOf lx.trimmed) (numeralRun lx.trimmed) ∧
        (radixOf lx.trimmed).value (numeralRun lx.trimmed) = v.toNat) ∧
    ((∃ v, t = .literal v) ∨ ∃ msg, t = .error msg)

/-- A run of underscores and nothing else. -/
def OnlySeparators (run : List Byte) : Prop := run ≠ [] ∧ ∀ c ∈ run, c = ascii '_'

instance (run : List Byte) : Decidable (OnlySeparators run) :=
  inferInstanceAs (Decidable (_ ∧ _))

section Answers

variable {r : Radix} {run : List Byte}

theorem not_onlySeparators_iff (hrun : ∀ c ∈ run, r.inRun c = true) :
    ¬ OnlySeparators run ↔ run = [] ∨ HasDigit r run := by
  constructor
  · intro hmixed
    by_cases hempty : run = []
    · exact .inl hempty
    · by_contra hno
      refine hmixed ⟨hempty, fun c hc => ?_⟩
      refine ((r.inRun_iff c).mp (hrun c hc)).resolve_left fun hsome => ?_
      exact hno (.inr ⟨c, hc, hsome⟩)
  · rintro (rfl | ⟨c, hc, hsome⟩) ⟨hne, honly⟩
    · exact hne rfl
    · have hunder : (r.digit (ascii '_')).isSome = false := by cases r <;> decide
      rw [honly c hc, hunder] at hsome
      cases hsome

/-- Without a digit the value is 0. -/
theorem Radix.value_of_no_digit (h : ¬ HasDigit r run) : r.value run = 0 := by
  have hnone : run.filterMap r.digit = [] := by
    refine List.filterMap_eq_nil_iff.mpr fun c hc => ?_
    by_contra hsome
    exact h ⟨c, hc, Option.isSome_iff_ne_none.mpr hsome⟩
  rw [Radix.value, hnone, numeral_nil]

/-- What `answer` says of a run. -/
theorem Radix.answer_exact_iff (hrun : ∀ c ∈ run, r.inRun c = true) :
    ((∀ v, r.answer run = .literal v ↔ HasDigit r run ∧ r.value run = v.toNat) ∧
      ((∃ v, r.answer run = .literal v) ∨ ∃ msg, r.answer run = .error msg)) ↔
      ¬ OnlySeparators run := by
  rw [not_onlySeparators_iff hrun]
  by_cases hfits : r.value run < 2 ^ 32
  · by_cases hempty : run = []
    · -- nothing behind the prefix
      have hanswer : r.answer run = .error "malformed hex literal" := by
        rw [Radix.answer, if_pos hfits, if_pos hempty]
      have hno : ¬ HasDigit r run := by simp [HasDigit, hempty]
      rw [hanswer]
      exact iff_of_true ⟨fun v => by simp [hno], .inr ⟨_, rfl⟩⟩ (.inl hempty)
    · have hanswer : r.answer run = .literal (BitVec.ofNat 32 (r.value run)) := by
        rw [Radix.answer, if_pos hfits, if_neg hempty]
      have hto : (BitVec.ofNat 32 (r.value run)).toNat = r.value run := by
        rw [BitVec.toNat_ofNat, Nat.mod_eq_of_lt hfits]
      rw [hanswer]
      constructor
      · exact fun h => .inr ((h.1 _).mp rfl).1
      · intro h
        have hdigit := h.resolve_left hempty
        refine ⟨fun v => ?_, .inl ⟨_, rfl⟩⟩
        rw [Token.literal.injEq, ← BitVec.toNat_inj, hto]
        exact (and_iff_right hdigit).symm
  · -- too large, so there is a digit
    have hanswer : r.answer run = .error r.overflowText := by
      rw [Radix.answer, if_neg hfits]
    have hdigit : HasDigit r run := by
      by_contra hno
      rw [Radix.value_of_no_digit hno] at hfits
      exact hfits (by decide)
    rw [hanswer]
    refine iff_of_true ⟨fun v => ?_, .inr ⟨_, rfl⟩⟩ (.inr hdigit)
    exact iff_of_false (by simp) fun h => hfits (h.2 ▸ v.isLt)

end Answers

/-- Wherever a token starts with a digit: the numeral is read exactly or refused if
and only if its run is not underscores alone, which takes a hex prefix. -/
theorem readsExactly_iff (lx : Lexer) (hdigit : ∃ b ∈ lx.trimmed.head?, isAsciiDigit b = true) :
    ReadsExactly lx ↔ ¬ OnlySeparators (numeralRun lx.trimmed) := by
  obtain ⟨b, hhead, hb⟩ := hdigit
  have hnext := nextToken_numeral (List.eq_cons_of_mem_head? hhead) hb
  have hrun : ∀ c ∈ numeralRun lx.trimmed, (radixOf lx.trimmed).inRun c = true :=
    fun c hc => List.mem_takeWhile_imp hc
  rw [← Radix.answer_exact_iff hrun]
  constructor
  · rintro ⟨t, hnext', hexact⟩
    cases hnext.symm.trans hnext'
    exact hexact
  · exact fun hexact => ⟨_, hnext, hexact⟩

/-- The largest literal, with separators. -/
theorem readsExactly_max : ReadsExactly (new (bytes " 4_294_967_295;")) :=
  (readsExactly_iff (new (bytes " 4_294_967_295;")) (by decide)).mpr (by decide)

/-- `0x_` is read as 0. -/
theorem literal_of_lone_separator :
    (new (bytes "0x_")).nextToken = some (.literal 0, (new (bytes "0x_")).advance 3) ∧
      ¬ ∀ lx : Lexer, (∃ b ∈ lx.trimmed.head?, isAsciiDigit b = true) → ReadsExactly lx := by
  have hread : (new (bytes "0x_")).nextToken =
      some (.literal 0, (new (bytes "0x_")).advance 3) := by decide
  refine ⟨hread, fun hall => ?_⟩
  obtain ⟨t, hnext, hexact, _⟩ := hall (new (bytes "0x_")) (by decide)
  cases hread.symm.trans hnext
  exact absurd ((hexact 0).mp rfl).1 (by decide)

end HolyRust.Lexer
