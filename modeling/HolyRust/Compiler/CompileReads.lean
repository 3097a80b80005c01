import HolyRust.Compiler.PeekTerms
import HolyRust.Compiler.Lines

/-!
The memory that compiling a line reads.

* `StmtPeeks`, `BodyPeeks`, `LinePeeks` — the line holds a `peek` term that its
  compilation reaches, with this operand. A statement of a body is reached when
  the ones before it pass (`StmtPasses`) and their words fit the stream.
* `parse_reads` — these operands are the addresses that `parse` reads.
* `compile_reads_permitted_iff` — so they are all permitted exactly if the
  operands of the reached terms are; no check stands in front of the read.
-/

namespace HolyRust

open Fallible (Adds Exact Observer Silent)
open Compiler (SameTables)

/-- The words a call of `name` puts into a body, if the function is live and
its words are in its array. -/
def Compiler.spliceLen (c : Compiler) (name : List Byte) : Option Nat :=
  (c.findFn name).bind fun i => if c.fnBodyLen i ≤ fnBodyWords then some (c.fnBodyLen i) else none

theorem Compiler.SameTables.spliceLen {c c' : Compiler} (h : SameTables c c')
    (name : List Byte) : c'.spliceLen name = c.spliceLen name := by
  unfold Compiler.spliceLen
  rw [h.findFn, h.fnBodyLen]

namespace Parser

open Syntax

/-! ### Reached peek terms of statements and lines -/

section Peeks

variable (env : Env) (c : Compiler) (mem : Memory)

/-- A statement of a body that goes through, with the words it emits. -/
inductive StmtPasses : List Token → Nat → List Token → Prop where
  | poke {ts ts₁ ts₂ rest : List Token} {addr value : Word}
      (ha : AtomAt c.symbols.value? mem ts addr ts₁)
      (he : ExprAt c.symbols.value? mem ts₁ value ts₂) (hclose : Closes ts₂ rest)
      (hperm : Registry.Permitted env.target env.registry addr) :
      StmtPasses (.identifier (bytes "poke") :: ts) 5 rest
  | peek {ts ts₁ rest : List Token} {addr : Word} (ha : AtomAt c.symbols.value? mem ts addr ts₁)
      (hclose : Closes ts₁ rest) (hperm : Registry.Permitted env.target env.registry addr) :
      StmtPasses (.identifier (bytes "peek") :: ts) 3 rest
  | call {f : PlainName} {ts rest : List Token} {len : Nat} (hlen : c.spliceLen f.val = some len)
      (hclose : Closes ts rest) : StmtPasses (.identifier f.val :: .lParen :: .rParen :: ts) len rest
  | expr {f : PlainName} {ts ts₁ rest : List Token} {v : Word}
      (he : ExprAt c.symbols.value? mem (.identifier f.val :: ts) v ts₁)
      (hclose : Closes ts₁ rest) : StmtPasses (.identifier f.val :: ts) 0 rest

/-- Compiling the statement at the head of the tokens reads this address. -/
inductive StmtPeeks : List Token → Word → Prop where
  | pokeAddr {ts : List Token} {addr : Word} (h : AtomPeeks c.symbols.value? mem ts addr) :
      StmtPeeks (.identifier (bytes "poke") :: ts) addr
  | pokeValue {ts ts₁ : List Token} {a addr : Word} (ha : AtomAt c.symbols.value? mem ts a ts₁)
      (h : ExprPeeks c.symbols.value? mem ts₁ addr) :
      StmtPeeks (.identifier (bytes "poke") :: ts) addr
  | peekAddr {ts : List Token} {addr : Word} (h : AtomPeeks c.symbols.value? mem ts addr) :
      StmtPeeks (.identifier (bytes "peek") :: ts) addr
  | expr {f : PlainName} {ts : List Token} {addr : Word}
      (h : ExprPeeks c.symbols.value? mem (.identifier f.val :: ts) addr) :
      StmtPeeks (.identifier f.val :: ts) addr

/-- Compiling the rest of a body, with some words emitted already, reads this
address. -/
inductive BodyPeeks : Nat → List Token → Word → Prop where
  | stmt {used : Nat} {ts : List Token} {addr : Word} (h : StmtPeeks c mem ts addr) :
      BodyPeeks used ts addr
  | next {used len : Nat} {ts rest : List Token} {addr : Word}
      (hpass : StmtPasses env c mem ts len rest) (hroom : used + len ≤ maxStreamWords)
      (h : BodyPeeks (used + len) rest addr) : BodyPeeks used ts addr

/-- Compiling the line reads this address. -/
inductive LinePeeks : List Token → Word → Prop where
  | bound {name : List Byte} {ts : List Token} {addr : Word} (hlen : name.length ≤ nameMax)
      (h : ExprPeeks c.symbols.value? mem ts addr) :
      LinePeeks (.kwLet :: .identifier name :: .operator (ascii '=') :: ts) addr
  | body {name : List Byte} {ts : List Token} {addr : Word} (hlen : name.length ≤ nameMax)
      (h : BodyPeeks env c mem 0 ts addr) :
      LinePeeks (.kwFn :: .identifier name :: .lParen :: .rParen :: .lBrace :: ts) addr
  | access {word : List Byte} {ts : List Token} {addr : Word}
      (hword : word = bytes "peek" ∨ word = bytes "poke")
      (h : StmtPeeks c mem (.identifier word :: ts) addr) :
      LinePeeks (.identifier word :: ts) addr
  | bitAddr {word : List Byte} {ts : List Token} {addr : Word}
      (hword : word = bytes "reg_set_bit" ∨ word = bytes "reg_clr_bit")
      (h : AtomPeeks c.symbols.value? mem ts addr) : LinePeeks (.identifier word :: ts) addr
  | bitIndex {word : List Byte} {ts ts₁ : List Token} {a addr : Word}
      (hword : word = bytes "reg_set_bit" ∨ word = bytes "reg_clr_bit")
      (ha : AtomAt c.symbols.value? mem ts a ts₁) (h : AtomPeeks c.symbols.value? mem ts₁ addr) :
      LinePeeks (.identifier word :: ts) addr
  | value {ts : List Token} {addr : Word} (hword : ∀ word ∈ commandWords, first ts ≠ .identifier word)
      (h : ExprPeeks c.symbols.value? mem ts addr) : LinePeeks ts addr

end Peeks

section Inversion

variable {env : Env} {c : Compiler} {mem : Memory} {ts rest : List Token} {len : Nat} {addr : Word}

theorem not_peek_poke : bytes "peek" ≠ bytes "poke" := by decide

theorem stmtPasses_poke :
    StmtPasses env c mem (.identifier (bytes "poke") :: ts) len rest ↔ len = 5 ∧
      ∃ a ts₁, AtomAt c.symbols.value? mem ts a ts₁ ∧ ∃ v ts₂,
        ExprAt c.symbols.value? mem ts₁ v ts₂ ∧ Closes ts₂ rest ∧
          Registry.Permitted env.target env.registry a := by
  constructor
  · intro h
    generalize hall : Token.identifier (bytes "poke") :: ts = all at h
    cases h with
    | @poke _ ts₁ ts₂ _ a v ha he hclose hperm =>
        obtain ⟨_, rfl⟩ := List.cons.inj hall
        exact ⟨rfl, a, ts₁, ha, v, ts₂, he, hclose, hperm⟩
    | peek => exact absurd (Token.identifier.inj (List.cons.inj hall).1).symm not_peek_poke
    | @call f => exact absurd (Token.identifier.inj (List.cons.inj hall).1).symm f.property.1
    | @expr f => exact absurd (Token.identifier.inj (List.cons.inj hall).1).symm f.property.1
  · rintro ⟨rfl, a, ts₁, ha, v, ts₂, he, hclose, hperm⟩
    exact .poke ha he hclose hperm

theorem stmtPasses_peek :
    StmtPasses env c mem (.identifier (bytes "peek") :: ts) len rest ↔ len = 3 ∧
      ∃ a ts₁, AtomAt c.symbols.value? mem ts a ts₁ ∧ Closes ts₁ rest ∧
        Registry.Permitted env.target env.registry a := by
  constructor
  · intro h
    generalize hall : Token.identifier (bytes "peek") :: ts = all at h
    cases h with
    | poke => exact absurd (Token.identifier.inj (List.cons.inj hall).1) not_peek_poke
    | @peek _ ts₁ _ a ha hclose hperm =>
        obtain ⟨_, rfl⟩ := List.cons.inj hall
        exact ⟨rfl, a, ts₁, ha, hclose, hperm⟩
    | @call f => exact absurd (Token.identifier.inj (List.cons.inj hall).1).symm f.property.2
    | @expr f => exact absurd (Token.identifier.inj (List.cons.inj hall).1).symm f.property.2
  · rintro ⟨rfl, a, ts₁, ha, hclose, hperm⟩
    exact .peek ha hclose hperm

theorem stmtPasses_name {f : PlainName} :
    StmtPasses env c mem (.identifier f.val :: ts) len rest ↔
      (∃ ts', ts = .lParen :: .rParen :: ts' ∧ c.spliceLen f.val = some len ∧ Closes ts' rest) ∨
      (len = 0 ∧ ∃ v ts₁, ExprAt c.symbols.value? mem (.identifier f.val :: ts) v ts₁ ∧
        Closes ts₁ rest) := by
  constructor
  · intro h
    generalize hall : Token.identifier f.val :: ts = all at h
    cases h with
    | poke => exact absurd (Token.identifier.inj (List.cons.inj hall).1) f.property.1
    | peek => exact absurd (Token.identifier.inj (List.cons.inj hall).1) f.property.2
    | @call g ts' _ _ hlen hclose =>
        obtain ⟨hf, rfl⟩ := List.cons.inj hall
        rw [← Token.identifier.inj hf] at hlen
        exact .inl ⟨ts', rfl, hlen, hclose⟩
    | @expr g _ ts₁ _ v he hclose =>
        exact .inr ⟨rfl, v, ts₁, he, hclose⟩
  · rintro (⟨ts', rfl, hlen, hclose⟩ | ⟨rfl, v, ts₁, he, hclose⟩)
    · exact .call hlen hclose
    · exact .expr he hclose

theorem stmtPeeks_poke :
    StmtPeeks c mem (.identifier (bytes "poke") :: ts) addr ↔
      AtomPeeks c.symbols.value? mem ts addr ∨ ∃ a ts₁, AtomAt c.symbols.value? mem ts a ts₁ ∧
        ExprPeeks c.symbols.value? mem ts₁ addr := by
  constructor
  · intro h
    generalize hall : Token.identifier (bytes "poke") :: ts = all at h
    cases h with
    | pokeAddr h =>
        obtain ⟨_, rfl⟩ := List.cons.inj hall
        exact .inl h
    | @pokeValue _ ts₁ a _ ha h =>
        obtain ⟨_, rfl⟩ := List.cons.inj hall
        exact .inr ⟨a, ts₁, ha, h⟩
    | peekAddr => exact absurd (Token.identifier.inj (List.cons.inj hall).1).symm not_peek_poke
    | @expr f => exact absurd (Token.identifier.inj (List.cons.inj hall).1).symm f.property.1
  · rintro (h | ⟨a, ts₁, ha, h⟩)
    · exact .pokeAddr h
    · exact .pokeValue ha h

theorem stmtPeeks_peek :
    StmtPeeks c mem (.identifier (bytes "peek") :: ts) addr ↔
      AtomPeeks c.symbols.value? mem ts addr := by
  constructor
  · intro h
    generalize hall : Token.identifier (bytes "peek") :: ts = all at h
    cases h with
    | pokeAddr h => exact absurd (Token.identifier.inj (List.cons.inj hall).1) not_peek_poke
    | pokeValue ha h => exact absurd (Token.identifier.inj (List.cons.inj hall).1) not_peek_poke
    | peekAddr h =>
        obtain ⟨_, rfl⟩ := List.cons.inj hall
        exact h
    | @expr f => exact absurd (Token.identifier.inj (List.cons.inj hall).1).symm f.property.2
  · exact .peekAddr

theorem stmtPeeks_name {f : PlainName} :
    StmtPeeks c mem (.identifier f.val :: ts) addr ↔
      ExprPeeks c.symbols.value? mem (.identifier f.val :: ts) addr := by
  constructor
  · intro h
    generalize hall : Token.identifier f.val :: ts = all at h
    cases h with
    | pokeAddr h => exact absurd (Token.identifier.inj (List.cons.inj hall).1) f.property.1
    | pokeValue ha h => exact absurd (Token.identifier.inj (List.cons.inj hall).1) f.property.1
    | peekAddr h => exact absurd (Token.identifier.inj (List.cons.inj hall).1) f.property.2
    | expr h => exact h
  · exact .expr

/-- A statement starts with an identifier. -/
theorem StmtPasses.head (h : StmtPasses env c mem ts len rest) :
    ∃ id, first ts = .identifier id := by
  cases h <;> exact ⟨_, rfl⟩

theorem StmtPeeks.head (h : StmtPeeks c mem ts addr) : ∃ id, first ts = .identifier id := by
  cases h <;> exact ⟨_, rfl⟩

theorem bodyPeeks_iff {used : Nat} :
    BodyPeeks env c mem used ts addr ↔ StmtPeeks c mem ts addr ∨ ∃ len rest,
      StmtPasses env c mem ts len rest ∧ used + len ≤ maxStreamWords ∧
        BodyPeeks env c mem (used + len) rest addr := by
  constructor
  · intro h
    cases h with
    | stmt h => exact .inl h
    | @next _ len _ rest _ hpass hroom h => exact .inr ⟨len, rest, hpass, hroom, h⟩
  · rintro (h | ⟨len, rest, hpass, hroom, h⟩)
    · exact .stmt h
    · exact .next hpass hroom h

theorem not_bodyPeeks {used : Nat} (h : ∀ id, first ts ≠ .identifier id) :
    ¬ BodyPeeks env c mem used ts addr := by
  intro hp
  rcases bodyPeeks_iff.mp hp with hstmt | ⟨len, rest, hpass, _⟩
  · obtain ⟨id, hid⟩ := hstmt.head
    exact h id hid
  · obtain ⟨id, hid⟩ := hpass.head
    exact h id hid

end Inversion

/-! ### What a frame shows -/

/-- A frame, seen as the tokens its cursor is about to give and the words in its
scratch stream. -/
def frames : Observer Frame (List Token × Nat) Word where
  sees s v := Upcoming s.scan v.1 ∧ s.comp.streamLen = v.2
  keeps s s' := s'.scan.bus.mem = s.scan.bus.mem ∧ SameTables s.comp s'.comp
  hist s := history s.scan
  sees_unique h h' := Prod.ext (h.1.unique h'.1) (h.2.symm.trans h'.2)
  keeps_refl _ := ⟨rfl, .refl _⟩
  keeps_trans h h' := ⟨h'.1.trans h.1, h.2.trans h'.2⟩

section Frames

variable {α β : Type} {s : Frame} {ts : List Token} {used : Nat} {P : Word → Prop}

theorem adds_onScan {g : Compiler → EvalM α} (h : Adds cursor.hist (g s.comp) s.scan P) :
    Adds frames.hist (onScan g) s P := by
  obtain ⟨new, hnew, hmem⟩ := h
  refine ⟨new, ?_, hmem⟩
  unfold onScan
  cases hg : g s.comp s.scan with
  | ok a scan =>
      rw [hg] at hnew
      exact hnew
  | error e scan =>
      rw [hg] at hnew
      exact hnew

theorem silent_onScan {g : Compiler → EvalM α} (h : ∀ c, Silent cursor.hist (g c)) :
    Silent frames.hist (onScan g) := by
  intro s
  have := h s.comp s.scan
  unfold onScan
  cases hg : g s.comp s.scan with
  | ok a scan =>
      rw [hg] at this
      exact this
  | error e scan =>
      rw [hg] at this
      exact this

theorem exact_onScan {g : Compiler → EvalM α} {D : α → List Token → Prop}
    (hlen : s.comp.streamLen = used) (h : Exact cursor (g s.comp) s.scan D P) :
    Exact frames (onScan g) s (fun v w => D v w.1 ∧ w.2 = used) P where
  adds := adds_onScan h.adds
  returns v s' hrun := by
    unfold onScan at hrun
    cases hg : g s.comp s.scan with
    | ok a scan =>
        simp only [hg] at hrun
        cases hrun
        obtain ⟨rest, hrest, hup, hmem⟩ := h.returns v scan hg
        exact ⟨(rest, used), ⟨hrest, rfl⟩, ⟨hup, hlen⟩, hmem, .refl _⟩
    | error e scan =>
        simp only [hg] at hrun
        cases hrun
  delivers := by
    rintro v ⟨rest, len⟩ ⟨hrest, hused⟩
    obtain ⟨scan, hg, hup⟩ := h.delivers v rest hrest
    exact ⟨{ s with scan := scan }, by simp [onScan, hg], hup, hlen.trans hused.symm⟩

theorem silent_nextTok : Silent frames.hist nextTok := silent_onScan fun _ => silent_next

theorem exact_nextTok (hup : Upcoming s.scan ts) (hlen : s.comp.streamLen = used) :
    Exact frames nextTok s (fun t w => t = first ts ∧ w = (ts.tail, used)) fun _ => False := by
  obtain ⟨scan, hnext, hup', hbus⟩ := next_upcoming hup
  have hrun : nextTok s = .ok (first ts) { s with scan := scan } := by
    simp [nextTok, onScan, hnext]
  exact Fallible.exact_ok hrun (history_of_bus hbus) ⟨hup', hlen⟩ ⟨congrArg Bus.mem hbus, .refl _⟩

/-- A failure reads nothing and returns nothing. -/
theorem exact_fail (e : ParseError) :
    Exact frames (fail e : ParseM α) s (fun _ _ => False) fun _ => False :=
  Fallible.exact_throw _

theorem exact_expect {tok : Token} (hne : tok ≠ .eof) (hup : Upcoming s.scan ts)
    (hlen : s.comp.streamLen = used) :
    Exact frames (expect tok) s (fun _ w => ts = tok :: w.1 ∧ w.2 = used) fun _ => False := by
  refine (Exact.bind_into (fun t w _ w' => t = tok ∧ w' = w)
    (exact_nextTok hup hlen) fun t s' w _ hsees _ => ?_).congr (fun _ w => ?_) fun _ => Iff.rfl
  · split
    · rename_i htok
      exact (Fallible.exact_pure hsees).congr (fun _ w' => by simp [htok]) fun _ => Iff.rfl
    · rename_i htok
      exact (exact_fail _).congr (fun _ _ => by simp [htok]) fun _ => Iff.rfl
  · constructor
    · rintro ⟨t, _, ⟨ht, rfl⟩, htok, rfl⟩
      exact ⟨eq_cons_of_first (ht ▸ htok) hne, rfl⟩
    · rintro ⟨hts, hw⟩
      exact ⟨tok, _, ⟨by rw [hts]; rfl, rfl⟩, rfl, by rw [hts, ← hw]; rfl⟩

theorem exact_expectName (hup : Upcoming s.scan ts) (hlen : s.comp.streamLen = used) :
    Exact frames expectName s
      (fun name w => (∃ id, ts = .identifier id :: w.1 ∧ NameBuf.fromSlice id = .ok name) ∧
        w.2 = used) fun _ => False := by
  refine (Exact.bind_into (fun t w name w' =>
    (∃ id, t = .identifier id ∧ NameBuf.fromSlice id = .ok name) ∧ w' = w)
    (exact_nextTok hup hlen) fun t s' w _ hsees _ => ?_).congr (fun name w => ?_) fun _ => Iff.rfl
  · cases t with
    | identifier id =>
        cases hname : NameBuf.fromSlice id with
        | ok name =>
            simp only [hname]
            refine (Fallible.exact_pure hsees).congr (fun name' w' => ?_) fun _ => Iff.rfl
            simp [hname, eq_comm]
        | error e =>
            simp only [hname]
            exact (exact_fail _).congr (fun _ _ => by simp [hname]) fun _ => Iff.rfl
    | _ => exact (exact_fail _).congr (fun _ _ => by simp) fun _ => Iff.rfl
  · constructor
    · rintro ⟨t, _, ⟨ht, rfl⟩, ⟨id, hid, hname⟩, rfl⟩
      exact ⟨⟨id, eq_cons_of_first (ht ▸ hid) (by simp), hname⟩, rfl⟩
    · rintro ⟨⟨id, hts, hname⟩, hw⟩
      exact ⟨.identifier id, _, ⟨by rw [hts]; rfl, rfl⟩, ⟨id, rfl, hname⟩, by rw [hts, ← hw]; rfl⟩

theorem exact_expectSemicolon (hup : Upcoming s.scan ts) (hlen : s.comp.streamLen = used) :
    Exact frames expectSemicolon s (fun _ w => Closes ts w.1 ∧ w.2 = used) fun _ => False := by
  refine (Exact.bind_into (fun t w _ w' => (t = .semicolon ∨ t = .eof) ∧ w' = w)
    (exact_nextTok hup hlen) fun t s' w _ hsees _ => ?_).congr (fun _ w => ?_) fun _ => Iff.rfl
  · cases t with
    | semicolon => exact (Fallible.exact_pure hsees).congr (fun _ w' => by simp) fun _ => Iff.rfl
    | eof => exact (Fallible.exact_pure hsees).congr (fun _ w' => by simp) fun _ => Iff.rfl
    | _ => exact (exact_fail _).congr (fun _ _ => by simp) fun _ => Iff.rfl
  · constructor
    · rintro ⟨t, _, ⟨ht, rfl⟩, hsemi | heof, rfl⟩
      · exact ⟨.inl (eq_cons_of_first (ht ▸ hsemi) (by simp)), rfl⟩
      · obtain rfl := hup.first_eq_eof (ht ▸ heof)
        exact ⟨.inr ⟨rfl, rfl⟩, rfl⟩
    · rintro ⟨hts | ⟨rfl, hnil⟩, hw⟩
      · exact ⟨.semicolon, _, ⟨by rw [hts]; rfl, rfl⟩, .inl rfl, by rw [hts, ← hw]; rfl⟩
      · exact ⟨.eof, _, ⟨rfl, rfl⟩, .inr rfl, by rw [List.tail_nil, ← hnil, ← hw]⟩

theorem exact_enforce (env : Env) (addr : Word) (hup : Upcoming s.scan ts)
    (hlen : s.comp.streamLen = used) :
    Exact frames (enforce env addr) s
      (fun _ w => Registry.Permitted env.target env.registry addr ∧ w = (ts, used))
        fun _ => False := by
  unfold enforce Registry.Permitted
  cases hcheck : Registry.checkAccess env.target env.registry addr with
  | ok u =>
      have hsees : frames.sees s (ts, used) := ⟨hup, hlen⟩
      exact (Fallible.exact_pure hsees).congr (fun _ w => by simp) fun _ => Iff.rfl
  | error cap => exact (exact_fail _).congr (fun _ _ => by simp) fun _ => Iff.rfl

theorem exact_pushAll (ws : List Word) (hup : Upcoming s.scan ts) (hlen : s.comp.streamLen = used)
    (hused : used ≤ maxStreamWords) :
    Exact frames (pushAll ws) s
      (fun _ w => used + ws.length ≤ maxStreamWords ∧ w = (ts, used + ws.length))
        fun _ => False := by
  by_cases hroom : used + ws.length ≤ maxStreamWords
  · obtain ⟨s', hpush, he⟩ := pushAll_room ws (s := s) (by rw [hlen]; exact hroom)
    have hsees : frames.sees s' (ts, used + ws.length) := ⟨he.scan ▸ hup, by rw [he.len, hlen]⟩
    have hbus : s'.scan.bus = s.scan.bus := congrArg Scan.bus he.scan
    exact (Fallible.exact_ok hpush (history_of_bus hbus) hsees
      ⟨congrArg Bus.mem hbus, he.tables⟩).congr (fun _ w => by simp [hroom]) fun _ => Iff.rfl
  · obtain ⟨s', hpush, hscan, _⟩ := pushAll_full ws (s := s) (by rw [hlen]; exact hused)
      (by rw [hlen]; omega)
    exact (Fallible.exact_error hpush (history_of_bus (congrArg Scan.bus hscan))).congr
      (fun _ w => by simp [hroom]) fun _ => Iff.rfl

theorem silent_streamPush (w : Word) : Silent frames.hist (streamPush w) := by
  intro s
  unfold streamPush
  split <;> rfl

theorem silent_pushBody (body : Vector Word fnBodyWords) :
    ∀ is, Silent frames.hist (pushBody body is) := by
  intro is
  induction is with
  | nil => exact Fallible.silent_pure _
  | cons i is ih =>
      unfold pushBody
      split
      · exact (silent_streamPush _).bind fun _ => ih
      · exact Fallible.silent_throw _

/-- An index past the array stops the copy. -/
theorem pushBody_ne_ok (body : Vector Word fnBodyWords) {i : Nat} (hi : fnBodyWords ≤ i) :
    ∀ is, i ∈ is → ∀ s s', pushBody body is s ≠ .ok ⟨⟩ s' := by
  intro is
  induction is with
  | nil => simp
  | cons j is ih =>
      intro hmem s s' hrun
      unfold pushBody at hrun
      split at hrun
      · rename_i hj
        obtain ⟨_, s₁, _, hrest⟩ := Fallible.bind_eq_ok.mp hrun
        have htail : i ∈ is := by
          rcases List.mem_cons.mp hmem with rfl | h
          · omega
          · exact h
        exact ih htail s₁ s' hrest
      · cases hrun

theorem exact_spliceCall (name : List Byte) (hup : Upcoming s.scan ts)
    (hlen : s.comp.streamLen = used) (hused : used ≤ maxStreamWords) :
    Exact frames (spliceCall name) s
      (fun _ w => ∃ len, s.comp.spliceLen name = some len ∧ used + len ≤ maxStreamWords ∧
        w = (ts, used + len)) fun _ => False := by
  cases hfind : s.comp.findFn name with
  | none =>
      have hrun : spliceCall name s = (fail .unknownSymbol : ParseM PUnit) s := by
        unfold spliceCall findFn
        rw [Fallible.bind_error]
        · rfl
        · rw [Fallible.bind_ok (Fallible.get_apply s), hfind]
          rfl
      exact ((exact_fail _).of_run hrun).congr
        (fun _ w => by simp [Compiler.spliceLen, hfind]) fun _ => Iff.rfl
  | some i =>
      have hrun : spliceCall name s =
          pushBody (s.comp.fnBody i) (List.range (s.comp.fnBodyLen i)) s := by
        have hfn : findFn name s = .ok i s := by
          unfold findFn
          rw [Fallible.bind_ok (Fallible.get_apply s), hfind]
          rfl
        unfold spliceCall
        rw [Fallible.bind_ok hfn, Fallible.bind_ok (Fallible.get_apply s)]
      refine Exact.of_run hrun ?_
      by_cases hfit : s.comp.fnBodyLen i ≤ fnBodyWords
      · have hwords : ((s.comp.fnBody i).toList.take (s.comp.fnBodyLen i)).length =
            s.comp.fnBodyLen i := by
          rw [List.length_take, Vector.length_toList]
          exact Nat.min_eq_left hfit
        rw [pushBody_eq _ hfit]
        refine (exact_pushAll _ hup hlen hused).congr (fun _ w => ?_) fun _ => Iff.rfl
        rw [hwords]
        simp [Compiler.spliceLen, hfind, hfit]
      · have hmem : fnBodyWords ∈ List.range (s.comp.fnBodyLen i) :=
          List.mem_range.mpr (Nat.lt_of_not_le hfit)
        exact {
          adds := (silent_pushBody _ _).adds s
          returns := fun _ s' hpush => absurd hpush (pushBody_ne_ok _ (Nat.le_refl _) _ hmem s s')
          delivers := by
            rintro _ _ ⟨len, hsplice, _⟩
            simp [Compiler.spliceLen, hfind, hfit] at hsplice }

end Frames

/-! ### Statements -/

section Statements

variable {env : Env} {c : Compiler} {mem : Memory} {s : Frame} {ts : List Token} {used fuel : Nat}

/-- From here on the line is compiled over the tables of `c` and the memory
`mem`. -/
structure Over (c : Compiler) (mem : Memory) (s : Frame) (ts : List Token) (used : Nat) : Prop where
  tables : SameTables c s.comp
  mem_eq : s.scan.bus.mem = mem
  upcoming : Upcoming s.scan ts
  len_eq : s.comp.streamLen = used

theorem Over.next (h : Over c mem s ts used) {s' : Frame} {w : List Token × Nat}
    (hsees : frames.sees s' w) (hkeeps : frames.keeps s s') : Over c mem s' w.1 w.2 :=
  ⟨h.tables.trans hkeeps.2, hkeeps.1.trans h.mem_eq, hsees.1, hsees.2⟩

theorem Over.nextTok (h : Over c mem s ts used) :
    ∃ s', nextTok s = .ok (first ts) s' ∧ frames.hist s' = frames.hist s ∧ frames.keeps s s' ∧
      Over c mem s' ts.tail used := by
  obtain ⟨scan, hnext, hup, hbus⟩ := next_upcoming h.upcoming
  have hkeeps : frames.keeps s { s with scan := scan } := ⟨congrArg Bus.mem hbus, .refl _⟩
  exact ⟨{ s with scan := scan }, by simp [Parser.nextTok, onScan, hnext], history_of_bus hbus,
    hkeeps, h.tables, hkeeps.1.trans h.mem_eq, hup, h.len_eq⟩

theorem Over.peekTok (h : Over c mem s ts used) :
    ∃ s', peekTok s = .ok (first ts) s' ∧ frames.hist s' = frames.hist s ∧ frames.keeps s s' ∧
      Over c mem s' ts used := by
  obtain ⟨scan, hpeek, hup, hbus⟩ := peek_upcoming h.upcoming
  have hkeeps : frames.keeps s { s with scan := scan } := ⟨congrArg Bus.mem hbus, .refl _⟩
  exact ⟨{ s with scan := scan }, by simp [Parser.peekTok, onScan, hpeek], history_of_bus hbus,
    hkeeps, h.tables, hkeeps.1.trans h.mem_eq, hup, h.len_eq⟩

theorem Over.atom (h : Over c mem s ts used) (hn : 2 * ts.length + 2 ≤ fuel) :
    Exact frames (onScan fun self => parseAtomicTerm self fuel) s
      (fun v w => AtomAt c.symbols.value? mem ts v w.1 ∧ w.2 = used)
        (AtomPeeks c.symbols.value? mem ts) := by
  rw [← h.tables.symbols]
  exact exact_onScan h.len_eq (parseAtomicTerm_exact _ _ h.upcoming h.mem_eq hn)

theorem Over.expr (h : Over c mem s ts used) (hn : 2 * ts.length + 2 ≤ fuel) :
    Exact frames (onScan fun self => evalExpr self fuel none) s
      (fun v w => ExprAt c.symbols.value? mem ts v w.1 ∧ w.2 = used)
        (ExprPeeks c.symbols.value? mem ts) := by
  rw [← h.tables.symbols]
  exact exact_onScan h.len_eq (evalExpr_exact _ _ h.upcoming h.mem_eq hn)

theorem Over.exprAfter (h : Over c mem s ts used) (t : Token) (hn : 2 * ts.length + 4 ≤ fuel) :
    Exact frames (onScan fun self => evalExpr self fuel (some t)) s
      (fun v w => ExprAt c.symbols.value? mem (t :: ts) v w.1 ∧ w.2 = used)
        (ExprPeeks c.symbols.value? mem (t :: ts)) := by
  rw [← h.tables.symbols]
  exact exact_onScan h.len_eq (evalExpr_exact_after _ _ t h.upcoming h.mem_eq hn)

/-- The check and the words of an accepted statement. -/
theorem exact_emit (addr : Word) (ws : List Word) (h : Over c mem s ts used)
    (hused : used ≤ maxStreamWords) :
    Exact frames (enforce env addr >>= fun _ => pushAll ws) s
      (fun _ w => Registry.Permitted env.target env.registry addr ∧
        used + ws.length ≤ maxStreamWords ∧ w = (ts, used + ws.length)) fun _ => False := by
  refine ((exact_enforce env addr h.upcoming h.len_eq).bind fun _ s₁ w hw hsees hkeeps =>
    exact_pushAll ws hsees.1 hsees.2 (by rw [hw.2]; exact hused)).congr (fun _ w => ?_) fun _ => ?_
  · constructor
    · rintro ⟨_, _, ⟨hperm, rfl⟩, hroom, rfl⟩
      exact ⟨hperm, hroom, rfl⟩
    · rintro ⟨hperm, hroom, rfl⟩
      exact ⟨⟨⟩, _, ⟨hperm, rfl⟩, hroom, rfl⟩
  · simp

theorem exact_pokeStmt (h : Over c mem s ts used) (hused : used ≤ maxStreamWords)
    (hn : 2 * ts.length + 2 ≤ fuel) :
    Exact frames (do
        let addr ← onScan fun self => parseAtomicTerm self fuel
        let val ← onScan fun self => evalExpr self fuel none
        expectSemicolon
        enforce env addr
        streamPushLit env addr
        streamPushLit env val
        streamPush (env.code.wordOf .writeReg)) s
      (fun _ w => ∃ len, StmtPasses env c mem (.identifier (bytes "poke") :: ts) len w.1 ∧
        used + len ≤ maxStreamWords ∧ w.2 = used + len)
      (StmtPeeks c mem (.identifier (bytes "poke") :: ts)) := by
  have hemit : ∀ addr val : Word, (streamPushLit env addr >>= fun _ => streamPushLit env val >>=
      fun _ => streamPush (env.code.wordOf .writeReg)) =
        pushAll [env.code.wordOf .lit, addr, env.code.wordOf .lit, val,
          env.code.wordOf .writeReg] := push_write env
  simp only [hemit]
  refine ((h.atom hn).bind fun addr s₁ w₁ hw₁ hsees₁ hkeeps₁ =>
    ((h.next hsees₁ hkeeps₁).expr ?_).bind fun val s₂ w₂ hw₂ hsees₂ hkeeps₂ =>
      (exact_expectSemicolon hsees₂.1 hsees₂.2).bind fun _ s₃ w₃ hw₃ hsees₃ hkeeps₃ =>
        exact_emit addr _ (((h.next hsees₁ hkeeps₁).next hsees₂ hkeeps₂).next hsees₃ hkeeps₃)
          ?_).congr (fun _ w => ?_) fun a => ?_
  · have := hw₁.1.length_lt
    omega
  · rw [hw₃.2, hw₂.2, hw₁.2]
    exact hused
  · constructor
    · rintro ⟨addr, w₁, ⟨ha, hu₁⟩, val, w₂, ⟨he, hu₂⟩, _, w₃, ⟨hclose, hu₃⟩, hperm, hroom, rfl⟩
      rw [hu₃, hu₂, hu₁] at hroom ⊢
      exact ⟨5, .poke ha he hclose hperm, hroom, rfl⟩
    · rintro ⟨len, hpass, hroom, hw⟩
      obtain ⟨rfl, addr, ts₁, ha, val, ts₂, he, hclose, hperm⟩ := stmtPasses_poke.mp hpass
      exact ⟨addr, (ts₁, used), ⟨ha, rfl⟩, val, (ts₂, used), ⟨he, rfl⟩, ⟨⟩, (w.1, used),
        ⟨hclose, rfl⟩, hperm, hroom, Prod.ext rfl hw⟩
  · rw [stmtPeeks_poke]
    refine or_congr_right ⟨?_, ?_⟩
    · rintro ⟨addr, w₁, ⟨ha, _⟩, h | ⟨_, _, _, h⟩⟩
      · exact ⟨addr, w₁.1, ha, h⟩
      · simp at h
    · rintro ⟨addr, ts₁, ha, h⟩
      exact ⟨addr, (ts₁, used), ⟨ha, rfl⟩, .inl h⟩

theorem exact_peekStmt (h : Over c mem s ts used) (hused : used ≤ maxStreamWords)
    (hn : 2 * ts.length + 2 ≤ fuel) :
    Exact frames (do
        let addr ← onScan fun self => parseAtomicTerm self fuel
        expectSemicolon
        enforce env addr
        streamPushLit env addr
        streamPush (env.code.wordOf .loadReg)) s
      (fun _ w => ∃ len, StmtPasses env c mem (.identifier (bytes "peek") :: ts) len w.1 ∧
        used + len ≤ maxStreamWords ∧ w.2 = used + len)
      (StmtPeeks c mem (.identifier (bytes "peek") :: ts)) := by
  have hemit : ∀ addr : Word, (streamPushLit env addr >>= fun _ =>
      streamPush (env.code.wordOf .loadReg)) =
        pushAll [env.code.wordOf .lit, addr, env.code.wordOf .loadReg] := push_read env
  simp only [hemit]
  refine ((h.atom hn).bind fun addr s₁ w₁ hw₁ hsees₁ hkeeps₁ =>
    (exact_expectSemicolon hsees₁.1 hsees₁.2).bind fun _ s₂ w₂ hw₂ hsees₂ hkeeps₂ =>
      exact_emit addr _ ((h.next hsees₁ hkeeps₁).next hsees₂ hkeeps₂) ?_).congr
        (fun _ w => ?_) fun a => ?_
  · rw [hw₂.2, hw₁.2]
    exact hused
  · constructor
    · rintro ⟨addr, w₁, ⟨ha, hu₁⟩, _, w₂, ⟨hclose, hu₂⟩, hperm, hroom, rfl⟩
      rw [hu₂, hu₁] at hroom ⊢
      exact ⟨3, .peek ha hclose hperm, hroom, rfl⟩
    · rintro ⟨len, hpass, hroom, hw⟩
      obtain ⟨rfl, addr, ts₁, ha, hclose, hperm⟩ := stmtPasses_peek.mp hpass
      exact ⟨addr, (ts₁, used), ⟨ha, rfl⟩, ⟨⟩, (w.1, used), ⟨hclose, rfl⟩, hperm, hroom,
        Prod.ext rfl hw⟩
  · rw [stmtPeeks_peek]
    simp

/-- A name before a parenthesis is no expression statement. -/
theorem not_closes_of_lParen {lookup : List Byte → Option Word} {id : List Byte} {v : Word}
    {ts₁ rest : List Token} (hid : id ≠ bytes "peek")
    (he : ExprAt lookup mem (.identifier id :: .lParen :: ts) v ts₁) : ¬ Closes ts₁ rest := by
  obtain ⟨⟨head, tail⟩, ⟨hts, _⟩, _⟩ := he
  rw [Expr.toks] at hts
  have hhead : head.toks = [.identifier id] := by
    cases head with
    | lit v => cases (List.cons.inj hts).1
    | name nm =>
        rw [Atom.toks] at hts ⊢
        rw [(List.cons.inj hts).1]
    | paren e => cases (List.cons.inj hts).1
    | peek a => exact absurd (Token.identifier.inj (List.cons.inj hts).1) hid
  rw [hhead] at hts
  have hrest : Token.lParen :: ts = tail.toks ++ ts₁ := (List.cons.inj hts).2
  cases tail with
  | nil =>
      rw [Tail.toks, List.nil_append] at hrest
      subst hrest
      rintro (h | ⟨h, _⟩)
      · cases h
      · cases h
  | cons op a rest => cases (List.cons.inj hrest).1

theorem not_exprPeeks_of_lParen {lookup : List Byte → Option Word} {id : List Byte} {addr : Word}
    (hid : id ≠ bytes "peek") :
    ¬ ExprPeeks lookup mem (.identifier id :: .lParen :: ts) addr := by
  intro h
  rcases exprPeeks_iff.mp h with h | ⟨acc, rest, ⟨a, hts, _⟩, h⟩
  · exact not_atomPeeks (by simp) (by simpa using hid) h
  · cases a with
    | lit v => cases (List.cons.inj hts).1
    | name nm =>
        obtain rfl : Token.lParen :: ts = rest := (List.cons.inj hts).2
        have hend : ¬ ContinuesChain (Token.lParen :: ts) := not_false
        exact not_tailPeeks hend h
    | paren e => cases (List.cons.inj hts).1
    | peek a => exact absurd (Token.identifier.inj (List.cons.inj hts).1) hid

theorem exact_callParens (hfirst : first ts = .lParen) (hup : Upcoming s.scan ts)
    (hlen : s.comp.streamLen = used) :
    Exact frames callParens s (fun _ w => ts = .lParen :: .rParen :: w.1 ∧ w.2 = used)
      fun _ => False := by
  refine ((exact_nextTok hup hlen).bind fun _ s₁ w hw hsees _ =>
    exact_expect (show Token.rParen ≠ .eof by simp) hsees.1 hsees.2).congr (fun _ w => ?_)
      fun _ => by simp
  have hts := eq_cons_of_first hfirst (by simp)
  constructor
  · rintro ⟨_, _, ⟨_, rfl⟩, htail, hw⟩
    exact ⟨by rw [hts]; exact congrArg _ htail, hw⟩
  · rintro ⟨hts', hw⟩
    exact ⟨_, _, ⟨rfl, rfl⟩, by rw [hts']; rfl, hw⟩

theorem Over.splice (h : Over c mem s ts used) (hused : used ≤ maxStreamWords)
    (name : List Byte) :
    Exact frames (spliceCall name) s
      (fun _ w => ∃ len, c.spliceLen name = some len ∧ used + len ≤ maxStreamWords ∧
        w = (ts, used + len)) fun _ => False := by
  rw [← h.tables.spliceLen]
  exact exact_spliceCall name h.upcoming h.len_eq hused

theorem exact_callStmt (f : PlainName) (h : Over c mem s ts used) (hused : used ≤ maxStreamWords)
    (hfirst : first ts = .lParen) :
    Exact frames (do
        callParens
        expectSemicolon
        spliceCall f.val) s
      (fun _ w => ∃ len, StmtPasses env c mem (.identifier f.val :: ts) len w.1 ∧
        used + len ≤ maxStreamWords ∧ w.2 = used + len)
      (StmtPeeks c mem (.identifier f.val :: ts)) := by
  have hts := eq_cons_of_first hfirst (by simp)
  refine ((exact_callParens hfirst h.upcoming h.len_eq).bind fun _ s₁ w₁ hw₁ hsees₁ hkeeps₁ =>
    (exact_expectSemicolon hsees₁.1 hsees₁.2).bind fun _ s₂ w₂ hw₂ hsees₂ hkeeps₂ =>
      ((h.next hsees₁ hkeeps₁).next hsees₂ hkeeps₂).splice ?_ f.val).congr
        (fun _ w => ?_) fun a => ?_
  · rw [hw₂.2, hw₁.2]
    exact hused
  · constructor
    · rintro ⟨_, w₁, ⟨hparens, hu₁⟩, _, w₂, ⟨hclose, hu₂⟩, len, hlen, hroom, rfl⟩
      rw [hu₂, hu₁] at hroom ⊢
      rw [hparens]
      exact ⟨len, .call hlen hclose, hroom, rfl⟩
    · rintro ⟨len, hpass, hroom, hw⟩
      rcases stmtPasses_name.mp hpass with ⟨ts', hparens, hlen, hclose⟩ | ⟨_, v, ts₁, he, hclose⟩
      · exact ⟨⟨⟩, (ts', used), ⟨hparens, rfl⟩, ⟨⟩, (w.1, used), ⟨hclose, rfl⟩, len, hlen, hroom,
          Prod.ext rfl hw⟩
      · rw [hts] at he
        exact absurd hclose (not_closes_of_lParen f.property.2 he)
  · rw [stmtPeeks_name, hts]
    simp [not_exprPeeks_of_lParen f.property.2]

theorem exact_exprStmt (f : PlainName) (h : Over c mem s ts used) (hused : used ≤ maxStreamWords)
    (hfirst : first ts ≠ .lParen) (hn : 2 * ts.length + 4 ≤ fuel) :
    Exact frames (do
        let _ ← onScan fun self => evalExpr self fuel (some (.identifier f.val))
        expectSemicolon) s
      (fun _ w => ∃ len, StmtPasses env c mem (.identifier f.val :: ts) len w.1 ∧
        used + len ≤ maxStreamWords ∧ w.2 = used + len)
      (StmtPeeks c mem (.identifier f.val :: ts)) := by
  refine ((h.exprAfter (.identifier f.val) hn).bind fun _ s₁ w₁ hw₁ hsees₁ hkeeps₁ =>
    exact_expectSemicolon hsees₁.1 hsees₁.2).congr (fun _ w => ?_) fun a => ?_
  · constructor
    · rintro ⟨v, w₁, ⟨he, hu₁⟩, hclose, hu⟩
      rw [hu, hu₁]
      exact ⟨0, .expr he hclose, hused, rfl⟩
    · rintro ⟨len, hpass, hroom, hw⟩
      rcases stmtPasses_name.mp hpass with ⟨ts', hparens, _⟩ | ⟨rfl, v, ts₁, he, hclose⟩
      · exact absurd (by rw [hparens]; rfl) hfirst
      · exact ⟨v, (ts₁, used), ⟨he, rfl⟩, hclose, hw⟩
  · rw [stmtPeeks_name]
    simp

/-- A statement reads its reached peek terms, and passes as it should. -/
theorem parseBodyStmt_exact (h : Over c mem s ts used) (hused : used ≤ maxStreamWords)
    (hn : 2 * ts.length + 2 ≤ fuel) :
    Exact frames (parseBodyStmt env fuel) s
      (fun _ w => ∃ len, StmtPasses env c mem ts len w.1 ∧ used + len ≤ maxStreamWords ∧
        w.2 = used + len) (StmtPeeks c mem ts) := by
  unfold parseBodyStmt
  obtain ⟨s₁, hnext, hhist₁, hkeeps₁, h₁⟩ := h.nextTok
  refine Exact.step hnext hhist₁ hkeeps₁ ?_
  split
  · rename_i id hfirst
    obtain ⟨ts, rfl⟩ : ∃ ts', ts = .identifier id :: ts' :=
      ⟨ts.tail, eq_cons_of_first hfirst (by simp)⟩
    simp only [List.tail_cons, List.length_cons] at h₁ hn
    split
    · rename_i hid
      subst hid
      exact exact_pokeStmt h₁ hused (by omega)
    · rename_i hpoke
      split
      · rename_i hid
        subst hid
        exact exact_peekStmt h₁ hused (by omega)
      · rename_i hpeek
        obtain ⟨s₂, hpeekTok, hhist₂, hkeeps₂, h₂⟩ := h₁.peekTok
        refine Exact.step hpeekTok hhist₂ hkeeps₂ ?_
        split
        · rename_i hparen
          exact exact_callStmt ⟨id, hpoke, hpeek⟩ h₂ hused hparen
        · rename_i hparen
          exact exact_exprStmt ⟨id, hpoke, hpeek⟩ h₂ hused hparen (by omega)
  · rename_i hid
    have hfirst : ¬ ∃ id, first ts = .identifier id := by
      rintro ⟨id, h⟩
      exact hid id h
    refine (exact_fail _).congr (fun _ w => iff_of_false not_false ?_)
      fun a => iff_of_false not_false fun hp => hfirst hp.head
    rintro ⟨len, hpass, _⟩
    exact hfirst hpass.head

theorem Closes.length_le {mid rest : List Token} (h : Closes mid rest) :
    rest.length ≤ mid.length := by
  rcases h with rfl | ⟨rfl, rfl⟩
  · simp
  · simp

theorem ExprAt.length_le {lookup : List Byte → Option Word} {v : Word} {rest : List Token}
    (h : ExprAt lookup mem ts v rest) : rest.length ≤ ts.length := by
  obtain ⟨e, ⟨rfl, _⟩, _⟩ := h
  simp

/-- A statement consumes tokens. -/
theorem StmtPasses.length_lt {len : Nat} {rest : List Token}
    (h : StmtPasses env c mem ts len rest) : rest.length < ts.length := by
  cases h with
  | poke ha he hclose hperm =>
      have := ha.length_lt
      have := ExprAt.length_le he
      have := Closes.length_le hclose
      simp only [List.length_cons]
      omega
  | peek ha hclose hperm =>
      have := ha.length_lt
      have := Closes.length_le hclose
      simp only [List.length_cons]
      omega
  | call hlen hclose =>
      have := Closes.length_le hclose
      simp only [List.length_cons]
      omega
  | @expr f ts₁ _ _ v he hclose =>
      have hclosed := Closes.length_le hclose
      obtain ⟨⟨head, tail⟩, ⟨hts, _⟩, _⟩ := he
      have hlen := congrArg List.length hts
      have hpos := head.toks_length_pos
      simp only [Expr.toks, List.length_append] at hlen
      omega

/-- A body reads the terms it reaches. -/
theorem parseBody_adds : ∀ (n : Nat) {s : Frame} {ts : List Token} {used : Nat},
    Over c mem s ts used → used ≤ maxStreamWords → 2 * ts.length + 2 ≤ fuel → ts.length < n →
      Adds frames.hist (parseBody env fuel n) s (BodyPeeks env c mem used ts) := by
  intro n
  induction n with
  | zero => intro s ts used _ _ _ hn; omega
  | succ n ih =>
      intro s ts used h hused hfuel hn
      unfold parseBody
      obtain ⟨s₁, hpeek, hhist₁, hkeeps₁, h₁⟩ := h.peekTok
      refine Adds.step hpeek hhist₁ ?_
      split
      · rename_i hfirst
        refine ((silent_nextTok.bind fun _ => Fallible.silent_pure _).adds s₁).congr
          fun addr => iff_of_false not_false (not_bodyPeeks fun id hid => ?_)
        rw [hfirst] at hid
        cases hid
      · rename_i hfirst
        refine ((Fallible.silent_throw _).adds s₁).congr
          fun addr => iff_of_false not_false (not_bodyPeeks fun id hid => ?_)
        rw [hfirst] at hid
        cases hid
      · have hrest : ∀ (u : PUnit) (s₂ : Frame) (w : List Token × Nat),
            (∃ len, StmtPasses env c mem ts len w.1 ∧ used + len ≤ maxStreamWords ∧
              w.2 = used + len) → frames.sees s₂ w → frames.keeps s₁ s₂ →
            Adds frames.hist (parseBody env fuel n) s₂ (BodyPeeks env c mem w.2 w.1) := by
          rintro _ s₂ w ⟨len, hpass, hroom, hw⟩ hsees hkeeps
          have hlt := hpass.length_lt
          exact ih (h₁.next hsees hkeeps) (by omega) (by omega) (by omega)
        refine ((parseBodyStmt_exact h₁ hused hfuel).adds_bind hrest).congr fun addr => ?_
        rw [bodyPeeks_iff]
        refine or_congr_right ⟨?_, ?_⟩
        · rintro ⟨_, w, ⟨len, hpass, hroom, hw⟩, hbody⟩
          exact ⟨len, w.1, hpass, hroom, hw ▸ hbody⟩
        · rintro ⟨len, rest, hpass, hroom, hbody⟩
          exact ⟨⟨⟩, (rest, used + len), ⟨len, hpass, hroom, rfl⟩, hbody⟩

end Statements

/-! ### What reads nothing -/

section SilentParts

theorem silent_fail {α : Type} (e : ParseError) : Silent frames.hist (fail e : ParseM α) :=
  Fallible.silent_throw _

theorem silent_peekTok : Silent frames.hist peekTok := by
  refine silent_onScan fun _ s => ?_
  unfold Cur.peek
  cases hahead : s.ahead with
  | some t => rfl
  | none =>
      unfold Cur.lexToken
      cases s.lx.nextToken with
      | some r => rfl
      | none => rfl

theorem silent_expect (tok : Token) : Silent frames.hist (expect tok) := by
  refine silent_nextTok.bind fun t => ?_
  split
  · exact Fallible.silent_pure _
  · exact silent_fail _

theorem silent_expectName : Silent frames.hist expectName := by
  refine silent_nextTok.bind fun t => ?_
  split
  · split
    · exact Fallible.silent_pure _
    · exact silent_fail _
  · exact silent_fail _

theorem silent_expectSemicolon : Silent frames.hist expectSemicolon := by
  refine silent_nextTok.bind fun t => ?_
  split
  · exact Fallible.silent_pure _
  · exact Fallible.silent_pure _
  · exact silent_fail _

theorem silent_allowOptionalSemicolon : Silent frames.hist allowOptionalSemicolon := by
  refine silent_peekTok.bind fun t => ?_
  split
  · exact silent_nextTok.bind fun _ => Fallible.silent_pure _
  · exact Fallible.silent_pure _

theorem silent_enforce (env : Env) (addr : Word) : Silent frames.hist (enforce env addr) := by
  unfold enforce
  split
  · exact Fallible.silent_pure _
  · exact silent_fail _

theorem silent_streamReset : Silent frames.hist streamReset := fun _ => rfl

theorem silent_takeProgram (yields : Bool) : Silent frames.hist (takeProgram yields) := by
  refine Fallible.silent_get fun s => ?_
  cases copyPrefix (Vector.replicate maxStreamWords 0#32) s.comp.stream s.comp.streamLen <;> rfl

theorem silent_buildValueProgram (env : Env) (v : Word) :
    Silent frames.hist (buildValueProgram env v) :=
  silent_streamReset.bind fun _ =>
    ((silent_streamPush _).bind fun _ => silent_streamPush v).bind fun _ =>
      (silent_streamPush _).bind fun _ => silent_takeProgram true

theorem silent_findFn (name : List Byte) : Silent frames.hist (findFn name) := by
  refine Fallible.silent_get fun s => ?_
  cases s.comp.findFn name <;> rfl

theorem silent_buildCallProgram (env : Env) (name : List Byte) :
    Silent frames.hist (buildCallProgram env name) :=
  (silent_findFn name).bind fun _ => silent_streamReset.bind fun _ =>
    Fallible.silent_get fun s => ((silent_pushBody _ _).bind fun _ =>
      (silent_streamPush _).bind fun _ => silent_takeProgram false) s

theorem silent_storeFn (name : NameBuf) : Silent frames.hist (storeFn name) := by
  refine Fallible.silent_get fun s => ?_
  split
  · rfl
  · cases s.comp.allocFnSlot name with
    | error e => rfl
    | ok i =>
        simp only
        cases copyPrefix (s.comp.fnBody i) s.comp.stream s.comp.streamLen <;> rfl

theorem silent_bindSymbol (name : NameBuf) (value : Word) :
    Silent frames.hist (do
      let s ← get
      match s.comp.symbols.insertSymbol name value with
      | some (.ok symbols) => do
          set { s with comp := { s.comp with symbols := symbols } }
          pure (.bound name value)
      | some (.error e) => fail e
      | none => throw .panic : ParseM Outcome) := by
  refine Fallible.silent_get fun s => ?_
  rcases s.comp.symbols.insertSymbol name value with _ | _ | _ <;> rfl

theorem silent_callStmt (env : Env) (id : List Byte) :
    Silent frames.hist (do
      callParens
      expectSemicolon
      let program ← buildCallProgram env id
      pure (.run program) : ParseM Outcome) :=
  (silent_nextTok.bind fun _ => silent_expect _).bind fun _ =>
    silent_expectSemicolon.bind fun _ =>
      (silent_buildCallProgram env id).bind fun _ => Fallible.silent_pure _

theorem silent_parseCapCommand (outcome : NameBuf → Outcome) :
    Silent frames.hist (parseCapCommand outcome) :=
  silent_expectName.bind fun _ => silent_expectSemicolon.bind fun _ => Fallible.silent_pure _

theorem silent_parseBareCommand (outcome : Outcome) :
    Silent frames.hist (parseBareCommand outcome) :=
  silent_allowOptionalSemicolon.bind fun _ => Fallible.silent_pure _

end SilentParts

/-! ### Lines -/

section Lines

variable {env : Env} {c : Compiler} {mem : Memory} {s : Frame} {ts : List Token}
  {used fuel : Nat}

theorem not_exprPeeks_of_head {lookup : List Byte → Option Word} {t : Token} {addr : Word}
    (hpeek : ¬ AtomPeeks lookup mem (t :: ts) addr)
    (hterm : ∀ a : Atom, first a.toks ≠ t) : ¬ ExprPeeks lookup mem (t :: ts) addr := by
  intro h
  rcases exprPeeks_iff.mp h with h | ⟨acc, rest, ⟨a, hts, _⟩, _⟩
  · exact hpeek h
  · obtain ⟨t', ts', htoks⟩ := List.exists_cons_of_length_pos a.toks_length_pos
    rw [htoks, List.cons_append] at hts
    exact hterm a (by rw [htoks, first_cons, (List.cons.inj hts).1])

/-- A keyword starts no expression. -/
theorem not_exprPeeks_keyword {lookup : List Byte → Option Word} {t : Token} {addr : Word}
    (h : t = .kwLet ∨ t = .kwFn) : ¬ ExprPeeks lookup mem (t :: ts) addr := by
  refine not_exprPeeks_of_head (not_atomPeeks ?_ ?_) fun a => ?_
  · rcases h with rfl | rfl <;> simp
  · rcases h with rfl | rfl <;> simp
  · rcases h with rfl | rfl <;> cases a <;> simp [Atom.toks]

theorem linePeeks_let {addr : Word} :
    LinePeeks env c mem (.kwLet :: ts) addr ↔ ∃ id ts', id.length ≤ nameMax ∧
      ts = .identifier id :: .operator (ascii '=') :: ts' ∧
        ExprPeeks c.symbols.value? mem ts' addr := by
  constructor
  · intro h
    cases h with
    | @bound id ts' _ hlen h => exact ⟨id, ts', hlen, rfl, h⟩
    | value _ h => exact absurd h (not_exprPeeks_keyword (.inl rfl))
  · rintro ⟨id, ts', hlen, rfl, h⟩
    exact .bound hlen h

theorem linePeeks_fn {addr : Word} :
    LinePeeks env c mem (.kwFn :: ts) addr ↔ ∃ id ts', id.length ≤ nameMax ∧
      ts = .identifier id :: .lParen :: .rParen :: .lBrace :: ts' ∧
        BodyPeeks env c mem 0 ts' addr := by
  constructor
  · intro h
    cases h with
    | @body id ts' _ hlen h => exact ⟨id, ts', hlen, rfl, h⟩
    | value _ h => exact absurd h (not_exprPeeks_keyword (.inr rfl))
  · rintro ⟨id, ts', hlen, rfl, h⟩
    exact .body hlen h

theorem fromSlice_ok_iff {id : List Byte} :
    (∃ name, NameBuf.fromSlice id = .ok name) ↔ id.length ≤ nameMax :=
  NameBuf.fromSlice_eq_ok_iff

theorem parseLet_adds (h : Over c mem s ts used) (hn : 2 * ts.length + 2 ≤ fuel) :
    Adds frames.hist (parseLet fuel) s (LinePeeks env c mem (.kwLet :: ts)) := by
  unfold parseLet
  refine ((exact_expectName h.upcoming h.len_eq).adds_then fun name s₁ w₁ hw₁ hsees₁ hkeeps₁ =>
    (exact_expect (show Token.operator (ascii '=') ≠ .eof by simp) hsees₁.1 hsees₁.2).adds_then
      fun _ s₂ w₂ hw₂ hsees₂ hkeeps₂ =>
        (((h.next hsees₁ hkeeps₁).next hsees₂ hkeeps₂).expr ?_).adds.bind_silent fun v =>
          silent_expectSemicolon.bind fun _ => silent_bindSymbol name v).congr fun addr => ?_
  · obtain ⟨⟨id, hts, _⟩, _⟩ := hw₁
    rw [hts, hw₂.1] at hn
    simp only [List.length_cons] at hn
    omega
  · rw [linePeeks_let]
    constructor
    · rintro ⟨name, w₁, ⟨⟨id, hts, hname⟩, _⟩, _, w₂, ⟨heq, _⟩, h⟩
      exact ⟨id, w₂.1, fromSlice_ok_iff.mp ⟨name, hname⟩, by rw [hts, heq], h⟩
    · rintro ⟨id, ts', hlen, hts, h⟩
      obtain ⟨name, hname⟩ := fromSlice_ok_iff.mpr hlen
      exact ⟨name, (_, used), ⟨⟨id, hts, hname⟩, rfl⟩, ⟨⟩, (ts', used), ⟨rfl, rfl⟩, h⟩

/-- A definition from its opening brace on. -/
theorem fnBody_adds {n : Nat} (name : NameBuf) (h : Over c mem s ts used)
    (hfuel : 2 * ts.length + 2 ≤ fuel) (hn : ts.length < n) :
    Adds frames.hist (do
        streamReset
        parseBody env fuel n
        storeFn name) s (BodyPeeks env c mem 0 ts) := by
  have hfresh : Over c mem s.fresh ts 0 :=
    ⟨h.tables.trans (fresh_same s), h.mem_eq, h.upcoming, rfl⟩
  exact Adds.step (streamReset_ok s) rfl
    ((parseBody_adds n hfresh (Nat.zero_le _) hfuel hn).bind_silent fun _ => silent_storeFn name)

theorem parseFn_adds {n : Nat} (h : Over c mem s ts used) (hfuel : 2 * ts.length + 2 ≤ fuel)
    (hn : ts.length < n) :
    Adds frames.hist (parseFn env fuel n) s (LinePeeks env c mem (.kwFn :: ts)) := by
  unfold parseFn
  refine ((exact_expectName h.upcoming h.len_eq).adds_then fun name s₁ w₁ hw₁ hsees₁ hkeeps₁ =>
    (exact_expect (show Token.lParen ≠ .eof by simp) hsees₁.1 hsees₁.2).adds_then
      fun _ s₂ w₂ hw₂ hsees₂ hkeeps₂ =>
    (exact_expect (show Token.rParen ≠ .eof by simp) hsees₂.1 hsees₂.2).adds_then
      fun _ s₃ w₃ hw₃ hsees₃ hkeeps₃ =>
    (exact_expect (show Token.lBrace ≠ .eof by simp) hsees₃.1 hsees₃.2).adds_then
      fun _ s₄ w₄ hw₄ hsees₄ hkeeps₄ =>
    fnBody_adds name ((((h.next hsees₁ hkeeps₁).next hsees₂ hkeeps₂).next hsees₃ hkeeps₃).next
      hsees₄ hkeeps₄) ?_ ?_).congr fun addr => ?_
  · obtain ⟨⟨id, hts, _⟩, _⟩ := hw₁
    rw [hts, hw₂.1, hw₃.1, hw₄.1] at hfuel
    simp only [List.length_cons] at hfuel
    omega
  · obtain ⟨⟨id, hts, _⟩, _⟩ := hw₁
    rw [hts, hw₂.1, hw₃.1, hw₄.1] at hn
    simp only [List.length_cons] at hn
    omega
  · rw [linePeeks_fn]
    constructor
    · rintro ⟨name, w₁, ⟨⟨id, hts, hname⟩, _⟩, _, w₂, ⟨h₂, _⟩, _, w₃, ⟨h₃, _⟩, _, w₄, ⟨h₄, _⟩, h⟩
      exact ⟨id, w₄.1, fromSlice_ok_iff.mp ⟨name, hname⟩, by rw [hts, h₂, h₃, h₄], h⟩
    · rintro ⟨id, ts', hlen, hts, h⟩
      obtain ⟨name, hname⟩ := fromSlice_ok_iff.mpr hlen
      exact ⟨name, (_, used), ⟨⟨id, hts, hname⟩, rfl⟩, ⟨⟩, (_, used), ⟨rfl, rfl⟩, ⟨⟩, (_, used),
        ⟨rfl, rfl⟩, ⟨⟩, (ts', used), ⟨rfl, rfl⟩, h⟩

theorem parseValueStmt_adds (t : Token) (h : Over c mem s ts used)
    (hn : 2 * ts.length + 4 ≤ fuel) :
    Adds frames.hist (parseValueStmt env fuel t) s
      (ExprPeeks c.symbols.value? mem (t :: ts)) :=
  (h.exprAfter t hn).adds.bind_silent fun v => silent_expectSemicolon.bind fun _ =>
    (silent_buildValueProgram env v).bind fun _ => Fallible.silent_pure _

theorem parseBitCommand_adds (outcome : Word → Word → Outcome) (h : Over c mem s ts used)
    (hn : 2 * ts.length + 2 ≤ fuel) :
    Adds frames.hist (parseBitCommand env fuel outcome) s fun addr =>
      AtomPeeks c.symbols.value? mem ts addr ∨ ∃ a ts₁, AtomAt c.symbols.value? mem ts a ts₁ ∧
        AtomPeeks c.symbols.value? mem ts₁ addr := by
  unfold parseBitCommand
  refine ((h.atom hn).adds_bind fun a s₁ w₁ hw₁ hsees₁ hkeeps₁ =>
    ((h.next hsees₁ hkeeps₁).atom ?_).adds.bind_silent fun v =>
      silent_expectSemicolon.bind fun _ => (silent_enforce env a).bind fun _ =>
        Fallible.silent_pure _).congr fun addr => or_congr_right ⟨?_, ?_⟩
  · have := hw₁.1.length_lt
    omega
  · rintro ⟨a, w₁, ⟨ha, _⟩, h⟩
    exact ⟨a, w₁.1, ha, h⟩
  · rintro ⟨a, ts₁, ha, h⟩
    exact ⟨a, (ts₁, used), ⟨ha, rfl⟩, h⟩

theorem peekCommand_adds (h : Over c mem s ts used) (hn : 2 * ts.length + 2 ≤ fuel) :
    Adds frames.hist (do
        let addr ← onScan fun self => parseAtomicTerm self fuel
        expectSemicolon
        enforce env addr
        pure (.enforcedPeek addr) : ParseM Outcome) s
      (StmtPeeks c mem (.identifier (bytes "peek") :: ts)) :=
  ((h.atom hn).adds.bind_silent fun a => silent_expectSemicolon.bind fun _ =>
    (silent_enforce env a).bind fun _ => Fallible.silent_pure _).congr
      fun _ => stmtPeeks_peek.symm

theorem pokeCommand_adds (h : Over c mem s ts used) (hn : 2 * ts.length + 2 ≤ fuel) :
    Adds frames.hist (do
        let addr ← onScan fun self => parseAtomicTerm self fuel
        let val ← onScan fun self => evalExpr self fuel none
        expectSemicolon
        enforce env addr
        pure (.enforcedPoke addr val) : ParseM Outcome) s
      (StmtPeeks c mem (.identifier (bytes "poke") :: ts)) := by
  refine ((h.atom hn).adds_bind fun a s₁ w₁ hw₁ hsees₁ hkeeps₁ =>
    ((h.next hsees₁ hkeeps₁).expr ?_).adds.bind_silent fun v =>
      silent_expectSemicolon.bind fun _ => (silent_enforce env a).bind fun _ =>
        Fallible.silent_pure _).congr fun addr => ?_
  · have := hw₁.1.length_lt
    omega
  · rw [stmtPeeks_poke]
    refine or_congr_right ⟨?_, ?_⟩
    · rintro ⟨a, w₁, ⟨ha, _⟩, h⟩
      exact ⟨a, w₁.1, ha, h⟩
    · rintro ⟨a, ts₁, ha, h⟩
      exact ⟨a, (ts₁, used), ⟨ha, rfl⟩, h⟩

/-! The lines that start with an identifier, by what `parse_command` makes of
it. -/

theorem not_bit_of_access {word : List Byte} (h : word = bytes "peek" ∨ word = bytes "poke") :
    ¬ (word = bytes "reg_set_bit" ∨ word = bytes "reg_clr_bit") := by
  rcases h with rfl | rfl <;> decide

theorem linePeeks_access {word : List Byte} {addr : Word}
    (hword : word = bytes "peek" ∨ word = bytes "poke") :
    LinePeeks env c mem (.identifier word :: ts) addr ↔
      StmtPeeks c mem (.identifier word :: ts) addr := by
  constructor
  · intro h
    cases h with
    | access _ h => exact h
    | bitAddr hbit _ => exact absurd hbit (not_bit_of_access hword)
    | bitIndex hbit _ _ => exact absurd hbit (not_bit_of_access hword)
    | value hnot _ =>
        refine absurd rfl (hnot word ?_)
        rcases hword with rfl | rfl <;> simp [commandWords]
  · exact .access hword

theorem linePeeks_bit {word : List Byte} {addr : Word}
    (hword : word = bytes "reg_set_bit" ∨ word = bytes "reg_clr_bit") :
    LinePeeks env c mem (.identifier word :: ts) addr ↔
      AtomPeeks c.symbols.value? mem ts addr ∨ ∃ a ts₁, AtomAt c.symbols.value? mem ts a ts₁ ∧
        AtomPeeks c.symbols.value? mem ts₁ addr := by
  constructor
  · intro h
    cases h with
    | access hacc _ => exact absurd hword (not_bit_of_access hacc)
    | bitAddr _ h => exact .inl h
    | @bitIndex _ _ ts₁ a _ _ ha h => exact .inr ⟨a, ts₁, ha, h⟩
    | value hnot _ =>
        refine absurd rfl (hnot word ?_)
        rcases hword with rfl | rfl <;> simp [commandWords]
  · rintro (h | ⟨a, ts₁, ha, h⟩)
    · exact .bitAddr hword h
    · exact .bitIndex hword ha h

/-- The other commands have no operand that is evaluated. -/
theorem not_linePeeks {word : List Byte} {addr : Word} (hword : word ∈ commandWords)
    (hacc : ¬ (word = bytes "peek" ∨ word = bytes "poke"))
    (hbit : ¬ (word = bytes "reg_set_bit" ∨ word = bytes "reg_clr_bit")) :
    ¬ LinePeeks env c mem (.identifier word :: ts) addr := by
  intro h
  cases h with
  | access h _ => exact hacc h
  | bitAddr h _ => exact hbit h
  | bitIndex h _ _ => exact hbit h
  | value hnot _ => exact hnot word hword rfl

theorem linePeeks_value {t : Token} {addr : Word} (hlet : t ≠ .kwLet) (hfn : t ≠ .kwFn)
    (hword : ∀ word ∈ commandWords, t ≠ .identifier word) :
    LinePeeks env c mem (t :: ts) addr ↔ ExprPeeks c.symbols.value? mem (t :: ts) addr := by
  constructor
  · intro h
    cases h with
    | bound => exact absurd rfl hlet
    | body => exact absurd rfl hfn
    | @access word _ _ hacc _ =>
        refine absurd rfl (hword word ?_)
        rcases hacc with rfl | rfl <;> simp [commandWords]
    | @bitAddr word _ _ hbit _ =>
        refine absurd rfl (hword word ?_)
        rcases hbit with rfl | rfl <;> simp [commandWords]
    | @bitIndex word _ _ _ _ hbit _ _ =>
        refine absurd rfl (hword word ?_)
        rcases hbit with rfl | rfl <;> simp [commandWords]
    | value _ h => exact h
  · exact .value hword

theorem parseCommand_adds (id : List Byte) (h : Over c mem s ts used)
    (hn : 2 * ts.length + 4 ≤ fuel) :
    Adds frames.hist (parseCommand env fuel id) s (LinePeeks env c mem (.identifier id :: ts)) := by
  -- A command without operands.
  have hsilent : ∀ x : ParseM Outcome, Silent frames.hist x →
      (∀ addr, ¬ LinePeeks env c mem (.identifier id :: ts) addr) →
        Adds frames.hist x s (LinePeeks env c mem (.identifier id :: ts)) :=
    fun x hx hnot => (hx.adds s).congr fun addr => iff_of_false not_false (hnot addr)
  refine parseCommand_cases
    (P := fun x => Adds frames.hist x s (LinePeeks env c mem (.identifier id :: ts)))
    ?peek ?poke ?cap ?bit ?bare ?name
  case peek =>
    rintro rfl
    exact (peekCommand_adds h (by omega)).congr fun _ => (linePeeks_access (.inl rfl)).symm
  case poke =>
    rintro rfl
    exact (pokeCommand_adds h (by omega)).congr fun _ => (linePeeks_access (.inr rfl)).symm
  case cap =>
    intro outcome hcap
    refine hsilent _ (silent_parseCapCommand _) fun addr => ?_
    rcases hcap with ⟨rfl, rfl⟩ | ⟨rfl, rfl⟩ <;>
      exact not_linePeeks (by simp [commandWords]) (by decide) (by decide)
  case bit =>
    rintro outcome (⟨rfl, rfl⟩ | ⟨rfl, rfl⟩)
    · exact (parseBitCommand_adds _ h (by omega)).congr fun _ => (linePeeks_bit (.inl rfl)).symm
    · exact (parseBitCommand_adds _ h (by omega)).congr fun _ => (linePeeks_bit (.inr rfl)).symm
  case bare =>
    intro outcome hbare
    refine hsilent _ (silent_parseBareCommand _) fun addr => ?_
    rcases hbare with ⟨rfl, rfl⟩ | ⟨rfl, rfl⟩ | ⟨rfl, rfl⟩ <;>
      exact not_linePeeks (by simp [commandWords]) (by decide) (by decide)
  case name =>
    intro hword
    have hvalue : ∀ addr, ExprPeeks c.symbols.value? mem (.identifier id :: ts) addr ↔
        LinePeeks env c mem (.identifier id :: ts) addr := fun addr =>
      (linePeeks_value (by simp) (by simp) fun word hmem heq =>
        hword (by rwa [Token.identifier.inj heq])).symm
    obtain ⟨s₁, hrun, hhist₁, hkeeps₁, h₁⟩ := h.peekTok
    refine Adds.step hrun hhist₁ ?_
    split
    · rename_i hparen
      have hpeek : id ≠ bytes "peek" := fun heq => hword (by simp [commandWords, heq])
      refine ((silent_callStmt env id).adds s₁).congr fun addr => ?_
      rw [← hvalue, eq_cons_of_first hparen (by simp)]
      exact iff_of_false not_false (not_exprPeeks_of_lParen hpeek)
    · exact (parseValueStmt_adds _ h₁ hn).congr hvalue

/-- A line reads the peek terms it reaches. -/
theorem parseLine_adds {n : Nat} (h : Over c mem s ts used) (hfuel : 2 * ts.length + 4 ≤ fuel)
    (hn : ts.length < n) :
    Adds frames.hist (parseLine env fuel n) s (LinePeeks env c mem ts) := by
  unfold parseLine
  obtain ⟨s₁, hnext, hhist₁, hkeeps₁, h₁⟩ := h.nextTok
  refine Adds.step hnext hhist₁ ?_
  cases ts with
  | nil =>
      refine ((silent_fail _).adds s₁).congr fun addr => iff_of_false not_false fun hp => ?_
      cases hp with
      | value _ h =>
          rcases exprPeeks_iff.mp h with h | ⟨acc, rest, hat, _⟩
          · exact not_atomPeeks_nil h
          · exact not_atomAt_nil hat
  | cons t ts =>
      simp only [List.tail_cons, List.length_cons] at h₁ hfuel hn
      have hvalue : t ≠ .kwLet → t ≠ .kwFn → (∀ word, t ≠ .identifier word) →
          Adds frames.hist (parseValueStmt env fuel t) s₁ (LinePeeks env c mem (t :: ts)) :=
        fun hlet hfn hword => (parseValueStmt_adds t h₁ (by omega)).congr fun _ =>
          (linePeeks_value hlet hfn fun word _ => hword word).symm
      have hother : t ≠ .kwLet → t ≠ .kwFn → (∀ word, t ≠ .identifier word) → t ≠ .lParen →
          (∀ a : Atom, first a.toks ≠ t) → ∀ e, Adds frames.hist (fail e : ParseM Outcome) s₁
            (LinePeeks env c mem (t :: ts)) :=
        fun hlet hfn hword hparen hterm e => ((silent_fail e).adds s₁).congr fun _ =>
          iff_of_false not_false fun hp => not_exprPeeks_of_head (not_atomPeeks hparen (hword _))
            hterm ((linePeeks_value hlet hfn fun word _ => hword word).mp hp)
      cases t with
      | kwLet => exact parseLet_adds h₁ (by omega)
      | kwFn => exact parseFn_adds h₁ (by omega) (by omega)
      | identifier id => exact parseCommand_adds id h₁ (by omega)
      | literal v => exact hvalue (by simp) (by simp) (by simp)
      | operator b => exact hvalue (by simp) (by simp) (by simp)
      | lParen => exact hvalue (by simp) (by simp) (by simp)
      | _ =>
          refine hother (by simp) (by simp) (by simp) (by simp) (fun a => ?_) _
          cases a <;> simp [Atom.toks]

end Lines

end Parser

open HolyRust.Parser (Env Frame LinePeeks)

/-- The addresses that `parse` reads while it compiles a line, in order. -/
def Compiler.compileReads (c : Compiler) (env : Env) (bus : Bus) (line : List Byte) : List Word :=
  (MemEvent.reads (c.parse env bus line).scan.bus.trace).drop (MemEvent.reads bus.trace).length

/-- They are the operands of the peek terms that the line reaches. -/
theorem Compiler.mem_compileReads {c : Compiler} {env : Env} {bus : Bus} {line : List Byte}
    {addr : Word} :
    addr ∈ c.compileReads env bus line ↔ LinePeeks env c bus.mem (Lexer.new line).toks addr := by
  have hlen := Lexer.length_toks_le (Lexer.new line)
  rw [Lexer.rest_new] at hlen
  have hstart : Parser.Over c bus.mem (Frame.start c bus line) (Lexer.new line).toks c.streamLen :=
    ⟨.refl c, rfl, Parser.upcoming_start line bus, rfl⟩
  obtain ⟨new, hnew, hmem⟩ : Adds Parser.frames.hist
      (Parser.parseLine env (Parser.evalFuel line) (Parser.bodyFuel line)) (Frame.start c bus line)
        (LinePeeks env c bus.mem (Lexer.new line).toks) := by
    refine Parser.parseLine_adds hstart ?_ ?_
    · unfold Parser.evalFuel
      omega
    · unfold Parser.bodyFuel
      omega
  have hreads : MemEvent.reads (c.parse env bus line).scan.bus.trace =
      MemEvent.reads bus.trace ++ new := by
    refine Eq.trans ?_ hnew
    rw [Parser.parse_start]
    cases Parser.parseLine env (Parser.evalFuel line) (Parser.bodyFuel line)
      (Frame.start c bus line) <;> rfl
  rw [← hmem]
  unfold Compiler.compileReads
  rw [hreads, List.drop_left]

namespace Parser

/-- Compiling a line reads permitted addresses only exactly if the operand of
every peek term that it reaches is permitted. -/
theorem compile_reads_permitted_iff (t : Target) (code : CodeMap) (registry : Registry)
    (c : Compiler) (bus : Bus) (line : List Byte) :
    (∀ addr ∈ c.compileReads ⟨t, code, registry⟩ bus line, Registry.Permitted t registry addr) ↔
      ∀ addr, LinePeeks ⟨t, code, registry⟩ c bus.mem (Lexer.new line).toks addr →
        Registry.Permitted t registry addr :=
  forall_congr' fun _ => imp_congr_left Compiler.mem_compileReads

/-- With nothing claimed, a binding reads a peripheral. -/
theorem compile_reads_unclaimed : ¬ ∀ (t : Target) (code : CodeMap) (registry : Registry)
    (c : Compiler) (bus : Bus) (line : List Byte), Registry.isSuperuserActive registry = false →
      ∀ addr ∈ c.compileReads ⟨t, code, registry⟩ bus line, Registry.Permitted t registry addr := by
  intro h
  have hread : (0x40020000#32) ∈ Compiler.new.compileReads ⟨.arm, .sample, Registry.free⟩
      ⟨fun _ => 0, []⟩ (bytes "let x = peek 0x40020000;") := by
    decide +kernel
  exact absurd (h .arm .sample Registry.free _ _ _ (by decide) _ hread) (by decide)

end Parser

end HolyRust
