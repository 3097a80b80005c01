import HolyRust.Compiler.Bindings
import HolyRust.Compiler.Sessions

/-!
The body grammar of the documentation against the body grammar of the parser.

The documentation allows any bare expression as a statement and lets the last
semicolon be left out. The parser takes a bare expression only behind a name, wants
every semicolon, and gives `poke` and `peek` to the memory statements before a call
or an expression can have them.

* `GrammarStmt` — the statements of the documentation; `Accepted` — those the
  parser takes.
* `parseBody_accepts` — an evaluated body of accepted statements is taken whole.
* `parseBody_refuses` — the first other statement, or a missing last semicolon,
  is refused.
* `body_accepted_iff` — a definition is accepted exactly without these.
-/

namespace HolyRust

namespace Syntax

/-! ### The documented grammar -/

/-- A body statement. A lone `peek` term is the memory statement, not an expression. -/
inductive GrammarStmt where
  | poke (addr : Atom) (value : Expr)
  | peek (addr : Atom)
  | call (f : List Byte)
  | expr (e : Expr) (h : ∀ a, e ≠ .mk (.peek a) .nil)

namespace GrammarStmt

def bare : GrammarStmt → List Token
  | .poke addr value => .identifier (bytes "poke") :: (addr.toks ++ value.toks)
  | .peek addr => .identifier (bytes "peek") :: addr.toks
  | .call f => [.identifier f, .lParen, .rParen]
  | .expr e _ => e.toks

/-- The accesses it stands for: its operands have values, its address is
permitted, its callee is live. -/
def eval (sc : Scope) : GrammarStmt → Eval (List Access)
  | .poke addr value => (BodyStmt.poke addr value).eval sc
  | .peek addr => (BodyStmt.peek addr).eval sc
  | .call f =>
      match sc.callee f with
      | some ops => pure ops
      | none => throw .unknownSymbol
  | .expr e _ => do
      let _ ← e.eval sc.lookup
      pure []

/-- The statements the parser takes. -/
def Accepted : GrammarStmt → Prop
  | .poke _ _ | .peek _ => True
  | .call f => f ≠ bytes "poke" ∧ f ≠ bytes "peek"
  | .expr e _ => ∃ id tail, e = .mk (.name id) tail ∧ id.val ≠ bytes "poke"

/-- An accepted statement is a statement of the parser. -/
theorem Accepted.stmt {g : GrammarStmt} (h : g.Accepted) :
    ∃ st : BodyStmt, st.bare = g.bare ∧ ∀ sc, st.eval sc = g.eval sc := by
  cases g with
  | poke addr value => exact ⟨.poke addr value, rfl, fun _ => rfl⟩
  | peek addr => exact ⟨.peek addr, rfl, fun _ => rfl⟩
  | call f => exact ⟨.call ⟨f, h⟩, rfl, fun _ => rfl⟩
  | expr e _ =>
      obtain ⟨id, tail, rfl, hid⟩ := h
      exact ⟨.expr ⟨id.val, hid, id.property⟩ tail, by simp [bare, BodyStmt.bare, Expr.toks,
        Atom.toks], fun _ => rfl⟩

theorem exists_bare (g : GrammarStmt) : ∃ t ts, g.bare = t :: ts ∧ StartsTerm t := by
  cases g with
  | poke addr value => exact ⟨_, _, rfl, trivial⟩
  | peek addr => exact ⟨_, _, rfl, trivial⟩
  | call f => exact ⟨_, _, rfl, trivial⟩
  | expr e _ => exact e.exists_toks

end GrammarStmt

/-- Statements with semicolons between them, and behind the last if `closed`. -/
def grammarToks (closed : Bool) : List GrammarStmt → List Token
  | [] => []
  | [g] => g.bare ++ if closed then [.semicolon] else []
  | g :: gs => g.bare ++ .semicolon :: grammarToks closed gs

def evalGrammar (sc : Scope) : List GrammarStmt → Eval (List Access)
  | [] => pure []
  | g :: gs => do
      let ops ← g.eval sc
      let more ← evalGrammar sc gs
      pure (ops ++ more)

/-- The tokens of `fn NAME() { ... }`. -/
def definitionToks (name : List Byte) (closed : Bool) (gs : List GrammarStmt) : List Token :=
  .kwFn :: .identifier name :: .lParen :: .rParen :: .lBrace :: (grammarToks closed gs ++ [.rBrace])

/-- What makes a body acceptable. -/
def AcceptedBody (closed : Bool) (gs : List GrammarStmt) : Prop :=
  closed = true ∧ ∀ g ∈ gs, g.Accepted

theorem AcceptedBody.stmts {gs : List GrammarStmt} (h : ∀ g ∈ gs, g.Accepted) :
    ∃ stmts : List BodyStmt, stmts.length = gs.length ∧ bodyToks stmts = grammarToks true gs ∧
      ∀ sc, evalBody sc stmts = evalGrammar sc gs := by
  induction gs with
  | nil => exact ⟨[], rfl, rfl, fun _ => rfl⟩
  | cons g gs ih =>
      obtain ⟨st, hbare, heval⟩ := (h g List.mem_cons_self).stmt
      obtain ⟨stmts, hlen, htoks, hevals⟩ := ih fun g hg => h g (List.mem_cons_of_mem _ hg)
      refine ⟨st :: stmts, congrArg (· + 1) hlen, ?_, fun sc => ?_⟩
      · cases gs with
        | nil =>
            obtain rfl := List.length_eq_zero_iff.mp hlen
            simp [BodyStmt.toks, grammarToks, hbare]
        | cons g' gs =>
            rw [bodyToks_cons, htoks, BodyStmt.toks, hbare]
            simp [grammarToks]
      · simp only [evalBody, evalGrammar, heval, hevals]

end Syntax

namespace Parser

open Syntax
open Fallible (Ends)
open Compiler (SameTables TablesOk)

section Taking

variable (env : Env) {fuel : Nat}

/-! ### What is taken -/

/-- A statement whose accesses have room is taken. -/
theorem parseBodyStmt_takes {s : Frame} {st : BodyStmt} {rest : List Token} {ops : List Access}
    {b : Bus} (hok : TablesOk env.code s.comp)
    (hroom : s.comp.streamLen + (bodyWords env.code ops).length ≤ maxStreamWords)
    (h : Upcoming s.scan (st.toks ++ rest)) (hn : 2 * (st.toks ++ rest).length + 2 ≤ fuel)
    (heval : st.eval (env.scope s.comp) s.scan.bus = .ok ops b) :
    ∃ s', parseBodyStmt env fuel s = .ok ⟨⟩ s' ∧ Upcoming s'.scan rest ∧ s'.scan.bus = b ∧
      SameTables s.comp s'.comp ∧
      s'.comp.streamLen = s.comp.streamLen + (bodyWords env.code ops).length := by
  have hemits := parseBodyStmt_emits env st hok (by omega) h hn
  unfold Emits at hemits
  rw [heval] at hemits
  simp only [hroom, if_true] at hemits
  obtain ⟨s', hrun, hup, hbus, hsame, hlen, _⟩ := hemits
  exact ⟨s', hrun, hup, hbus, hsame, hlen⟩

/-- At a token that neither closes the body nor ends the line the loop takes a
statement. -/
theorem parseBody_step (fuel n : Nat) {s : Frame} {t : Token} {ts : List Token}
    (ht : t ≠ .rBrace) (hne : t ≠ .eof) (h : Upcoming s.scan (t :: ts)) :
    ∃ s₁, Upcoming s₁.scan (t :: ts) ∧ s₁.scan.bus = s.scan.bus ∧ s₁.comp = s.comp ∧
      parseBody env fuel (n + 1) s =
        (parseBodyStmt env fuel >>= fun _ => parseBody env fuel n) s₁ := by
  obtain ⟨s₁, hpeek, hup₁, hbus₁, hcomp₁⟩ := peekTok_upcoming h
  refine ⟨s₁, hup₁, hbus₁, hcomp₁, ?_⟩
  rw [parseBody, Fallible.bind_ok hpeek]
  cases t with
  | rBrace => exact absurd rfl ht
  | eof => exact absurd rfl hne
  | _ => rfl

theorem parseBody_end {s : Frame} {rest : List Token} {n : Nat}
    (h : Upcoming s.scan (.rBrace :: rest)) :
    ∃ s', parseBody env fuel (n + 1) s = .ok ⟨⟩ s' ∧ Upcoming s'.scan rest ∧
      s'.scan.bus = s.scan.bus ∧ s'.comp = s.comp := by
  obtain ⟨s₁, hpeek, hup₁, hbus₁, hcomp₁⟩ := peekTok_upcoming h
  obtain ⟨s₂, hnext, hup₂, hbus₂, hcomp₂⟩ := nextTok_cons hup₁
  refine ⟨s₂, ?_, hup₂, hbus₂.trans hbus₁, hcomp₂.trans hcomp₁⟩
  rw [parseBody, Fallible.bind_ok hpeek]
  simp only [first_cons]
  rw [Fallible.bind_ok hnext]
  rfl

/-- The loop goes on behind a statement that is taken. -/
theorem parseBody_takes (n : Nat) {s : Frame} {st : BodyStmt} {rest : List Token}
    {ops : List Access} {b : Bus} (hok : TablesOk env.code s.comp)
    (hroom : s.comp.streamLen + (bodyWords env.code ops).length ≤ maxStreamWords)
    (h : Upcoming s.scan (st.toks ++ rest)) (hn : 2 * (st.toks ++ rest).length + 2 ≤ fuel)
    (heval : st.eval (env.scope s.comp) s.scan.bus = .ok ops b) :
    ∃ s', parseBody env fuel (n + 1) s = parseBody env fuel n s' ∧ Upcoming s'.scan rest ∧
      s'.scan.bus = b ∧ SameTables s.comp s'.comp ∧
      s'.comp.streamLen = s.comp.streamLen + (bodyWords env.code ops).length := by
  obtain ⟨id, ts, hcons⟩ : ∃ id ts, st.toks ++ rest = .identifier id :: ts := by
    cases st <;> exact ⟨_, _, rfl⟩
  rw [hcons] at h
  obtain ⟨s₁, hup₁, hbus₁, hcomp₁, hstep⟩ := parseBody_step env fuel n (by simp) (by simp) h
  rw [← hcons] at hup₁
  rw [← hcomp₁] at hok hroom heval ⊢
  rw [← hbus₁] at heval
  obtain ⟨s₂, hrun₂, hrest₂⟩ := parseBodyStmt_takes env hok hroom hup₁ hn heval
  exact ⟨s₂, by rw [hstep, Fallible.bind_ok hrun₂], hrest₂⟩

/-- An evaluated body of parser statements with room for its words is taken up to
its brace. -/
theorem parseBody_accepts : ∀ (stmts : List BodyStmt) (n : Nat) {s : Frame} {rest : List Token}
    {ops : List Access} {b : Bus}, TablesOk env.code s.comp →
    s.comp.streamLen + (bodyWords env.code ops).length ≤ maxStreamWords →
    Upcoming s.scan (bodyToks stmts ++ .rBrace :: rest) →
    2 * (bodyToks stmts ++ .rBrace :: rest).length + 2 ≤ fuel → stmts.length < n →
    evalBody (env.scope s.comp) stmts s.scan.bus = .ok ops b →
    ∃ s', parseBody env fuel n s = .ok ⟨⟩ s' ∧ Upcoming s'.scan rest ∧
      SameTables s.comp s'.comp ∧
      s'.comp.streamLen = s.comp.streamLen + (bodyWords env.code ops).length := by
  intro stmts
  induction stmts with
  | nil =>
      intro n s rest ops b _ _ h _ hn heval
      obtain ⟨n, rfl⟩ : ∃ k, n = k + 1 := ⟨n - 1, by rw [List.length_nil] at hn; omega⟩
      cases heval
      obtain ⟨s', hrun, hup, _, hcomp⟩ := parseBody_end env h
      exact ⟨s', hrun, hup, hcomp ▸ .refl _, by rw [hcomp]; rfl⟩
  | cons st stmts ih =>
      intro n s rest all b hok hroom h hfuel hn heval
      rw [List.length_cons] at hn
      obtain ⟨n, rfl⟩ : ∃ k, n = k + 1 := ⟨n - 1, by omega⟩
      obtain ⟨ops, more, b₁, hst, hmore, rfl⟩ := Fallible.append_eq_ok heval
      rw [bodyWords_append, List.length_append] at hroom
      rw [bodyToks_cons, List.append_assoc] at h hfuel
      obtain ⟨s₁, hstep, hup₁, hbus₁, hsame₁, hlen₁⟩ :=
        parseBody_takes env n hok (by omega) h hfuel hst
      have hfuel₁ : 2 * (bodyToks stmts ++ Token.rBrace :: rest).length + 2 ≤ fuel := by
        rw [List.length_append] at hfuel
        omega
      rw [← hbus₁, ← Env.scope_same hsame₁] at hmore
      obtain ⟨s₂, hrun₂, hup₂, hsame₂, hlen₂⟩ :=
        ih n (hok.of_same hsame₁) (by omega) hup₁ hfuel₁ (by omega) hmore
      refine ⟨s₂, hstep.trans hrun₂, hup₂, hsame₁.trans hsame₂, ?_⟩
      rw [hlen₂, hlen₁, bodyWords_append, List.length_append, Nat.add_assoc]

/-- A body that fits is stored under a new name in a free slot. -/
theorem storeFn_accepts {s : Frame} {name : NameBuf} (hnew : s.comp.findFn name.asSlice = none)
    (hslot : ∃ i, (s.comp.fnName i).len = 0) (hlen : s.comp.streamLen ≤ fnBodyWords) :
    ∃ s', storeFn name s = .ok (.fnDefined name) s' := by
  have halloc : ∃ i, s.comp.allocFnSlot name = .ok i := by
    obtain ⟨i, hi⟩ := hslot
    have hfree : ((List.finRange maxFns).find? fun i => (s.comp.fnName i).len == 0).isSome = true :=
      List.find?_isSome.mpr ⟨i, List.mem_finRange i, by simp [hi]⟩
    obtain ⟨j, hj⟩ := Option.isSome_iff_exists.mp hfree
    exact ⟨j, by simp [Compiler.allocFnSlot, hnew, hj]⟩
  obtain ⟨i, halloc⟩ := halloc
  have hle : s.comp.streamLen ≤ 32 := hlen
  obtain ⟨body, hcopy⟩ := exists_copyPrefix (s.comp.fnBody i) s.comp.stream hle
    (show s.comp.streamLen ≤ 128 by omega)
  unfold storeFn
  rw [Fallible.bind_ok (Fallible.get_apply s), if_neg (Nat.not_lt.mpr hlen)]
  simp only [halloc, hcopy]
  exact ⟨_, rfl⟩

end Taking

/-! ### What is refused -/

section Refusing

variable (env : Env) {fuel : Nat} {s : Frame} {ts rest : List Token}

/-- Tokens that no statement spells are refused. -/
theorem parseBodyStmt_not_spelled (hok : TablesOk env.code s.comp) (h : Upcoming s.scan ts)
    (hn : 2 * ts.length + 2 ≤ fuel) (hnot : ∀ rest, ¬ SpellsStmt ts rest) :
    ∃ e s', parseBodyStmt env fuel s = .error (.error e) s' := by
  have hwalks := parseBodyStmt_walks env hok h hn
  unfold Walks Ends at hwalks
  cases hrun : parseBodyStmt env fuel s with
  | ok u s' =>
      rw [hrun] at hwalks
      obtain ⟨rest, hspells, _⟩ := hwalks
      exact absurd hspells (hnot rest)
  | error e s' =>
      rw [hrun] at hwalks
      obtain ⟨⟨pe, rfl⟩, _⟩ := hwalks
      exact ⟨pe, s', rfl⟩

theorem inExpr_bare {st : BodyStmt} {t : Token} (h : t ∈ st.bare) : InExpr t := by
  cases st with
  | poke addr value =>
      simp only [BodyStmt.bare, List.mem_cons, List.mem_append] at h
      rcases h with rfl | h | h
      · exact trivial
      · exact addr.inExpr h
      · exact value.inExpr h
  | peek addr =>
      rcases List.mem_cons.mp h with rfl | h
      · exact trivial
      · exact addr.inExpr h
  | call f =>
      simp only [BodyStmt.bare, List.mem_cons, List.not_mem_nil, or_false] at h
      rcases h with rfl | rfl | rfl <;> exact trivial
  | expr head tail =>
      rcases List.mem_cons.mp h with rfl | h
      · exact trivial
      · exact tail.inExpr h

/-- A statement at the closing brace misses its semicolon. -/
theorem not_spelled_unclosed (st : BodyStmt) : ¬ SpellsStmt (st.bare ++ [.rBrace]) rest := by
  rintro ⟨st', mid, heq, hclose⟩
  rcases hclose with rfl | ⟨rfl, _⟩
  · have hmem : Token.semicolon ∈ st.bare ++ [.rBrace] := by
      rw [heq]
      simp
    rcases List.mem_append.mp hmem with hmem | hmem
    · exact inExpr_bare hmem
    · simp at hmem
  · have hmem : Token.rBrace ∈ st'.bare := by
      rw [List.append_nil] at heq
      rw [← heq]
      simp
    exact inExpr_bare hmem

/-- A statement begins with an identifier. -/
theorem SpellsStmt.first (h : SpellsStmt ts rest) : ∃ id ts', ts = .identifier id :: ts' := by
  obtain ⟨st, mid, rfl, _⟩ := h
  cases st <;> exact ⟨_, _, rfl⟩

/-- Behind `poke` and `peek` stands a term. -/
theorem SpellsStmt.term {w : List Byte} (hw : w = bytes "poke" ∨ w = bytes "peek")
    (h : SpellsStmt (.identifier w :: ts) rest) :
    ∃ (a : Atom) (mid : List Token), ts = a.toks ++ mid := by
  obtain ⟨st, mid, heq, _⟩ := h
  have hplain : ∀ f : PlainName, Token.identifier w ≠ .identifier f.val := by
    intro f hf
    rcases hw with rfl | rfl
    · exact f.property.1 (Token.identifier.inj hf).symm
    · exact f.property.2 (Token.identifier.inj hf).symm
  cases st with
  | poke addr value =>
      refine ⟨addr, value.toks ++ mid, ?_⟩
      simpa [BodyStmt.bare] using (List.cons.inj heq).2
  | peek addr => exact ⟨addr, mid, (List.cons.inj heq).2⟩
  | call f => exact absurd (List.cons.inj heq).1 (hplain f)
  | expr head tail => exact absurd (List.cons.inj heq).1 (hplain head)

/-- The chain behind a leading `peek` term is no semicolon. -/
theorem parseBodyStmt_peekChain {a : Atom} {op : ArithOp}
    (h : Upcoming s.scan (.identifier (bytes "peek") :: (a.toks ++ .operator (opByte op) :: rest)))
    (hn : 2 * (a.toks ++ .operator (opByte op) :: rest).length + 2 ≤ fuel) :
    ∃ e s', parseBodyStmt env fuel s = .error (.error e) s' := by
  obtain ⟨s₁, hnext, hup₁, _⟩ := nextTok_cons h
  have hterm : FrameMirrors (onScan fun self => parseAtomicTerm self fuel) s₁ _ _ :=
    frameMirrors_onScan (parseAtomicTerm_mirrors s₁.comp a hup₁ hn)
  unfold FrameMirrors at hterm
  unfold parseBodyStmt
  rw [Fallible.bind_ok hnext]
  simp only [show bytes "peek" ≠ bytes "poke" by decide, if_false, if_true]
  split at hterm
  · obtain ⟨s₂, hrun₂, hup₂, _⟩ := hterm
    obtain ⟨s₃, hsemi⟩ := expectSemicolon_missing hup₂ (by simp) (by simp)
    exact ⟨_, s₃, by rw [Fallible.bind_ok hrun₂, Fallible.bind_error hsemi]⟩
  · obtain ⟨s₂, hrun₂, _⟩ := hterm
    exact ⟨_, s₂, Fallible.bind_error hrun₂⟩

/-- A call of `poke` or `peek` has no term behind the word. -/
theorem not_spelled_call {w : List Byte} (hw : w = bytes "poke" ∨ w = bytes "peek") :
    ¬ SpellsStmt (.identifier w :: .lParen :: .rParen :: ts) rest := by
  intro hspells
  obtain ⟨a, mid, heq⟩ := hspells.term hw
  cases a with
  | paren e =>
      obtain ⟨t, ts', he, ht⟩ := e.exists_toks
      simp only [Atom.toks, he, List.cons_append, List.cons.injEq, true_and] at heq
      rw [← heq.1] at ht
      exact ht
  | _ => simp [Atom.toks] at heq

/-- An expression that begins with the name `poke` has none either. -/
theorem not_spelled_poke {tail : Tail} {t : Token} (ht : t = .semicolon ∨ t = .rBrace) :
    ¬ SpellsStmt (.identifier (bytes "poke") :: (tail.toks ++ t :: ts)) rest := by
  intro hspells
  obtain ⟨a, mid, heq⟩ := hspells.term (.inl rfl)
  obtain ⟨t', ts', ha, hstart⟩ := a.exists_toks
  rw [ha, List.cons_append] at heq
  cases tail with
  | nil =>
      rw [← (List.cons.inj heq).1] at hstart
      rcases ht with rfl | rfl <;> exact hstart
  | cons op rhs rest =>
      rw [Tail.toks, List.cons_append] at heq
      rw [← (List.cons.inj heq).1] at hstart
      exact hstart

/-- A statement the parser does not take is refused. -/
theorem parseBodyStmt_refuses {g : GrammarStmt} {t : Token} (hok : TablesOk env.code s.comp)
    (hg : ¬ g.Accepted) (ht : t = .semicolon ∨ t = .rBrace)
    (h : Upcoming s.scan (g.bare ++ t :: rest)) (hn : 2 * (g.bare ++ t :: rest).length + 2 ≤ fuel) :
    ∃ e s', parseBodyStmt env fuel s = .error (.error e) s' := by
  cases g with
  | poke addr value => exact absurd trivial hg
  | peek addr => exact absurd trivial hg
  | call f =>
      have hw : f = bytes "poke" ∨ f = bytes "peek" := by
        by_contra hne
        exact hg (not_or.mp hne)
      exact parseBodyStmt_not_spelled env hok h hn fun _ => not_spelled_call hw
  | expr e hlone =>
      obtain ⟨head, tail⟩ := e
      simp only [GrammarStmt.bare, Expr.toks] at h hn
      cases head with
      | lit v =>
          refine parseBodyStmt_not_spelled env hok h hn fun _ hspells => ?_
          obtain ⟨id, ts', heq⟩ := hspells.first
          simp [Atom.toks] at heq
      | paren e =>
          refine parseBodyStmt_not_spelled env hok h hn fun _ hspells => ?_
          obtain ⟨id, ts', heq⟩ := hspells.first
          simp [Atom.toks] at heq
      | name id =>
          have hid : id.val = bytes "poke" := by
            by_contra hne
            exact hg ⟨id, tail, rfl, hne⟩
          simp only [Atom.toks, hid, List.cons_append] at h hn
          exact parseBodyStmt_not_spelled env hok h hn fun _ => not_spelled_poke ht
      | peek a =>
          cases tail with
          | nil => exact absurd rfl (hlone a)
          | cons op rhs more =>
              simp only [Atom.toks, Tail.toks, List.cons_append, List.append_assoc,
                List.length_cons] at h hn
              exact parseBodyStmt_peekChain env h (by omega)

/-- Where a statement ends: at its semicolon, or at the brace. -/
theorem grammarToks_cons (closed : Bool) (g : GrammarStmt) (gs : List GrammarStmt) :
    ∃ t rest, grammarToks closed (g :: gs) ++ [.rBrace] = g.bare ++ t :: rest ∧
      (t = .semicolon ∨ t = .rBrace) := by
  cases gs with
  | nil =>
      cases closed with
      | true => exact ⟨.semicolon, [.rBrace], by simp [grammarToks], .inl rfl⟩
      | false => exact ⟨.rBrace, [], by simp [grammarToks], .inr rfl⟩
  | cons g' gs =>
      exact ⟨.semicolon, grammarToks closed (g' :: gs) ++ [.rBrace], by simp [grammarToks],
        .inl rfl⟩

/-- The loop ends with the error of the statement it comes to. -/
theorem parseBody_stops (n : Nat) {g : GrammarStmt} {rest : List Token}
    (hok : TablesOk env.code s.comp) (h : Upcoming s.scan (g.bare ++ rest))
    (hrefused : ∀ {s₁ : Frame}, TablesOk env.code s₁.comp → Upcoming s₁.scan (g.bare ++ rest) →
      ∃ e s', parseBodyStmt env fuel s₁ = .error (.error e) s') :
    ∃ e s', parseBody env fuel (n + 1) s = .error (.error e) s' := by
  obtain ⟨t, ts, hbare, hstart⟩ := g.exists_bare
  have hcons : g.bare ++ rest = t :: (ts ++ rest) := by rw [hbare, List.cons_append]
  rw [hcons] at h
  obtain ⟨s₁, hup₁, _, hcomp₁, hstep⟩ := parseBody_step env fuel n
    (by rintro rfl; exact hstart) (by rintro rfl; exact hstart) h
  obtain ⟨e, s', hrun⟩ := hrefused (hcomp₁ ▸ hok) (hcons ▸ hup₁)
  exact ⟨e, s', by rw [hstep, Fallible.bind_error hrun]⟩

/-- A body with a statement the parser does not take, or without its last
semicolon, is refused: the statements in front are taken, so the loop comes to
the first one that is not. -/
theorem parseBody_refuses {closed : Bool} : ∀ (gs : List GrammarStmt) (n : Nat) {s : Frame}
    {ops : List Access} {b : Bus}, gs ≠ [] → TablesOk env.code s.comp →
    s.comp.streamLen + (bodyWords env.code ops).length ≤ maxStreamWords →
    Upcoming s.scan (grammarToks closed gs ++ [.rBrace]) →
    2 * (grammarToks closed gs ++ [Token.rBrace]).length + 2 ≤ fuel → gs.length < n →
    evalGrammar (env.scope s.comp) gs s.scan.bus = .ok ops b → ¬ AcceptedBody closed gs →
    ∃ e s', parseBody env fuel n s = .error (.error e) s' := by
  intro gs
  induction gs with
  | nil => exact fun n s ops b hne => absurd rfl hne
  | cons g gs ih =>
      intro n s all b _ hok hroom h hfuel hn heval hnot
      rw [List.length_cons] at hn
      obtain ⟨n, rfl⟩ : ∃ k, n = k + 1 := ⟨n - 1, by omega⟩
      obtain ⟨ops, more, b₁, hst, hmore, rfl⟩ := Fallible.append_eq_ok heval
      rw [bodyWords_append, List.length_append] at hroom
      by_cases hg : g.Accepted
      · obtain ⟨st, hstmt, hsteval⟩ := hg.stmt
        cases gs with
        | nil =>
            cases closed with
            | true => exact absurd ⟨rfl, by simpa using hg⟩ hnot
            | false =>
                simp only [grammarToks, Bool.false_eq_true, if_false, List.append_nil] at h hfuel
                refine parseBody_stops env n hok h fun hok₁ hup₁ => ?_
                rw [← hstmt] at hup₁ hfuel
                exact parseBodyStmt_not_spelled env hok₁ hup₁ hfuel fun _ => not_spelled_unclosed st
        | cons g' gs =>
            have hshape : grammarToks closed (g :: g' :: gs) ++ [.rBrace] =
                st.toks ++ (grammarToks closed (g' :: gs) ++ [.rBrace]) := by
              simp [grammarToks, BodyStmt.toks, hstmt]
            rw [hshape] at h hfuel
            rw [← hsteval] at hst
            obtain ⟨s₁, hstep, hup₁, hbus₁, hsame₁, hlen₁⟩ :=
              parseBody_takes env n hok (by omega) h hfuel hst
            have hfuel₁ :
                2 * (grammarToks closed (g' :: gs) ++ [Token.rBrace]).length + 2 ≤ fuel := by
              rw [List.length_append] at hfuel
              omega
            rw [← hbus₁, ← Env.scope_same hsame₁] at hmore
            have hnot₁ : ¬ AcceptedBody closed (g' :: gs) := fun hacc =>
              hnot ⟨hacc.1, List.forall_mem_cons.mpr ⟨hg, hacc.2⟩⟩
            rw [hstep]
            exact ih n (List.cons_ne_nil _ _) (hok.of_same hsame₁) (by omega) hup₁ hfuel₁
              (by omega) hmore hnot₁
      · obtain ⟨t, rest, htoks, hsep⟩ := grammarToks_cons closed g gs
        rw [htoks] at h hfuel
        exact parseBody_stops env n hok h fun hok₁ hup₁ =>
          parseBodyStmt_refuses env hok₁ hg hsep hup₁ hfuel

end Refusing

/-! ### Definitions -/

section Definitions

variable (env : Env) (fuel n : Nat) {s : Frame} {id : List Byte} {name : NameBuf} {closed : Bool}
  {gs : List GrammarStmt} {ops : List Access} {b : Bus}

/-- Behind the opening brace the definition is its body. -/
theorem parseFn_body (hname : NameBuf.fromSlice id = .ok name)
    (h : Upcoming s.scan (.identifier id :: .lParen :: .rParen :: .lBrace ::
      (grammarToks closed gs ++ [.rBrace]))) :
    ∃ s₁, Upcoming s₁.scan (grammarToks closed gs ++ [.rBrace]) ∧ s₁.scan.bus = s.scan.bus ∧
      SameTables s.comp s₁.comp ∧ s₁.comp.streamLen = 0 ∧
      parseFn env fuel n s = (parseBody env fuel n >>= fun _ => storeFn name) s₁ := by
  obtain ⟨s₁, hrun₁, hup₁, hbus₁, hcomp₁⟩ := expectName_identifier hname h
  obtain ⟨s₂, hrun₂, hup₂, hbus₂, hcomp₂⟩ := expect_cons hup₁
  obtain ⟨s₃, hrun₃, hup₃, hbus₃, hcomp₃⟩ := expect_cons hup₂
  obtain ⟨s₄, hrun₄, hup₄, hbus₄, hcomp₄⟩ := expect_cons hup₃
  have hcomp : s₄.comp = s.comp := hcomp₄.trans (hcomp₃.trans (hcomp₂.trans hcomp₁))
  refine ⟨s₄.fresh, hup₄, hbus₄.trans (hbus₃.trans (hbus₂.trans hbus₁)), hcomp ▸ fresh_same s₄,
    rfl, ?_⟩
  unfold parseFn
  rw [Fallible.bind_ok hrun₁, Fallible.bind_ok hrun₂, Fallible.bind_ok hrun₃,
    Fallible.bind_ok hrun₄, Fallible.bind_ok (streamReset_ok s₄)]

/-- What the definition asks of the compiler: a new name and a free slot. -/
structure Definable (c : Compiler) (id : List Byte) : Prop where
  fresh : c.findFn id = none
  slot : ∃ i, (c.fnName i).len = 0

theorem Definable.of_same {c c' : Compiler} (h : Definable c id) (hs : SameTables c c') :
    Definable c' id where
  fresh := by rw [hs.findFn, h.fresh]
  slot := by
    rw [hs.fnName]
    exact h.slot

/-- An accepted body of at most 32 words is stored, any other is refused. -/
theorem parseFn_decides (hname : NameBuf.fromSlice id = .ok name) (hne : gs ≠ [])
    (hok : TablesOk env.code s.comp) (hdef : Definable s.comp id)
    (h : Upcoming s.scan (.identifier id :: .lParen :: .rParen :: .lBrace ::
      (grammarToks closed gs ++ [.rBrace])))
    (hfuel : 2 * (grammarToks closed gs ++ [Token.rBrace]).length + 2 ≤ fuel)
    (hn : gs.length < n) (heval : evalGrammar (env.scope s.comp) gs s.scan.bus = .ok ops b)
    (hroom : (bodyWords env.code ops).length ≤ fnBodyWords) :
    (AcceptedBody closed gs ∧ ∃ s', parseFn env fuel n s = .ok (.fnDefined name) s') ∨
      (¬ AcceptedBody closed gs ∧ ∃ e s', parseFn env fuel n s = .error (.error e) s') := by
  obtain ⟨s₁, hup₁, hbus₁, hsame₁, hlen₁, hrun⟩ := parseFn_body env fuel n hname h
  have hok₁ := hok.of_same hsame₁
  have hroom₁ : s₁.comp.streamLen + (bodyWords env.code ops).length ≤ maxStreamWords := by
    have hwords : (bodyWords env.code ops).length ≤ 32 := hroom
    have hmax : maxStreamWords = 128 := rfl
    omega
  rw [← hbus₁, ← Env.scope_same hsame₁] at heval
  rw [hrun]
  by_cases hacc : AcceptedBody closed gs
  · refine .inl ⟨hacc, ?_⟩
    obtain ⟨rfl, hall⟩ := hacc
    obtain ⟨stmts, hlength, htoks, hevals⟩ := AcceptedBody.stmts hall
    rw [← htoks] at hup₁ hfuel
    rw [← hevals] at heval
    obtain ⟨s₂, hrun₂, _, hsame₂, hlen₂⟩ :=
      parseBody_accepts env stmts n hok₁ hroom₁ hup₁ hfuel (by omega) heval
    have hdef₂ := (hdef.of_same hsame₁).of_same hsame₂
    have hnew : s₂.comp.findFn name.asSlice = none := by
      rw [NameBuf.asSlice_fromSlice hname, hdef₂.fresh]
    obtain ⟨s₃, hstore⟩ := storeFn_accepts hnew hdef₂.slot
      (by rw [hlen₂, hlen₁, Nat.zero_add]; exact hroom)
    exact ⟨s₃, by rw [Fallible.bind_ok hrun₂, hstore]⟩
  · refine .inr ⟨hacc, ?_⟩
    obtain ⟨e, s₂, hrun₂⟩ := parseBody_refuses env gs n hne hok₁ hroom₁ hup₁ hfuel hn heval hacc
    exact ⟨e, s₂, Fallible.bind_error hrun₂⟩

end Definitions

end Parser

namespace Sessions

open Syntax
open HolyRust.Parser (Env Definable evalFuel bodyFuel)

/-- The statements of a body are fewer than its tokens. -/
theorem length_le_grammarToks (closed : Bool) : ∀ gs : List GrammarStmt,
    gs.length ≤ (grammarToks closed gs).length := by
  intro gs
  induction gs with
  | nil => exact Nat.zero_le _
  | cons g gs ih =>
      obtain ⟨t, ts, hbare, _⟩ := g.exists_bare
      cases gs with
      | nil => simp [grammarToks, hbare]
      | cons g' gs =>
          simp only [grammarToks, hbare, List.length_append, List.length_cons] at ih ⊢
          omega

section Definitions

variable {env : Env} {c : Compiler} {bus b : Bus} {id line : List Byte} {closed : Bool}
  {gs : List GrammarStmt} {ops : List Access}

/-- The line of a definition with room for it is accepted or refused by its body
alone. -/
theorem parse_definition (hreach : Reachable env.target env.code c) (hne : gs ≠ [])
    (hline : Lexer.Written (definitionToks id closed gs) line) (hlen : id.length ≤ nameMax)
    (hdef : Definable c id) (heval : evalGrammar (env.scope c) gs bus = .ok ops b)
    (hroom : (bodyWords env.code ops).length ≤ fnBodyWords) :
    (AcceptedBody closed gs ∧ ∃ name : NameBuf, name.asSlice = id ∧
        (c.parse env bus line).result = .ok (.fnDefined name)) ∨
      (¬ AcceptedBody closed gs ∧ ∃ e, (c.parse env bus line).result = .error (.error e)) := by
  obtain ⟨name, hname⟩ := NameBuf.fromSlice_eq_ok_iff.mpr hlen
  obtain ⟨hup, hfuel, hbody⟩ := Parser.start_of_toks c bus (Lexer.toks_new_written hline)
  have hlength : (definitionToks id closed gs).length =
      (grammarToks closed gs ++ [Token.rBrace]).length + 5 := rfl
  have hcount := length_le_grammarToks closed gs
  rw [List.length_append] at hlength
  obtain ⟨s₁, hup₁, hbus₁, hcomp₁, hrun⟩ :=
    Parser.parseLine_cons env (evalFuel line) (bodyFuel line) hup
  have hcomp : s₁.comp = c := hcomp₁
  have hbus : s₁.scan.bus = bus := hbus₁
  have hdecides := Parser.parseFn_decides env (evalFuel line) (bodyFuel line) hname hne
    (hcomp ▸ hreach.tablesOk) (hcomp ▸ hdef) hup₁ (by rw [List.length_append]; omega) (by omega)
    (by rw [hcomp, hbus]; exact heval) hroom
  rcases hdecides with ⟨hacc, s', hfn⟩ | ⟨hacc, e, s', hfn⟩
  · refine .inl ⟨hacc, name, NameBuf.asSlice_fromSlice hname, ?_⟩
    exact congrArg Parser.Parsed.result (Parser.parse_of_ok (hrun.trans hfn))
  · exact .inr ⟨hacc, e, congrArg Parser.Parsed.result (Parser.parse_of_error (hrun.trans hfn))⟩

end Definitions

/-- The usual way to write a definition. -/
theorem written_definition {id text : List Byte} {closed : Bool} {gs : List GrammarStmt}
    (hid : Lexer.IsName id) (h : Lexer.Written (grammarToks closed gs ++ [.rBrace]) text) :
    Lexer.Written (definitionToks id closed gs)
      (bytes "fn " ++ id ++ bytes "() \x7b " ++ text) := by
  have hbody : Lexer.Written (.lParen :: .rParen :: .lBrace :: (grammarToks closed gs ++ [.rBrace]))
      ([] ++ bytes "(" ++
        ([] ++ bytes ")" ++ (bytes " " ++ bytes "\x7b" ++ (bytes " " ++ text)))) :=
    .mark (by decide) (.printed .lParen) rfl
      (.mark (by decide) (.printed .rParen) rfl
        (.mark (by decide) (.printed .lBrace) rfl (h.blank_append (by decide))))
  have hfn : Lexer.Written (definitionToks id closed gs)
      ([] ++ bytes "fn" ++ (bytes " " ++ id ++ ([] ++ bytes "(" ++
        ([] ++ bytes ")" ++ (bytes " " ++ bytes "\x7b" ++ (bytes " " ++ text)))))) :=
    .word (by decide) (.printed .kwFn) (Lexer.cut_cons (by decide) _)
      (.word (by decide) (.printed (.identifier hid)) (Lexer.cut_cons (by decide) _) hbody)
  have htext : bytes "fn " = bytes "fn" ++ bytes " " ∧ bytes "() \x7b " =
      bytes "(" ++ (bytes ")" ++ (bytes " " ++ (bytes "\x7b" ++ bytes " "))) := by decide
  simpa [htext] using hfn

/-- The statement `poke 0x20000248 3` in front of the rest of a line. -/
theorem written_poke {ts : List Token} {rest : List Byte} (hcut : Lexer.Cut rest)
    (h : Lexer.Written ts rest) :
    Lexer.Written (.identifier (bytes "poke") :: .literal 0x20000248 :: .literal 3 :: ts)
      ([] ++ bytes "poke" ++
        (bytes " " ++ bytes "0x20000248" ++ (bytes " " ++ bytes "3" ++ rest))) :=
  .word (by decide) (.printed (.identifier (by decide))) (Lexer.cut_cons (by decide) _)
    (.word (by decide) (.printed (.hex 0x20000248)) (Lexer.cut_cons (by decide) _)
      (.word (by decide) (.printed (.decimal (by decide))) hcut h))

def loosePoke : GrammarStmt := .poke (.lit 0x20000248) (.mk (.lit 3) .nil)

theorem evalGrammar_loosePoke : evalGrammar (sampleEnv.scope Compiler.new) [loosePoke] blank =
    .ok [.write 0x20000248 3] blank := by
  rfl

theorem written_brace : Lexer.Written [.rBrace] (bytes " \x7d") := by
  have h : Lexer.Written [.rBrace] (bytes " " ++ bytes "\x7d" ++ []) :=
    .mark (by decide) (.printed .rBrace) rfl (.nil (by decide))
  exact h

theorem definable_new (id : List Byte) : Definable Compiler.new id where
  fresh := by rfl
  slot := ⟨0, rfl⟩

/-- A definition whose operands evaluate, whose addresses pass the check and whose
body fits a free slot is accepted exactly if its last semicolon is there, its bare
expressions begin with names other than `poke`, and it calls neither `poke` nor
`peek`. -/
theorem body_accepted_iff {env : Env} {c : Compiler} (hreach : Reachable env.target env.code c)
    (bus : Bus) {id line : List Byte} {closed : Bool} {gs : List GrammarStmt} {ops : List Access}
    {b : Bus} (hne : gs ≠ []) (hline : Lexer.Written (definitionToks id closed gs) line)
    (hlen : id.length ≤ nameMax) (hdef : Definable c id)
    (heval : evalGrammar (env.scope c) gs bus = .ok ops b)
    (hroom : (bodyWords env.code ops).length ≤ fnBodyWords) :
    (∃ name : NameBuf, name.asSlice = id ∧
        (c.parse env bus line).result = .ok (.fnDefined name)) ↔ AcceptedBody closed gs := by
  rcases parse_definition hreach hne hline hlen hdef heval hroom with ⟨hacc, hok⟩ | ⟨hacc, e, herr⟩
  · exact ⟨fun _ => hacc, fun _ => hok⟩
  · refine ⟨?_, fun h => absurd h hacc⟩
    rintro ⟨name, _, hresult⟩
    cases herr.symm.trans hresult

/-- `fn loose() { poke 0x20000248 3; }` is accepted. -/
theorem body_accepted_closed : ∃ name : NameBuf, name.asSlice = bytes "loose" ∧
    (Compiler.new.parse sampleEnv blank
      (bytes "fn loose() \x7b poke 0x20000248 3; \x7d")).result = .ok (.fnDefined name) := by
  have hclosed : Lexer.Written [.semicolon, .rBrace] ([] ++ bytes ";" ++ bytes " \x7d") :=
    .mark (by decide) (.printed .semicolon) rfl written_brace
  have htext : bytes "fn loose() \x7b poke 0x20000248 3; \x7d" = bytes "fn " ++ bytes "loose" ++
      bytes "() \x7b " ++ ([] ++ bytes "poke" ++ (bytes " " ++ bytes "0x20000248" ++
        (bytes " " ++ bytes "3" ++ ([] ++ bytes ";" ++ bytes " \x7d")))) := by
    decide
  have hline : Lexer.Written (definitionToks (bytes "loose") true [loosePoke]) _ :=
    written_definition (by decide) (written_poke (by decide) hclosed)
  rw [htext]
  exact (body_accepted_iff .new blank (List.cons_ne_nil _ _) hline (by decide) (definable_new _)
    evalGrammar_loosePoke (by decide)).mpr ⟨rfl, List.forall_mem_singleton.mpr trivial⟩

/-- `fn loose() { poke 0x20000248 3 }` is not. -/
theorem loose_body_refused : ¬ ∀ (env : Env) (c : Compiler) (bus b : Bus) (id line : List Byte)
    (closed : Bool) (gs : List GrammarStmt) (ops : List Access),
    Reachable env.target env.code c → gs ≠ [] →
      Lexer.Written (definitionToks id closed gs) line → id.length ≤ nameMax → Definable c id →
        evalGrammar (env.scope c) gs bus = .ok ops b →
          (bodyWords env.code ops).length ≤ fnBodyWords →
            ∃ name : NameBuf, name.asSlice = id ∧
              (c.parse env bus line).result = .ok (.fnDefined name) := by
  intro h
  have hline : Lexer.Written (definitionToks (bytes "loose") false [loosePoke]) _ :=
    written_definition (by decide) (written_poke (by decide) written_brace)
  have hne : [loosePoke] ≠ [] := List.cons_ne_nil _ _
  have hroom : (bodyWords sampleEnv.code [.write 0x20000248 3]).length ≤ fnBodyWords := by decide
  obtain ⟨name, _, hresult⟩ := h sampleEnv _ _ _ _ _ _ _ _ .new hne hline (by decide)
    (definable_new _) evalGrammar_loosePoke hroom
  rcases parse_definition .new hne hline (by decide) (definable_new _) evalGrammar_loosePoke hroom
    with ⟨hacc, _⟩ | ⟨_, e, herr⟩
  · exact absurd hacc.1 (by decide)
  · cases herr.symm.trans hresult

end Sessions

end HolyRust
