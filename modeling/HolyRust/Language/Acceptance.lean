import HolyRust.Language.Refinement

/-!
What is accepted is a statement.

`parse_compiles` starts from a line that spells a statement. Here it is the other
way round: a line that `parse` accepts spells one, whatever it is and in whatever
session it is typed.

* `Requires x s Q` — `x` does not succeed from `s` unless `Q`.
* `accepted_spells` — an accepted line spells a statement.
* `session_modelled` — every machine of every session has its world.
* `accepts_iff` — a line is accepted exactly if it spells a statement that compiles
  to a meaning in that world.
-/

namespace HolyRust.Language

open Syntax (Expr bodyToks)
open Fallible (Ends)
open HolyRust.Parser
open HolyRust.Repl
open Compiler (TablesOk SameTables)

/-! ### What success requires -/

/-- `x` does not succeed from `s` unless `Q`. -/
def Requires {α : Type} (x : ParseM α) (s : Frame) (Q : Prop) : Prop :=
  ∀ a s', x s = .ok a s' → Q

section Requires

variable {α β : Type} {x : ParseM α} {f : α → ParseM β} {s s' : Frame} {Q : Prop}
  {R : α → List Token → Prop}

theorem requires_of (h : Q) : Requires x s Q := fun _ _ _ => h

theorem requires_fail (e : ParseError) : Requires (fail e : ParseM α) s Q := by
  intro a s' h
  cases h

theorem requires_bind (hx : Walks x s R)
    (hf : ∀ a s' rest, R a rest → Upcoming s'.scan rest → Unchanged s s' →
      Requires (f a) s' Q) : Requires (x >>= f) s Q := by
  intro b s'' h
  obtain ⟨a, s', hrun, hnext⟩ := Fallible.bind_eq_ok.mp h
  unfold Walks Ends at hx
  rw [hrun] at hx
  obtain ⟨rest, hr, hup, hun⟩ := hx
  exact hf a s' rest hr hup hun b s'' hnext

theorem requires_step {a : α} (hx : x s = .ok a s') (hf : Requires (f a) s' Q) :
    Requires (x >>= f) s Q := by
  intro b s'' h
  rw [Fallible.bind_ok hx] at h
  exact hf b s'' h

end Requires

/-- The tokens are a statement and what may stand behind it. -/
def IsStatement (ts : List Token) : Prop :=
  ∃ (st : Statement) (rest : List Token), ts = st.toks ++ rest ∧ st.EndsBefore rest

section Statements

variable {env : Env} {fuel n : Nat} {s : Frame} {ts : List Token}

theorem parseLet_requires (h : Upcoming s.scan ts) (hfuel : 2 * ts.length + 2 ≤ fuel) :
    Requires (parseLet fuel) s (IsStatement (.kwLet :: ts)) := by
  refine requires_bind (walks_expectName h) fun name s₁ ts₁ hts hup₁ _ => ?_
  refine requires_bind (walks_expect (by simp) hup₁) fun _ s₂ ts₂ hts₁ hup₂ _ => ?_
  subst hts hts₁
  simp only [List.length_cons] at hfuel
  refine requires_bind (walks_onScan (evalExpr_reads s₂.comp hup₂ (by omega)))
    fun v s₃ ts₃ ⟨e, he, _⟩ hup₃ _ => ?_
  refine requires_bind (walks_expectSemicolon hup₃) fun _ s₄ ts₄ hclose _ _ => ?_
  exact requires_of ⟨.bind name.asSlice e, ts₃, by simp [Statement.toks, he], ts₄, hclose⟩

theorem parseFn_requires (hok : TablesOk env.code s.comp) (h : Upcoming s.scan ts)
    (hfuel : 2 * ts.length + 2 ≤ fuel) (hn : ts.length < n) :
    Requires (parseFn env fuel n) s (IsStatement (.kwFn :: ts)) := by
  refine requires_bind (walks_expectName h) fun name s₁ ts₁ hts hup₁ hun₁ => ?_
  refine requires_bind (walks_expect (by simp) hup₁) fun _ s₂ ts₂ hts₁ hup₂ hun₂ => ?_
  refine requires_bind (walks_expect (by simp) hup₂) fun _ s₃ ts₃ hts₂ hup₃ hun₃ => ?_
  refine requires_bind (walks_expect (by simp) hup₃) fun _ s₄ ts₄ hts₃ hup₄ hun₄ => ?_
  subst hts hts₁ hts₂ hts₃
  simp only [List.length_cons] at hfuel hn
  refine requires_step (streamReset_ok s₄) ?_
  have hun : Unchanged s s₄ := ((hun₁.trans hun₂).trans hun₃).trans hun₄
  have hok₄ : TablesOk env.code s₄.fresh.comp := hok.of_same (hun.tables.trans (fresh_same s₄))
  have hbody : Walks (parseBody env fuel n) s₄.fresh fun _ rest =>
      ∃ stmts, ts₄ = bodyToks stmts ++ .rBrace :: rest :=
    parseBody_walks env n hok₄ hup₄ (by omega) (by omega)
  refine requires_bind hbody fun _ s₅ rest ⟨stmts, hstmts⟩ _ _ => ?_
  exact requires_of ⟨.define name.asSlice stmts, rest, by simp [Statement.toks, fnToks, hstmts],
    trivial⟩

/-- A value statement, its first token taken. -/
theorem parseValueStmt_requires (t : Token)
    (hopens : ∀ id, t = .identifier id → id ∉ commandWords) (h : Upcoming s.scan ts)
    (hfuel : 2 * ts.length + 4 ≤ fuel) :
    Requires (parseValueStmt env fuel t) s (IsStatement (t :: ts)) := by
  refine requires_bind (walks_onScan (evalExpr_reads_after s.comp t h hfuel))
    fun v s₁ ts₁ ⟨e, he, _⟩ hup₁ _ => ?_
  refine requires_bind (walks_expectSemicolon hup₁) fun _ s₂ ts₂ hclose _ _ => ?_
  have hhead : ∀ id rest, e.toks = .identifier id :: rest → id ∉ commandWords := by
    intro id rest htoks
    rw [htoks, List.cons_append] at he
    exact hopens id (List.cons.inj he).1
  have hpeek : ∀ a tail, e ≠ .mk (.peek a) tail := by
    rintro a tail rfl
    exact hhead (bytes "peek") _ rfl (by decide)
  exact requires_of ⟨.value ⟨e, fun id rest htoks => .inr (hhead id rest htoks), hpeek⟩, ts₁, he,
    ts₂, hclose⟩

theorem parseCommand_requires (id : List Byte) (h : Upcoming s.scan ts)
    (hfuel : 2 * ts.length + 4 ≤ fuel) :
    Requires (parseCommand env fuel id) s (IsStatement (.identifier id :: ts)) := by
  refine parseCommand_cases (P := fun x => Requires x s (IsStatement (.identifier id :: ts)))
    ?_ ?_ ?_ ?_ ?_ ?_
  · rintro rfl
    refine requires_bind (walks_onScan (parseAtomicTerm_reads s.comp h (by omega))) ?_
    rintro addr s₁ ts₁ ⟨a, ha⟩ hup₁ -
    refine requires_bind (walks_expectSemicolon hup₁) fun _ s₂ ts₂ hclose _ _ => ?_
    exact requires_of ⟨.peek a, ts₁, by simp [Statement.toks, ha], ts₂, hclose⟩
  · rintro rfl
    refine requires_bind (walks_onScan (parseAtomicTerm_reads s.comp h (by omega))) ?_
    rintro addr s₁ ts₁ ⟨a, ha⟩ hup₁ -
    have hlen : ts₁.length ≤ ts.length := by
      rw [ha, List.length_append]
      omega
    refine requires_bind (walks_onScan (evalExpr_reads s₁.comp hup₁ (by omega))) ?_
    rintro v s₂ ts₂ ⟨e, he, _⟩ hup₂ -
    refine requires_bind (walks_expectSemicolon hup₂) fun _ s₃ ts₃ hclose _ _ => ?_
    exact requires_of ⟨.poke a e, ts₂, by simp [Statement.toks, ha, he], ts₃, hclose⟩
  · intro outcome hword
    refine requires_bind (walks_expectName h) fun name s₁ ts₁ hts hup₁ _ => ?_
    refine requires_bind (walks_expectSemicolon hup₁) fun _ s₂ ts₂ hclose _ _ => requires_of ?_
    rcases hword with ⟨rfl, _⟩ | ⟨rfl, _⟩
    · exact ⟨.claim name.asSlice, ts₁, by simp [Statement.toks, hts], ts₂, hclose⟩
    · exact ⟨.drop name.asSlice, ts₁, by simp [Statement.toks, hts], ts₂, hclose⟩
  · intro outcome hword
    refine requires_bind (walks_onScan (parseAtomicTerm_reads s.comp h (by omega))) ?_
    rintro addr s₁ ts₁ ⟨a, ha⟩ hup₁ -
    have hlen : ts₁.length ≤ ts.length := by
      rw [ha, List.length_append]
      omega
    refine requires_bind (walks_onScan (parseAtomicTerm_reads s₁.comp hup₁ (by omega))) ?_
    rintro number s₂ ts₂ ⟨k, hk⟩ hup₂ -
    refine requires_bind (walks_expectSemicolon hup₂) fun _ s₃ ts₃ hclose _ _ => requires_of ?_
    rcases hword with ⟨rfl, _⟩ | ⟨rfl, _⟩
    · exact ⟨.bit .set a k, ts₂, by simp [Statement.toks, bitWord, ha, hk], ts₃, hclose⟩
    · exact ⟨.bit .clear a k, ts₂, by simp [Statement.toks, bitWord, ha, hk], ts₃, hclose⟩
  · intro outcome hword
    refine requires_of ?_
    rcases hword with ⟨rfl, _⟩ | ⟨rfl, _⟩ | ⟨rfl, _⟩
    · exact ⟨.help, ts, rfl, trivial⟩
    · exact ⟨.banner, ts, rfl, trivial⟩
    · exact ⟨.sysAudit, ts, rfl, trivial⟩
  · intro hid
    refine requires_bind (walks_peekTok h) ?_
    rintro t s₁ ts₁ ⟨ht, hts₁⟩ hup₁ -
    subst ht hts₁
    by_cases hparen : first ts₁ = .lParen
    · rw [if_pos hparen]
      refine requires_bind (walks_callParens hparen hup₁) fun _ s₂ ts₂ hts₂ hup₂ _ => ?_
      refine requires_bind (walks_expectSemicolon hup₂) fun _ s₃ ts₃ hclose _ _ => requires_of ?_
      exact ⟨.call ⟨id, hid⟩, ts₂, by simp [Statement.toks, hts₂], ts₃, hclose⟩
    · rw [if_neg hparen]
      refine parseValueStmt_requires (.identifier id) ?_ hup₁ hfuel
      rintro id' hid'
      cases hid'
      exact hid

theorem parseLine_requires (hok : TablesOk env.code s.comp) (h : Upcoming s.scan ts)
    (hfuel : 2 * ts.length + 4 ≤ fuel) (hn : ts.length < n) :
    Requires (parseLine env fuel n) s (IsStatement ts) := by
  refine requires_bind (walks_nextTok h) fun t s₁ ts₁ ⟨ht, hts₁⟩ hup₁ hun₁ => ?_
  cases ts with
  | nil =>
      subst ht
      exact requires_fail _
  | cons t' ts =>
      obtain rfl : t = t' := ht
      obtain rfl : ts₁ = ts := hts₁
      rw [List.length_cons] at hfuel hn
      have hvalue (hopens : ∀ id, t = .identifier id → id ∉ commandWords) :
          Requires (parseValueStmt env fuel t) s₁ (IsStatement (t :: ts₁)) :=
        parseValueStmt_requires t hopens hup₁ (by omega)
      cases t with
      | kwLet => exact parseLet_requires hup₁ (by omega)
      | kwFn => exact parseFn_requires (hok.of_same hun₁.tables) hup₁ (by omega) (by omega)
      | identifier id => exact parseCommand_requires id hup₁ (by omega)
      | literal v => exact hvalue nofun
      | operator op => exact hvalue nofun
      | lParen => exact hvalue nofun
      | _ => exact requires_fail _

end Statements

/-! ### Lines and sessions -/

section Sessions

variable {img : Image}

/-- An accepted line spells a statement. -/
theorem accepted_spells {env : Env} {c : Compiler} (hok : TablesOk env.code c) {bus : Bus}
    {line : List Byte} {o : Outcome} (h : (c.parse env bus line).result = .ok o) :
    ∃ st, Spells st line := by
  obtain ⟨hup, hfuel, hbody⟩ := start_of_toks c bus (Eq.refl (Lexer.new line).toks)
  exact parseLine_requires hok hup hfuel (by omega) _ _ (Sessions.parse_run_ok h)

/-- Whatever a line was, once it has been compiled there is a world. -/
theorem compiled_modelled {m : Machine} {w : World} (h : Models img m w) (line : List Byte) :
    ∃ w', Models img (m.compiled (m.comp.parse (m.env img) m.vm.bus line)) w' := by
  have hok := h.reachable.tablesOk
  cases hres : (m.comp.parse (m.env img) m.vm.bus line).result with
  | error e =>
      obtain ⟨_, hun⟩ := Sessions.rejected (m.env img) hok hres
      exact ⟨_, models_same h hun.tables⟩
  | ok o =>
      obtain ⟨st, hline⟩ := accepted_spells hok hres
      have hparse := parse_compiles hok h.fits hline m.vm.bus
      cases hmeaning : st.compile (w.context img.target) m.vm.bus with
      | ok a b =>
          rw [hmeaning] at hparse
          obtain ⟨o', hres', hbus, hout⟩ := hparse
          exact ⟨_, models_learn h hline hmeaning hres' hbus hout⟩
      | error e b =>
          rw [hmeaning] at hparse
          cases hres.symm.trans hparse.1

/-- A line that begins in a machine with a world leads to one. -/
theorem feedLine_modelled {m m' : Machine} {w : World} (h : Models img m w) {input : Input}
    (hfed : feedLine img m input = some m') : ∃ w', Models img m' w' := by
  rcases Confinement.feedLine_comp h.reachable hfed with hcomp | hcomp
  · exact ⟨_, h.of_comp hcomp⟩
  · obtain ⟨w', hcompiled⟩ := compiled_modelled h input.line
    exact ⟨_, hcompiled.of_comp hcomp⟩

/-- Every machine of every session has its world. -/
theorem session_modelled (bus : Bus) {inputs : List Input} {m : Machine}
    (hrun : Runs.run (Confinement.feed img) (some (.boot bus)) inputs = some m) :
    ∃ w, Models img m w := by
  have hall : ∀ m', Runs.run (Confinement.feed img) (some (.boot bus)) inputs = some m' →
      ∃ w, Models img m' w := by
    refine Runs.run_invariant (I := fun o => ∀ m', o = some m' → ∃ w, Models img m' w) ?_ ?_
    · intro o input hmodelled m' hm'
      obtain ⟨m₁, rfl, hfed⟩ := Option.bind_eq_some_iff.mp hm'
      obtain ⟨w, hw⟩ := hmodelled m₁ rfl
      exact feedLine_modelled hw hfed
    · intro m' hm'
      cases hm'
      exact ⟨_, models_boot img bus⟩
  exact hall m hrun

/-- In every session, whatever was typed and on either path, a line is accepted exactly
if it spells a statement that has a meaning under what the session has bound and
defined. -/
theorem accepts_iff (bus : Bus) {inputs : List Input} {m : Machine}
    (hrun : Runs.run (Confinement.feed img) (some (.boot bus)) inputs = some m) :
    ∃ w, Models img m w ∧ ∀ line, (∃ o, verdict img m line = .ok o) ↔
      ∃ st, Spells st line ∧ ∃ a b, st.compile (w.context img.target) w.bus = .ok a b := by
  obtain ⟨w, h⟩ := session_modelled bus hrun
  have hok := h.reachable.tablesOk
  refine ⟨w, h, fun line => ?_⟩
  rw [← h.bus]
  constructor
  · rintro ⟨o, hres⟩
    obtain ⟨st, hline⟩ := accepted_spells hok hres
    have hparse := parse_compiles hok h.fits hline m.vm.bus
    cases hmeaning : st.compile (w.context img.target) m.vm.bus with
    | ok a b => exact ⟨st, hline, a, b, hmeaning⟩
    | error e b =>
        rw [hmeaning] at hparse
        cases Eq.trans (Eq.symm hres) hparse.1
  · rintro ⟨st, hline, a, b, hmeaning⟩
    have hparse := parse_compiles hok h.fits hline m.vm.bus
    rw [hmeaning] at hparse
    obtain ⟨o, hres, _⟩ := hparse
    exact ⟨o, hres⟩

/-- Once `x` is bound and once a line has been refused. -/
theorem accepts_iff_bound : ∃ m w,
    Runs.run (Confinement.feed armImage) (some (.boot ⟨fun _ => 0, []⟩))
      [threadedLine "let x = 5;", threadedLine "x + y;"] = some m ∧ Models armImage m w ∧
    ∀ line, (∃ o, verdict armImage m line = .ok o) ↔
      ∃ st, Spells st line ∧ ∃ a b, st.compile (w.context .arm) w.bus = .ok a b := by
  have hsome : (Runs.run (Confinement.feed armImage) (some (.boot ⟨fun _ => 0, []⟩))
      [threadedLine "let x = 5;", threadedLine "x + y;"]).isSome = true := by
    decide +kernel
  obtain ⟨m, hrun⟩ := Option.isSome_iff_exists.mp hsome
  obtain ⟨w, hw⟩ := accepts_iff ⟨fun _ => 0, []⟩ hrun
  exact ⟨m, w, hrun, hw⟩

end Sessions

end HolyRust.Language
