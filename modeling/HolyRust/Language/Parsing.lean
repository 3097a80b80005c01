import HolyRust.Compiler.BodyGrammar
import HolyRust.Language.Statements

/-!
`Compiler::parse` against the language.

On a line that spells a statement `parse` does what `Statement.compile` says: it reads
what that reads, hands out the program or command of its meaning, or reports its error.

* `Denotes x s y` — from `s`, `x` computes the meaning that `y` computes on the same
  bus. One lemma for each kind of statement.
* `parse_compiles` — the same of a whole line.
-/

namespace HolyRust.Language

open Syntax
open HolyRust.Parser
open Compiler (TablesOk SameTables)
open Registry (Permitted)

/-! ### What is handed out -/

/-- The outcome that stands for a meaning. -/
def Meaning.HandedOut (code : CodeMap) (o : Outcome) : Meaning → Prop
  | .bind id v => ∃ name : NameBuf, name.asSlice = id ∧ o = .bound name v
  | .define id _ => ∃ name : NameBuf, name.asSlice = id ∧ o = .fnDefined name
  | .perform ops => ∃ p : StreamProgram, p.IsCall code ops ∧ o = .run p
  | .print v => ∃ p : StreamProgram, p.IsValue code v ∧ o = .run p
  | .peek a => o = .enforcedPeek a
  | .poke a v => o = .enforcedPoke a v
  | .bit action a n => o = action.outcome a n
  | .claim id => ∃ name : NameBuf, name.asSlice = id ∧ o = .claim name
  | .drop id => ∃ name : NameBuf, name.asSlice = id ∧ o = .drop name
  | .help => o = .help
  | .banner => o = .banner
  | .sysAudit => o = .sysAudit

/-- From `s`, `x` computes the meaning that `y` computes on the same bus. -/
def Denotes (env : Env) (x : ParseM Outcome) (s : Frame) (y : Eval Meaning) : Prop :=
  match y s.scan.bus with
  | .ok a b => ∃ o s', x s = .ok o s' ∧ s'.scan.bus = b ∧ a.HandedOut env.code o
  | .error e b => ∃ s', x s = .error (.error e) s' ∧ s'.scan.bus = b

section Denotes

variable {env : Env} {s s' : Frame} {y : Eval Meaning} {mid ts : List Token}

theorem denotes_pure {a : Meaning} {o : Outcome} (h : a.HandedOut env.code o) :
    Denotes env (pure o) s (pure a) :=
  ⟨o, s, rfl, rfl, h⟩

theorem denotes_throw (e : ParseError) : Denotes env (fail e) s (throw e) := ⟨s, rfl, rfl⟩

theorem denotes_step {β : Type} {z : ParseM β} {k : β → ParseM Outcome} {t : β}
    (hz : z s = .ok t s') (hbus : s'.scan.bus = s.scan.bus) (h : Denotes env (k t) s' y) :
    Denotes env (z >>= k) s y := by
  unfold Denotes at h ⊢
  rw [Fallible.bind_ok hz, ← hbus]
  exact h

/-- An operand, and what is done with its value. -/
theorem denotes_operand {α : Type} {x : ParseM α} {v : Eval α} {k : α → ParseM Outcome}
    {g : α → Eval Meaning} (hx : FrameMirrors x s v mid)
    (hk : ∀ a s', Upcoming s'.scan mid → s'.comp = s.comp → Denotes env (k a) s' (g a)) :
    Denotes env (x >>= k) s (v >>= g) := by
  unfold FrameMirrors at hx
  cases hv : v s.scan.bus with
  | ok a b =>
      rw [hv] at hx
      obtain ⟨s', hxs, hup, hbus, hcomp⟩ := hx
      have hnext := hk a s' hup hcomp
      unfold Denotes at hnext ⊢
      rw [Fallible.bind_ok hv, Fallible.bind_ok hxs, ← hbus]
      exact hnext
  | error e b =>
      rw [hv] at hx
      obtain ⟨s', hxs, hbus, _⟩ := hx
      unfold Denotes
      rw [Fallible.bind_error hv]
      exact ⟨s', Fallible.bind_error hxs, hbus⟩

/-- A name, and what is done with it. -/
theorem denotes_name {id : List Byte} {k : NameBuf → ParseM Outcome}
    (h : Upcoming s.scan (.identifier id :: ts))
    (hk : ∀ name s', name.asSlice = id → Upcoming s'.scan ts → s'.comp = s.comp →
      Denotes env (k name) s' y) :
    Denotes env (expectName >>= k) s (checkName id >>= fun _ => y) := by
  unfold checkName
  by_cases hlen : id.length ≤ nameMax
  · rw [if_pos hlen, pure_bind]
    obtain ⟨name, hname⟩ := NameBuf.fromSlice_eq_ok_iff.mpr hlen
    obtain ⟨s', hrun, hup, hbus, hcomp⟩ := expectName_identifier hname h
    exact denotes_step hrun hbus (hk name s' (NameBuf.asSlice_fromSlice hname) hup hcomp)
  · rw [if_neg hlen]
    have herr : NameBuf.fromSlice id = .error .nameTooLong := dif_pos (Nat.lt_of_not_le hlen)
    obtain ⟨s', hnext, _, hbus, _⟩ := nextTok_cons h
    refine ⟨s', ?_, hbus⟩
    have hfail : expectName s = .error (.error .nameTooLong) s' := by
      unfold expectName
      rw [Fallible.bind_ok hnext]
      simp only [herr]
      rfl
    exact Fallible.bind_error hfail

/-- The check of an address, and what is handed out behind it. -/
theorem denotes_enforce {c : Compiler} {a : Word} {m : Meaning} {o : Outcome}
    (h : m.HandedOut env.code o) :
    Denotes env (enforce env a >>= fun _ => pure o) s
      (checkAddr (env.scope c) a >>= fun _ => pure m) := by
  unfold checkAddr enforce Env.scope
  by_cases hperm : Permitted env.target env.registry a
  · rw [if_pos (by simpa using hperm),
      show Registry.checkAccess env.target env.registry a = .ok () from hperm]
    exact denotes_pure h
  · rw [if_neg (by simpa using hperm)]
    cases hcheck : Registry.checkAccess env.target env.registry a with
    | ok u => exact absurd hcheck hperm
    | error cap => exact ⟨s, rfl, rfl⟩

/-- Where a statement may end there is a semicolon or nothing. -/
theorem expectSemicolon_closes {rest after : List Token} (h : Upcoming s.scan rest)
    (hclose : Closes rest after) :
    ∃ s', expectSemicolon s = .ok ⟨⟩ s' ∧ s'.scan.bus = s.scan.bus ∧ s'.comp = s.comp := by
  rcases hclose with rfl | ⟨rfl, _⟩
  · obtain ⟨s', hsemi, _, hbus, hcomp⟩ := expectSemicolon_semicolon h
    exact ⟨s', hsemi, hbus, hcomp⟩
  · obtain ⟨scan, hnext, _, hbus⟩ := next_upcoming h
    refine ⟨{ s with scan := scan }, ?_, hbus, rfl⟩
    have hrun : nextTok s = .ok .eof { s with scan := scan } := by
      simp [nextTok, onScan, hnext]
    unfold expectSemicolon
    rw [Fallible.bind_ok hrun]
    rfl

theorem not_continuesChain_of_closes {rest after : List Token} (h : Closes rest after) :
    ¬ ContinuesChain rest := by
  rcases h with rfl | ⟨rfl, _⟩
  · exact not_continuesChain_semicolon after
  · exact not_continuesChain_nil

end Denotes

/-- The room there is in a compiler's tables. -/
structure Context.Fits (env : Env) (c : Compiler) (ctx : Context) : Prop where
  scope : ctx.toScope = env.scope c
  room : ∀ id, ctx.hasRoom id = true ↔ c.symbols.HasRoom id
  slot : ctx.hasSlot = true ↔ ∃ i : Fin maxFns, (c.fnName i).len = 0

theorem Context.Fits.lookup {env : Env} {c : Compiler} {ctx : Context} (h : ctx.Fits env c) :
    ctx.lookup = c.symbols.value? :=
  congrArg Scope.lookup h.scope

theorem Context.Fits.callee {env : Env} {c : Compiler} {ctx : Context} (h : ctx.Fits env c) :
    ctx.callee = c.accessesOf env.code :=
  congrArg Scope.callee h.scope

/-! ### The statements -/

section Statements

variable {env : Env} {s : Frame} {ctx : Context} {rest after : List Token} {fuel : Nat}

/-- There is room where the probing ends. -/
theorem hasRoom_iff_search {symbols : SymbolTable} {id : List Byte} :
    symbols.HasRoom id ↔
      (OpenAddressing.search SymbolTable.probeOrder symbols.slots id).isSome = true := by
  refine ⟨SymbolTable.HasRoom.search_isSome, fun h => ?_⟩
  obtain ⟨i, hsearch⟩ := Option.isSome_iff_exists.mp h
  rcases OpenAddressing.slot_of_search hsearch with hnone | ⟨w, hw⟩
  · right
    refine ⟨i, ?_⟩
    by_contra hused
    simp [SymbolTable.slots, hused] at hnone
  · left
    refine ⟨w, ?_⟩
    rw [SymbolTable.value?, SymbolTable.lookupSymbol_eq_lookup]
    simp [OpenAddressing.lookup, hsearch, hw]

/-- Without room the insertion fails. -/
theorem insertSymbol_of_full {symbols : SymbolTable} {name : NameBuf}
    (h : ¬ symbols.HasRoom name.asSlice) (v : Word) :
    symbols.insertSymbol name v = some (.error .symbolTableFull) := by
  rcases symbols.insertInPlace_cases name v with ⟨_, hins, _⟩ | ⟨t, hinsert, _, _⟩
  · exact hins
  · obtain ⟨i, hsearch, _⟩ := OpenAddressing.insert_eq_some_iff.mp hinsert
    exact absurd (hasRoom_iff_search.mpr (by rw [hsearch]; rfl)) h

theorem denotes_bind {id : List Byte} {e : Expr} (hctx : ctx.Fits env s.comp)
    (h : Upcoming s.scan (.identifier id :: .operator (ascii '=') :: (e.toks ++ rest)))
    (hclose : Closes rest after) (hn : 2 * (e.toks ++ rest).length + 2 ≤ fuel) :
    Denotes env (parseLet fuel) s ((Statement.bind id e).compile ctx) := by
  refine denotes_name h fun name s₁ hname hup₁ hcomp₁ => ?_
  obtain ⟨s₂, heq, hup₂, hbus₂, hcomp₂⟩ := expect_cons hup₁
  refine denotes_step heq hbus₂ ?_
  rw [hctx.lookup, ← hcomp₁, ← hcomp₂]
  refine denotes_operand (frameMirrors_onScan (evalExpr_mirrors s₂.comp e hup₂
    (not_continuesChain_of_closes hclose) hn)) fun v s₃ hup₃ hcomp₃ => ?_
  obtain ⟨s₄, hsemi, hbus₄, hcomp₄⟩ := expectSemicolon_closes hup₃ hclose
  refine denotes_step hsemi hbus₄ (denotes_step (Fallible.get_apply s₄) rfl ?_)
  have hcomp : s₄.comp = s.comp := hcomp₄.trans (hcomp₃.trans (hcomp₂.trans hcomp₁))
  have hroom := hctx.room id
  rw [← hcomp, ← hname] at hroom
  rw [← hname]
  by_cases hfits : s₄.comp.symbols.HasRoom name.asSlice
  · obtain ⟨t, hins⟩ := SymbolTable.insertSymbol_of_room hfits v
    rw [if_pos (hroom.mpr hfits), hins]
    exact ⟨_, _, rfl, rfl, name, rfl, rfl⟩
  · rw [if_neg fun hfull => hfits (hroom.mp hfull), insertSymbol_of_full hfits v]
    exact denotes_throw _

/-- A line that begins with a call of a function. -/
theorem denotes_call {f : List Byte} (hf : f ∉ commandWords) (hok : TablesOk env.code s.comp)
    (hctx : ctx.Fits env s.comp) (h : Upcoming s.scan (.lParen :: .rParen :: rest))
    (hclose : Closes rest after) :
    Denotes env (parseCommand env fuel f) s ((Statement.call ⟨f, hf⟩).compile ctx) := by
  rw [parseCommand_name env hf]
  obtain ⟨s₁, hpeek, hup₁, hbus₁, hcomp₁⟩ := peekTok_upcoming h
  refine denotes_step hpeek hbus₁ ?_
  rw [first_cons, if_pos rfl]
  obtain ⟨s₂, hparens, hup₂, hbus₂, hcomp₂⟩ := callParens_parens hup₁
  refine denotes_step hparens hbus₂ ?_
  obtain ⟨s₃, hsemi, hbus₃, hcomp₃⟩ := expectSemicolon_closes hup₂ hclose
  refine denotes_step hsemi hbus₃ ?_
  have hcomp : s₃.comp = s.comp := hcomp₃.trans (hcomp₂.trans hcomp₁)
  simp only [Statement.compile, hctx.callee, ← hcomp]
  rw [← hcomp] at hok
  cases hcallee : s₃.comp.accessesOf env.code f with
  | some ops =>
      obtain ⟨p, s₄, hbuild, hscan, _, hcall⟩ := buildCallProgram_ok env hok hcallee
      exact denotes_step hbuild (by rw [hscan]) (denotes_pure ⟨p, hcall, rfl⟩)
  | none =>
      have hfind : s₃.comp.findFn f = none := by
        simpa [Compiler.accessesOf, Compiler.bodyOf] using hcallee
      refine ⟨s₃, Fallible.bind_error ?_, rfl⟩
      unfold buildCallProgram findFn
      rw [Fallible.bind_error]
      rw [Fallible.bind_ok (Fallible.get_apply s₃), hfind]
      rfl

/-- An expression whose first token has been taken. -/
theorem denotes_value {e : Expr} {t : Token} {ts : List Token} (htoks : e.toks = t :: ts)
    (hctx : ctx.Fits env s.comp) (h : Upcoming s.scan (ts ++ rest)) (hclose : Closes rest after)
    (hn : 2 * (ts ++ rest).length + 4 ≤ fuel) :
    Denotes env (parseValueStmt env fuel t) s
      (e.eval ctx.lookup >>= fun v => pure (.print v)) := by
  rw [hctx.lookup]
  refine denotes_operand (frameMirrors_onScan (evalExpr_mirrors_after s.comp e htoks h
    (not_continuesChain_of_closes hclose) hn)) fun v s₁ hup₁ _ => ?_
  obtain ⟨s₂, hsemi, hbus₂, _⟩ := expectSemicolon_closes hup₁ hclose
  refine denotes_step hsemi hbus₂ ?_
  obtain ⟨p, s₃, hbuild, hscan, _, hvalue⟩ := buildValueProgram_ok env s₂ v
  exact denotes_step hbuild (by rw [hscan]) (denotes_pure ⟨p, hvalue, rfl⟩)

theorem denotes_peek {a : Atom} (hctx : ctx.Fits env s.comp)
    (h : Upcoming s.scan (a.toks ++ rest)) (hclose : Closes rest after)
    (hn : 2 * (a.toks ++ rest).length + 2 ≤ fuel) :
    Denotes env (parseCommand env fuel (bytes "peek")) s ((Statement.peek a).compile ctx) := by
  rw [Statement.compile, hctx.lookup, hctx.scope]
  refine denotes_operand (frameMirrors_onScan (parseAtomicTerm_mirrors s.comp a h hn))
    fun addr s₁ hup₁ _ => ?_
  obtain ⟨s₂, hsemi, hbus₂, _⟩ := expectSemicolon_closes hup₁ hclose
  exact denotes_step hsemi hbus₂ (denotes_enforce rfl)

theorem parseCommand_poke (env : Env) (fuel : Nat) :
    parseCommand env fuel (bytes "poke") = (do
      let addr ← onScan fun self => parseAtomicTerm self fuel
      let val ← onScan fun self => evalExpr self fuel none
      expectSemicolon
      enforce env addr
      pure (.enforcedPoke addr val)) := by
  unfold parseCommand
  rw [if_neg (by decide), if_pos rfl]

theorem denotes_poke {a : Atom} {e : Expr} (hctx : ctx.Fits env s.comp)
    (h : Upcoming s.scan (a.toks ++ (e.toks ++ rest))) (hclose : Closes rest after)
    (hn : 2 * (a.toks ++ (e.toks ++ rest)).length + 2 ≤ fuel) :
    Denotes env (parseCommand env fuel (bytes "poke")) s ((Statement.poke a e).compile ctx) := by
  rw [parseCommand_poke, Statement.compile, hctx.lookup, hctx.scope]
  have hlen : (e.toks ++ rest).length ≤ (a.toks ++ (e.toks ++ rest)).length := by
    simp only [List.length_append]
    omega
  refine denotes_operand (frameMirrors_onScan (parseAtomicTerm_mirrors s.comp a h hn))
    fun addr s₁ hup₁ hcomp₁ => ?_
  rw [← hcomp₁]
  refine denotes_operand (frameMirrors_onScan (evalExpr_mirrors s₁.comp e hup₁
    (not_continuesChain_of_closes hclose) (by omega))) fun v s₂ hup₂ _ => ?_
  obtain ⟨s₃, hsemi, hbus₃, _⟩ := expectSemicolon_closes hup₂ hclose
  exact denotes_step hsemi hbus₃ (denotes_enforce rfl)

theorem denotes_bit {action : Repl.BitAction} {a n : Atom} (hctx : ctx.Fits env s.comp)
    (h : Upcoming s.scan (a.toks ++ (n.toks ++ rest))) (hclose : Closes rest after)
    (hn : 2 * (a.toks ++ (n.toks ++ rest)).length + 2 ≤ fuel) :
    Denotes env (parseBitCommand env fuel action.outcome) s
      ((Statement.bit action a n).compile ctx) := by
  rw [Statement.compile, hctx.lookup, hctx.scope]
  have hlen : (n.toks ++ rest).length ≤ (a.toks ++ (n.toks ++ rest)).length := by
    simp only [List.length_append]
    omega
  refine denotes_operand (frameMirrors_onScan (parseAtomicTerm_mirrors s.comp a h hn))
    fun addr s₁ hup₁ hcomp₁ => ?_
  rw [← hcomp₁]
  refine denotes_operand (frameMirrors_onScan (parseAtomicTerm_mirrors s₁.comp n hup₁ (by omega)))
    fun number s₂ hup₂ _ => ?_
  obtain ⟨s₃, hsemi, hbus₃, _⟩ := expectSemicolon_closes hup₂ hclose
  exact denotes_step hsemi hbus₃ (denotes_enforce rfl)

/-- `cap_claim` and `cap_drop`. -/
theorem denotes_cap {outcome : NameBuf → Outcome} {m : Meaning} {id : List Byte}
    (hm : ∀ name : NameBuf, name.asSlice = id → m.HandedOut env.code (outcome name))
    (h : Upcoming s.scan (.identifier id :: rest)) (hclose : Closes rest after) :
    Denotes env (parseCapCommand outcome) s (checkName id >>= fun _ => pure m) := by
  refine denotes_name h fun name s₁ hname hup₁ _ => ?_
  obtain ⟨s₂, hsemi, hbus₂, _⟩ := expectSemicolon_closes hup₁ hclose
  exact denotes_step hsemi hbus₂ (denotes_pure (hm name hname))

/-- `help`, `banner` and `sys_audit` need no semicolon. -/
theorem denotes_bare {outcome : Outcome} {m : Meaning} (hm : m.HandedOut env.code outcome)
    (h : Upcoming s.scan rest) : Denotes env (parseBareCommand outcome) s (pure m) := by
  unfold parseBareCommand allowOptionalSemicolon
  obtain ⟨s₁, hpeek, hup₁, hbus₁, _⟩ := peekTok_upcoming h
  by_cases hfirst : first rest = .semicolon
  · have hcons := eq_cons_of_first hfirst (by simp)
    rw [hcons] at hup₁
    obtain ⟨s₂, hnext, _, hbus₂, _⟩ := nextTok_cons hup₁
    have hallow : (do if (← peekTok) = .semicolon then let _ ← nextTok; pure ⟨⟩ else pure ⟨⟩ :
        ParseM PUnit) s = .ok ⟨⟩ s₂ := by
      rw [Fallible.bind_ok hpeek, if_pos hfirst, Fallible.bind_ok hnext]
      rfl
    exact denotes_step hallow (hbus₂.trans hbus₁) (denotes_pure hm)
  · have hallow : (do if (← peekTok) = .semicolon then let _ ← nextTok; pure ⟨⟩ else pure ⟨⟩ :
        ParseM PUnit) s = .ok ⟨⟩ s₁ := by
      rw [Fallible.bind_ok hpeek, if_neg hfirst]
      rfl
    exact denotes_step hallow hbus₁ (denotes_pure hm)

end Statements

/-! ### Definitions -/

section Definitions

variable {env : Env} {fuel : Nat}

/-- The loop over a body emits what `compileBody` says, or fails as it does. -/
theorem parseBody_compiles : ∀ (stmts : List BodyStmt) (n : Nat) (ops : List Access) {s : Frame}
    {rest : List Token}, TablesOk env.code s.comp → s.comp.streamLen = bodySize ops →
    bodySize ops ≤ maxStreamWords → Upcoming s.scan (bodyToks stmts ++ .rBrace :: rest) →
    2 * (bodyToks stmts ++ .rBrace :: rest).length + 2 ≤ fuel → stmts.length < n →
    match compileBody (env.scope s.comp) stmts ops s.scan.bus with
    | .ok all b => ∃ s', parseBody env fuel n s = .ok ⟨⟩ s' ∧ s'.scan.bus = b ∧
        SameTables s.comp s'.comp ∧ s'.comp.streamLen = bodySize all
    | .error e b => ∃ s', parseBody env fuel n s = .error (.error e) s' ∧ s'.scan.bus = b := by
  intro stmts
  induction stmts with
  | nil =>
      intro n ops s rest _ hlen _ h _ hn
      obtain ⟨n, rfl⟩ : ∃ k, n = k + 1 := ⟨n - 1, by rw [List.length_nil] at hn; omega⟩
      obtain ⟨s', hrun, _, hbus, hcomp⟩ := parseBody_end env h
      exact ⟨s', hrun, hbus, hcomp ▸ .refl _, by rw [hcomp]; exact hlen⟩
  | cons st stmts ih =>
      intro n ops s rest hok hlen hmax h hfuel hn
      rw [List.length_cons] at hn
      obtain ⟨n, rfl⟩ : ∃ k, n = k + 1 := ⟨n - 1, by omega⟩
      rw [bodyToks_cons, List.append_assoc] at h hfuel
      obtain ⟨id, ts, hcons⟩ : ∃ id ts, st.toks ++ (bodyToks stmts ++ .rBrace :: rest) =
          .identifier id :: ts := by
        cases st <;> exact ⟨_, _, rfl⟩
      rw [hcons] at h
      obtain ⟨s₁, hup₁, hbus₁, hcomp₁, hstep⟩ := parseBody_step env fuel n (by simp) (by simp) h
      rw [← hcons] at hup₁
      rw [hstep, ← hcomp₁, ← hbus₁]
      rw [← hcomp₁] at hok hlen
      have hemits := parseBodyStmt_emits env st hok (by omega) hup₁ hfuel
      unfold Emits at hemits
      cases hst : st.eval (env.scope s₁.comp) s₁.scan.bus with
      | error e b =>
          rw [hst] at hemits
          obtain ⟨s₂, hrun₂, hbus₂⟩ := hemits
          rw [compileBody, Fallible.bind_error hst]
          exact ⟨s₂, Fallible.bind_error hrun₂, hbus₂⟩
      | ok more b =>
          rw [hst] at hemits
          simp only [length_bodyWords_eq, hlen, ← bodySize_append] at hemits
          rw [compileBody, Fallible.bind_ok hst]
          by_cases hroom : bodySize (ops ++ more) ≤ maxStreamWords
          · rw [if_pos hroom] at hemits
            obtain ⟨s₂, hrun₂, hup₂, hbus₂, hsame₂, hlen₂, _⟩ := hemits
            have hfuel₂ : 2 * (bodyToks stmts ++ Token.rBrace :: rest).length + 2 ≤ fuel := by
              rw [List.length_append] at hfuel
              omega
            have hrest := ih n (ops ++ more) (hok.of_same hsame₂) hlen₂ hroom hup₂ hfuel₂ (by omega)
            rw [Env.scope_same hsame₂, hbus₂] at hrest
            rw [if_pos hroom, Fallible.bind_ok hrun₂]
            cases hmore : compileBody (env.scope s₁.comp) stmts (ops ++ more) b with
            | ok all b' =>
                rw [hmore] at hrest
                obtain ⟨s₃, hrun₃, hbus₃, hsame₃, hlen₃⟩ := hrest
                exact ⟨s₃, hrun₃, hbus₃, hsame₂.trans hsame₃, hlen₃⟩
            | error e b' =>
                rw [hmore] at hrest
                exact hrest
          · rw [if_neg hroom] at hemits ⊢
            obtain ⟨s₂, hrun₂, hbus₂⟩ := hemits
            exact ⟨s₂, Fallible.bind_error hrun₂, hbus₂⟩

/-- A body is stored unless it is too long, its name is taken or no slot is free. -/
theorem denotes_store {s : Frame} {ctx : Context} {name : NameBuf} {ops : List Access}
    (hctx : ctx.Fits env s.comp) (hlen : s.comp.streamLen = bodySize ops) :
    Denotes env (storeFn name) s
      (if bodySize ops > fnBodyWords then throw .streamFull
        else if (ctx.callee name.asSlice).isSome then throw .duplicateFn
        else if ctx.hasSlot then pure (.define name.asSlice ops)
        else throw .fnTableFull) := by
  unfold storeFn
  refine denotes_step (Fallible.get_apply s) rfl ?_
  rw [hlen]
  by_cases hlong : bodySize ops > fnBodyWords
  · rw [if_pos hlong, if_pos hlong]
    exact denotes_throw _
  · rw [if_neg hlong, if_neg hlong]
    have hcallee : (ctx.callee name.asSlice).isSome = (s.comp.findFn name.asSlice).isSome := by
      rw [hctx.callee, Compiler.accessesOf, Compiler.bodyOf, Option.isSome_map, Option.isSome_map]
    rw [hcallee]
    by_cases hold : (s.comp.findFn name.asSlice).isSome = true
    · have halloc : s.comp.allocFnSlot name = .error .duplicateFn := if_pos hold
      rw [if_pos hold, halloc]
      exact denotes_throw _
    · rw [if_neg hold]
      cases hfree : (List.finRange maxFns).find? fun i => (s.comp.fnName i).len == 0 with
      | none =>
          have halloc : s.comp.allocFnSlot name = .error .fnTableFull := by
            rw [Compiler.allocFnSlot, if_neg hold, hfree]
          have hslot : ¬ ctx.hasSlot = true := by
            intro hslot
            obtain ⟨i, hi⟩ := hctx.slot.mp hslot
            exact List.find?_eq_none.mp hfree i (List.mem_finRange i) (by simp [hi])
          rw [if_neg hslot, halloc]
          exact denotes_throw _
      | some i =>
          have hslot : ctx.hasSlot = true :=
            hctx.slot.mpr ⟨i, by simpa using List.find?_some hfree⟩
          have halloc : s.comp.allocFnSlot name = .ok i := by
            rw [Compiler.allocFnSlot, if_neg hold, hfree]
          have hle : s.comp.streamLen ≤ 32 := by
            rw [hlen]
            exact Nat.le_of_not_lt hlong
          obtain ⟨body, hcopy⟩ := exists_copyPrefix (s.comp.fnBody i) s.comp.stream hle
            (show s.comp.streamLen ≤ 128 by omega)
          rw [if_pos hslot, halloc]
          simp only [← hlen, hcopy]
          exact ⟨_, _, rfl, rfl, name, rfl, rfl⟩

/-- Room is seen alike in compilers with the same tables. -/
theorem Context.Fits.of_same {c c' : Compiler} {ctx : Context} (h : ctx.Fits env c)
    (hs : SameTables c c') : ctx.Fits env c' where
  scope := h.scope.trans (Env.scope_same hs).symm
  room id := by
    rw [hs.symbols]
    exact h.room id
  slot := by
    rw [h.slot, hs.fnName]

theorem denotes_define {s : Frame} {id : List Byte} {stmts : List BodyStmt} {rest : List Token}
    {ctx : Context} {n : Nat} (hok : TablesOk env.code s.comp) (hctx : ctx.Fits env s.comp)
    (h : Upcoming s.scan (.identifier id :: .lParen :: .rParen :: .lBrace ::
      (bodyToks stmts ++ .rBrace :: rest)))
    (hfuel : 2 * (bodyToks stmts ++ .rBrace :: rest).length + 2 ≤ fuel) (hn : stmts.length < n) :
    Denotes env (parseFn env fuel n) s ((Statement.define id stmts).compile ctx) := by
  refine denotes_name h fun name s₁ hname hup₁ hcomp₁ => ?_
  obtain ⟨s₂, hrun₂, hup₂, hbus₂, hcomp₂⟩ := expect_cons hup₁
  refine denotes_step hrun₂ hbus₂ ?_
  obtain ⟨s₃, hrun₃, hup₃, hbus₃, hcomp₃⟩ := expect_cons hup₂
  refine denotes_step hrun₃ hbus₃ ?_
  obtain ⟨s₄, hrun₄, hup₄, hbus₄, hcomp₄⟩ := expect_cons hup₃
  refine denotes_step hrun₄ hbus₄ (denotes_step (streamReset_ok s₄) rfl ?_)
  have hcomp : s₄.comp = s.comp := hcomp₄.trans (hcomp₃.trans (hcomp₂.trans hcomp₁))
  rw [← hcomp] at hok hctx
  replace hok := hok.of_same (fresh_same s₄)
  replace hctx := hctx.of_same (fresh_same s₄)
  have hbody := parseBody_compiles stmts n [] (s := s₄.fresh) hok rfl (Nat.zero_le _) hup₄ hfuel hn
  rw [← hctx.scope] at hbody
  unfold Denotes
  cases hops : compileBody ctx.toScope stmts [] s₄.fresh.scan.bus with
  | error e b =>
      rw [hops] at hbody
      obtain ⟨s₅, hrun₅, hbus₅⟩ := hbody
      rw [Fallible.bind_error hops]
      exact ⟨s₅, Fallible.bind_error hrun₅, hbus₅⟩
  | ok ops b =>
      rw [hops] at hbody
      obtain ⟨s₅, hrun₅, rfl, hsame₅, hlen₅⟩ := hbody
      have hstore : Denotes env (storeFn name) s₅ _ :=
        denotes_store (hctx.of_same hsame₅) hlen₅
      rw [hname] at hstore
      rw [Fallible.bind_ok hops, Fallible.bind_ok hrun₅]
      exact hstore

end Definitions

/-! ### The line -/

section Line

variable {env : Env} {s : Frame} {ctx : Context} {rest after : List Token} {fuel n : Nat}

/-- The dispatch on the first token. -/
theorem denotes_dispatch {t : Token} {ts : List Token} {y : Eval Meaning} {x : ParseM Outcome}
    (h : Upcoming s.scan (t :: ts))
    (hx : ∀ s', (match t with
        | .eof => fail .emptyLine
        | .kwLet => parseLet fuel
        | .kwFn => parseFn env fuel n
        | .identifier id => parseCommand env fuel id
        | .literal _ | .operator _ | .lParen => parseValueStmt env fuel t
        | .error msg => fail (.lexError msg)
        | _ => fail .unexpectedToken : ParseM Outcome) s' = x s')
    (hk : ∀ s', Upcoming s'.scan ts → s'.comp = s.comp → Denotes env x s' y) :
    Denotes env (parseLine env fuel n) s y := by
  obtain ⟨s₁, hup₁, hbus₁, hcomp₁, hrun⟩ := parseLine_cons env fuel n h
  have hnext := hk s₁ hup₁ hcomp₁
  unfold Denotes at hnext ⊢
  rw [hrun.trans (hx s₁), ← hbus₁]
  exact hnext

/-- A name that begins an expression is not called. -/
theorem denotes_valueName {id : Name} {tail : Tail} (hid : id.val ∉ commandWords)
    (hctx : ctx.Fits env s.comp) (h : Upcoming s.scan (tail.toks ++ rest))
    (hclose : Closes rest after) (hn : 2 * (tail.toks ++ rest).length + 4 ≤ fuel) :
    Denotes env (parseCommand env fuel id.val) s
      ((Expr.mk (.name id) tail).eval ctx.lookup >>= fun v => pure (.print v)) := by
  rw [parseCommand_name env hid]
  obtain ⟨s₁, hpeek, hup₁, hbus₁, hcomp₁⟩ := peekTok_upcoming h
  refine denotes_step hpeek hbus₁ ?_
  have hfirst : first (tail.toks ++ rest) ≠ .lParen := by
    rcases hclose with rfl | ⟨rfl, _⟩ <;> cases tail <;> simp [Tail.toks]
  rw [if_neg hfirst]
  exact denotes_value (by simp [Expr.toks, Atom.toks]) (hcomp₁ ▸ hctx) hup₁ hclose hn

/-- An expression as a line of its own. -/
theorem parseLine_value (e : ValueExpr) (hctx : ctx.Fits env s.comp)
    (h : Upcoming s.scan (e.val.toks ++ rest)) (hclose : Closes rest after)
    (hn : 2 * (e.val.toks ++ rest).length + 4 ≤ fuel) :
    Denotes env (parseLine env fuel n) s ((Statement.value e).compile ctx) := by
  obtain ⟨⟨head, tail⟩, hopens, hpeek⟩ := e
  cases head with
  | peek a => exact absurd rfl (hpeek a tail)
  | lit v =>
      simp only [Expr.toks, Atom.toks, List.cons_append, List.nil_append, List.length_cons] at h hn
      exact denotes_dispatch h (fun _ => rfl) fun s₁ hup₁ hcomp₁ =>
        denotes_value (e := .mk (.lit v) tail) (by simp [Expr.toks, Atom.toks]) (hcomp₁ ▸ hctx)
          hup₁ hclose (by omega)
  | paren inner =>
      simp only [Expr.toks, Atom.toks, List.cons_append, List.length_cons] at h hn
      exact denotes_dispatch h (fun _ => rfl) fun s₁ hup₁ hcomp₁ =>
        denotes_value (e := .mk (.paren inner) tail) (by simp [Expr.toks, Atom.toks])
          (hcomp₁ ▸ hctx) hup₁ hclose (by omega)
  | name id =>
      have hword := (hopens id.val tail.toks rfl).resolve_left id.property
      simp only [Expr.toks, Atom.toks, List.cons_append, List.nil_append, List.length_cons] at h hn
      exact denotes_dispatch h (fun _ => rfl) fun s₁ hup₁ hcomp₁ =>
        denotes_valueName hword (hcomp₁ ▸ hctx) hup₁ hclose (by omega)

theorem length_le_bodyToks (stmts : List BodyStmt) : stmts.length ≤ (bodyToks stmts).length := by
  induction stmts with
  | nil => exact Nat.le_refl 0
  | cons st stmts ih =>
      simp only [bodyToks_cons, BodyStmt.toks, List.length_cons, List.length_append,
        List.length_nil]
      omega

/-- On a statement `parse`'s dispatch computes its meaning. -/
theorem parseLine_compiles (st : Statement) (hok : TablesOk env.code s.comp)
    (hctx : ctx.Fits env s.comp) (h : Upcoming s.scan (st.toks ++ rest))
    (hends : st.EndsBefore rest) (hfuel : 2 * (st.toks ++ rest).length + 4 ≤ fuel)
    (hn : (st.toks ++ rest).length < n) :
    Denotes env (parseLine env fuel n) s (st.compile ctx) := by
  cases st with
  | value e =>
      obtain ⟨after, hclose⟩ := hends
      exact parseLine_value e hctx h hclose hfuel
  | bind id e =>
      obtain ⟨after, hclose⟩ := hends
      simp only [Statement.toks, List.cons_append, List.length_cons] at h hfuel
      exact denotes_dispatch h (fun _ => rfl) fun s₁ hup₁ hcomp₁ =>
        denotes_bind (hcomp₁ ▸ hctx) hup₁ hclose (by omega)
  | define id stmts =>
      simp only [Statement.toks, fnToks, List.cons_append, List.append_assoc, List.nil_append,
        List.length_cons] at h hfuel hn
      have hcount := length_le_bodyToks stmts
      rw [List.length_append] at hn
      exact denotes_dispatch h (fun _ => rfl) fun s₁ hup₁ hcomp₁ =>
        denotes_define (hcomp₁ ▸ hok) (hcomp₁ ▸ hctx) hup₁ (by omega) (by omega)
  | call f =>
      obtain ⟨after, hclose⟩ := hends
      simp only [Statement.toks, List.cons_append, List.nil_append] at h
      exact denotes_dispatch h (fun _ => rfl) fun s₁ hup₁ hcomp₁ =>
        denotes_call f.property (hcomp₁ ▸ hok) (hcomp₁ ▸ hctx) hup₁ hclose
  | peek a =>
      obtain ⟨after, hclose⟩ := hends
      simp only [Statement.toks, List.cons_append, List.length_cons] at h hfuel
      exact denotes_dispatch h (fun _ => rfl) fun s₁ hup₁ hcomp₁ =>
        denotes_peek (hcomp₁ ▸ hctx) hup₁ hclose (by omega)
  | poke a e =>
      obtain ⟨after, hclose⟩ := hends
      simp only [Statement.toks, List.cons_append, List.append_assoc, List.length_cons] at h hfuel
      exact denotes_dispatch h (fun _ => rfl) fun s₁ hup₁ hcomp₁ =>
        denotes_poke (hcomp₁ ▸ hctx) hup₁ hclose (by omega)
  | bit action a k =>
      obtain ⟨after, hclose⟩ := hends
      simp only [Statement.toks, List.cons_append, List.append_assoc, List.length_cons] at h hfuel
      have hcommand : ∀ s' : Frame, parseCommand env fuel (bitWord action) s' =
          parseBitCommand env fuel action.outcome s' := by
        cases action <;> exact fun _ => rfl
      exact denotes_dispatch h hcommand fun s₁ hup₁ hcomp₁ =>
        denotes_bit (hcomp₁ ▸ hctx) hup₁ hclose (by omega)
  | claim id =>
      obtain ⟨after, hclose⟩ := hends
      simp only [Statement.toks, List.cons_append, List.nil_append] at h
      exact denotes_dispatch h (fun _ => rfl) fun s₁ hup₁ _ =>
        denotes_cap (fun name hname => ⟨name, hname, rfl⟩) hup₁ hclose
  | drop id =>
      obtain ⟨after, hclose⟩ := hends
      simp only [Statement.toks, List.cons_append, List.nil_append] at h
      exact denotes_dispatch h (fun _ => rfl) fun s₁ hup₁ _ =>
        denotes_cap (fun name hname => ⟨name, hname, rfl⟩) hup₁ hclose
  | help =>
      simp only [Statement.toks, List.cons_append, List.nil_append] at h
      exact denotes_dispatch h (fun _ => rfl) fun s₁ hup₁ _ => denotes_bare rfl hup₁
  | banner =>
      simp only [Statement.toks, List.cons_append, List.nil_append] at h
      exact denotes_dispatch h (fun _ => rfl) fun s₁ hup₁ _ => denotes_bare rfl hup₁
  | sysAudit =>
      simp only [Statement.toks, List.cons_append, List.nil_append] at h
      exact denotes_dispatch h (fun _ => rfl) fun s₁ hup₁ _ => denotes_bare rfl hup₁

/-- A line that spells a statement: `parse` reads what compiling the statement reads,
and hands out its meaning or reports its error. -/
theorem parse_compiles {c : Compiler} (hok : TablesOk env.code c) (hctx : ctx.Fits env c)
    {st : Statement} {line : List Byte} (hline : Spells st line) (bus : Bus) :
    match st.compile ctx bus with
    | .ok a b => ∃ o, (c.parse env bus line).result = .ok o ∧
        (c.parse env bus line).scan.bus = b ∧ a.HandedOut env.code o
    | .error e b => (c.parse env bus line).result = .error (.error e) ∧
        (c.parse env bus line).scan.bus = b := by
  obtain ⟨rest, htoks, hends⟩ := hline
  obtain ⟨hup, hfuel, hbody⟩ := start_of_toks c bus htoks
  have hline : Denotes env (parseLine env (evalFuel line) (bodyFuel line)) (Frame.start c bus line)
      (st.compile ctx) :=
    parseLine_compiles st hok hctx hup hends hfuel (by omega)
  unfold Denotes at hline
  rw [show (Frame.start c bus line).scan.bus = bus from rfl] at hline
  cases hmeaning : st.compile ctx bus with
  | ok a b =>
      rw [hmeaning] at hline
      obtain ⟨o, s', hrun, hbus, hout⟩ := hline
      rw [parse_of_ok hrun]
      exact ⟨o, rfl, hbus, hout⟩
  | error e b =>
      rw [hmeaning] at hline
      obtain ⟨s', hrun, hbus⟩ := hline
      rw [parse_of_error hrun]
      exact ⟨rfl, hbus⟩

end Line

end HolyRust.Language
