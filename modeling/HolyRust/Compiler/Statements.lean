import HolyRust.Compiler.Frames

/-!
Statements of a function body: their spelling, their meaning, and the statement
parsers against both.

* `BodyStmt.eval` — the memory accesses a statement stands for when it is
  compiled: operands are evaluated then, a call stands for its callee's accesses.
* `parseBodyStmt_walks`, `parseBody_walks` — what the parsers accept is spelled
  by statements, and rejection changes nothing.
* `parseBodyStmt_emits`, `parseBody_eval` — on the spelling of statements they
  emit the groups of the statements' accesses.
-/

namespace HolyRust

namespace Syntax

/-- An identifier at the head of a statement other than `poke` and `peek`. -/
def PlainName := { id : List Byte // id ≠ bytes "poke" ∧ id ≠ bytes "peek" }

def PlainName.toName (id : PlainName) : Name := ⟨id.val, id.property.2⟩

inductive BodyStmt where
  | poke (addr : Atom) (value : Expr)
  | peek (addr : Atom)
  | call (f : PlainName)
  | expr (head : PlainName) (tail : Tail)

/-- The spelling up to the semicolon. -/
def BodyStmt.bare : BodyStmt → List Token
  | .poke addr value => .identifier (bytes "poke") :: (addr.toks ++ value.toks)
  | .peek addr => .identifier (bytes "peek") :: addr.toks
  | .call f => [.identifier f.val, .lParen, .rParen]
  | .expr head tail => .identifier head.val :: tail.toks

def BodyStmt.toks (st : BodyStmt) : List Token := st.bare ++ [.semicolon]

def bodyToks (stmts : List BodyStmt) : List Token := stmts.flatMap BodyStmt.toks

@[simp] theorem bodyToks_nil : bodyToks [] = [] := rfl

@[simp] theorem bodyToks_cons (st : BodyStmt) (stmts : List BodyStmt) :
    bodyToks (st :: stmts) = st.toks ++ bodyToks stmts := rfl

/-- What a statement is compiled under: the bound names, the accesses of the
live functions and the addresses the registry permits. -/
structure Scope where
  lookup : List Byte → Option Word
  callee : List Byte → Option (List Access)
  permitted : Word → Bool

section Meaning

variable (sc : Scope)

/-- The accesses, if the registry permits the address. -/
def checked (addr : Word) (ops : List Access) : Eval (List Access) :=
  if sc.permitted addr then pure ops else throw .capabilityViolation

def BodyStmt.eval : BodyStmt → Eval (List Access)
  | .poke addr value => do
      let addr ← addr.eval sc.lookup
      let value ← value.eval sc.lookup
      checked sc addr [.write addr value]
  | .peek addr => do
      let addr ← addr.eval sc.lookup
      checked sc addr [.read addr]
  | .call f =>
      match sc.callee f.val with
      | some ops => pure ops
      | none => throw .unknownSymbol
  | .expr head tail => do
      let _ ← (Expr.mk (.name head.toName) tail).eval sc.lookup
      pure []

/-- The accesses of a body, statement after statement. -/
def evalBody : List BodyStmt → Eval (List Access)
  | [] => pure []
  | st :: stmts => do
      let ops ← st.eval sc
      let more ← evalBody stmts
      pure (ops ++ more)

end Meaning

end Syntax

namespace Compiler

/-- The accesses a live function stands for. -/
def accessesOf (c : Compiler) (code : CodeMap) (name : List Byte) : Option (List Access) :=
  (c.bodyOf name).map (accesses code)

/-- Stored bodies fit their arrays and are groups. -/
structure TablesOk (code : CodeMap) (c : Compiler) : Prop where
  len_le : ∀ i : Fin maxFns, c.fnBodyLen i ≤ fnBodyWords
  groups : ∀ i : Fin maxFns, ∃ as, c.bodyAt i = bodyWords code as

theorem TablesOk.of_same {code : CodeMap} {c c' : Compiler} (h : TablesOk code c)
    (hs : SameTables c c') : TablesOk code c' where
  len_le i := by rw [hs.fnBodyLen]; exact h.len_le i
  groups i := by rw [hs.bodyAt]; exact h.groups i

theorem SameTables.accessesOf {c c' : Compiler} (h : SameTables c c') (code : CodeMap)
    (name : List Byte) : c'.accessesOf code name = c.accessesOf code name := by
  unfold Compiler.accessesOf
  rw [h.bodyOf]

end Compiler

namespace Parser

open Syntax
open Fallible (Ends)
open Compiler (SameTables TablesOk)

/-- The scope the parser compiles in. -/
def Env.scope (env : Env) (c : Compiler) : Scope where
  lookup := c.symbols.value?
  callee := c.accessesOf env.code
  permitted addr := decide (Registry.Permitted env.target env.registry addr)

theorem Env.scope_same {env : Env} {c c' : Compiler} (h : SameTables c c') :
    env.scope c' = env.scope c := by
  unfold Env.scope
  rw [h.symbols, funext fun name => h.accessesOf env.code name]

/-! ### What is accepted is spelled -/

section Accepting

variable (env : Env)

theorem walks_pushAll {ts : List Token} : ∀ (ws : List Word) {s : Frame}, Upcoming s.scan ts →
    Walks (pushAll ws) s fun _ rest => rest = ts := by
  intro ws
  induction ws with
  | nil => exact fun h => walks_pure h rfl
  | cons w ws ih =>
      intro s h
      unfold pushAll
      by_cases hroom : s.comp.streamLen < maxStreamWords
      · obtain ⟨s₁, hpush, he⟩ := streamPush_room (s := s) w hroom
        have hup : Upcoming s₁.scan ts := he.scan ▸ h
        refine Walks.bind (R := fun _ rest => rest = ts) ?_ fun _ s₂ rest hrest hup₂ _ => ?_
        · unfold Walks Ends
          rw [hpush]
          exact ⟨ts, rfl, hup, he.unchanged⟩
        · subst hrest
          exact ih hup₂
      · refine Walks.bind (R := fun _ rest => rest = ts) ?_ fun _ s₂ rest hrest hup₂ _ => ?_
        · unfold Walks Ends
          rw [show streamPush w s = _ from dif_neg hroom]
          exact ⟨⟨_, rfl⟩, .refl _⟩
        · subst hrest
          exact ih hup₂

theorem walks_findFn {s : Frame} {ts : List Token} (name : List Byte) (h : Upcoming s.scan ts) :
    Walks (findFn name) s fun i rest => s.comp.findFn name = some i ∧ rest = ts := by
  unfold Walks Ends findFn
  simp only [Fallible.bind_ok (Fallible.get_apply s)]
  cases hfind : s.comp.findFn name with
  | none => exact ⟨⟨_, rfl⟩, .refl _⟩
  | some i => exact ⟨ts, ⟨rfl, rfl⟩, h, .refl _⟩

theorem walks_spliceCall {s : Frame} {ts : List Token} (name : List Byte)
    (hok : TablesOk env.code s.comp) (h : Upcoming s.scan ts) :
    Walks (spliceCall name) s fun _ rest => rest = ts := by
  unfold spliceCall
  refine (walks_findFn name h).bind fun i s₁ rest ⟨_, hrest⟩ hup hun => ?_
  subst hrest
  have hok₁ := hok.of_same hun.tables
  unfold Walks Ends
  rw [Fallible.bind_ok (Fallible.get_apply s₁), pushBody_eq _ (hok₁.len_le i)]
  exact walks_pushAll _ hup

variable {fuel : Nat}

/-- The tokens of a statement, without the semicolon that must follow except at
the end of the line. -/
def SpellsStmt (ts rest : List Token) : Prop :=
  ∃ (st : BodyStmt) (mid : List Token), ts = st.bare ++ mid ∧ Closes mid rest

theorem walks_pokeStmt {s : Frame} {ts : List Token} (h : Upcoming s.scan ts)
    (hn : 2 * ts.length + 2 ≤ fuel) :
    Walks (do
        let addr ← onScan fun self => parseAtomicTerm self fuel
        let val ← onScan fun self => evalExpr self fuel none
        expectSemicolon
        enforce env addr
        streamPushLit env addr
        streamPushLit env val
        streamPush (env.code.wordOf .writeReg)) s
      fun _ rest => SpellsStmt (.identifier (bytes "poke") :: ts) rest := by
  refine (walks_onScan (parseAtomicTerm_reads s.comp h hn)).bind
    fun addr s₁ ts₁ ⟨a, ha⟩ hup₁ _ => ?_
  have hn₁ : 2 * ts₁.length + 2 ≤ fuel := by
    rw [ha, List.length_append] at hn
    omega
  refine (walks_onScan (evalExpr_reads s₁.comp hup₁ hn₁)).bind
    fun val s₂ ts₂ ⟨e, he, _⟩ hup₂ _ => ?_
  refine (walks_expectSemicolon hup₂).bind fun _ s₃ ts₃ hclose hup₃ _ => ?_
  refine (walks_enforce env addr hup₃).bind fun _ s₄ ts₄ ⟨hts₄, _⟩ hup₄ _ => ?_
  subst hts₄
  rw [push_write]
  refine (walks_pushAll _ hup₄).mono fun _ rest hrest => ?_
  subst hrest
  exact ⟨.poke a e, ts₂, by simp [BodyStmt.bare, ha, he], hclose⟩

theorem walks_peekStmt {s : Frame} {ts : List Token} (h : Upcoming s.scan ts)
    (hn : 2 * ts.length + 2 ≤ fuel) :
    Walks (do
        let addr ← onScan fun self => parseAtomicTerm self fuel
        expectSemicolon
        enforce env addr
        streamPushLit env addr
        streamPush (env.code.wordOf .loadReg)) s
      fun _ rest => SpellsStmt (.identifier (bytes "peek") :: ts) rest := by
  refine (walks_onScan (parseAtomicTerm_reads s.comp h hn)).bind
    fun addr s₁ ts₁ ⟨a, ha⟩ hup₁ _ => ?_
  refine (walks_expectSemicolon hup₁).bind fun _ s₂ ts₂ hclose hup₂ _ => ?_
  refine (walks_enforce env addr hup₂).bind fun _ s₃ ts₃ ⟨hts₃, _⟩ hup₃ _ => ?_
  subst hts₃
  rw [push_read]
  refine (walks_pushAll _ hup₃).mono fun _ rest hrest => ?_
  subst hrest
  exact ⟨.peek a, ts₁, by simp [BodyStmt.bare, ha], hclose⟩

/-- After a name, an opening parenthesis makes a call. -/
theorem walks_callParens {s : Frame} {ts : List Token} (hfirst : first ts = .lParen)
    (h : Upcoming s.scan ts) :
    Walks callParens s fun _ rest => ts = .lParen :: .rParen :: rest := by
  unfold callParens
  refine (walks_nextTok h).bind fun t s₁ rest ⟨_, hrest⟩ hup _ => ?_
  subst hrest
  refine (walks_expect (by simp) hup).mono fun _ rest hts => ?_
  rw [eq_cons_of_first hfirst (by simp), hts]

theorem walks_callStmt {s : Frame} {ts : List Token} (f : PlainName)
    (hok : TablesOk env.code s.comp) (hparen : first ts = .lParen) (h : Upcoming s.scan ts) :
    Walks (do
        callParens
        expectSemicolon
        spliceCall f.val) s
      fun _ rest => SpellsStmt (.identifier f.val :: ts) rest := by
  refine (walks_callParens hparen h).bind fun _ s₁ ts₁ hts₁ hup₁ hun₁ => ?_
  refine (walks_expectSemicolon hup₁).bind fun _ s₂ ts₂ hclose hup₂ hun₂ => ?_
  have hok₂ := hok.of_same (hun₁.trans hun₂).tables
  refine (walks_spliceCall env f.val hok₂ hup₂).mono fun _ rest hrest => ?_
  subst hrest
  exact ⟨.call f, ts₁, by simp [BodyStmt.bare, hts₁], hclose⟩

theorem walks_exprStmt {s : Frame} {ts : List Token} (f : PlainName) (h : Upcoming s.scan ts)
    (hn : 2 * ts.length + 4 ≤ fuel) :
    Walks (do
        let _ ← onScan fun self => evalExpr self fuel (some (.identifier f.val))
        expectSemicolon) s
      fun _ rest => SpellsStmt (.identifier f.val :: ts) rest := by
  refine (walks_onScan (evalExpr_reads_after s.comp (.identifier f.val) h hn)).bind
    fun _ s₁ ts₁ ⟨e, he, _⟩ hup₁ _ => ?_
  refine (walks_expectSemicolon hup₁).mono fun _ rest hclose => ?_
  obtain ⟨head, tail⟩ := e
  cases head with
  | name nm =>
      obtain ⟨w, hplain⟩ := f
      have hhead := (List.cons.inj he).1
      cases hhead
      exact ⟨.expr ⟨nm.val, hplain⟩ tail, ts₁, by
        simpa [BodyStmt.bare, Expr.toks, Atom.toks] using he, hclose⟩
  | peek a => exact absurd (Token.identifier.inj (List.cons.inj he).1) f.property.2
  | lit v => cases (List.cons.inj he).1
  | paren e => cases (List.cons.inj he).1

theorem parseBodyStmt_walks {s : Frame} {ts : List Token} (hok : TablesOk env.code s.comp)
    (h : Upcoming s.scan ts) (hn : 2 * ts.length + 2 ≤ fuel) :
    Walks (parseBodyStmt env fuel) s fun _ rest => SpellsStmt ts rest := by
  unfold parseBodyStmt
  refine (walks_nextTok h).bind fun t s₁ ts₁ ⟨ht, hts₁⟩ hup₁ hun₁ => ?_
  subst ht hts₁
  split
  · rename_i id hfirst
    have hts := eq_cons_of_first hfirst (by simp)
    have hn₁ : 2 * ts.tail.length + 4 ≤ fuel := by
      have := congrArg List.length hts
      simp only [List.length_cons] at this
      omega
    rw [hts]
    split
    · rename_i hid
      subst hid
      exact walks_pokeStmt env hup₁ (by omega)
    · split
      · rename_i hid
        subst hid
        exact walks_peekStmt env hup₁ (by omega)
      · rename_i hpoke hpeek
        refine (walks_peekTok hup₁).bind fun t s₂ ts₂ ⟨ht₂, hts₂⟩ hup₂ hun₂ => ?_
        subst ht₂ hts₂
        split
        · rename_i hparen
          have hok₂ := hok.of_same (hun₁.trans hun₂).tables
          exact walks_callStmt env ⟨id, hpoke, hpeek⟩ hok₂ hparen hup₂
        · exact walks_exprStmt ⟨id, hpoke, hpeek⟩ hup₂ hn₁
  · exact ends_fail _

/-- The loop reads statements up to the closing brace. -/
theorem parseBody_walks : ∀ (n : Nat) {s : Frame} {ts : List Token},
    TablesOk env.code s.comp → Upcoming s.scan ts → 2 * ts.length + 2 ≤ fuel → ts.length < n →
      Walks (parseBody env fuel n) s fun _ rest =>
        ∃ stmts, ts = bodyToks stmts ++ .rBrace :: rest := by
  intro n
  induction n with
  | zero => intro s ts _ _ _ h; omega
  | succ n ih =>
      intro s ts hok h hfuel hn
      unfold parseBody
      refine (walks_peekTok h).bind fun t s₁ ts₁ ⟨ht, hts₁⟩ hup₁ hun₁ => ?_
      subst ht hts₁
      split
      · rename_i hfirst
        refine (walks_nextTok hup₁).bind fun t s₂ ts₂ ⟨_, hts₂⟩ hup₂ _ => ?_
        subst hts₂
        exact walks_pure hup₂ ⟨[], eq_cons_of_first hfirst (by simp)⟩
      · exact ends_fail _
      · rename_i hbrace heof
        refine (parseBodyStmt_walks env (hok.of_same hun₁.tables) hup₁ hfuel).bind
          fun _ s₂ ts₂ ⟨st, mid, hts, hclose⟩ hup₂ hun₂ => ?_
        have hlen : ts₂.length < ts₁.length := by
          have hbare : 0 < st.bare.length := by cases st <;> simp [BodyStmt.bare]
          rw [hts, List.length_append]
          rcases hclose with rfl | ⟨_, rfl⟩
          · simp only [List.length_cons]; omega
          · simp only [List.length_nil]; omega
        refine (ih ((hok.of_same hun₁.tables).of_same hun₂.tables) hup₂ (by omega)
          (by omega)).mono fun _ rest ⟨stmts, hstmts⟩ => ?_
        rcases hclose with hmid | ⟨_, hnil⟩
        · exact ⟨st :: stmts, by simp [hts, hmid, hstmts, BodyStmt.toks]⟩
        · exact absurd (hnil ▸ hstmts) (by simp)

end Accepting

/-! ### What is spelled is emitted -/

/-- `x` from `s` emits the groups of the accesses that `y` computes on the same
bus, or fails as `y` does or for lack of room. -/
def Emits (code : CodeMap) (x : ParseM PUnit) (s : Frame) (y : Eval (List Access))
    (rest : List Token) : Prop :=
  match y s.scan.bus with
  | .ok ops b =>
      if s.comp.streamLen + (bodyWords code ops).length ≤ maxStreamWords then
        ∃ s', x s = .ok ⟨⟩ s' ∧ Upcoming s'.scan rest ∧ s'.scan.bus = b ∧
          SameTables s.comp s'.comp ∧
          s'.comp.streamLen = s.comp.streamLen + (bodyWords code ops).length ∧
          s'.comp.scratch = s.comp.scratch ++ bodyWords code ops
      else ∃ s', x s = .error (.error .streamFull) s' ∧ s'.scan.bus = b
  | .error e b => ∃ s', x s = .error (.error e) s' ∧ s'.scan.bus = b

section Emits

variable {code : CodeMap} {s s' : Frame} {y : Eval (List Access)} {rest mid ts : List Token}

theorem emits_step {β : Type} {z : ParseM β} {k : β → ParseM PUnit} {t : β} (hz : z s = .ok t s')
    (hbus : s'.scan.bus = s.scan.bus) (hcomp : s'.comp = s.comp) (h : Emits code (k t) s' y rest) :
    Emits code (z >>= k) s y rest := by
  unfold Emits at h ⊢
  rw [Fallible.bind_ok hz, ← hbus, ← hcomp]
  exact h

theorem FrameMirrors.emits {α : Type} {x : ParseM α} {y : Eval α} {k : α → ParseM PUnit}
    {g : α → Eval (List Access)} (hx : FrameMirrors x s y mid)
    (hk : ∀ v s', Upcoming s'.scan mid → s'.comp = s.comp → Emits code (k v) s' (g v) rest) :
    Emits code (x >>= k) s (y >>= g) rest := by
  unfold FrameMirrors at hx
  cases hy : y s.scan.bus with
  | ok v b =>
      rw [hy] at hx
      obtain ⟨s', hxs, hup, hbus, hcomp⟩ := hx
      have hnext := hk v s' hup hcomp
      unfold Emits at hnext ⊢
      rw [Fallible.bind_ok hy, Fallible.bind_ok hxs, ← hbus, ← hcomp]
      exact hnext
  | error e b =>
      rw [hy] at hx
      obtain ⟨s', hxs, hbus, _⟩ := hx
      unfold Emits
      rw [Fallible.bind_error hy]
      exact ⟨s', Fallible.bind_error hxs, hbus⟩

theorem emits_pushAll (code : CodeMap) (ops : List Access) (h : Upcoming s.scan rest)
    (hlen : s.comp.streamLen ≤ maxStreamWords) :
    Emits code (pushAll (bodyWords code ops)) s (pure ops) rest := by
  unfold Emits
  simp only [Fallible.pure_apply]
  split
  · rename_i hroom
    obtain ⟨s', hpush, he⟩ := pushAll_room (bodyWords code ops) hroom
    exact ⟨s', hpush, he.scan ▸ h, by rw [he.scan], he.tables, he.len, he.scratch⟩
  · rename_i hfull
    obtain ⟨s', hpush, hscan, _⟩ := pushAll_full (bodyWords code ops) hlen (by omega)
    exact ⟨s', hpush, by rw [hscan]⟩

/-- The check in front of a group, and the group. -/
theorem emits_enforce (env : Env) (c : Compiler) (addr : Word) (ops : List Access)
    (hcode : env.code = code) (h : Upcoming s.scan rest)
    (hlen : s.comp.streamLen ≤ maxStreamWords) :
    Emits code (enforce env addr >>= fun _ => pushAll (bodyWords code ops)) s
      (checked (env.scope c) addr ops) rest := by
  subst hcode
  unfold checked enforce Env.scope
  by_cases hperm : Registry.Permitted env.target env.registry addr
  · rw [if_pos (by simpa using hperm)]
    rw [show Registry.checkAccess env.target env.registry addr = .ok () from hperm]
    rw [pure_bind]
    exact emits_pushAll env.code ops h hlen
  · rw [if_neg (by simpa using hperm)]
    cases hcheck : Registry.checkAccess env.target env.registry addr with
    | ok u => exact absurd hcheck hperm
    | error c => exact ⟨s, rfl, rfl⟩

end Emits

section Emitting

variable (env : Env) {fuel : Nat}

/-- Splicing emits the callee's accesses. -/
theorem spliceCall_emits {s : Frame} {rest : List Token} (f : PlainName)
    (hok : TablesOk env.code s.comp) (h : Upcoming s.scan rest)
    (hlen : s.comp.streamLen ≤ maxStreamWords) :
    Emits env.code (spliceCall f.val) s ((BodyStmt.call f).eval (env.scope s.comp)) rest := by
  simp only [BodyStmt.eval, Env.scope, Compiler.accessesOf, Compiler.bodyOf]
  cases hfind : s.comp.findFn f.val with
  | none =>
      refine ⟨s, ?_, rfl⟩
      unfold spliceCall findFn
      rw [Fallible.bind_error]
      rw [Fallible.bind_ok (Fallible.get_apply s), hfind]
      rfl
  | some i =>
      obtain ⟨as, has⟩ := hok.groups i
      have hsplice : spliceCall f.val s = pushAll (bodyWords env.code as) s := by
        unfold spliceCall
        have hfn : findFn f.val s = .ok i s := by
          unfold findFn
          rw [Fallible.bind_ok (Fallible.get_apply s), hfind]
          rfl
        rw [Fallible.bind_ok hfn, Fallible.bind_ok (Fallible.get_apply s),
          pushBody_eq _ (hok.len_le i), ← has]
        rfl
      simp only [Option.map_some, has, accesses_bodyWords_nil]
      have hemits := emits_pushAll env.code as h hlen
      unfold Emits at hemits ⊢
      rw [hsplice]
      exact hemits

theorem pokeStmt_emits {s : Frame} (addr : Atom) (value : Expr) {rest : List Token}
    (hlen : s.comp.streamLen ≤ maxStreamWords)
    (h : Upcoming s.scan (addr.toks ++ (value.toks ++ .semicolon :: rest)))
    (hn : 2 * (addr.toks ++ (value.toks ++ .semicolon :: rest)).length + 2 ≤ fuel) :
    Emits env.code (do
        let addr ← onScan fun self => parseAtomicTerm self fuel
        let val ← onScan fun self => evalExpr self fuel none
        expectSemicolon
        enforce env addr
        streamPushLit env addr
        streamPushLit env val
        streamPush (env.code.wordOf .writeReg)) s
      ((BodyStmt.poke addr value).eval (env.scope s.comp)) rest := by
  simp only [List.length_append, List.length_cons] at hn
  refine (frameMirrors_onScan (parseAtomicTerm_mirrors s.comp addr h (by
    simp only [List.length_append, List.length_cons]; omega))).emits fun a s₁ hup₁ hcomp₁ => ?_
  rw [← hcomp₁] at hlen ⊢
  refine (frameMirrors_onScan (evalExpr_mirrors s₁.comp value hup₁
    (not_continuesChain_semicolon rest) (by
      simp only [List.length_append, List.length_cons]; omega))).emits fun v s₂ hup₂ hcomp₂ => ?_
  obtain ⟨s₃, hsemi, hup₃, hbus₃, hcomp₃⟩ := expectSemicolon_semicolon hup₂
  refine emits_step hsemi hbus₃ hcomp₃ ?_
  rw [push_write]
  exact emits_enforce env s₁.comp a _ rfl hup₃ (by rw [hcomp₃, hcomp₂]; exact hlen)

theorem peekStmt_emits {s : Frame} (addr : Atom) {rest : List Token}
    (hlen : s.comp.streamLen ≤ maxStreamWords)
    (h : Upcoming s.scan (addr.toks ++ .semicolon :: rest))
    (hn : 2 * (addr.toks ++ .semicolon :: rest).length + 2 ≤ fuel) :
    Emits env.code (do
        let addr ← onScan fun self => parseAtomicTerm self fuel
        expectSemicolon
        enforce env addr
        streamPushLit env addr
        streamPush (env.code.wordOf .loadReg)) s
      ((BodyStmt.peek addr).eval (env.scope s.comp)) rest := by
  refine (frameMirrors_onScan (parseAtomicTerm_mirrors s.comp addr h hn)).emits
    fun a s₁ hup₁ hcomp₁ => ?_
  rw [← hcomp₁] at hlen ⊢
  obtain ⟨s₂, hsemi, hup₂, hbus₂, hcomp₂⟩ := expectSemicolon_semicolon hup₁
  refine emits_step hsemi hbus₂ hcomp₂ ?_
  rw [push_read]
  exact emits_enforce env s₁.comp a _ rfl hup₂ (by rw [hcomp₂]; exact hlen)

theorem callStmt_emits {s : Frame} (f : PlainName) {rest : List Token}
    (hok : TablesOk env.code s.comp) (hlen : s.comp.streamLen ≤ maxStreamWords)
    (h : Upcoming s.scan (.lParen :: .rParen :: .semicolon :: rest)) :
    Emits env.code (do
        callParens
        expectSemicolon
        spliceCall f.val) s
      ((BodyStmt.call f).eval (env.scope s.comp)) rest := by
  obtain ⟨s₁, hparens, hup₁, hbus₁, hcomp₁⟩ := callParens_parens h
  refine emits_step hparens hbus₁ hcomp₁ ?_
  obtain ⟨s₂, hsemi, hup₂, hbus₂, hcomp₂⟩ := expectSemicolon_semicolon hup₁
  refine emits_step hsemi hbus₂ hcomp₂ ?_
  rw [← hcomp₁, ← hcomp₂] at hok hlen ⊢
  exact spliceCall_emits env f hok hup₂ hlen

/-- The value is computed and dropped. -/
theorem exprStmt_emits {s : Frame} (head : PlainName) (tail : Tail) {rest : List Token}
    (hlen : s.comp.streamLen ≤ maxStreamWords)
    (h : Upcoming s.scan (tail.toks ++ .semicolon :: rest))
    (hn : 2 * (tail.toks ++ .semicolon :: rest).length + 4 ≤ fuel) :
    Emits env.code (do
        let _ ← onScan fun self => evalExpr self fuel (some (.identifier head.val))
        expectSemicolon) s
      ((BodyStmt.expr head tail).eval (env.scope s.comp)) rest := by
  have hspell : (Expr.mk (.name head.toName) tail).toks = .identifier head.val :: tail.toks := by
    simp [Expr.toks, Atom.toks, PlainName.toName]
  refine (frameMirrors_onScan (evalExpr_mirrors_after s.comp _ hspell h
    (not_continuesChain_semicolon rest) hn)).emits fun v s₁ hup₁ hcomp₁ => ?_
  obtain ⟨s₂, hsemi, hup₂, hbus₂, hcomp₂⟩ := expectSemicolon_semicolon hup₁
  have hemits := emits_pushAll env.code (s := s₂) [] hup₂ (by rw [hcomp₂, hcomp₁]; exact hlen)
  have hstep := emits_step (k := pure) hsemi hbus₂ hcomp₂ hemits
  rwa [bind_pure] at hstep

theorem parseBodyStmt_emits {s : Frame} (st : BodyStmt) {rest : List Token}
    (hok : TablesOk env.code s.comp) (hlen : s.comp.streamLen ≤ maxStreamWords)
    (h : Upcoming s.scan (st.toks ++ rest)) (hn : 2 * (st.toks ++ rest).length + 2 ≤ fuel) :
    Emits env.code (parseBodyStmt env fuel) s (st.eval (env.scope s.comp)) rest := by
  unfold parseBodyStmt
  cases st with
  | poke addr value =>
      simp only [BodyStmt.toks, BodyStmt.bare, List.cons_append, List.append_assoc,
        List.nil_append] at h hn
      rw [List.length_cons] at hn
      obtain ⟨s₁, hnext, hup₁, hbus₁, hcomp₁⟩ := nextTok_cons h
      refine emits_step hnext hbus₁ hcomp₁ ?_
      simp only [if_pos, ← hcomp₁] at hlen ⊢
      exact pokeStmt_emits env addr value hlen hup₁ (by omega)
  | peek addr =>
      simp only [BodyStmt.toks, BodyStmt.bare, List.cons_append, List.append_assoc,
        List.nil_append] at h hn
      rw [List.length_cons] at hn
      obtain ⟨s₁, hnext, hup₁, hbus₁, hcomp₁⟩ := nextTok_cons h
      refine emits_step hnext hbus₁ hcomp₁ ?_
      simp only [show bytes "peek" ≠ bytes "poke" by decide, if_false, if_pos, ← hcomp₁] at hlen ⊢
      exact peekStmt_emits env addr hlen hup₁ (by omega)
  | call f =>
      simp only [BodyStmt.toks, BodyStmt.bare, List.cons_append, List.nil_append] at h
      obtain ⟨s₁, hnext, hup₁, hbus₁, hcomp₁⟩ := nextTok_cons h
      refine emits_step hnext hbus₁ hcomp₁ ?_
      simp only [f.property.1, f.property.2, if_false]
      obtain ⟨s₂, hpeek, hup₂, hbus₂, hcomp₂⟩ := peekTok_upcoming hup₁
      refine emits_step hpeek hbus₂ hcomp₂ ?_
      simp only [first_cons, if_true]
      rw [← hcomp₁, ← hcomp₂] at hok hlen ⊢
      exact callStmt_emits env f hok hlen hup₂
  | expr head tail =>
      simp only [BodyStmt.toks, BodyStmt.bare, List.cons_append, List.append_assoc,
        List.nil_append] at h hn
      rw [List.length_cons] at hn
      obtain ⟨s₁, hnext, hup₁, hbus₁, hcomp₁⟩ := nextTok_cons h
      refine emits_step hnext hbus₁ hcomp₁ ?_
      simp only [head.property.1, head.property.2, if_false]
      obtain ⟨s₂, hpeek, hup₂, hbus₂, hcomp₂⟩ := peekTok_upcoming hup₁
      refine emits_step hpeek hbus₂ hcomp₂ ?_
      have hfirst : first (tail.toks ++ Token.semicolon :: rest) ≠ .lParen := by
        cases tail <;> simp [Tail.toks]
      simp only [hfirst, if_false]
      rw [← hcomp₁, ← hcomp₂] at hlen ⊢
      exact exprStmt_emits env head tail hlen hup₂ (by omega)

/-- A statement that was accepted was evaluated, and its accesses emitted. -/
theorem parseBodyStmt_ok {s s' : Frame} {st : BodyStmt} {rest : List Token}
    (hok : TablesOk env.code s.comp) (hlen : s.comp.streamLen ≤ maxStreamWords)
    (h : Upcoming s.scan (st.toks ++ rest)) (hn : 2 * (st.toks ++ rest).length + 2 ≤ fuel)
    (hrun : parseBodyStmt env fuel s = .ok ⟨⟩ s') :
    ∃ ops, st.eval (env.scope s.comp) s.scan.bus = .ok ops s'.scan.bus ∧
      Upcoming s'.scan rest ∧ SameTables s.comp s'.comp ∧
      s'.comp.streamLen = s.comp.streamLen + (bodyWords env.code ops).length ∧
      s'.comp.streamLen ≤ maxStreamWords ∧
      s'.comp.scratch = s.comp.scratch ++ bodyWords env.code ops := by
  have hemits := parseBodyStmt_emits env st hok hlen h hn
  unfold Emits at hemits
  cases heval : st.eval (env.scope s.comp) s.scan.bus with
  | ok ops b =>
      rw [heval] at hemits
      simp only at hemits
      split at hemits
      · rename_i hroom
        obtain ⟨s₁, hrun₁, hup, hbus, htables, hstream, hscratch⟩ := hemits
        cases hrun.symm.trans hrun₁
        exact ⟨ops, by rw [hbus], hup, htables, hstream, by omega, hscratch⟩
      · obtain ⟨s₁, hrun₁, _⟩ := hemits
        cases hrun.symm.trans hrun₁
  | error e b =>
      rw [heval] at hemits
      obtain ⟨s₁, hrun₁, _⟩ := hemits
      cases hrun.symm.trans hrun₁

/-- A body that was accepted was evaluated statement by statement, and the
accesses of all of them emitted. -/
theorem parseBody_eval : ∀ (stmts : List BodyStmt) (n : Nat) {s s' : Frame} {rest : List Token},
    TablesOk env.code s.comp → s.comp.streamLen ≤ maxStreamWords →
    Upcoming s.scan (bodyToks stmts ++ .rBrace :: rest) →
    2 * (bodyToks stmts ++ .rBrace :: rest).length + 2 ≤ fuel →
    parseBody env fuel n s = .ok ⟨⟩ s' →
    ∃ ops, evalBody (env.scope s.comp) stmts s.scan.bus = .ok ops s'.scan.bus ∧
      Upcoming s'.scan rest ∧ SameTables s.comp s'.comp ∧
      s'.comp.streamLen = s.comp.streamLen + (bodyWords env.code ops).length ∧
      s'.comp.streamLen ≤ maxStreamWords ∧
      s'.comp.scratch = s.comp.scratch ++ bodyWords env.code ops := by
  intro stmts
  induction stmts with
  | nil =>
      intro n s s' rest _ hlen h _ hrun
      cases n with
      | zero => cases hrun
      | succ n =>
          obtain ⟨s₁, hpeek, hup₁, hbus₁, hcomp₁⟩ := peekTok_upcoming h
          obtain ⟨s₂, hnext, hup₂, hbus₂, hcomp₂⟩ := nextTok_cons hup₁
          have hend : parseBody env fuel (n + 1) s = .ok ⟨⟩ s₂ := by
            unfold parseBody
            rw [Fallible.bind_ok hpeek]
            simp only [bodyToks_nil, List.nil_append, first_cons]
            rw [Fallible.bind_ok hnext]
            rfl
          cases hrun.symm.trans hend
          have hcomp : s'.comp = s.comp := hcomp₂.trans hcomp₁
          refine ⟨[], ?_, hup₂, by rw [hcomp]; exact .refl _, by simp [hcomp], by rwa [hcomp],
            by simp [hcomp]⟩
          rw [hbus₂, hbus₁]
          rfl
  | cons st stmts ih =>
      intro n s s' rest hok hlen h hfuel hrun
      cases n with
      | zero => cases hrun
      | succ n =>
          obtain ⟨s₁, hpeek, hup₁, hbus₁, hcomp₁⟩ := peekTok_upcoming h
          have hfirst : ∃ id, first (bodyToks (st :: stmts) ++ .rBrace :: rest) =
              .identifier id := by
            cases st <;> exact ⟨_, rfl⟩
          obtain ⟨id, hid⟩ := hfirst
          unfold parseBody at hrun
          rw [Fallible.bind_ok hpeek, hid] at hrun
          simp only at hrun
          obtain ⟨u, s₂, hstmt, hrest⟩ := Fallible.bind_eq_ok.mp hrun
          rw [bodyToks_cons, List.append_assoc] at hup₁ hfuel
          have hlen₂ : 2 * (bodyToks stmts ++ Token.rBrace :: rest).length + 2 ≤ fuel := by
            rw [List.length_append] at hfuel
            omega
          rw [← hcomp₁] at hok hlen
          obtain ⟨ops, heval, hup₂, htables, hstream, hle, hscratch⟩ :=
            parseBodyStmt_ok env hok hlen hup₁ hfuel hstmt
          obtain ⟨more, heval', hup', htables', hstream', hle', hscratch'⟩ :=
            ih n (hok.of_same htables) hle hup₂ hlen₂ hrest
          rw [hcomp₁] at heval hstream hscratch htables
          rw [hbus₁] at heval
          rw [Env.scope_same htables] at heval'
          refine ⟨ops ++ more, ?_, hup', htables.trans htables', ?_, hle', ?_⟩
          · unfold evalBody
            rw [Fallible.bind_ok heval, Fallible.bind_ok heval']
            rfl
          · rw [hstream', hstream, bodyWords_append, List.length_append]
            omega
          · rw [hscratch', hscratch, bodyWords_append, List.append_assoc]

end Emitting

end Parser

end HolyRust
