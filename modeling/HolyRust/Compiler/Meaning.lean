import HolyRust.Compiler.Sessions
import Mathlib.Data.List.Forall2
import Mathlib.Logic.Function.Basic

/-!
What functions mean, and under which registry their accesses were checked.

A ledger is kept beside the compiler: for every defined function the accesses
that its statements stood for when it was defined, and for each access the
registry whose check it passed. It is computed from the definitions alone.

* `Session` — a compiler and the ledger of the lines that led to it.
* `Session.bodyOf` — the compiler stores just what the ledger says.
* `definition_means_its_statements` — running a function performs its accesses.
* `definitions_checked` — every access passed its check, own statements' now and
  a callee's when the callee was defined.
-/

namespace HolyRust.Sessions

open HolyRust.Syntax
open HolyRust.Parser (Env Frame fnToks commandWords)
open Compiler (TablesOk SameTables Defines)
open Registry (Permitted)

/-! ### The ledger -/

/-- The accesses of each defined function and the registry each was checked
under. -/
structure Ledger where
  ops : List Byte → Option (List Access)
  origins : List Byte → Option (List Registry)

namespace Ledger

def empty : Ledger := ⟨fun _ => none, fun _ => none⟩

def define (L : Ledger) (name : List Byte) (ops : List Access) (origins : List Registry) :
    Ledger :=
  ⟨Function.update L.ops name (some ops), Function.update L.origins name (some origins)⟩

/-- The scope in which statements mean what the ledger says. -/
def scope (L : Ledger) (env : Env) (c : Compiler) : Scope where
  lookup := c.symbols.value?
  callee := L.ops
  permitted addr := decide (Permitted env.target env.registry addr)

/-- Under which registry the accesses of a statement are checked: its own now,
those of a call when the callee was defined. -/
def stmtOrigins (L : Ledger) (now : Registry) : BodyStmt → List Registry
  | .poke _ _ => [now]
  | .peek _ => [now]
  | .call f => (L.origins f.val).getD []
  | .expr _ _ => []

def bodyOrigins (L : Ledger) (now : Registry) (stmts : List BodyStmt) : List Registry :=
  stmts.flatMap (L.stmtOrigins now)

/-- Each access passes the check under its registry. -/
def Passed (t : Target) : List Access → List Registry → Prop :=
  List.Forall₂ fun op r => Permitted t r op.addr

/-- Every recorded access passed its check. -/
def Checked (t : Target) (L : Ledger) : Prop :=
  ∀ name, Option.Rel (Passed t) (L.ops name) (L.origins name)

theorem checked_empty (t : Target) : Checked t empty := fun _ => .none

theorem Checked.define {t : Target} {L : Ledger} (h : L.Checked t) {name : List Byte}
    {ops : List Access} {origins : List Registry} (hnew : Passed t ops origins) :
    (L.define name ops origins).Checked t := by
  intro other
  by_cases hother : other = name
  · subst hother
    simp only [Ledger.define, Function.update_self]
    exact .some hnew
  · simp only [Ledger.define, Function.update_of_ne hother]
    exact h other

end Ledger

/-- A compiler after some lines, with the ledger of its definitions. -/
inductive Session (t : Target) (code : CodeMap) : Compiler → Ledger → Prop where
  | new : Session t code Compiler.new .empty
  | line {c : Compiler} {L : Ledger} (h : Session t code c L) (registry : Registry) (bus : Bus)
      (line : List Byte)
      (hline : ∀ name, (c.parse ⟨t, code, registry⟩ bus line).result ≠ .ok (.fnDefined name)) :
      Session t code (c.parse ⟨t, code, registry⟩ bus line).comp L
  | definition {c : Compiler} {L : Ledger} (h : Session t code c L) (registry : Registry)
      (bus : Bus) (line : List Byte) {name : NameBuf} {stmts : List BodyStmt} {rest : List Token}
      {ops : List Access} {bus' : Bus}
      (hline : (c.parse ⟨t, code, registry⟩ bus line).result = .ok (.fnDefined name))
      (hspell : (Lexer.new line).toks = fnToks name.asSlice stmts ++ rest)
      (hops : evalBody (L.scope ⟨t, code, registry⟩ c) stmts bus = .ok ops bus') :
      Session t code (c.parse ⟨t, code, registry⟩ bus line).comp
        (L.define name.asSlice ops (L.bodyOrigins registry stmts))

/-! ### Statements keep the ledger checked -/

section Checks

variable (env : Env) {c : Compiler} {L : Ledger}

theorem checked_eq_ok {sc : Scope} {addr : Word} {ops as : List Access} {b b' : Bus}
    (h : checked sc addr as b = .ok ops b') : sc.permitted addr = true ∧ ops = as := by
  unfold checked at h
  split at h
  · rename_i hperm
    cases h
    exact ⟨hperm, rfl⟩
  · cases h

theorem eval_passed (hL : L.Checked env.target) {st : BodyStmt} {ops : List Access} {b b' : Bus}
    (h : st.eval (L.scope env c) b = .ok ops b') :
    Ledger.Passed env.target ops (L.stmtOrigins env.registry st) := by
  cases st with
  | poke addr value =>
      obtain ⟨a, b₁, _, h₁⟩ := Fallible.bind_eq_ok.mp h
      obtain ⟨v, b₂, _, h₂⟩ := Fallible.bind_eq_ok.mp h₁
      obtain ⟨hperm, rfl⟩ := checked_eq_ok h₂
      exact .cons (by simpa [Ledger.scope, Access.addr] using hperm) .nil
  | peek addr =>
      obtain ⟨a, b₁, _, h₁⟩ := Fallible.bind_eq_ok.mp h
      obtain ⟨hperm, rfl⟩ := checked_eq_ok h₁
      exact .cons (by simpa [Ledger.scope, Access.addr] using hperm) .nil
  | call f =>
      have hrel := hL f.val
      simp only [BodyStmt.eval, Ledger.scope] at h
      cases hops : L.ops f.val with
      | none =>
          rw [hops] at h
          cases h
      | some as =>
          rw [hops] at h hrel
          cases h
          cases horigins : L.origins f.val with
          | none =>
              rw [horigins] at hrel
              cases hrel
          | some rs =>
              rw [horigins] at hrel
              cases hrel with
              | some hpassed => simpa [Ledger.stmtOrigins, horigins] using hpassed
  | expr head tail =>
      obtain ⟨v, b₁, _, h₁⟩ := Fallible.bind_eq_ok.mp h
      cases h₁
      exact .nil

theorem evalBody_passed (hL : L.Checked env.target) : ∀ {stmts : List BodyStmt}
    {ops : List Access} {b b' : Bus}, evalBody (L.scope env c) stmts b = .ok ops b' →
      Ledger.Passed env.target ops (L.bodyOrigins env.registry stmts) := by
  intro stmts
  induction stmts with
  | nil =>
      intro ops b b' h
      cases h
      exact .nil
  | cons st stmts ih =>
      intro ops b b' h
      obtain ⟨first, b₁, h₁, hrest⟩ := Fallible.bind_eq_ok.mp h
      obtain ⟨more, b₂, h₂, hpure⟩ := Fallible.bind_eq_ok.mp hrest
      cases hpure
      exact List.rel_append (eval_passed env hL h₁) (ih h₂)

end Checks

theorem Session.checked {t : Target} {code : CodeMap} {c : Compiler} {L : Ledger}
    (h : Session t code c L) : L.Checked t := by
  induction h with
  | new => exact Ledger.checked_empty t
  | line _ _ _ _ _ ih => exact ih
  | definition _ registry _ _ _ _ hops ih =>
      exact ih.define (evalBody_passed ⟨t, _, registry⟩ ih hops)

/-! ### The compiler stores what the ledger says -/

section Agreement

variable {t : Target} {code : CodeMap} {c : Compiler} {L : Ledger}

theorem Session.reachable (h : Session t code c L) : Reachable t code c := by
  induction h with
  | new => exact .new
  | line _ registry bus line _ ih => exact .line ih registry bus line
  | definition _ registry bus line _ _ _ ih => exact .line ih registry bus line

/-- The ledger is what the tables hold. -/
def Records (code : CodeMap) (c : Compiler) (L : Ledger) : Prop :=
  ∀ name, c.accessesOf code name = L.ops name

theorem Records.scope_eq {env : Env} (h : Records env.code c L) : env.scope c = L.scope env c := by
  have hcallee : c.accessesOf env.code = L.ops := funext h
  unfold Parser.Env.scope Ledger.scope
  rw [hcallee]

theorem Records.define {c' : Compiler} (h : Records code c L) {name : List Byte}
    {ops : List Access} (hdef : Defines c c' name (bodyWords code ops)) (origins : List Registry) :
    Records code c' (L.define name ops origins) := by
  intro other
  by_cases hother : other = name
  · subst hother
    simp [Compiler.accessesOf, hdef.body, accesses_bodyWords_nil, Ledger.define]
  · simp only [Ledger.define, Function.update_of_ne hother, ← h other, Compiler.accessesOf,
      hdef.others other hother]

/-- A line that is no definition keeps the functions. -/
theorem sameFunctions_of_line (env : Env) (hok : TablesOk env.code c) {bus : Bus}
    {line : List Byte}
    (hline : ∀ name, (c.parse env bus line).result ≠ .ok (.fnDefined name)) (name : List Byte) :
    (c.parse env bus line).comp.bodyOf name = c.bodyOf name := by
  rcases parse_tables env hok bus line with ⟨symbols, hsame⟩ | ⟨name', hres, _⟩
  · exact hsame.bodyOf name
  · exact absurd hres (hline name')

/-- What a definition leaves in the tables, read as any of its spellings. -/
theorem definition_spec (env : Env) (hok : TablesOk env.code c) (hL : Records env.code c L)
    {bus : Bus} {line : List Byte} {name : NameBuf}
    (hdef : (c.parse env bus line).result = .ok (.fnDefined name)) {stmts : List BodyStmt}
    {rest : List Token} (hspell : (Lexer.new line).toks = fnToks name.asSlice stmts ++ rest) :
    ∃ ops bus', evalBody (L.scope env c) stmts bus = .ok ops bus' ∧
      Defines c (c.parse env bus line).comp name.asSlice (bodyWords env.code ops) := by
  obtain ⟨_, _, hmeaning⟩ := accepted env hok hdef
  obtain ⟨ops, heval, hdefines⟩ := hmeaning stmts rest hspell
  rw [show env.scope (Frame.start c bus line).comp = L.scope env c from hL.scope_eq] at heval
  exact ⟨ops, _, heval, hdefines⟩

theorem Session.records (h : Session t code c L) : Records code c L := by
  induction h with
  | new => intro name; rfl
  | @line c L h registry bus line hline ih =>
      intro name
      unfold Compiler.accessesOf
      rw [sameFunctions_of_line ⟨t, code, registry⟩ h.reachable.tablesOk hline]
      exact ih name
  | @definition c L h registry bus line name stmts rest ops bus' hline hspell hops ih =>
      obtain ⟨ops', bus'', heval, hdef⟩ :=
        definition_spec ⟨t, code, registry⟩ h.reachable.tablesOk ih hline hspell
      cases heval.symm.trans hops
      exact ih.define hdef _

/-- Every session has a ledger. -/
theorem Reachable.session (h : Reachable t code c) : ∃ L, Session t code c L := by
  induction h with
  | new => exact ⟨_, .new⟩
  | @line c h registry bus line ih =>
      obtain ⟨L, hL⟩ := ih
      by_cases hline : ∃ name, (c.parse ⟨t, code, registry⟩ bus line).result = .ok (.fnDefined name)
      · obtain ⟨name, hdef⟩ := hline
        obtain ⟨_, ⟨stmts, rest, hspell⟩, _⟩ :=
          accepted ⟨t, code, registry⟩ h.tablesOk hdef
        obtain ⟨ops, bus', heval, _⟩ :=
          definition_spec ⟨t, code, registry⟩ h.tablesOk hL.records hdef hspell
        exact ⟨_, .definition hL registry bus line hdef hspell heval⟩
      · exact ⟨L, .line hL registry bus line fun name hdef => hline ⟨name, hdef⟩⟩

end Agreement

/-! ### Calling a function -/

section Calls

variable (env : Env) {c : Compiler} {id : List Byte}

/-- A line that begins with a call of a function, and its semicolon, runs the
words of the body. -/
theorem parse_call_toks (hok : TablesOk env.code c) (hid : id ∉ commandWords) {ws : List Word}
    (hbody : c.bodyOf id = some ws) (bus : Bus) {line : List Byte} {rest : List Token}
    (htoks : (Lexer.new line).toks =
      .identifier id :: .lParen :: .rParen :: .semicolon :: rest) :
    (c.parse env bus line).result =
      .ok (.run (Parser.programOf (ws ++ [env.code.wordOf .halt]) false)) := by
  have hup := Parser.upcoming_start line bus
  rw [htoks] at hup
  set s := Frame.start c bus line with hs
  obtain ⟨s₁, hnext₁, hup₁, _, hcomp₁⟩ := Parser.nextTok_cons (s := s) hup
  obtain ⟨s₂, hpeek, hup₂, _, hcomp₂⟩ := Parser.peekTok_upcoming hup₁
  obtain ⟨s₃, hparens, hup₃, _, hcomp₃⟩ := Parser.callParens_parens hup₂
  obtain ⟨s₄, hsemi, _, _, hcomp₄⟩ := Parser.expectSemicolon_semicolon hup₃
  have hcomp : s₄.comp = c := hcomp₄.trans (hcomp₃.trans (hcomp₂.trans hcomp₁))
  obtain ⟨s₅, hbuild, _, _⟩ :=
    Parser.buildCallProgram_eq env (s := s₄) (hcomp ▸ hok) (hcomp ▸ hbody)
  have hrun : Parser.parseLine env (Parser.evalFuel line) (Parser.bodyFuel line) s =
      .ok (.run (Parser.programOf (ws ++ [env.code.wordOf .halt]) false)) s₅ := by
    unfold Parser.parseLine
    rw [Fallible.bind_ok hnext₁]
    simp only
    rw [Parser.parseCommand_name env hid, Fallible.bind_ok hpeek, Parser.first_cons, if_pos rfl,
      Fallible.bind_ok hparens, Fallible.bind_ok hsemi, Fallible.bind_ok hbuild]
    rfl
  unfold Compiler.parse
  rw [show (⟨c, Parser.Scan.start line bus⟩ : Frame) = s from rfl, hrun]

/-- The line `NAME();` runs the program of the function. -/
theorem parse_call (hok : TablesOk env.code c) (hname : Lexer.IsName id) (hid : id ∉ commandWords)
    {ops : List Access} (hcallee : c.accessesOf env.code id = some ops) (bus : Bus) :
    ∃ p, (c.parse env bus (Lexer.callText id)).result = .ok (.run p) ∧ p.IsCall env.code ops := by
  obtain ⟨ws, hbody, rfl⟩ := Option.map_eq_some_iff.mp hcallee
  obtain ⟨hlen, as, rfl⟩ := hok.bodyOf hbody
  rw [accesses_bodyWords_nil]
  exact ⟨_, parse_call_toks env hok hid hbody bus (Lexer.toks_call hname),
    Parser.isCall_programOf env hlen⟩

end Calls

/-! ### Definitions -/

section Definitions

variable {t : Target} {code : CodeMap} {c : Compiler}

/-- Running a function performs, in order and nothing else, the accesses its
statements stood for in the line that defined it, a call's being those of the
callee at that moment. -/
theorem definition_means_its_statements (h : Reachable t code c) {registry : Registry} {bus : Bus}
    {line : List Byte} {name : NameBuf}
    (hdef : (c.parse ⟨t, code, registry⟩ bus line).result = .ok (.fnDefined name))
    (hname : name.asSlice ∉ commandWords) :
    (∃ L, Session t code c L) ∧
    (∃ stmts rest, (Lexer.new line).toks = fnToks name.asSlice stmts ++ rest) ∧
    ∀ L stmts rest, Session t code c L →
      (Lexer.new line).toks = fnToks name.asSlice stmts ++ rest →
        ∃ ops bus', evalBody (L.scope ⟨t, code, registry⟩ c) stmts bus = .ok ops bus' ∧
          ∀ registry' bus'', ∃ p, ((c.parse ⟨t, code, registry⟩ bus line).comp.parse
              ⟨t, code, registry'⟩ bus'' (Lexer.callText name.asSlice)).result = .ok (.run p) ∧
            ∀ m, ∃ m', p.runThreaded code m = (.halted, none, m') ∧
              m'.bus = performAll ops m.bus := by
  have hok := h.tablesOk
  obtain ⟨_, hspelled, _⟩ := accepted ⟨t, code, registry⟩ hok hdef
  refine ⟨h.session, hspelled, fun L stmts rest hL hspell => ?_⟩
  obtain ⟨ops, bus', heval, hdefines⟩ :=
    definition_spec ⟨t, code, registry⟩ hok hL.records hdef hspell
  refine ⟨ops, bus', heval, fun registry' bus'' => ?_⟩
  have hident : Lexer.IsName name.asSlice :=
    Lexer.isName_of_mem_toks (show Token.identifier name.asSlice ∈ (Lexer.new line).toks by
      rw [hspell]
      simp [fnToks])
  have hcallee : (c.parse ⟨t, code, registry⟩ bus line).comp.accessesOf code name.asSlice =
      some ops := by
    simp [Compiler.accessesOf, hdefines.body, accesses_bodyWords_nil]
  obtain ⟨p, hrun, hcall⟩ := parse_call ⟨t, code, registry'⟩
    (parse_tablesOk ⟨t, code, registry⟩ hok bus line) hident hname hcallee bus''
  refine ⟨p, hrun, fun m => ?_⟩
  obtain ⟨m', hexec, hran⟩ := runThreaded_call code hcall m
  exact ⟨m', hexec, hran.bus⟩

/-- The name of a definition. -/
def defined? : Except Stop Outcome → Option (List Byte)
  | .ok (.fnDefined name) => some name.asSlice
  | _ => none

theorem defined?_eq_some {r : Except Stop Outcome} (id : List Byte) (h : defined? r = some id) :
    ∃ name : NameBuf, r = .ok (.fnDefined name) ∧ name.asSlice = id := by
  unfold defined? at h
  split at h
  · rename_i name
    exact ⟨name, rfl, Option.some.inj h⟩
  · cases h

/-- A write and a read, in the order they stand in. -/
theorem definition_means_poke_then_peek : ∃ p m',
    ((after "fn f() { poke 0x20000100 1; peek 0x20000104; }").parse sampleEnv blank
        (bytes "f();")).result = .ok (.run p) ∧
      p.runThreaded .sample (.new blank) = (.halted, none, m') ∧
        m'.bus.trace = [.write 0x20000100 1, .read 0x20000104 0] := by
  obtain ⟨name, hdef, hname⟩ := defined?_eq_some (bytes "f")
    (show defined? (Compiler.new.parse sampleEnv blank
      (bytes "fn f() { poke 0x20000100 1; peek 0x20000104; }")).result = _ by decide +kernel)
  obtain ⟨_, _, hmeaning⟩ := definition_means_its_statements
    (.new : Reachable .arm .sample Compiler.new) hdef (by rw [hname]; decide)
  rw [hname] at hmeaning
  obtain ⟨ops, bus', heval, hruns⟩ := hmeaning _
    [.poke (.lit 0x20000100) (.mk (.lit 1) .nil), .peek (.lit 0x20000104)] [] .new
    (by decide +kernel)
  cases heval
  obtain ⟨p, hrun, hexec⟩ := hruns Registry.free blank
  obtain ⟨m', hthreaded, hbus⟩ := hexec (.new blank)
  refine ⟨p, m', hrun, hthreaded, ?_⟩
  rw [hbus]
  decide

/-- Every access of a new function passed its check: those of its own statements
under the registry as it is, those of a called function under the registry they
were checked with when that function was defined. -/
theorem definitions_checked (h : Reachable t code c) {registry : Registry} {bus : Bus}
    {line : List Byte} {name : NameBuf}
    (hdef : (c.parse ⟨t, code, registry⟩ bus line).result = .ok (.fnDefined name)) :
    (∃ L, Session t code c L) ∧
    (∃ stmts rest, (Lexer.new line).toks = fnToks name.asSlice stmts ++ rest) ∧
    ∀ L stmts rest, Session t code c L →
      (Lexer.new line).toks = fnToks name.asSlice stmts ++ rest →
        ∃ ops, (c.parse ⟨t, code, registry⟩ bus line).comp.bodyOf name.asSlice =
            some (bodyWords code ops) ∧
          Ledger.Passed t ops (L.bodyOrigins registry stmts) ∧
          Session t code (c.parse ⟨t, code, registry⟩ bus line).comp
            (L.define name.asSlice ops (L.bodyOrigins registry stmts)) := by
  have hok := h.tablesOk
  obtain ⟨_, hspelled, _⟩ := accepted ⟨t, code, registry⟩ hok hdef
  refine ⟨h.session, hspelled, fun L stmts rest hL hspell => ?_⟩
  obtain ⟨ops, bus', heval, hdefines⟩ :=
    definition_spec ⟨t, code, registry⟩ hok hL.records hdef hspell
  exact ⟨ops, hdefines.body, evalBody_passed ⟨t, code, registry⟩ hL.checked heval,
    .definition hL registry bus line hdef hspell heval⟩

/-- GPIOB claimed, a function that writes to it defined, GPIOB dropped. -/
def claimedThenDropped : Compiler :=
  (Compiler.new.parse ⟨.arm, .sample, (Registry.acquire Registry.free 1).2⟩ blank
    (bytes "fn a() { poke 0x40020400 1; }")).comp

theorem reachable_claimedThenDropped : Reachable .arm .sample claimedThenDropped :=
  .line .new _ _ _

/-- The copied access of the new function passed its check in the old one. -/
theorem definitions_checked_spliced : ∃ ops origins,
    (claimedThenDropped.parse sampleEnv blank (bytes "fn b() { a(); }")).comp.bodyOf (bytes "b") =
        some (bodyWords .sample ops) ∧
      Ledger.Passed .arm ops origins := by
  obtain ⟨name, hdef, hname⟩ := defined?_eq_some (bytes "b")
    (show defined? (claimedThenDropped.parse sampleEnv blank (bytes "fn b() { a(); }")).result = _
      by decide +kernel)
  obtain ⟨⟨L, hL⟩, ⟨stmts, rest, hspell⟩, hchecked⟩ :=
    definitions_checked reachable_claimedThenDropped hdef
  obtain ⟨ops, hbody, hpassed, _⟩ := hchecked L stmts rest hL hspell
  exact ⟨ops, _, hname ▸ hbody, hpassed⟩

/-- A body may be copied when the capability it was checked under is gone. -/
theorem definitions_not_rechecked : ¬ ∀ t code c, Reachable t code c →
    ∀ registry bus line name,
      (c.parse ⟨t, code, registry⟩ bus line).result = .ok (.fnDefined name) →
        ∀ ops, (c.parse ⟨t, code, registry⟩ bus line).comp.accessesOf code name.asSlice = some ops →
          ∀ op ∈ ops, Permitted t registry op.addr := by
  intro h
  obtain ⟨name, hdef, hname⟩ := defined?_eq_some (bytes "b")
    (show defined? (claimedThenDropped.parse sampleEnv blank (bytes "fn b() { a(); }")).result = _
      by decide +kernel)
  have hops : (claimedThenDropped.parse sampleEnv blank (bytes "fn b() { a(); }")).comp.accessesOf
      .sample name.asSlice = some [.write 0x40020400 1] := by
    rw [hname]
    decide +kernel
  have hperm := h .arm .sample _ reachable_claimedThenDropped _ _ _ name hdef _ hops _
    List.mem_cons_self
  exact absurd hperm (by decide)

end Definitions

end HolyRust.Sessions
