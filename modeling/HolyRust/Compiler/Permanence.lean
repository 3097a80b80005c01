import HolyRust.Compiler.Meaning
import HolyRust.Library.Runs

/-!
A defined function is never changed.

* `bodyOf_feed` — no line, accepted or rejected, changes a stored body.
* `storesName` — a definition writes its name into one free slot, and only under
  a name that no live slot has; so `DistinctNames` is kept.
* `defined_never_changes` — from its definition on, a function's call is the same
  program and its words are what every later body gets at a call of it.
-/

namespace HolyRust.Sessions

open HolyRust.Syntax
open HolyRust.Parser (Env Frame fnToks commandWords)
open Compiler (TablesOk SameTables)

/-! ### Later lines -/

/-- A line, with the registry and the memory it is parsed under. -/
structure Input where
  registry : Registry
  bus : Bus
  line : List Byte

/-- The compiler after a line. -/
def feed (t : Target) (code : CodeMap) (c : Compiler) (i : Input) : Compiler :=
  (c.parse ⟨t, code, i.registry⟩ i.bus i.line).comp

/-- The compiler after some lines. -/
def feedAll (t : Target) (code : CodeMap) : Compiler → List Input → Compiler :=
  Runs.run (feed t code)

variable {t : Target} {code : CodeMap} {c : Compiler}

theorem Reachable.feedAll (h : Reachable t code c) (later : List Input) :
    Reachable t code (feedAll t code c later) :=
  Runs.run_invariant (fun _ i hc => .line hc i.registry i.bus i.line) h

/-- No line changes the body of a function that is there. -/
theorem bodyOf_feed (hok : TablesOk code c) {name : List Byte} {ws : List Word}
    (hbody : c.bodyOf name = some ws) (i : Input) : (feed t code c i).bodyOf name = some ws := by
  rcases parse_tables ⟨t, code, i.registry⟩ hok i.bus i.line with
    ⟨symbols, hsame⟩ | ⟨name', _, ⟨stmts, rest, hspell⟩, hmeaning⟩
  · exact (hsame.bodyOf name).trans hbody
  · obtain ⟨ops, _, hdefines⟩ := hmeaning stmts rest hspell
    have hne : name ≠ name'.asSlice := by
      rintro rfl
      exact absurd (hdefines.fresh.symm.trans hbody) (by simp)
    exact (hdefines.others name hne).trans hbody

theorem bodyOf_feedAll (h : Reachable t code c) {name : List Byte} {ws : List Word}
    (hbody : c.bodyOf name = some ws) (later : List Input) :
    (feedAll t code c later).bodyOf name = some ws := by
  have hkept : Reachable t code (feedAll t code c later) ∧
      (feedAll t code c later).bodyOf name = some ws :=
    Runs.run_invariant (I := fun c => Reachable t code c ∧ c.bodyOf name = some ws)
      (fun _ i hc => ⟨.line hc.1 i.registry i.bus i.line, bodyOf_feed hc.1.tablesOk hc.2 i⟩)
      ⟨h, hbody⟩
  exact hkept.2

/-! ### The names in the slots -/

/-- No two live slots share a name. -/
def DistinctNames (c : Compiler) : Prop :=
  ∀ i j : Fin maxFns, c.fnAllocated i = true → c.fnAllocated j = true →
    (c.fnName i).asSlice = (c.fnName j).asSlice → i = j

/-- The names of the live functions, slot by slot. -/
def liveNames (c : Compiler) : List (List Byte) :=
  ((List.finRange maxFns).filter c.fnAllocated).map fun i => (c.fnName i).asSlice

theorem DistinctNames.nodup_liveNames (h : DistinctNames c) : (liveNames c).Nodup := by
  refine List.Nodup.map_on ?_ ((List.nodup_finRange maxFns).filter _)
  intro i hi j hj heq
  exact h i j (List.mem_filter.mp hi).2 (List.mem_filter.mp hj).2 heq

theorem length_liveNames_le (c : Compiler) : (liveNames c).length ≤ maxFns := by
  have := List.length_filter_le c.fnAllocated (List.finRange maxFns)
  simpa [liveNames] using this

/-- The slots of `c'` have the names of `c`, or one more: `name`, new among the
live ones. -/
def StoresName (c c' : Compiler) (name : NameBuf) : Prop :=
  c.findFn name.asSlice = none ∧ ∃ i : Fin maxFns, ∀ j,
    c'.fnName j = if j = i then name else c.fnName j

theorem StoresName.distinct {c' : Compiler} {name : NameBuf} (h : StoresName c c' name)
    (hc : DistinctNames c) : DistinctNames c' := by
  obtain ⟨hnew, k, hnames⟩ := h
  have hother : ∀ j, c.fnAllocated j = true → (c.fnName j).asSlice ≠ name.asSlice := by
    intro j hlive heq
    have := List.find?_eq_none.mp hnew j (List.mem_finRange j)
    simp [hlive, NameBuf.eqBytes, heq] at this
  have hlive : ∀ j, j ≠ k → c'.fnAllocated j = true → c.fnAllocated j = true := by
    intro j hj hlive
    simpa [Compiler.fnAllocated, hnames, hj] using hlive
  intro i j hi hj heq
  rw [hnames, hnames] at heq
  by_cases hik : i = k
  · by_cases hjk : j = k
    · exact hik.trans hjk.symm
    · rw [if_pos hik, if_neg hjk] at heq
      exact absurd heq.symm (hother j (hlive j hjk hj))
  · by_cases hjk : j = k
    · rw [if_neg hik, if_pos hjk] at heq
      exact absurd heq (hother i (hlive i hik hi))
    · rw [if_neg hik, if_neg hjk] at heq
      exact hc i j (hlive i hik hi) (hlive j hjk hj) heq

/-- What `storeFn` does to the names. -/
theorem storeFn_storesName {s s' : Frame} {name : NameBuf} {o : Outcome}
    (h : Parser.storeFn name s = .ok o s') : StoresName s.comp s'.comp name := by
  unfold Parser.storeFn at h
  rw [Fallible.bind_ok (Fallible.get_apply s)] at h
  split at h
  · cases h
  · cases halloc : s.comp.allocFnSlot name with
    | error e =>
        rw [halloc] at h
        cases h
    | ok i =>
        rw [halloc] at h
        cases hcopy : copyPrefix (s.comp.fnBody i) s.comp.stream s.comp.streamLen with
        | none =>
            simp only [hcopy] at h
            cases h
        | some body =>
            simp only [hcopy] at h
            cases h
            exact ⟨(Compiler.allocFnSlot_ok halloc).1, i, fun j => Compiler.fnName_storeAt⟩

theorem StoresName.of_same {c₀ c' : Compiler} {name : NameBuf} (hs : SameTables c₀ c)
    (h : StoresName c c' name) : StoresName c₀ c' name := by
  obtain ⟨hnew, i, hnames⟩ := h
  refine ⟨(hs.findFn name.asSlice).symm.trans hnew, i, fun j => ?_⟩
  rw [hnames, hs.fnName]

theorem parse_run_ok {env : Env} {bus : Bus} {line : List Byte} {o : Outcome}
    (h : (c.parse env bus line).result = .ok o) :
    Parser.parseLine env (Parser.evalFuel line) (Parser.bodyFuel line) (Frame.start c bus line) =
      .ok o (c.parse env bus line).frame := by
  rw [Parser.parse_start] at h ⊢
  cases hrun : Parser.parseLine env (Parser.evalFuel line) (Parser.bodyFuel line)
      (Frame.start c bus line) with
  | ok o' s' =>
      rw [hrun] at h
      obtain rfl : o' = o := Except.ok.inj h
      rfl
  | error e s' =>
      rw [hrun] at h
      cases h

/-- A definition stores its name in a free slot, under no other live one's name. -/
theorem parse_storesName (env : Env) (hok : TablesOk env.code c) {bus : Bus} {line : List Byte}
    {name : NameBuf} (hdef : (c.parse env bus line).result = .ok (.fnDefined name)) :
    StoresName c (c.parse env bus line).comp name := by
  obtain ⟨_, ⟨stmts, rest, hspell⟩, _⟩ := accepted env hok hdef
  have hrun := parse_run_ok hdef
  have hup := Parser.upcoming_start line bus
  have hlen := Lexer.length_toks_le (Lexer.new line)
  have hnames : ∀ id, Token.identifier id ∈ (Lexer.new line).toks → Lexer.IsName id :=
    fun id hid => Lexer.isName_of_mem_toks hid
  rw [Lexer.rest_new] at hlen
  rw [hspell] at hup hlen hnames
  simp only [fnToks, List.cons_append] at hup hlen hnames
  obtain ⟨s₁, hnext, hup₁, _, hcomp⟩ :=
    Parser.nextTok_cons (s := Frame.start c bus line) hup
  have hcomp : s₁.comp = c := hcomp
  unfold Parser.parseLine at hrun
  rw [Fallible.bind_ok hnext] at hrun
  rw [List.length_cons] at hlen
  obtain ⟨name', hname, _, _, s₂, hsame, hstore⟩ :=
    (Parser.parseFn_ends env (hcomp ▸ hok) (fun id hid => hnames id (List.mem_cons_of_mem _ hid))
      hup₁ (by unfold Parser.evalFuel; omega) (by unfold Parser.bodyFuel; omega)).of_ok hrun
  obtain rfl : name = name' := by cases hname; rfl
  rw [hcomp] at hsame
  exact (storeFn_storesName hstore).of_same hsame

theorem distinctNames_feed (hok : TablesOk code c) (hc : DistinctNames c) (i : Input) :
    DistinctNames (feed t code c i) := by
  rcases parse_tables ⟨t, code, i.registry⟩ hok i.bus i.line with
    ⟨symbols, hsame⟩ | ⟨name, hdef, _⟩
  · have hname : (feed t code c i).fnName = c.fnName := hsame.fnName
    intro j k hj hk heq
    simp only [Compiler.fnAllocated, hname] at hj hk heq
    exact hc j k hj hk heq
  · exact (parse_storesName ⟨t, code, i.registry⟩ hok hdef).distinct hc

theorem Reachable.distinctNames (h : Reachable t code c) : DistinctNames c := by
  induction h with
  | new =>
      intro i j hi
      simp [Compiler.fnAllocated, Compiler.fnName, Compiler.new, NameBuf.empty] at hi
  | line h registry bus line ih => exact distinctNames_feed h.tablesOk ih ⟨registry, bus, line⟩

/-! ### Bodies with a call -/

/-- The accesses of a body are those before a statement, its own, and those
after it. -/
theorem evalBody_split {sc : Scope} {st : BodyStmt} {after : List BodyStmt} {b' : Bus} :
    ∀ {before : List BodyStmt} {ops : List Access} {b : Bus},
      evalBody sc (before ++ st :: after) b = .ok ops b' →
        ∃ pre mid post b₁ b₂, evalBody sc before b = .ok pre b₁ ∧ st.eval sc b₁ = .ok mid b₂ ∧
          evalBody sc after b₂ = .ok post b' ∧ ops = pre ++ (mid ++ post) := by
  intro before
  induction before with
  | nil =>
      intro ops b h
      obtain ⟨mid, b₂, hst, h⟩ := Fallible.bind_eq_ok.mp h
      obtain ⟨post, b₃, hafter, h⟩ := Fallible.bind_eq_ok.mp h
      cases h
      exact ⟨[], mid, post, b, b₂, rfl, hst, hafter, rfl⟩
  | cons head before ih =>
      intro ops b h
      obtain ⟨first, b₀, hhead, h⟩ := Fallible.bind_eq_ok.mp h
      obtain ⟨more, b₃, hmore, h⟩ := Fallible.bind_eq_ok.mp h
      cases h
      obtain ⟨pre, mid, post, b₁, b₂, hpre, hst, hafter, rfl⟩ := ih hmore
      refine ⟨first ++ pre, mid, post, b₁, b₂, ?_, hst, hafter, by simp⟩
      rw [evalBody, Fallible.bind_ok hhead, Fallible.bind_ok hpre]
      rfl

/-- A definition with a call in its body gets the callee's words there, between
what the statements before and after it stand for. -/
theorem call_spliced (env : Env) (hok : TablesOk env.code c) {f : PlainName} {ws : List Word}
    (hbody : c.bodyOf f.val = some ws) {bus : Bus} {line : List Byte} {g : NameBuf}
    {before after : List BodyStmt} {rest : List Token}
    (hdef : (c.parse env bus line).result = .ok (.fnDefined g))
    (hspell : (Lexer.new line).toks = fnToks g.asSlice (before ++ .call f :: after) ++ rest) :
    ∃ pre post bus₁ bus₂, evalBody (env.scope c) before bus = .ok pre bus₁ ∧
      evalBody (env.scope c) after bus₁ = .ok post bus₂ ∧
      (c.parse env bus line).comp.bodyOf g.asSlice =
        some (bodyWords env.code pre ++ ws ++ bodyWords env.code post) := by
  obtain ⟨_, _, hmeaning⟩ := accepted env hok hdef
  obtain ⟨ops, heval, hdefines⟩ := hmeaning _ rest hspell
  obtain ⟨pre, mid, post, bus₁, bus₂, hpre, hcall, hafter, rfl⟩ := evalBody_split heval
  obtain ⟨_, as, rfl⟩ := hok.bodyOf hbody
  have hcallee : (env.scope c).callee f.val = some as := by
    show c.accessesOf env.code f.val = some as
    simp [Compiler.accessesOf, hbody, accesses_bodyWords_nil]
  have hmid : mid = as ∧ bus₂ = bus₁ := by
    have hcall : BodyStmt.eval (env.scope c) (.call f) bus₁ = .ok mid bus₂ := hcall
    rw [BodyStmt.eval, hcallee] at hcall
    cases hcall
    exact ⟨rfl, rfl⟩
  obtain ⟨rfl, rfl⟩ := hmid
  refine ⟨pre, post, bus₂, _, hpre, hafter, hdefines.body.trans ?_⟩
  rw [bodyWords_append, bodyWords_append, List.append_assoc]

/-- Every line that calls the function runs exactly the words. -/
def CallRuns (t : Target) (code : CodeMap) (c : Compiler) (name : List Byte) (ws : List Word) :
    Prop :=
  ∀ registry bus line rest,
    (Lexer.new line).toks = .identifier name :: .lParen :: .rParen :: .semicolon :: rest →
      (c.parse ⟨t, code, registry⟩ bus line).result =
        .ok (.run (Parser.programOf (ws ++ [code.wordOf .halt]) false))

/-- Every definition gets exactly the words at a call of the function, between
those of the statements before the call and of the statements after it. -/
def CallSplices (t : Target) (code : CodeMap) (c : Compiler) (name : List Byte) (ws : List Word) :
    Prop :=
  ∀ registry bus line g f before after rest, f.val = name →
    (c.parse ⟨t, code, registry⟩ bus line).result = .ok (.fnDefined g) →
    (Lexer.new line).toks = fnToks g.asSlice (before ++ .call f :: after) ++ rest →
      ∃ pre post bus₁ bus₂,
        evalBody (Parser.Env.scope ⟨t, code, registry⟩ c) before bus = .ok pre bus₁ ∧
        evalBody (Parser.Env.scope ⟨t, code, registry⟩ c) after bus₁ = .ok post bus₂ ∧
        (c.parse ⟨t, code, registry⟩ bus line).comp.bodyOf g.asSlice =
          some (bodyWords code pre ++ ws ++ bodyWords code post)

/-- Once a function is defined, whatever lines come after: its call is the same
program, every later body gets its words at a call of it, and the live names are
distinct and as many as there are slots at most. -/
theorem defined_never_changes (h : Reachable t code c) {registry : Registry} {bus : Bus}
    {line : List Byte} {name : NameBuf}
    (hdef : (c.parse ⟨t, code, registry⟩ bus line).result = .ok (.fnDefined name))
    (hname : name.asSlice ∉ commandWords) :
    ∃ ws, ∀ later c',
      c' = feedAll t code (c.parse ⟨t, code, registry⟩ bus line).comp later →
        CallRuns t code c' name.asSlice ws ∧ CallSplices t code c' name.asSlice ws ∧
          (liveNames c').Nodup ∧ (liveNames c').length ≤ maxFns := by
  have hreach : Reachable t code (c.parse ⟨t, code, registry⟩ bus line).comp :=
    .line h registry bus line
  obtain ⟨_, ⟨stmts, rest, hspell⟩, hmeaning⟩ := accepted ⟨t, code, registry⟩ h.tablesOk hdef
  obtain ⟨ops, _, hdefines⟩ := hmeaning stmts rest hspell
  refine ⟨bodyWords code ops, ?_⟩
  rintro later _ rfl
  have hlater := hreach.feedAll later
  have hbody := bodyOf_feedAll hreach hdefines.body later
  refine ⟨?_, ?_, hlater.distinctNames.nodup_liveNames, length_liveNames_le _⟩
  · intro registry' bus' line' rest' htoks
    exact parse_call_toks ⟨t, code, registry'⟩ hlater.tablesOk hname hbody bus' htoks
  · intro registry' bus' line' g f before after rest' hf hdef' hspell'
    exact call_spliced ⟨t, code, registry'⟩ hlater.tablesOk (hf ▸ hbody) hdef' hspell'

/-- The first function of a session, called after any lines. -/
theorem defined_never_changes_first : ∃ p, ∀ later registry bus,
    ((feedAll .arm .sample (after "fn f() { poke 0x20000100 1; }") later).parse
      ⟨.arm, .sample, registry⟩ bus (bytes "f();")).result = .ok (.run p) := by
  obtain ⟨name, hdef, hname⟩ := defined?_eq_some (bytes "f")
    (show defined? (Compiler.new.parse sampleEnv blank
      (bytes "fn f() { poke 0x20000100 1; }")).result = _ by decide +kernel)
  obtain ⟨ws, hkept⟩ := defined_never_changes (.new : Reachable .arm .sample Compiler.new) hdef
    (by rw [hname]; decide)
  refine ⟨Parser.programOf (ws ++ [CodeMap.sample.wordOf .halt]) false,
    fun later registry bus => ?_⟩
  have hruns := (hkept later _ rfl).1 registry bus (bytes "f();") [] (by
    rw [hname]
    decide +kernel)
  exact hruns

end HolyRust.Sessions
