import HolyRust.Compiler.Statements

/-!
A whole line: what `parse` does when it accepts one and when it rejects one.

* `Defines c c' name ws` — the function table of `c'` is that of `c` with one
  more function.
* `Accepts` — what each outcome means for the tables and the program handed out.
* `parse_spec` — every line is accepted in that sense, or rejected with a parser
  error that leaves the tables and the memory as they were.
-/

namespace HolyRust

open Fallible (Ends)

/-! ### The function table -/

namespace Compiler

/-- One more function. -/
structure Defines (c c' : Compiler) (name : List Byte) (ws : List Word) : Prop where
  symbols : c'.symbols = c.symbols
  fresh : c.bodyOf name = none
  body : c'.bodyOf name = some ws
  others : ∀ other, other ≠ name → c'.bodyOf other = c.bodyOf other
  slot : ∀ i : Fin maxFns, (c'.bodyAt i = ws ∧ c'.fnBodyLen i = ws.length) ∨
    (c'.bodyAt i = c.bodyAt i ∧ c'.fnBodyLen i = c.fnBodyLen i)
  len_le : ws.length ≤ fnBodyWords

theorem allocFnSlot_ok {c : Compiler} {name : NameBuf} {i : Fin maxFns}
    (h : c.allocFnSlot name = .ok i) :
    c.findFn name.asSlice = none ∧ (c.fnName i).len = 0 := by
  unfold allocFnSlot at h
  split at h
  · cases h
  · rename_i hfind
    split at h
    · rename_i j hj
      obtain rfl := Except.ok.inj h
      exact ⟨by simpa using hfind, by simpa using List.find?_some hj⟩
    · cases h

section Store

variable {c : Compiler} {i : Fin maxFns} {name : NameBuf} {body : Vector Word fnBodyWords}
  {len : Nat}

theorem bodyAt_storeAt_self : (c.storeAt i name body len).bodyAt i = body.toList.take len := by
  rw [bodyAt, fnBody_storeAt, fnBodyLen_storeAt, if_pos rfl, if_pos rfl]

theorem bodyAt_storeAt_of_ne {j : Fin maxFns} (h : j ≠ i) :
    (c.storeAt i name body len).bodyAt j = c.bodyAt j := by
  rw [bodyAt, fnBody_storeAt, fnBodyLen_storeAt, if_neg h, if_neg h, bodyAt]

theorem findFn_congr {c' : Compiler} {name' : List Byte}
    (h : ∀ j : Fin maxFns, (c'.fnAllocated j && (c'.fnName j).eqBytes name') =
      (c.fnAllocated j && (c.fnName j).eqBytes name')) : c'.findFn name' = c.findFn name' := by
  unfold findFn
  exact congrArg (fun p => (List.finRange maxFns).find? p) (funext h)

/-- A free slot stays unseen under every name but the one stored in it. -/
theorem findFn_storeAt_of_ne (hfree : (c.fnName i).len = 0) {other : List Byte}
    (hne : other ≠ name.asSlice) : (c.storeAt i name body len).findFn other = c.findFn other := by
  refine findFn_congr fun j => ?_
  simp only [fnAllocated, fnName_storeAt]
  by_cases h : j = i
  · subst h
    have hold : decide ((c.fnName j).len > 0) = false := by rw [hfree]; rfl
    have hnew : name.eqBytes other = false := by simpa [NameBuf.eqBytes] using Ne.symm hne
    rw [if_pos rfl, hold, hnew, Bool.and_false, Bool.false_and]
  · rw [if_neg h]

theorem findFn_storeAt_self (hnew : c.findFn name.asSlice = none) (hname : name.asSlice ≠ []) :
    (c.storeAt i name body len).findFn name.asSlice = some i := by
  have hlen : 0 < name.len := by
    rw [← NameBuf.length_asSlice]
    exact List.length_pos_iff.mpr hname
  have hnone : ∀ j : Fin maxFns,
      (c.fnAllocated j && (c.fnName j).eqBytes name.asSlice) = false := by
    intro j
    have := List.find?_eq_none.mp hnew j (List.mem_finRange j)
    simpa using this
  have honly : ∀ j : Fin maxFns, ((c.storeAt i name body len).fnAllocated j &&
      ((c.storeAt i name body len).fnName j).eqBytes name.asSlice) = decide (j = i) := by
    intro j
    simp only [fnAllocated, fnName_storeAt]
    by_cases h : j = i
    · simp [h, hlen, NameBuf.eqBytes]
    · simpa [h, fnAllocated] using hnone j
  unfold findFn
  rw [funext honly]
  cases hfind : (List.finRange maxFns).find? fun j => decide (j = i) with
  | none => exact absurd (List.find?_eq_none.mp hfind i (List.mem_finRange i)) (by simp)
  | some j => simpa using List.find?_some hfind

/-- Storing the scratch words in the allocated slot defines the function. -/
theorem defines_storeAt (halloc : c.allocFnSlot name = .ok i) (hname : name.asSlice ≠ [])
    (hcopy : copyPrefix (c.fnBody i) c.stream c.streamLen = some body)
    (hlen : c.streamLen ≤ fnBodyWords) :
    Defines c (c.storeAt i name body c.streamLen) name.asSlice c.scratch := by
  obtain ⟨hnew, hfree⟩ := allocFnSlot_ok halloc
  have hself : body.toList.take c.streamLen = c.scratch := (copyPrefix_take hcopy).1
  have hscratch : c.scratch.length = c.streamLen := by
    rw [scratch, List.length_take, Vector.length_toList]
    exact Nat.min_eq_left (copyPrefix_take hcopy).2.2
  refine ⟨rfl, by simp [bodyOf, hnew], ?_, fun other hne => ?_, fun j => ?_, by omega⟩
  · simp [bodyOf, findFn_storeAt_self hnew hname, bodyAt_storeAt_self, hself]
  · unfold bodyOf
    rw [findFn_storeAt_of_ne hfree hne]
    cases hfind : c.findFn other with
    | none => rfl
    | some j =>
        have hj : j ≠ i := by
          rintro rfl
          have hlive : c.fnAllocated j = true := by
            have := List.find?_some hfind
            exact (Bool.and_eq_true _ _ ▸ this).1
          unfold fnAllocated at hlive
          rw [hfree] at hlive
          cases hlive
        simp [bodyAt_storeAt_of_ne hj]
  · by_cases h : j = i
    · subst h
      exact .inl ⟨bodyAt_storeAt_self.trans hself, fnBodyLen_storeAt.trans
        ((if_pos rfl).trans hscratch.symm)⟩
    · exact .inr ⟨bodyAt_storeAt_of_ne h, fnBodyLen_storeAt.trans (if_neg h)⟩

end Store

theorem Defines.of_same {c₀ c c' : Compiler} {name : List Byte} {ws : List Word}
    (hs : SameTables c₀ c) (h : Defines c c' name ws) : Defines c₀ c' name ws where
  symbols := h.symbols.trans hs.symbols
  fresh := (hs.bodyOf name).symm.trans h.fresh
  body := h.body
  others other hne := (h.others other hne).trans (hs.bodyOf other)
  slot i := by
    rw [← hs.bodyAt, ← hs.fnBodyLen]
    exact h.slot i
  len_le := h.len_le

theorem Defines.tablesOk {code : CodeMap} {c c' : Compiler} {name : List Byte}
    {as : List Access} (h : Defines c c' name (bodyWords code as)) (hok : TablesOk code c) :
    TablesOk code c' where
  len_le i := by
    rcases h.slot i with ⟨_, hlen⟩ | ⟨_, hlen⟩
    · rw [hlen]
      exact h.len_le
    · rw [hlen]
      exact hok.len_le i
  groups i := by
    rcases h.slot i with ⟨hbody, _⟩ | ⟨hbody, _⟩
    · exact ⟨as, hbody⟩
    · obtain ⟨bs, hbs⟩ := hok.groups i
      exact ⟨bs, hbody.trans hbs⟩

/-- A live body is a stored one. -/
theorem TablesOk.bodyOf {code : CodeMap} {c : Compiler} (h : TablesOk code c) {name : List Byte}
    {ws : List Word} (hbody : c.bodyOf name = some ws) :
    ws.length ≤ fnBodyWords ∧ ∃ as, ws = bodyWords code as := by
  obtain ⟨i, _, rfl⟩ := Option.map_eq_some_iff.mp hbody
  refine ⟨?_, h.groups i⟩
  have := h.len_le i
  simp only [bodyAt, List.length_take]
  omega

end Compiler

namespace Parser

open Syntax
open Compiler (SameTables TablesOk Defines)

/-! ### Handing out a program -/

section Programs

variable (env : Env)

/-- The program of the given words, in an array that is zero behind them. -/
def programOf (ws : List Word) (yields : Bool) : StreamProgram :=
  ⟨Vector.ofFn fun i => ws.getD i 0#32, ws.length, yields⟩

theorem programOf_code {ws : List Word} (yields : Bool) (h : ws.length ≤ maxStreamWords) :
    (programOf ws yields).code = ws := by
  refine List.ext_getElem (by simp [StreamProgram.code, programOf, h]) fun i _ hi => ?_
  simp [StreamProgram.code, programOf, hi]

theorem takeProgram_eq {s : Frame} (yields : Bool) (h : s.comp.streamLen ≤ maxStreamWords) :
    takeProgram yields s = .ok (programOf s.comp.scratch yields) s := by
  have hlen : s.comp.scratch.length = s.comp.streamLen := by
    rw [Compiler.scratch, List.length_take, Vector.length_toList, Nat.min_eq_left h]
  have hcopy : copyPrefix (Vector.replicate maxStreamWords 0#32) s.comp.stream s.comp.streamLen =
      some (Vector.ofFn fun i => s.comp.scratch.getD i 0#32) := by
    rw [copyPrefix, dif_pos ⟨h, h⟩]
    refine congrArg some (Vector.ext fun i hi => ?_)
    by_cases hlt : i < s.comp.streamLen
    · simp [Compiler.scratch, hlt, hi]
    · simp [Compiler.scratch, hlt]
  unfold takeProgram
  rw [Fallible.bind_ok (Fallible.get_apply s), hcopy, programOf, hlen]
  rfl

/-- The frame with an emptied scratch stream. -/
def Frame.fresh (s : Frame) : Frame := { s with comp := { s.comp with streamLen := 0 } }

theorem streamReset_ok (s : Frame) : streamReset s = .ok ⟨⟩ s.fresh := rfl

theorem fresh_same (s : Frame) : SameTables s.comp s.fresh.comp := ⟨rfl, rfl, rfl, rfl⟩

/-- A program of the given words, from a fresh stream. -/
def emitProgram (yields : Bool) (ws : List Word) : ParseM StreamProgram := do
  streamReset
  pushAll ws
  streamHalt env
  takeProgram yields

theorem emitProgram_eq (s : Frame) (yields : Bool) {ws : List Word}
    (hroom : ws.length + 1 ≤ maxStreamWords) :
    ∃ s', emitProgram env yields ws s =
        .ok (programOf (ws ++ [env.code.wordOf .halt]) yields) s' ∧ s'.scan = s.scan ∧
      SameTables s.comp s'.comp := by
  have hlen₀ : s.fresh.comp.streamLen = 0 := rfl
  have hscratch₀ : s.fresh.comp.scratch = [] := rfl
  obtain ⟨s₁, hpush, he₁⟩ := pushAll_room ws (s := s.fresh) (by omega)
  have hlen₁ : s₁.comp.streamLen = ws.length := by rw [he₁.len, hlen₀, Nat.zero_add]
  obtain ⟨s₂, hhalt, he₂⟩ := streamPush_room (s := s₁) (env.code.wordOf .halt) (by omega)
  have hlen₂ : s₂.comp.streamLen = ws.length + 1 := by rw [he₂.len, hlen₁]; rfl
  have htake := takeProgram_eq (s := s₂) yields (by omega)
  rw [he₂.scratch, he₁.scratch, hscratch₀, List.nil_append] at htake
  refine ⟨s₂, ?_, he₂.scan.trans he₁.scan, (fresh_same s).trans (he₁.tables.trans he₂.tables)⟩
  unfold emitProgram streamHalt
  rw [Fallible.bind_ok (streamReset_ok s), Fallible.bind_ok hpush, Fallible.bind_ok hhalt, htake]

theorem buildValueProgram_ok (s : Frame) (v : Word) :
    ∃ p s', buildValueProgram env v s = .ok p s' ∧ s'.scan = s.scan ∧
      SameTables s.comp s'.comp ∧ p.IsValue env.code v := by
  have hroom : [env.code.wordOf .lit, v].length + 1 ≤ maxStreamWords := show 3 ≤ 128 by decide
  obtain ⟨s', hemit, hscan, hsame⟩ := emitProgram_eq env s true hroom
  refine ⟨_, s', ?_, hscan, hsame, programOf_code true hroom, rfl, rfl⟩
  unfold buildValueProgram
  rw [streamPushLit_eq]
  exact hemit

/-- A call program holds the words of the called function's body. -/
theorem buildCallProgram_eq {s : Frame} {name : List Byte} {ws : List Word}
    (hok : TablesOk env.code s.comp) (hbody : s.comp.bodyOf name = some ws) :
    ∃ s', buildCallProgram env name s =
        .ok (programOf (ws ++ [env.code.wordOf .halt]) false) s' ∧ s'.scan = s.scan ∧
      SameTables s.comp s'.comp := by
  have hlen : ws.length ≤ 32 := (hok.bodyOf hbody).1
  obtain ⟨i, hfind, rfl⟩ := Option.map_eq_some_iff.mp hbody
  obtain ⟨s', hemit, hscan, hsame⟩ :=
    emitProgram_eq env s false (show (s.comp.bodyAt i).length + 1 ≤ 128 by omega)
  refine ⟨s', ?_, hscan, hsame⟩
  have hfn : findFn name s = .ok i s := by
    unfold findFn
    rw [Fallible.bind_ok (Fallible.get_apply s), hfind]
    rfl
  unfold buildCallProgram
  rw [Fallible.bind_ok hfn]
  refine Eq.trans ?_ hemit
  unfold emitProgram
  rw [Fallible.bind_ok (streamReset_ok s), Fallible.bind_ok (streamReset_ok s),
    Fallible.bind_ok (Fallible.get_apply s.fresh),
    pushBody_eq _ ((hok.of_same (fresh_same s)).len_le i)]
  rfl

theorem isCall_programOf {as : List Access} (h : (bodyWords env.code as).length ≤ fnBodyWords) :
    (programOf (bodyWords env.code as ++ [env.code.wordOf .halt]) false).IsCall env.code as where
  code_eq := programOf_code false (by
    have : (bodyWords env.code as).length ≤ 32 := h
    show (bodyWords env.code as ++ [env.code.wordOf .halt]).length ≤ 128
    simp only [List.length_append, List.length_singleton]
    omega)
  len_eq := by simp [programOf]
  yields := rfl

/-- A call program holds the accesses of the called function. -/
theorem buildCallProgram_ok {s : Frame} {name : List Byte} {as : List Access}
    (hok : TablesOk env.code s.comp) (hcallee : s.comp.accessesOf env.code name = some as) :
    ∃ p s', buildCallProgram env name s = .ok p s' ∧ s'.scan = s.scan ∧
      SameTables s.comp s'.comp ∧ p.IsCall env.code as := by
  obtain ⟨ws, hbody, rfl⟩ := Option.map_eq_some_iff.mp hcallee
  obtain ⟨hlen, bs, rfl⟩ := hok.bodyOf hbody
  obtain ⟨s', hbuild, hscan, hsame⟩ := buildCallProgram_eq env hok hbody
  rw [accesses_bodyWords_nil]
  exact ⟨_, s', hbuild, hscan, hsame, isCall_programOf env hlen⟩

end Programs

/-! ### Definitions -/

/-- The tokens of a definition, up to its closing brace. -/
def fnToks (name : List Byte) (stmts : List BodyStmt) : List Token :=
  .kwFn :: .identifier name :: .lParen :: .rParen :: .lBrace :: (bodyToks stmts ++ [.rBrace])

/-- The line is a definition, and whichever statements it is read as, their
accesses are the body of the new function. -/
structure DefinedBy (env : Env) (ts : List Token) (s : Frame) (name : List Byte) (s' : Frame) :
    Prop where
  spelled : ∃ stmts rest, ts = fnToks name stmts ++ rest
  meaning : ∀ stmts rest, ts = fnToks name stmts ++ rest →
    ∃ ops, evalBody (env.scope s.comp) stmts s.scan.bus = .ok ops s'.scan.bus ∧
      Defines s.comp s'.comp name (bodyWords env.code ops)

section Definitions

variable (env : Env) {fuel : Nat}

theorem storeFn_ends {s : Frame} {name : NameBuf} (hname : name.asSlice ≠ []) :
    Ends (storeFn name) s (fun o s' => o = .fnDefined name ∧ s'.scan = s.scan ∧
      Defines s.comp s'.comp name.asSlice s.comp.scratch) (Rejected s) := by
  unfold storeFn
  refine Ends.step (Fallible.get_apply s) ?_
  split
  · exact ends_fail _
  · rename_i hlen
    cases halloc : s.comp.allocFnSlot name with
    | error e => exact ends_fail e
    | ok i =>
        have hle : s.comp.streamLen ≤ 32 := Nat.le_of_not_lt hlen
        obtain ⟨body, hcopy⟩ := exists_copyPrefix (s.comp.fnBody i) s.comp.stream hle
          (show s.comp.streamLen ≤ 128 by omega)
        simp only [hcopy]
        exact ⟨rfl, rfl, Compiler.defines_storeAt halloc hname hcopy hle⟩

theorem parseFn_ends {s : Frame} {ts : List Token} {n : Nat} (hok : TablesOk env.code s.comp)
    (hnames : ∀ id, Token.identifier id ∈ ts → Lexer.IsName id) (h : Upcoming s.scan ts)
    (hfuel : 2 * ts.length + 2 ≤ fuel) (hn : ts.length < n) :
    Ends (parseFn env fuel n) s (fun o s' => ∃ name, o = .fnDefined name ∧
      Quiet s.scan.bus s'.scan.bus ∧ DefinedBy env (.kwFn :: ts) s name.asSlice s' ∧
      ∃ s₁, SameTables s.comp s₁.comp ∧ storeFn name s₁ = .ok o s')
      (Rejected s) := by
  unfold parseFn
  refine (walks_expectName h).bind_run fun name s₁ ts₁ hrun₁ hts hup₁ hun₁ => ?_
  refine (walks_expect (by simp) hup₁).bind_run fun _ s₂ ts₂ hrun₂ hts₁ hup₂ hun₂ => ?_
  refine (walks_expect (by simp) hup₂).bind_run fun _ s₃ ts₃ hrun₃ hts₂ hup₃ hun₃ => ?_
  refine (walks_expect (by simp) hup₃).bind_run fun _ s₄ ts₄ hrun₄ hts₃ hup₄ hun₄ => ?_
  subst hts hts₁ hts₂ hts₃
  simp only [List.length_cons] at hfuel hn
  have hname : name.asSlice ≠ [] := by
    obtain ⟨b, bs, hid, _⟩ := (hnames name.asSlice List.mem_cons_self).start
    simp [hid]
  obtain ⟨hcomp, hbus⟩ : Moved s s₄ :=
    (expectName_moved hrun₁).trans ((expect_moved hrun₂).trans ((expect_moved hrun₃).trans
      (expect_moved hrun₄)))
  refine Ends.step (streamReset_ok s₄) ?_
  have hok₄ : TablesOk env.code s₄.fresh.comp := (hcomp ▸ hok : TablesOk env.code s₄.comp).of_same
    (fresh_same s₄)
  have hsame₄ : SameTables s.comp s₄.fresh.comp := hcomp ▸ fresh_same s₄
  have hbody : Walks (parseBody env fuel n) s₄.fresh fun _ rest =>
      ∃ stmts, ts₄ = bodyToks stmts ++ .rBrace :: rest :=
    parseBody_walks env n hok₄ hup₄ (by omega) (by omega)
  have hends : Ends (parseBody env fuel n >>= fun _ => storeFn name) s₄.fresh
      (fun o s' => ∃ name', o = .fnDefined name' ∧ Quiet s.scan.bus s'.scan.bus ∧
        DefinedBy env (.kwFn :: .identifier name.asSlice :: .lParen :: .rParen :: .lBrace :: ts₄) s
          name'.asSlice s' ∧ ∃ s₁, SameTables s.comp s₁.comp ∧ storeFn name' s₁ = .ok o s')
        (Rejected s₄.fresh) := by
    refine hbody.bind_run fun _ s₅ ts₅ hrun₅ ⟨stmts, hstmts⟩ hup₅ hun₅ => ?_
    refine (storeFn_ends hname).with_run.mono ?_ fun _ _ he => he
    rintro _ s' ⟨⟨rfl, hscan, hdef⟩, hstore⟩
    refine ⟨name, rfl, ?_, ⟨⟨stmts, ts₅, by simp [fnToks, hstmts]⟩, fun stmts' rest' hts' => ?_⟩,
      s₅, hsame₄.trans hun₅.tables, hstore⟩
    · rw [hscan]
      exact (quiet_of_eq hbus).trans hun₅.quiet
    · have hread : ts₄ = bodyToks stmts' ++ .rBrace :: rest' := by simpa [fnToks] using hts'
      have hlen : 2 * (bodyToks stmts' ++ Token.rBrace :: rest').length + 2 ≤ fuel := by
        rw [← hread]
        omega
      rw [hread] at hup₄
      obtain ⟨ops, heval, _, hsame, _, _, hscratch⟩ := parseBody_eval env stmts' n
        (s := s₄.fresh) hok₄ (Nat.zero_le _) hup₄ hlen hrun₅
      refine ⟨ops, ?_, ?_⟩
      · rw [hscan, ← Env.scope_same hsame₄, ← hbus]
        exact heval
      · have hwords : s₅.comp.scratch = bodyWords env.code ops := by
          rw [hscratch]
          rfl
        rw [← hwords]
        exact hdef.of_same (hsame₄.trans hsame)
  refine hends.mono (fun _ _ hq => hq) fun e s' he => ?_
  exact ⟨he.1, (fresh_same s₄).trans he.2.tables, he.2.quiet⟩

end Definitions

/-! ### The other statements -/

/-- The names `parse_command` takes for itself. -/
def commandWords : List (List Byte) :=
  [bytes "peek", bytes "poke", bytes "cap_claim", bytes "cap_drop", bytes "reg_set_bit",
    bytes "reg_clr_bit", bytes "help", bytes "banner", bytes "sys_audit"]

/-- Any other name begins a call or a value. -/
theorem parseCommand_name (env : Env) {id : List Byte} (hid : id ∉ commandWords) (fuel : Nat) :
    parseCommand env fuel id = (do
      if (← peekTok) = .lParen then do
        callParens
        expectSemicolon
        let program ← buildCallProgram env id
        pure (.run program)
      else parseValueStmt env fuel (.identifier id)) := by
  simp only [commandWords, List.mem_cons, List.not_mem_nil, or_false, not_or] at hid
  obtain ⟨h₁, h₂, h₃, h₄, h₅, h₆, h₇, h₈, h₉⟩ := hid
  simp only [parseCommand, h₁, h₂, h₃, h₄, h₅, h₆, h₇, h₈, h₉, if_false]

/-- The statements that `parse_command` tells apart by the first word. -/
theorem parseCommand_cases {env : Env} {fuel : Nat} {id : List Byte} {P : ParseM Outcome → Prop}
    (peek : id = bytes "peek" → P (do
      let addr ← onScan fun self => parseAtomicTerm self fuel
      expectSemicolon
      enforce env addr
      pure (.enforcedPeek addr)))
    (poke : id = bytes "poke" → P (do
      let addr ← onScan fun self => parseAtomicTerm self fuel
      let val ← onScan fun self => evalExpr self fuel none
      expectSemicolon
      enforce env addr
      pure (.enforcedPoke addr val)))
    (cap : ∀ outcome : NameBuf → Outcome,
      id = bytes "cap_claim" ∧ outcome = .claim ∨ id = bytes "cap_drop" ∧ outcome = .drop →
        P (parseCapCommand outcome))
    (bit : ∀ outcome : Word → Word → Outcome,
      id = bytes "reg_set_bit" ∧ outcome = .setBit ∨
        id = bytes "reg_clr_bit" ∧ outcome = .clrBit → P (parseBitCommand env fuel outcome))
    (bare : ∀ outcome,
      id = bytes "help" ∧ outcome = .help ∨ id = bytes "banner" ∧ outcome = .banner ∨
        id = bytes "sys_audit" ∧ outcome = .sysAudit → P (parseBareCommand outcome))
    (name : id ∉ commandWords → P (do
      if (← peekTok) = .lParen then do
        callParens
        expectSemicolon
        let program ← buildCallProgram env id
        pure (.run program)
      else parseValueStmt env fuel (.identifier id))) :
    P (parseCommand env fuel id) := by
  by_cases hid : id ∈ commandWords
  · simp only [commandWords, List.mem_cons, List.not_mem_nil, or_false] at hid
    rcases hid with rfl | rfl | rfl | rfl | rfl | rfl | rfl | rfl | rfl
    · exact peek rfl
    · exact poke rfl
    · exact cap .claim (.inl ⟨rfl, rfl⟩)
    · exact cap .drop (.inr ⟨rfl, rfl⟩)
    · exact bit .setBit (.inl ⟨rfl, rfl⟩)
    · exact bit .clrBit (.inr ⟨rfl, rfl⟩)
    · exact bare .help (.inl ⟨rfl, rfl⟩)
    · exact bare .banner (.inr (.inl ⟨rfl, rfl⟩))
    · exact bare .sysAudit (.inr (.inr ⟨rfl, rfl⟩))
  · rw [parseCommand_name env hid]
    exact name hid

/-- What an accepted line did, by its outcome. -/
def Accepted (env : Env) (ts : List Token) (s : Frame) (s' : Frame) : Outcome → Prop
  | .empty => False
  | .bound name value =>
      Quiet s.scan.bus s'.scan.bus ∧ ∃ symbols,
        s.comp.symbols.insertSymbol name value = some (.ok symbols) ∧
          SameTables { s.comp with symbols := symbols } s'.comp
  | .fnDefined name =>
      Quiet s.scan.bus s'.scan.bus ∧ DefinedBy env ts s name.asSlice s'
  | .run p =>
      Unchanged s s' ∧ ((∃ v, p.IsValue env.code v) ∨ ∃ id rest as,
        id ∉ commandWords ∧ ts = .identifier id :: .lParen :: .rParen :: rest ∧
          s.comp.accessesOf env.code id = some as ∧ p.IsCall env.code as)
  | .enforcedPoke addr _ | .enforcedPeek addr | .setBit addr _ | .clrBit addr _ =>
      Unchanged s s' ∧ Registry.Permitted env.target env.registry addr
  | .claim _ | .drop _ | .help | .banner | .sysAudit => Unchanged s s'

/-- Accepting a line only reads memory. -/
theorem Accepted.quiet {env : Env} {ts : List Token} {s s' : Frame} {o : Outcome}
    (h : Accepted env ts s s' o) : Quiet s.scan.bus s'.scan.bus := by
  cases o with
  | empty => exact absurd h id
  | bound name value => exact h.1
  | fnDefined name => exact h.1
  | run p => exact h.1.quiet
  | enforcedPoke _ _ => exact h.1.quiet
  | enforcedPeek _ => exact h.1.quiet
  | setBit _ _ => exact h.1.quiet
  | clrBit _ _ => exact h.1.quiet
  | claim _ => exact Unchanged.quiet h
  | drop _ => exact Unchanged.quiet h
  | help => exact Unchanged.quiet h
  | banner => exact Unchanged.quiet h
  | sysAudit => exact Unchanged.quiet h

/-- An accepted line changes the symbols at most, or it defines a function. -/
theorem Accepted.tables {env : Env} {ts : List Token} {s s' : Frame} {o : Outcome}
    (h : Accepted env ts s s' o) :
    (∃ symbols, SameTables { s.comp with symbols := symbols } s'.comp) ∨
      ∃ name, o = .fnDefined name ∧ DefinedBy env ts s name.asSlice s' := by
  have hsame : Unchanged s s' → ∃ symbols,
      SameTables { s.comp with symbols := symbols } s'.comp := fun hun => ⟨_, hun.tables⟩
  cases o with
  | empty => exact absurd h id
  | bound name value =>
      obtain ⟨_, symbols, _, htables⟩ := h
      exact .inl ⟨symbols, htables⟩
  | fnDefined name => exact .inr ⟨name, rfl, h.2⟩
  | run p => exact .inl (hsame h.1)
  | enforcedPoke _ _ => exact .inl (hsame h.1)
  | enforcedPeek _ => exact .inl (hsame h.1)
  | setBit _ _ => exact .inl (hsame h.1)
  | clrBit _ _ => exact .inl (hsame h.1)
  | claim _ => exact .inl (hsame h)
  | drop _ => exact .inl (hsame h)
  | help => exact .inl (hsame h)
  | banner => exact .inl (hsame h)
  | sysAudit => exact .inl (hsame h)

/-- From `s`, where the line's tokens are `ts`, `x` accepts the line or is
rejected. -/
def Settles (env : Env) (ts : List Token) (x : ParseM Outcome) (s : Frame) : Prop :=
  Ends x s (fun o s' => Accepted env ts s s' o) (Rejected s)

section Statements

variable {env : Env} {fuel : Nat} {s : Frame} {all ts : List Token}

/-- What was done from a frame that differs from `s` in the cursor only was done
from `s`. -/
theorem Accepted.of_moved {s₁ s' : Frame} (hm : Moved s s₁) {o : Outcome}
    (h : Accepted env all s₁ s' o) : Accepted env all s s' o := by
  obtain ⟨hcomp, hbus⟩ := hm
  have hun : Unchanged s₁ s' → Unchanged s s' :=
    fun h => ⟨hcomp ▸ h.tables, hbus ▸ h.quiet⟩
  cases o with
  | empty => exact h
  | bound name value =>
      simp only [Accepted, hcomp, hbus] at h ⊢
      exact h
  | fnDefined name =>
      obtain ⟨hquiet, hspelled, hmeaning⟩ := h
      refine ⟨hbus ▸ hquiet, hspelled, ?_⟩
      rw [hcomp, hbus] at hmeaning
      exact hmeaning
  | run p =>
      refine ⟨hun h.1, ?_⟩
      rw [← hcomp]
      exact h.2
  | enforcedPoke _ _ => exact ⟨hun h.1, h.2⟩
  | enforcedPeek _ => exact ⟨hun h.1, h.2⟩
  | setBit _ _ => exact ⟨hun h.1, h.2⟩
  | clrBit _ _ => exact ⟨hun h.1, h.2⟩
  | claim _ => exact hun h
  | drop _ => exact hun h
  | help => exact hun h
  | banner => exact hun h
  | sysAudit => exact hun h

/-- What is rejected from a frame the cursor moved to is rejected from `s`. -/
theorem Settles.of_moved {s₁ : Frame} (hm : Moved s s₁) {x : ParseM Outcome}
    (h : Settles env all x s₁) : Ends x s₁ (fun o s' => Accepted env all s s' o) (Rejected s) :=
  Ends.mono h (fun _ _ ha => ha.of_moved hm) fun _ _ he =>
    ⟨he.1, hm.1 ▸ he.2.tables, hm.2 ▸ he.2.quiet⟩

theorem parseLet_settles (h : Upcoming s.scan ts) (hfuel : 2 * ts.length + 2 ≤ fuel) :
    Settles env all (parseLet fuel) s := by
  unfold parseLet
  refine (walks_expectName h).bind_ends fun name s₁ ts₁ hts hup₁ hun₁ => ?_
  refine (walks_expect (by simp) hup₁).bind_ends fun _ s₂ ts₂ hts₁ hup₂ hun₂ => ?_
  subst hts hts₁
  simp only [List.length_cons] at hfuel
  refine (walks_onScan (evalExpr_reads s₂.comp hup₂ (by omega))).bind_ends
    fun value s₃ ts₃ _ hup₃ hun₃ => ?_
  refine (walks_expectSemicolon hup₃).bind_ends fun _ s₄ ts₄ _ hup₄ hun₄ => ?_
  have hun : Unchanged s s₄ := ((hun₁.trans hun₂).trans hun₃).trans hun₄
  refine Ends.step (Fallible.get_apply s₄) ?_
  obtain ⟨r, hr⟩ := s₄.comp.symbols.insertSymbol_isSome name value
  simp only [hr]
  cases r with
  | error e => exact ends_fail e
  | ok symbols =>
      refine ⟨hun.quiet, symbols, by rw [← hun.tables.symbols]; exact hr, ?_⟩
      exact ⟨rfl, hun.tables.fnNames, hun.tables.fnBodies, hun.tables.fnBodyLens⟩

theorem parseValueStmt_settles (t : Token) (h : Upcoming s.scan ts)
    (hfuel : 2 * ts.length + 4 ≤ fuel) : Settles env all (parseValueStmt env fuel t) s := by
  unfold parseValueStmt
  refine (walks_onScan (evalExpr_reads_after s.comp t h hfuel)).bind_ends
    fun value s₁ ts₁ _ hup₁ hun₁ => ?_
  refine (walks_expectSemicolon hup₁).bind_ends fun _ s₂ ts₂ _ hup₂ hun₂ => ?_
  obtain ⟨p, s₃, hbuild, hscan, hsame, hvalue⟩ := buildValueProgram_ok env s₂ value
  refine Ends.step hbuild ⟨(hun₁.trans hun₂).trans ⟨hsame, quiet_of_eq (by rw [hscan])⟩, ?_⟩
  exact .inl ⟨value, hvalue⟩

/-- A call line, its name taken and its opening parenthesis seen. -/
theorem callStmt_settles {id : List Byte} (hok : TablesOk env.code s.comp)
    (hid : id ∉ commandWords) (hparen : first ts = .lParen) (h : Upcoming s.scan ts) :
    Settles env (.identifier id :: ts) (do
      callParens
      expectSemicolon
      let program ← buildCallProgram env id
      pure (.run program)) s := by
  refine (walks_callParens hparen h).bind_ends fun _ s₁ ts₁ hts hup₁ hun₁ => ?_
  refine (walks_expectSemicolon hup₁).bind_ends fun _ s₂ ts₂ _ hup₂ hun₂ => ?_
  have hun := hun₁.trans hun₂
  cases hcallee : s₂.comp.accessesOf env.code id with
  | some as =>
      obtain ⟨p, s₃, hbuild, hscan, hsame, hcall⟩ :=
        buildCallProgram_ok env (hok.of_same hun.tables) hcallee
      refine Ends.step hbuild ⟨hun.trans ⟨hsame, quiet_of_eq (by rw [hscan])⟩, ?_⟩
      refine .inr ⟨id, ts₁, as, hid, by rw [hts], ?_, hcall⟩
      rw [← hun.tables.accessesOf]
      exact hcallee
  | none =>
      have hfind : s₂.comp.findFn id = none := by
        simpa [Compiler.accessesOf, Compiler.bodyOf] using hcallee
      unfold buildCallProgram
      refine ((walks_findFn id hup₂).bind_ends fun i s₃ ts₃ hi _ _ => ?_).bind fun p s₃ hp => hp
      exact absurd (hfind.symm.trans hi.1) (by simp)

theorem parseCapCommand_settles {outcome : NameBuf → Outcome} (h : Upcoming s.scan ts)
    (hout : ∀ name s', Unchanged s s' → Accepted env all s s' (outcome name)) :
    Settles env all (parseCapCommand outcome) s := by
  unfold parseCapCommand
  refine (walks_expectName h).bind_ends fun name s₁ ts₁ _ hup₁ hun₁ => ?_
  refine (walks_expectSemicolon hup₁).bind_ends fun _ s₂ ts₂ _ hup₂ hun₂ => ?_
  exact hout name s₂ (hun₁.trans hun₂)

theorem parseBareCommand_settles {outcome : Outcome} (h : Upcoming s.scan ts)
    (hout : ∀ s', Unchanged s s' → Accepted env all s s' outcome) :
    Settles env all (parseBareCommand outcome) s := by
  unfold parseBareCommand allowOptionalSemicolon
  refine Walks.bind_ends (R := fun _ _ => True) ?_ fun _ s₁ _ _ _ hun => hout s₁ hun
  refine (walks_peekTok h).bind fun t s₁ ts₁ _ hup₁ _ => ?_
  split
  · exact (walks_nextTok hup₁).bind fun _ s₂ ts₂ _ hup₂ _ => walks_pure hup₂ trivial
  · exact walks_pure hup₁ trivial

theorem parseBitCommand_settles {outcome : Word → Word → Outcome} (h : Upcoming s.scan ts)
    (hfuel : 2 * ts.length + 2 ≤ fuel)
    (hout : ∀ addr bit s', Unchanged s s' → Registry.Permitted env.target env.registry addr →
      Accepted env all s s' (outcome addr bit)) :
    Settles env all (parseBitCommand env fuel outcome) s := by
  unfold parseBitCommand
  refine (walks_onScan (parseAtomicTerm_reads s.comp h hfuel)).bind_ends
    fun addr s₁ ts₁ ⟨a, ha⟩ hup₁ hun₁ => ?_
  have hfuel₁ : 2 * ts₁.length + 2 ≤ fuel := by
    rw [ha, List.length_append] at hfuel
    omega
  refine (walks_onScan (parseAtomicTerm_reads s₁.comp hup₁ hfuel₁)).bind_ends
    fun bit s₂ ts₂ _ hup₂ hun₂ => ?_
  refine (walks_expectSemicolon hup₂).bind_ends fun _ s₃ ts₃ _ hup₃ hun₃ => ?_
  refine (walks_enforce env addr hup₃).bind_ends fun _ s₄ ts₄ ⟨_, hperm⟩ _ hun₄ => ?_
  exact hout addr bit s₄ (((hun₁.trans hun₂).trans hun₃).trans hun₄) hperm

theorem peekCommand_settles (h : Upcoming s.scan ts) (hfuel : 2 * ts.length + 2 ≤ fuel) :
    Settles env all (do
      let addr ← onScan fun self => parseAtomicTerm self fuel
      expectSemicolon
      enforce env addr
      pure (.enforcedPeek addr)) s := by
  refine (walks_onScan (parseAtomicTerm_reads s.comp h hfuel)).bind_ends
    fun addr s₁ ts₁ _ hup₁ hun₁ => ?_
  refine (walks_expectSemicolon hup₁).bind_ends fun _ s₂ ts₂ _ hup₂ hun₂ => ?_
  refine (walks_enforce env addr hup₂).bind_ends fun _ s₃ ts₃ ⟨_, hperm⟩ _ hun₃ => ?_
  exact ⟨(hun₁.trans hun₂).trans hun₃, hperm⟩

theorem pokeCommand_settles (h : Upcoming s.scan ts) (hfuel : 2 * ts.length + 2 ≤ fuel) :
    Settles env all (do
      let addr ← onScan fun self => parseAtomicTerm self fuel
      let val ← onScan fun self => evalExpr self fuel none
      expectSemicolon
      enforce env addr
      pure (.enforcedPoke addr val)) s := by
  refine (walks_onScan (parseAtomicTerm_reads s.comp h hfuel)).bind_ends
    fun addr s₁ ts₁ ⟨a, ha⟩ hup₁ hun₁ => ?_
  have hfuel₁ : 2 * ts₁.length + 2 ≤ fuel := by
    rw [ha, List.length_append] at hfuel
    omega
  refine (walks_onScan (evalExpr_reads s₁.comp hup₁ hfuel₁)).bind_ends
    fun val s₂ ts₂ _ hup₂ hun₂ => ?_
  refine (walks_expectSemicolon hup₂).bind_ends fun _ s₃ ts₃ _ hup₃ hun₃ => ?_
  refine (walks_enforce env addr hup₃).bind_ends fun _ s₄ ts₄ ⟨_, hperm⟩ _ hun₄ => ?_
  exact ⟨((hun₁.trans hun₂).trans hun₃).trans hun₄, hperm⟩

theorem parseCommand_settles (id : List Byte) (hok : TablesOk env.code s.comp)
    (h : Upcoming s.scan ts) (hfuel : 2 * ts.length + 4 ≤ fuel) :
    Settles env (.identifier id :: ts) (parseCommand env fuel id) s := by
  refine parseCommand_cases (P := fun x => Settles env (.identifier id :: ts) x s)
    ?peek ?poke ?cap ?bit ?bare ?name
  case peek => exact fun _ => peekCommand_settles h (by omega)
  case poke => exact fun _ => pokeCommand_settles h (by omega)
  case cap =>
    rintro outcome (⟨-, rfl⟩ | ⟨-, rfl⟩)
    · exact parseCapCommand_settles h fun _ _ hun => hun
    · exact parseCapCommand_settles h fun _ _ hun => hun
  case bit =>
    rintro outcome (⟨-, rfl⟩ | ⟨-, rfl⟩)
    · exact parseBitCommand_settles h (by omega) fun _ _ _ hun hperm => ⟨hun, hperm⟩
    · exact parseBitCommand_settles h (by omega) fun _ _ _ hun hperm => ⟨hun, hperm⟩
  case bare =>
    rintro outcome (⟨-, rfl⟩ | ⟨-, rfl⟩ | ⟨-, rfl⟩)
    · exact parseBareCommand_settles h fun _ hun => hun
    · exact parseBareCommand_settles h fun _ hun => hun
    · exact parseBareCommand_settles h fun _ hun => hun
  case name =>
    intro hid
    obtain ⟨s₁, hpeek, hup₁, hbus₁, hcomp₁⟩ := peekTok_upcoming h
    refine Ends.step hpeek ?_
    split
    · rename_i hparen
      exact (callStmt_settles (hcomp₁ ▸ hok) hid hparen hup₁).of_moved ⟨hcomp₁, hbus₁⟩
    · exact (parseValueStmt_settles _ hup₁ hfuel).of_moved ⟨hcomp₁, hbus₁⟩

/-- Every line is accepted or rejected. -/
theorem parseLine_settles {n : Nat} (hok : TablesOk env.code s.comp)
    (hnames : ∀ id, Token.identifier id ∈ ts → Lexer.IsName id) (h : Upcoming s.scan ts)
    (hfuel : 2 * ts.length + 4 ≤ fuel) (hn : ts.length < n) :
    Settles env ts (parseLine env fuel n) s := by
  unfold parseLine
  cases ts with
  | nil =>
      refine (walks_nextTok h).bind_ends fun t s₁ ts₁ ⟨ht, _⟩ _ _ => ?_
      subst ht
      exact ends_fail _
  | cons t ts =>
      obtain ⟨s₁, hnext, hup₁, hbus₁, hcomp₁⟩ := nextTok_cons h
      refine Ends.step hnext ?_
      have hm : Moved s s₁ := ⟨hcomp₁, hbus₁⟩
      rw [← hcomp₁] at hok
      simp only [List.length_cons] at hfuel hn
      refine Settles.of_moved hm ?_
      cases t with
      | eof => exact ends_fail _
      | kwLet => exact parseLet_settles hup₁ (by omega)
      | kwFn =>
          refine (parseFn_ends env hok (fun id hid => hnames id (List.mem_cons_of_mem _ hid)) hup₁
            (by omega) (by omega)).mono ?_ fun _ _ he => he
          rintro _ s' ⟨name, rfl, hq, hd, _⟩
          exact ⟨hq, hd⟩
      | identifier id => exact parseCommand_settles id hok hup₁ (by omega)
      | literal v => exact parseValueStmt_settles _ hup₁ (by omega)
      | operator b => exact parseValueStmt_settles _ hup₁ (by omega)
      | lParen => exact parseValueStmt_settles _ hup₁ (by omega)
      | error msg => exact ends_fail _
      | _ => exact ends_fail _

end Statements

/-! ### Whole lines -/

/-- The frame `parse` starts in. -/
def Frame.start (c : Compiler) (bus : Bus) (line : List Byte) : Frame := ⟨c, Scan.start line bus⟩

@[simp] theorem Frame.start_comp (c : Compiler) (bus : Bus) (line : List Byte) :
    (Frame.start c bus line).comp = c := rfl

@[simp] theorem Frame.start_bus (c : Compiler) (bus : Bus) (line : List Byte) :
    (Frame.start c bus line).scan.bus = bus := rfl

/-- What a parsed line left, as a frame. -/
def Parsed.frame (p : Parsed) : Frame := ⟨p.comp, p.scan⟩

theorem parse_start (env : Env) (c : Compiler) (bus : Bus) (line : List Byte) :
    c.parse env bus line =
      match parseLine env (evalFuel line) (bodyFuel line) (Frame.start c bus line) with
      | .ok o s => ⟨.ok o, s.comp, s.scan⟩
      | .error e s => ⟨.error e, s.comp, s.scan⟩ := rfl

end Parser

open HolyRust.Parser (Env Frame Accepted Rejected)

/-- Over well-formed tables `parse` never panics and never runs out of budget:
it accepts the line or reports one of its errors and changes nothing. -/
theorem Compiler.parse_spec {env : Env} {c : Compiler} (hok : c.TablesOk env.code) (bus : Bus)
    (line : List Byte) :
    match (c.parse env bus line).result with
    | .ok o => Accepted env (Lexer.new line).toks (Frame.start c bus line)
        (c.parse env bus line).frame o
    | .error e => Rejected (Frame.start c bus line) e (c.parse env bus line).frame := by
  have hlen := Lexer.length_toks_le (Lexer.new line)
  rw [Lexer.rest_new] at hlen
  have hsettles := Parser.parseLine_settles (s := Frame.start c bus line) hok
    (fun id hid => Lexer.isName_of_mem_toks hid) (Parser.upcoming_start line bus)
    (show 2 * (Lexer.new line).toks.length + 4 ≤ Parser.evalFuel line by
      unfold Parser.evalFuel; omega)
    (show (Lexer.new line).toks.length < Parser.bodyFuel line by unfold Parser.bodyFuel; omega)
  unfold Parser.Settles Ends at hsettles
  rw [Parser.parse_start]
  cases hrun : Parser.parseLine env (Parser.evalFuel line) (Parser.bodyFuel line)
      (Frame.start c bus line) with
  | ok o s' =>
      rw [hrun] at hsettles
      exact hsettles
  | error e s' =>
      rw [hrun] at hsettles
      exact hsettles

end HolyRust
