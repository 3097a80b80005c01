import HolyRust.Compiler.Sessions

/-!
A rejected line leaves no trace.

Rejection keeps the symbol and function tables (`parse_spec`), but it may leave
other words in the scratch stream. That they are never seen is an argument about
two runs.

* `Uniform I x J` — from frames related by `I` the computation `x` ends alike,
  in frames related by `J`. Before the stream is reset the frames agree on the
  tables (`Alike`), from then on also on the emitted words (`Twins`).
* `parse_sameTables` — compilers with the same tables answer every line alike.
* `rejected_line_leaves_no_trace` — so later lines go as if the rejected one had
  never been parsed.
-/

namespace HolyRust.Parser

open Fallible (Paired paired_pure paired_throw paired_get)
open Compiler (SameTables TablesOk)

/-! ### Expressions see the symbols only -/

/-- The expression functions on the budget `n` are the same under both
compilers. -/
structure SameExprs (c c' : Compiler) (n : Nat) : Prop where
  resolve : resolveTerm c' n = resolveTerm c n
  atomic : parseAtomicTerm c' n = parseAtomicTerm c n
  expr : evalExpr c' n = evalExpr c n
  tail : evalTail c' n = evalTail c n

theorem sameExprs {c c' : Compiler} (h : c'.symbols = c.symbols) (n : Nat) : SameExprs c c' n := by
  induction n with
  | zero =>
      refine ⟨funext fun _ => ?_, ?_, funext fun _ => ?_, funext fun _ => ?_⟩
      · rw [resolveTerm, resolveTerm]
      · rw [parseAtomicTerm, parseAtomicTerm]
      · rw [evalExpr, evalExpr]
      · rw [evalTail, evalTail]
  | succ n ih =>
      have hlookup : lookupSymbol c' = lookupSymbol c := by
        unfold lookupSymbol
        rw [h]
      have hterm : termAfter c' n = termAfter c n := by
        unfold termAfter
        rw [ih.expr, ih.resolve]
      refine ⟨funext fun tok => ?_, ?_, funext fun first => ?_, funext fun acc => ?_⟩
      · simp only [resolveTerm, ih.atomic, hlookup]
      · rw [parseAtomicTerm_succ, parseAtomicTerm_succ, hterm]
      · cases first with
        | none => rw [evalExpr_succ_none, evalExpr_succ_none, hterm, ih.tail]
        | some t => rw [evalExpr_succ_some, evalExpr_succ_some, hterm, ih.tail]
      · have hnext : foldNext c' n = foldNext c n := by
          unfold foldNext
          rw [hterm, ih.tail]
        rw [evalTail_succ, evalTail_succ, hnext]

/-! ### Two frames side by side -/

/-- The same cursor, bus and tables. -/
structure Alike (s t : Frame) : Prop where
  scan : t.scan = s.scan
  tables : SameTables s.comp t.comp

/-- Alike, and the same words emitted so far. -/
structure Twins (s t : Frame) : Prop extends Alike s t where
  len : t.comp.streamLen = s.comp.streamLen
  scratch : t.comp.scratch = s.comp.scratch

/-- From frames in `I` the computation returns the same value into frames in
`J`, or stops with the same error and tables that agree. -/
def Uniform {α : Type} (I : Frame → Frame → Prop) (x : ParseM α) (J : Frame → Frame → Prop) :
    Prop :=
  ∀ s t, I s t → Paired x x s t (fun a s' b t' => b = a ∧ J s' t') Alike

section Rules

variable {α β : Type} {I J K : Frame → Frame → Prop} {x : ParseM α} {f : α → ParseM β}

theorem uniform_pure (a : α) : Uniform I (pure a) I := fun _ _ h => paired_pure ⟨rfl, h⟩

theorem uniform_throw (hI : ∀ s t, I s t → Alike s t) (e : Stop) :
    Uniform I (throw e : ParseM α) J := fun s t h => paired_throw (hI s t h)

theorem Uniform.bind (hx : Uniform I x J) (hf : ∀ a, Uniform J (f a) K) :
    Uniform I (x >>= f) K := by
  intro s t h
  refine (hx s t h).bind ?_
  rintro a s' _ t' ⟨rfl, hj⟩
  exact hf _ s' t' hj

theorem Uniform.weaken (hx : Uniform I x J) (hJ : ∀ s t, J s t → K s t) : Uniform I x K := by
  intro s t h
  refine (hx s t h).mono ?_ fun _ _ he => he
  rintro a s' b t' ⟨hb, hj⟩
  exact ⟨hb, hJ _ _ hj⟩

/-- The two relations frames are in; what holds under either holds for both. -/
inductive Level : (Frame → Frame → Prop) → Prop where
  | alike : Level Alike
  | twins : Level Twins

variable (hI : Level I)

include hI

theorem Level.alike_of {s t : Frame} (h : I s t) : Alike s t := by
  cases hI with
  | alike => exact h
  | twins => exact h.toAlike

theorem Level.setScan {s t : Frame} (h : I s t) (scan : Scan) :
    I { s with scan := scan } { t with scan := scan } := by
  cases hI with
  | alike => exact ⟨rfl, h.tables⟩
  | twins => exact ⟨⟨rfl, h.tables⟩, h.len, h.scratch⟩

theorem uniform_fail (e : ParseError) : Uniform I (fail e : ParseM α) J :=
  uniform_throw (fun _ _ => hI.alike_of) _

/-- Scanning is uniform if it sees no more of the compiler than its symbols. -/
theorem uniform_onScan {g : Compiler → EvalM α}
    (hg : ∀ c c' : Compiler, c'.symbols = c.symbols → g c' = g c) : Uniform I (onScan g) I := by
  intro s t h
  have halike := hI.alike_of h
  unfold Paired onScan
  rw [halike.scan, hg _ _ halike.tables.symbols]
  cases g s.comp s.scan with
  | ok a scan => exact ⟨rfl, hI.setScan h scan⟩
  | error e scan => exact ⟨rfl, rfl, halike.tables⟩

theorem uniform_nextTok : Uniform I nextTok I := uniform_onScan hI fun _ _ _ => rfl

theorem uniform_peekTok : Uniform I peekTok I := uniform_onScan hI fun _ _ _ => rfl

theorem uniform_evalExpr (n : Nat) (first : Option Token) :
    Uniform I (onScan fun self => evalExpr self n first) I :=
  uniform_onScan hI fun _ _ h => congrFun (sameExprs h n).expr first

theorem uniform_parseAtomicTerm (n : Nat) :
    Uniform I (onScan fun self => parseAtomicTerm self n) I :=
  uniform_onScan hI fun _ _ h => (sameExprs h n).atomic

theorem uniform_expect (tok : Token) : Uniform I (expect tok) I := by
  refine (uniform_nextTok hI).bind fun t => ?_
  split
  · exact uniform_pure _
  · exact uniform_fail hI _

theorem uniform_expectName : Uniform I expectName I := by
  refine (uniform_nextTok hI).bind fun t => ?_
  split
  · split
    · exact uniform_pure _
    · exact uniform_fail hI _
  · exact uniform_fail hI _

theorem uniform_expectSemicolon : Uniform I expectSemicolon I := by
  refine (uniform_nextTok hI).bind fun t => ?_
  split
  · exact uniform_pure _
  · exact uniform_pure _
  · exact uniform_fail hI _

theorem uniform_enforce (env : Env) (addr : Word) : Uniform I (enforce env addr) I := by
  unfold enforce
  split
  · exact uniform_pure _
  · exact uniform_fail hI _

theorem uniform_callParens : Uniform I callParens I :=
  (uniform_nextTok hI).bind fun _ => uniform_expect hI _

theorem uniform_findFn (name : List Byte) : Uniform I (findFn name) I := by
  intro s t h
  unfold findFn
  refine paired_get ?_
  rw [(hI.alike_of h).tables.findFn]
  split
  · exact uniform_pure _ s t h
  · exact uniform_fail hI _ s t h

end Rules

/-! ### The scratch stream -/

theorem uniform_streamReset : Uniform Alike streamReset Twins :=
  fun _ _ h => ⟨rfl, ⟨h.scan, h.tables.symbols, h.tables.fnNames, h.tables.fnBodies,
    h.tables.fnBodyLens⟩, rfl, rfl⟩

theorem uniform_streamPush (w : Word) : Uniform Twins (streamPush w) Twins := by
  intro s t h
  by_cases hroom : s.comp.streamLen < maxStreamWords
  · obtain ⟨s', hs, es⟩ := streamPush_room (s := s) w hroom
    obtain ⟨t', ht, et⟩ := streamPush_room (s := t) w (h.len ▸ hroom)
    unfold Paired
    rw [hs, ht]
    refine ⟨rfl, ⟨?_, es.tables.symm.trans (h.tables.trans et.tables)⟩, ?_, ?_⟩
    · rw [es.scan, et.scan, h.scan]
    · rw [es.len, et.len, h.len]
    · rw [es.scratch, et.scratch, h.scratch]
  · unfold Paired streamPush
    rw [dif_neg hroom, dif_neg (h.len ▸ hroom)]
    exact ⟨rfl, h.toAlike⟩

theorem uniform_pushBody (body : Vector Word fnBodyWords) (ws : List Nat) :
    Uniform Twins (pushBody body ws) Twins := by
  induction ws with
  | nil => exact uniform_pure _
  | cons w ws ih =>
      unfold pushBody
      split
      · exact (uniform_streamPush _).bind fun _ => ih
      · exact uniform_throw (fun _ _ h => h.toAlike) _

/-- Copies of the same words onto the same array are the same. -/
theorem copyPrefix_congr {n m : Nat} {dst : Vector Word n} {src src' : Vector Word m} {len : Nat}
    (h : src'.toList.take len = src.toList.take len) :
    copyPrefix dst src' len = copyPrefix dst src len := by
  unfold copyPrefix
  split
  · rename_i hlen
    congr 1
    refine Vector.ext fun i hi => ?_
    simp only [Vector.getElem_ofFn]
    split
    · rename_i hlt
      have hget := congrArg (·[i]?) h
      simpa [List.getElem?_take, hlt, show i < m by omega] using hget
    · rfl
  · rfl

theorem Twins.words {s t : Frame} (h : Twins s t) :
    t.comp.stream.toList.take s.comp.streamLen = s.comp.stream.toList.take s.comp.streamLen := by
  have hscratch := h.scratch
  unfold Compiler.scratch at hscratch
  rwa [h.len] at hscratch

theorem uniform_takeProgram (yields : Bool) : Uniform Twins (takeProgram yields) Twins := by
  intro s t h
  unfold takeProgram
  refine paired_get ?_
  rw [h.len, copyPrefix_congr h.words]
  cases copyPrefix (Vector.replicate maxStreamWords 0#32) s.comp.stream s.comp.streamLen with
  | some words => exact uniform_pure _ s t h
  | none => exact uniform_throw (fun _ _ h => h.toAlike) _ s t h

theorem uniform_streamPushLit (env : Env) (v : Word) :
    Uniform Twins (streamPushLit env v) Twins :=
  (uniform_streamPush _).bind fun _ => uniform_streamPush _

theorem uniform_buildValueProgram (env : Env) (v : Word) :
    Uniform Alike (buildValueProgram env v) Twins :=
  uniform_streamReset.bind fun _ => (uniform_streamPushLit env v).bind fun _ =>
    (uniform_streamPush _).bind fun _ => uniform_takeProgram _

theorem uniform_spliceCall (name : List Byte) : Uniform Twins (spliceCall name) Twins := by
  refine (uniform_findFn .twins name).bind fun i s t h => ?_
  refine paired_get ?_
  rw [h.tables.fnBody, h.tables.fnBodyLen]
  exact uniform_pushBody _ _ s t h

theorem uniform_buildCallProgram (env : Env) (name : List Byte) :
    Uniform Alike (buildCallProgram env name) Twins := by
  refine (uniform_findFn .alike name).bind fun i => uniform_streamReset.bind fun _ s t h => ?_
  refine paired_get ?_
  rw [h.tables.fnBody, h.tables.fnBodyLen]
  exact ((uniform_pushBody _ _).bind fun _ => (uniform_streamPush _).bind fun _ =>
    uniform_takeProgram _) s t h

/-! ### Statements -/

theorem uniform_parseLet (fuel : Nat) : Uniform Alike (parseLet fuel) Alike := by
  refine (uniform_expectName .alike).bind fun name => (uniform_expect .alike _).bind fun _ =>
    (uniform_evalExpr .alike _ _).bind fun value => (uniform_expectSemicolon .alike).bind
      fun _ s t h => ?_
  refine paired_get ?_
  rw [h.tables.symbols]
  cases s.comp.symbols.insertSymbol name value with
  | none => exact uniform_throw (fun _ _ h => h) _ s t h
  | some r =>
      cases r with
      | error e => exact uniform_fail .alike e s t h
      | ok symbols =>
          exact ⟨rfl, h.scan, rfl, h.tables.fnNames, h.tables.fnBodies, h.tables.fnBodyLens⟩

theorem uniform_parseBodyStmt (env : Env) (fuel : Nat) :
    Uniform Twins (parseBodyStmt env fuel) Twins := by
  refine (uniform_nextTok .twins).bind fun tok => ?_
  cases tok with
  | identifier id =>
      refine dite (id = bytes "poke") (fun hid => ?_) fun hid => ?_
      · simp only [hid, if_true]
        exact (uniform_parseAtomicTerm .twins _).bind fun _ =>
          (uniform_evalExpr .twins _ _).bind fun _ => (uniform_expectSemicolon .twins).bind fun _ =>
          (uniform_enforce .twins env _).bind fun _ => (uniform_streamPushLit env _).bind fun _ =>
          (uniform_streamPushLit env _).bind fun _ => uniform_streamPush _
      · simp only [hid, if_false]
        split
        · exact (uniform_parseAtomicTerm .twins _).bind fun _ =>
            (uniform_expectSemicolon .twins).bind fun _ =>
            (uniform_enforce .twins env _).bind fun _ => (uniform_streamPushLit env _).bind fun _ =>
            uniform_streamPush _
        · refine (uniform_peekTok .twins).bind fun tok => ?_
          split
          · exact (uniform_callParens .twins).bind fun _ => (uniform_expectSemicolon .twins).bind
              fun _ => uniform_spliceCall id
          · exact (uniform_evalExpr .twins _ _).bind fun _ => uniform_expectSemicolon .twins
  | _ => exact uniform_fail .twins _

theorem uniform_parseBody (env : Env) (fuel : Nat) :
    ∀ n, Uniform Twins (parseBody env fuel n) Twins := by
  intro n
  induction n with
  | zero => exact uniform_throw (fun _ _ h => h.toAlike) _
  | succ n ih =>
      refine (uniform_peekTok .twins).bind fun tok => ?_
      split
      · exact (uniform_nextTok .twins).bind fun _ => uniform_pure _
      · exact uniform_fail .twins _
      · exact (uniform_parseBodyStmt env fuel).bind fun _ => ih

theorem Twins.allocFnSlot {s t : Frame} (h : Twins s t) (name : NameBuf) :
    t.comp.allocFnSlot name = s.comp.allocFnSlot name := by
  unfold Compiler.allocFnSlot
  rw [h.tables.findFn, h.tables.fnName]

theorem uniform_storeFn (name : NameBuf) : Uniform Twins (storeFn name) Alike := by
  intro s t h
  unfold storeFn
  refine paired_get ?_
  rw [h.len]
  split
  · exact uniform_fail .twins _ s t h
  · rw [h.allocFnSlot]
    cases s.comp.allocFnSlot name with
    | error e => exact uniform_fail .twins e s t h
    | ok i =>
        have hcopy : copyPrefix (t.comp.fnBody i) t.comp.stream s.comp.streamLen =
            copyPrefix (s.comp.fnBody i) s.comp.stream s.comp.streamLen := by
          rw [h.tables.fnBody]
          exact copyPrefix_congr h.words
        simp only [hcopy]
        cases copyPrefix (s.comp.fnBody i) s.comp.stream s.comp.streamLen with
        | none => exact uniform_throw (fun _ _ h => h.toAlike) _ s t h
        | some body =>
            refine ⟨rfl, h.scan, h.tables.symbols, ?_, ?_, ?_⟩
            · exact congrArg (·.set i name) h.tables.fnNames
            · exact congrArg (·.set i body) h.tables.fnBodies
            · exact congrArg (·.set i s.comp.streamLen) h.tables.fnBodyLens

theorem uniform_parseFn (env : Env) (fuel n : Nat) : Uniform Alike (parseFn env fuel n) Alike :=
  (uniform_expectName .alike).bind fun name => (uniform_expect .alike _).bind fun _ =>
    (uniform_expect .alike _).bind fun _ => (uniform_expect .alike _).bind fun _ =>
    uniform_streamReset.bind fun _ => (uniform_parseBody env fuel n).bind fun _ =>
    uniform_storeFn name

theorem uniform_parseValueStmt (env : Env) (fuel : Nat) (tok : Token) :
    Uniform Alike (parseValueStmt env fuel tok) Alike :=
  (uniform_evalExpr .alike _ _).bind fun _ => (uniform_expectSemicolon .alike).bind fun _ =>
    ((uniform_buildValueProgram env _).weaken fun _ _ h => h.toAlike).bind fun _ => uniform_pure _

theorem uniform_parseCapCommand (outcome : NameBuf → Outcome) :
    Uniform Alike (parseCapCommand outcome) Alike :=
  (uniform_expectName .alike).bind fun _ => (uniform_expectSemicolon .alike).bind fun _ =>
    uniform_pure _

theorem uniform_parseBitCommand (env : Env) (fuel : Nat) (outcome : Word → Word → Outcome) :
    Uniform Alike (parseBitCommand env fuel outcome) Alike :=
  (uniform_parseAtomicTerm .alike _).bind fun _ => (uniform_parseAtomicTerm .alike _).bind fun _ =>
    (uniform_expectSemicolon .alike).bind fun _ => (uniform_enforce .alike env _).bind fun _ =>
    uniform_pure _

theorem uniform_parseBareCommand (outcome : Outcome) :
    Uniform Alike (parseBareCommand outcome) Alike := by
  refine Uniform.bind (J := Alike) ((uniform_peekTok .alike).bind fun tok => ?_) fun _ =>
    uniform_pure _
  split
  · exact (uniform_nextTok .alike).bind fun _ => uniform_pure _
  · exact uniform_pure _

theorem uniform_parseCommand (env : Env) (fuel : Nat) (id : List Byte) :
    Uniform Alike (parseCommand env fuel id) Alike := by
  refine parseCommand_cases (P := fun x => Uniform Alike x Alike) ?peek ?poke ?cap ?bit ?bare ?name
  case peek =>
    exact fun _ => (uniform_parseAtomicTerm .alike _).bind fun _ =>
      (uniform_expectSemicolon .alike).bind fun _ => (uniform_enforce .alike env _).bind
      fun _ => uniform_pure _
  case poke =>
    exact fun _ => (uniform_parseAtomicTerm .alike _).bind fun _ =>
      (uniform_evalExpr .alike _ _).bind fun _ => (uniform_expectSemicolon .alike).bind fun _ =>
      (uniform_enforce .alike env _).bind fun _ => uniform_pure _
  case cap => exact fun outcome _ => uniform_parseCapCommand outcome
  case bit => exact fun outcome _ => uniform_parseBitCommand env fuel outcome
  case bare => exact fun outcome _ => uniform_parseBareCommand outcome
  case name =>
    refine fun _ => (uniform_peekTok .alike).bind fun tok => ?_
    split
    · exact (uniform_callParens .alike).bind fun _ => (uniform_expectSemicolon .alike).bind
        fun _ => ((uniform_buildCallProgram env id).weaken fun _ _ h => h.toAlike).bind
        fun _ => uniform_pure _
    · exact uniform_parseValueStmt env fuel _

theorem uniform_parseLine (env : Env) (fuel n : Nat) :
    Uniform Alike (parseLine env fuel n) Alike := by
  refine (uniform_nextTok .alike).bind fun tok => ?_
  cases tok with
  | eof => exact uniform_fail .alike _
  | kwLet => exact uniform_parseLet fuel
  | kwFn => exact uniform_parseFn env fuel n
  | identifier id => exact uniform_parseCommand env fuel id
  | literal v => exact uniform_parseValueStmt env fuel _
  | operator b => exact uniform_parseValueStmt env fuel _
  | lParen => exact uniform_parseValueStmt env fuel _
  | error msg => exact uniform_fail .alike _
  | _ => exact uniform_fail .alike _

/-- Compilers with the same tables answer a line alike. -/
theorem parse_sameTables {c c' : Compiler} (h : SameTables c c') (env : Env) (bus : Bus)
    (line : List Byte) :
    (c'.parse env bus line).result = (c.parse env bus line).result ∧
      SameTables (c.parse env bus line).comp (c'.parse env bus line).comp := by
  have hpair := uniform_parseLine env (evalFuel line) (bodyFuel line) (Frame.start c bus line)
    (Frame.start c' bus line) ⟨rfl, h⟩
  unfold Paired Frame.start at hpair
  unfold Compiler.parse
  cases hs : parseLine env (evalFuel line) (bodyFuel line) ⟨c, Scan.start line bus⟩ <;>
    cases ht : parseLine env (evalFuel line) (bodyFuel line) ⟨c', Scan.start line bus⟩ <;>
      simp only [hs, ht] at hpair ⊢
  · exact ⟨by rw [hpair.1], hpair.2.tables⟩
  · exact ⟨by rw [hpair.1], hpair.2.tables⟩

end HolyRust.Parser

/-! ### Sessions -/

namespace HolyRust.Sessions

open HolyRust.Parser (Quiet parse_sameTables)
open Compiler (SameTables)

/-- A line and the registry and memory it meets. -/
structure Entry where
  registry : Registry
  bus : Bus
  line : List Byte

/-- What the lines are answered, in order, and the compiler after them. -/
def parseAll (t : Target) (code : CodeMap) :
    Compiler → List Entry → List (Except Stop Outcome) × Compiler
  | c, [] => ([], c)
  | c, e :: es =>
      let parsed := c.parse ⟨t, code, e.registry⟩ e.bus e.line
      let (answers, final) := parseAll t code parsed.comp es
      (parsed.result :: answers, final)

/-- Sessions from compilers with the same tables are the same. -/
theorem parseAll_sameTables {t : Target} {code : CodeMap} : ∀ (es : List Entry) {c c' : Compiler},
    SameTables c c' → (parseAll t code c' es).1 = (parseAll t code c es).1 ∧
      SameTables (parseAll t code c es).2 (parseAll t code c' es).2 := by
  intro es
  induction es with
  | nil => exact fun h => ⟨rfl, h⟩
  | cons e es ih =>
      intro c c' h
      obtain ⟨hres, hsame⟩ := parse_sameTables h ⟨t, code, e.registry⟩ e.bus e.line
      obtain ⟨hanswers, hfinal⟩ := ih hsame
      exact ⟨by simp only [parseAll, hres, hanswers], hfinal⟩

/-- After a line that was rejected, every session goes as it would have gone
without it; and no line, rejected or not, writes memory while it is parsed. -/
theorem rejected_line_leaves_no_trace {t : Target} {code : CodeMap} {c : Compiler}
    (h : Reachable t code c) (registry : Registry) (bus : Bus) (line : List Byte) :
    (∀ e, (c.parse ⟨t, code, registry⟩ bus line).result = .error e → ∀ later : List Entry,
      (parseAll t code (c.parse ⟨t, code, registry⟩ bus line).comp later).1 =
          (parseAll t code c later).1 ∧
        SameTables (parseAll t code c later).2
          (parseAll t code (c.parse ⟨t, code, registry⟩ bus line).comp later).2) ∧
    Quiet bus (c.parse ⟨t, code, registry⟩ bus line).scan.bus := by
  refine ⟨fun e he later => ?_, parse_quiet ⟨t, code, registry⟩ h.tablesOk bus line⟩
  have hsame := (rejected ⟨t, code, registry⟩ h.tablesOk he).2.tables
  exact parseAll_sameTables later hsame

/-- The stream had been partly overwritten when this definition was rejected. -/
theorem rejected_definition_leaves_no_trace :
    (parseAll .arm .sample
        ((after "let x = 5;").parse sampleEnv blank (bytes "fn f() { poke x 1; y; }")).comp
        [⟨Registry.free, blank, bytes "x;"⟩]).1 =
      (parseAll .arm .sample (after "let x = 5;") [⟨Registry.free, blank, bytes "x;"⟩]).1 := by
  have hrejected : ((after "let x = 5;").parse sampleEnv blank
      (bytes "fn f() { poke x 1; y; }")).result = .error (.error .capabilityViolation) := by
    decide +kernel
  exact ((rejected_line_leaves_no_trace (reachable_after _) _ _ _).1 _ hrejected _).1

end HolyRust.Sessions
