import HolyRust.Compiler.Sessions

/-!
Every line is parsed in linear time, and up to the end of its first statement.

No token of the input is lexed twice, so only the `eof` at the end can make the
calls of `next_token` outnumber the tokens. It is taken at most once, and looked
at once more by a function body that ends there.

* `Within b s ts` — before the tokens `ts`, the calls made and still to be made
  for them are at most `b`.
* `Takes k x` — `x` takes at least `k` tokens of whatever is there, none of them
  the end of a statement, or it stops, at the latest at the `eof`.
* `EndsAs L x` — `x` ends a statement, at the semicolon or at the closing brace.
* `parseLine_closes` — an accepted line leaves the tokens `behind` its statement.
* `parse_total` — a line never panics and costs at most two calls more than it
  has bytes.
-/

namespace HolyRust.Parser

open Fallible (Ends)

/-- The lexer calls behind and ahead of `s`, which is about to give `ts`: one for
each token not looked at yet. -/
def Within (b : Nat) (s : Scan) (ts : List Token) : Prop :=
  Upcoming s ts ∧ s.calls + ts.length + (if s.ahead = none then 1 else 0) ≤ b

theorem Within.calls_le {b : Nat} {s : Scan} {ts : List Token} (h : Within b s ts) :
    s.calls ≤ b := by
  have := h.2
  omega

theorem within_start (line : List Byte) (bus : Bus) :
    Within ((Lexer.new line).toks.length + 1) (Scan.start line bus) (Lexer.new line).toks :=
  ⟨upcoming_start line bus, by simp [Scan.start]⟩

/-- A step of the cursor over one token costs nothing. -/
theorem next_within {b : Nat} {s : Scan} {t : Token} {ts : List Token}
    (h : Within b s (t :: ts)) : ∃ s', Cur.next s = .ok t s' ∧ Within b s' ts := by
  obtain ⟨hup, hle⟩ := h
  rcases s with ⟨lx, ahead, calls, bus⟩
  generalize hall : t :: ts = all at hup
  cases hup with
  | lexer =>
      rcases lx.nextToken_cases with ⟨lx', heq, _⟩ | ⟨t', lx', heq, hne, _⟩
      · rw [Lexer.toks_of_eof heq] at hall
        cases hall
      · rw [Lexer.toks_of_token heq hne] at hall
        obtain ⟨rfl, rfl⟩ := List.cons.inj hall
        refine ⟨⟨lx', none, calls + 1, bus⟩, by simp [Cur.next, Cur.lexToken, heq],
          .lexer lx' _ _, ?_⟩
        simp only [List.length_cons, if_true] at hle ⊢
        omega
  | ahead hne =>
      obtain ⟨rfl, rfl⟩ := List.cons.inj hall
      refine ⟨⟨lx, none, calls, bus⟩, rfl, .lexer lx _ _, ?_⟩
      simpa [Nat.add_assoc] using hle
  | ended => cases hall

/-- Taking the `eof` costs one call. -/
theorem next_within_eof {b : Nat} {s : Scan} (h : Within b s []) :
    ∃ s', Cur.next s = .ok .eof s' ∧ Within (b + 1) s' [] := by
  obtain ⟨hup, hle⟩ := h
  rcases s with ⟨lx, ahead, calls, bus⟩
  generalize hall : ([] : List Token) = all at hup
  cases hup with
  | lexer =>
      rcases lx.nextToken_cases with ⟨lx', heq, htrim⟩ | ⟨t', lx', heq, hne, _⟩
      · rw [Lexer.toks_of_eof heq]
        have hup' : Upcoming ⟨lx', none, calls + 1, bus⟩ [] := by
          rw [← Lexer.toks_of_trimmed_nil htrim]
          exact .lexer lx' _ _
        refine ⟨⟨lx', none, calls + 1, bus⟩, by simp [Cur.next, Cur.lexToken, heq], hup', ?_⟩
        simp only [List.length_nil, if_true] at hle ⊢
        omega
      · rw [Lexer.toks_of_token heq hne] at hall
        cases hall
  | ahead => cases hall
  | ended hnil =>
      have hup' : Upcoming ⟨lx, none, calls, bus⟩ [] := by
        rw [← hnil]
        exact .lexer lx _ _
      exact ⟨⟨lx, none, calls, bus⟩, rfl, hup', by simpa using hle⟩

/-- Looking ahead costs nothing, and the token looked at waits. -/
theorem peek_within {b : Nat} {s : Scan} {ts : List Token} (h : Within b s ts) :
    ∃ s', Cur.peek s = .ok (first ts) s' ∧ Within b s' ts := by
  obtain ⟨hup, hle⟩ := h
  rcases s with ⟨lx, ahead, calls, bus⟩
  generalize hall : ts = all at hup
  cases hup with
  | lexer =>
      subst hall
      rcases lx.nextToken_cases with ⟨lx', heq, htrim⟩ | ⟨t', lx', heq, hne, _⟩
      · rw [Lexer.toks_of_eof heq] at hle ⊢
        refine ⟨⟨lx', some .eof, calls + 1, bus⟩, by simp [Cur.peek, Cur.lexToken, heq],
          .ended (Lexer.toks_of_trimmed_nil htrim) _ _, ?_⟩
        simpa using hle
      · rw [Lexer.toks_of_token heq hne] at hle ⊢
        refine ⟨⟨lx', some t', calls + 1, bus⟩, by simp [Cur.peek, Cur.lexToken, heq],
          .ahead hne lx' _ _, ?_⟩
        simp only [List.length_cons, if_true, reduceCtorEq, if_false] at hle ⊢
        omega
  | ahead hne =>
      subst hall
      exact ⟨_, rfl, .ahead hne lx _ _, hle⟩
  | ended hnil =>
      subst hall
      exact ⟨_, rfl, .ended hnil _ _, hle⟩

/-! ### Taking tokens -/

/-- The tokens that end a statement or a body. -/
def Closing (t : Token) : Prop := t = .semicolon ∨ t = .rBrace ∨ t = .eof

/-- `rest` is `ts` without at least `k` tokens at its head, none of which ends a
statement. -/
def Taken (k : Nat) (ts rest : List Token) : Prop :=
  ∃ used, ts = used ++ rest ∧ k ≤ used.length ∧ ∀ t ∈ used, ¬ Closing t

theorem Taken.refl (ts : List Token) : Taken 0 ts ts :=
  ⟨[], rfl, Nat.le_refl _, by simp⟩

theorem Taken.trans {j k : Nat} {ts mid rest : List Token} (h : Taken j ts mid)
    (h' : Taken k mid rest) : Taken (j + k) ts rest := by
  obtain ⟨used, rfl, hlen, hinner⟩ := h
  obtain ⟨used', rfl, hlen', hinner'⟩ := h'
  refine ⟨used ++ used', by simp, by simp only [List.length_append]; omega, fun t ht => ?_⟩
  rcases List.mem_append.mp ht with ht | ht
  · exact hinner t ht
  · exact hinner' t ht

theorem Taken.mono {j k : Nat} {ts rest : List Token} (h : Taken k ts rest) (hle : j ≤ k) :
    Taken j ts rest := by
  obtain ⟨used, heq, hlen, hinner⟩ := h
  exact ⟨used, heq, Nat.le_trans hle hlen, hinner⟩

theorem taken_one {t : Token} (ht : ¬ Closing t) (ts : List Token) : Taken 1 (t :: ts) ts :=
  ⟨[t], rfl, Nat.le_refl _, by simpa using ht⟩

theorem Taken.length_le {k : Nat} {ts rest : List Token} (h : Taken k ts rest) :
    rest.length + k ≤ ts.length := by
  obtain ⟨used, rfl, hlen, _⟩ := h
  simp only [List.length_append]
  omega

section Takes

variable {σ : Type} (scan : σ → Scan) {α β : Type}

/-- A stop at the latest at the `eof`, or one token behind it in a body. -/
def Overrun (b : Nat) (s' : σ) : Prop := (scan s').calls ≤ b + 1

/-- `x` takes `k` tokens at least, and none that ends a statement unless it stops
there. -/
def Takes (k : Nat) (x : EStateM Stop σ α) : Prop :=
  ∀ b s ts, Within b (scan s) ts →
    Ends x s (fun _ s' => ∃ rest, Taken k ts rest ∧ Within b (scan s') rest)
      fun _ => Overrun scan b

/-- `x` stops where it stands. -/
def Stops (x : EStateM Stop σ α) : Prop := ∀ s, ∃ e, x s = .error e s

/-- `x` takes the next token. -/
structure Nexts (x : EStateM Stop σ Token) : Prop where
  token : ∀ {b s t ts}, Within b (scan s) (t :: ts) →
    ∃ s', x s = .ok t s' ∧ Within b (scan s') ts
  eof : ∀ {b s}, Within b (scan s) [] → ∃ s', x s = .ok .eof s' ∧ Within (b + 1) (scan s') []

variable {scan} {j k : Nat} {x : EStateM Stop σ α} {f : α → EStateM Stop σ β}

theorem Takes.mono (h : Takes scan k x) (hle : j ≤ k) : Takes scan j x := by
  intro b s ts hs
  refine (h b s ts hs).mono ?_ fun _ _ he => he
  rintro _ s' ⟨rest, htaken, hs'⟩
  exact ⟨rest, htaken.mono hle, hs'⟩

theorem takes_pure (a : α) : Takes scan 0 (pure a) :=
  fun _ _ ts hs => Fallible.ends_pure ⟨ts, .refl ts, hs⟩

theorem takes_throw (e : Stop) : Takes scan k (throw e : EStateM Stop σ α) :=
  fun _ _ _ hs => Fallible.ends_throw (Nat.le_succ_of_le hs.calls_le)

theorem stops_throw (e : Stop) : Stops (throw e : EStateM Stop σ α) := fun _ => ⟨e, rfl⟩

theorem Takes.bind (hx : Takes scan j x) (hf : ∀ a, Takes scan k (f a)) :
    Takes scan (j + k) (x >>= f) := by
  intro b s ts hs
  refine (hx b s ts hs).bind ?_
  rintro a s₁ ⟨ts₁, htaken₁, hs₁⟩
  refine (hf a b s₁ ts₁ hs₁).mono ?_ fun _ _ he => he
  rintro _ s' ⟨rest, htaken, hs'⟩
  exact ⟨rest, htaken₁.trans htaken, hs'⟩

theorem Takes.seq (hx : Takes scan j x) (hf : ∀ a, Takes scan 0 (f a)) :
    Takes scan 0 (x >>= f) :=
  (hx.bind hf).mono (Nat.zero_le _)

/-- A token is taken, and one that ends a statement is refused. -/
theorem Nexts.takes {next : EStateM Stop σ Token} {g : Token → EStateM Stop σ β}
    (h : Nexts scan next) (hg : ∀ t, Takes scan k (g t)) (hstop : ∀ t, Closing t → Stops (g t)) :
    Takes scan (1 + k) (next >>= g) := by
  intro b s ts hs
  rcases ts with _ | ⟨t, ts⟩
  · obtain ⟨s₁, hnext, hs₁⟩ := h.eof hs
    obtain ⟨e, hstop⟩ := hstop .eof (.inr (.inr rfl)) s₁
    refine Ends.step hnext ?_
    unfold Ends
    rw [hstop]
    exact hs₁.calls_le
  · obtain ⟨s₁, hnext, hs₁⟩ := h.token hs
    refine Ends.step hnext ?_
    by_cases ht : Closing t
    · obtain ⟨e, hstop⟩ := hstop t ht s₁
      unfold Ends
      rw [hstop]
      exact Nat.le_succ_of_le hs₁.calls_le
    · refine (hg t b s₁ ts hs₁).mono ?_ fun _ _ he => he
      rintro _ s' ⟨rest, htaken, hs'⟩
      exact ⟨rest, (taken_one ht ts).trans htaken, hs'⟩

end Takes

/-- Whatever `x` returns, it has taken a token. -/
def Progresses {σ α : Type} (scan : σ → Scan) (x : EStateM Stop σ α) : Prop :=
  ∀ s a s' ts, Upcoming (scan s) ts → x s = .ok a s' →
    ∃ ts', Upcoming (scan s') ts' ∧ ts'.length < ts.length

theorem within_of_upcoming {s : Scan} {ts : List Token} (h : Upcoming s ts) :
    Within (s.calls + ts.length + 1) s ts := by
  refine ⟨h, ?_⟩
  split <;> omega

theorem Takes.progresses {σ α : Type} {scan : σ → Scan} {x : EStateM Stop σ α}
    (h : Takes scan 1 x) : Progresses scan x := by
  intro s a s' ts hup hx
  obtain ⟨rest, htaken, hs'⟩ := (h _ s ts (within_of_upcoming hup)).of_ok hx
  exact ⟨rest, hs'.1, htaken.length_le⟩

theorem nexts_next : Nexts id Cur.next := ⟨next_within, next_within_eof⟩

/-! ### Expressions -/

section Expressions

variable (comp : Compiler)

theorem lookupSymbol_takes (id' : List Byte) : Takes id 0 (lookupSymbol comp id') := by
  unfold lookupSymbol
  split
  · exact takes_pure _
  · exact takes_throw _
  · exact takes_throw _

theorem peekU32_takes (addr : Word) : Takes id 0 (peekU32 addr) :=
  fun _ _ ts hs => ⟨ts, .refl ts, hs.1.setBus _, hs.2⟩

theorem fold_takes (op : ArithOp) (acc rhs : Word) : Takes id 0 (fold op acc rhs) := by
  unfold fold
  split
  · exact takes_pure _
  · exact takes_throw _

theorem expectRParen_takes (val : Word) : Takes id 0 (expectRParen val) := by
  refine (nexts_next.takes (fun t => ?_) ?_).mono (Nat.zero_le (1 + 0))
  · split
    · exact takes_pure _
    · exact takes_throw _
  · rintro _ (rfl | rfl | rfl) <;> exact stops_throw _

/-- One round of the operator loop, behind its operator. -/
def opRound (n : Nat) (op : ArithOp) (acc : Word) : EvalM Word := do
  let rhsTok ← Cur.next
  let rhs ← termAfter comp n rhsTok
  fold op acc rhs

theorem foldNext_eq (n : Nat) (op : ArithOp) (acc : Word) :
    foldNext comp n op acc = opRound comp n op acc >>= evalTail comp n := by
  simp [foldNext, opRound]

/-- The four functions take tokens on any budget. -/
structure TakesTrees (n : Nat) : Prop where
  resolve : ∀ tok, Takes id 0 (resolveTerm comp n tok)
  resolve_closing : ∀ t, Closing t → Stops (resolveTerm comp n t)
  atomic : Takes id 1 (parseAtomicTerm comp n)
  expr : Takes id 1 (evalExpr comp n none)
  tail : ∀ acc, Takes id 0 (evalTail comp n acc)

variable {comp} {n : Nat}

theorem TakesTrees.termAfter (h : TakesTrees comp n) (tok : Token) :
    Takes id 0 (termAfter comp n tok) := by
  unfold Parser.termAfter
  split
  · exact h.expr.seq expectRParen_takes
  · exact h.resolve tok

theorem TakesTrees.termAfter_closing (h : TakesTrees comp n) {t : Token} (ht : Closing t) :
    Stops (Parser.termAfter comp n t) := by
  have hne : t ≠ .lParen := by rcases ht with rfl | rfl | rfl <;> simp
  rw [Parser.termAfter, if_neg hne]
  exact h.resolve_closing t ht

theorem stops_bind {σ α β : Type} {x : EStateM Stop σ α} {f : α → EStateM Stop σ β}
    (h : Stops x) : Stops (x >>= f) := by
  intro s
  obtain ⟨e, hstop⟩ := h s
  exact ⟨e, Fallible.bind_error hstop⟩

theorem TakesTrees.opRound (h : TakesTrees comp n) (op : ArithOp) (acc : Word) :
    Takes id 1 (opRound comp n op acc) :=
  nexts_next.takes (fun t => (h.termAfter t).bind fun rhs => fold_takes op acc rhs)
    fun _ ht => stops_bind (h.termAfter_closing ht)

theorem TakesTrees.succ (h : TakesTrees comp n) : TakesTrees comp (n + 1) where
  resolve tok := by
    cases tok with
    | literal v => exact takes_pure v
    | identifier id' =>
        by_cases hid : id' = bytes "peek"
        · subst hid
          rw [resolveTerm_peek]
          exact h.atomic.seq peekU32_takes
        · rw [resolveTerm_name comp n hid]
          exact lookupSymbol_takes comp id'
    | _ => exact takes_throw _
  resolve_closing := by
    rintro _ (rfl | rfl | rfl) <;> exact stops_throw _
  atomic := by
    rw [parseAtomicTerm_succ]
    exact nexts_next.takes h.termAfter fun _ ht => h.termAfter_closing ht
  expr := by
    rw [evalExpr_succ_none]
    exact nexts_next.takes (fun t => (h.termAfter t).bind h.tail)
      fun _ ht => stops_bind (h.termAfter_closing ht)
  tail acc := by
    rw [evalTail_succ]
    intro b s ts hs
    obtain ⟨s₁, hpeek, hs₁⟩ := peek_within hs
    refine Ends.step hpeek ?_
    rcases ts with _ | ⟨t, ts⟩
    · exact ⟨[], .refl _, hs₁⟩
    · cases t with
      | operator byte =>
          simp only [first_cons]
          cases hop : ArithOp.ofByte byte with
          | none => exact ⟨_, .refl _, hs₁⟩
          | some op =>
              -- the operator is the token looked at
              obtain ⟨s₂, hnext, hs₂⟩ := next_within hs₁
              refine Ends.step hnext ?_
              rw [foldNext_eq]
              refine (((h.opRound op acc).seq h.tail) b s₂ ts hs₂).mono ?_ fun _ _ he => he
              rintro _ s' ⟨rest, htaken, hs'⟩
              exact ⟨rest, ((taken_one (by simp [Closing]) ts).trans htaken).mono (Nat.zero_le _),
                hs'⟩
      | _ => exact ⟨_, .refl _, hs₁⟩

theorem takesTrees (comp : Compiler) (n : Nat) : TakesTrees comp n := by
  induction n with
  | zero =>
      exact ⟨fun tok => takes_throw _, fun _ _ => stops_throw _, takes_throw _, takes_throw _,
        fun acc => takes_throw _⟩
  | succ n ih => exact ih.succ

theorem evalExpr_takes_after (comp : Compiler) (n : Nat) (t : Token) :
    Takes id 0 (evalExpr comp n (some t)) := by
  cases n with
  | zero => exact takes_throw _
  | succ n =>
      rw [evalExpr_succ_some]
      exact ((takesTrees comp n).termAfter t).bind (takesTrees comp n).tail

end Expressions

/-! ### Statements -/

section Statements

variable {α β : Type} {j k : Nat} {x : ParseM α} {f : α → ParseM β}

theorem takes_onScan {g : Compiler → EvalM α} (h : ∀ c, Takes id k (g c)) :
    Takes Frame.scan k (onScan g) := by
  intro b s ts hs
  have hrun := h s.comp b s.scan ts hs
  unfold Ends at hrun ⊢
  unfold onScan
  cases hg : g s.comp s.scan with
  | ok a scan =>
      rw [hg] at hrun
      exact hrun
  | error e scan =>
      rw [hg] at hrun
      exact hrun

theorem nexts_nextTok : Nexts Frame.scan nextTok where
  token := by
    intro b s t ts hs
    obtain ⟨scan, hnext, hscan⟩ := next_within hs
    exact ⟨{ s with scan := scan }, by simp [nextTok, onScan, hnext], hscan⟩
  eof := by
    intro b s hs
    obtain ⟨scan, hnext, hscan⟩ := next_within_eof hs
    exact ⟨{ s with scan := scan }, by simp [nextTok, onScan, hnext], hscan⟩

theorem peekTok_within {b : Nat} {s : Frame} {ts : List Token} (h : Within b s.scan ts) :
    ∃ s', peekTok s = .ok (first ts) s' ∧ Within b s'.scan ts := by
  obtain ⟨scan, hpeek, hscan⟩ := peek_within h
  exact ⟨{ s with scan := scan }, by simp [peekTok, onScan, hpeek], hscan⟩

/-- `x` does not touch the cursor. -/
def Still (x : ParseM α) : Prop :=
  ∀ s, Ends x s (fun _ s' => s'.scan = s.scan) fun _ s' => s'.scan = s.scan

theorem still_pure (a : α) : Still (pure a) := fun _ => rfl

theorem still_throw (e : Stop) : Still (throw e : ParseM α) := fun _ => rfl

theorem Still.bind (hx : Still x) (hf : ∀ a, Still (f a)) : Still (x >>= f) := by
  intro s
  refine ((hx s).mono (fun _ _ h => h) fun _ _ h => h).bind fun a s₁ hs₁ => ?_
  exact (hf a s₁).mono (fun _ _ h => h.trans hs₁) fun _ _ h => h.trans hs₁

theorem still_streamPush (w : Word) : Still (streamPush w) := by
  intro s
  unfold Ends streamPush
  split <;> rename_i heq <;> split at heq <;> cases heq <;> rfl

theorem still_pushLit (env : Env) (v : Word) : Still (streamPushLit env v) :=
  (still_streamPush _).bind fun _ => still_streamPush v

theorem still_enforce (env : Env) (addr : Word) : Still (enforce env addr) := by
  unfold enforce
  split
  · exact still_pure _
  · exact still_throw _

theorem still_pushBody (body : Vector Word fnBodyWords) : ∀ ws, Still (pushBody body ws) := by
  intro ws
  induction ws with
  | nil => exact still_pure _
  | cons w ws ih =>
      unfold pushBody
      split
      · exact (still_streamPush _).bind fun _ => ih
      · exact still_throw _

/-- The state may be read on the way. -/
theorem still_get {g : Frame → ParseM α}
    (h : ∀ s, Ends (g s) s (fun _ s' => s'.scan = s.scan) fun _ s' => s'.scan = s.scan) :
    Still (get >>= g) :=
  fun s => Ends.step (Fallible.get_apply s) (h s)

theorem still_findFn (name : List Byte) : Still (findFn name) := by
  refine still_get fun s => ?_
  split
  · exact still_pure _ s
  · exact still_throw _ s

theorem still_spliceCall (name : List Byte) : Still (spliceCall name) :=
  (still_findFn name).bind fun _ => still_get fun s => still_pushBody _ _ s

theorem still_takeProgram (yieldsValue : Bool) : Still (takeProgram yieldsValue) := by
  refine still_get fun s => ?_
  split
  · exact still_pure _ s
  · exact still_throw _ s

theorem still_streamReset : Still streamReset := fun _ => rfl

theorem still_buildValueProgram (env : Env) (v : Word) : Still (buildValueProgram env v) :=
  still_streamReset.bind fun _ => (still_pushLit env v).bind fun _ =>
    (still_streamPush _).bind fun _ => still_takeProgram true

theorem still_buildCallProgram (env : Env) (name : List Byte) :
    Still (buildCallProgram env name) :=
  (still_findFn name).bind fun _ => still_streamReset.bind fun _ =>
    (still_get fun s => still_pushBody _ _ s).bind fun _ =>
      (still_streamPush _).bind fun _ => still_takeProgram false

theorem still_storeFn (name : NameBuf) : Still (storeFn name) := by
  refine still_get fun s => ?_
  split
  · exact still_throw _ s
  · split
    · exact still_throw _ s
    · split
      · exact still_throw _ s
      · exact rfl

theorem Still.takes (h : Still x) : Takes Frame.scan 0 x := by
  intro b s ts hs
  refine (h s).mono ?_ ?_
  · intro _ s' hscan
    exact ⟨ts, .refl ts, hscan ▸ hs⟩
  · intro _ s' hscan
    rw [Overrun, hscan]
    exact Nat.le_succ_of_le hs.calls_le

theorem expect_takes {tok : Token} (hinner : ¬ Closing tok) :
    Takes Frame.scan 0 (expect tok) := by
  refine (nexts_nextTok.takes (fun t => ?_) fun t ht => ?_).mono (Nat.zero_le (1 + 0))
  · split
    · exact takes_pure _
    · exact takes_throw _
  · rw [if_neg (by rintro rfl; exact hinner ht)]
    exact stops_throw _

theorem expectName_takes : Takes Frame.scan 0 expectName := by
  refine (nexts_nextTok.takes (fun t => ?_) ?_).mono (Nat.zero_le (1 + 0))
  · cases t with
    | identifier id =>
        simp only
        split
        · exact takes_pure _
        · exact takes_throw _
    | _ => exact takes_throw _
  · rintro _ (rfl | rfl | rfl) <;> exact stops_throw _

/-! ### How statements end -/

/-- A way for a statement to end: what the cursor has left of the tokens `ts`,
and no more calls than one over the budget. -/
structure Ending (L : Nat → List Token → Scan → Prop) : Prop where
  after : ∀ {b ts mid s}, Taken 0 ts mid → L b mid s → L b ts s
  calls_le : ∀ {b ts s}, L b ts s → s.calls ≤ b + 1

/-- `x` ends a statement in the way `L`. -/
def EndsAs (L : Nat → List Token → Scan → Prop) (x : ParseM α) : Prop :=
  ∀ b s ts, Within b s.scan ts → Ends x s (fun _ s' => L b ts s'.scan) fun _ => Overrun Frame.scan b

variable {L : Nat → List Token → Scan → Prop}

theorem Takes.ends_as (hL : Ending L) (hx : Takes Frame.scan j x) (hf : ∀ a, EndsAs L (f a)) :
    EndsAs L (x >>= f) := by
  intro b s ts hs
  refine (hx b s ts hs).bind ?_
  rintro a s₁ ⟨ts₁, htaken, hs₁⟩
  refine (hf a b s₁ ts₁ hs₁).mono ?_ fun _ _ he => he
  intro _ s' hleft
  exact hL.after (htaken.mono (Nat.zero_le _)) hleft

/-- What follows a statement's end leaves the cursor alone. -/
theorem EndsAs.bind_still (hL : Ending L) (hx : EndsAs L x) (hf : ∀ a, Still (f a)) :
    EndsAs L (x >>= f) := by
  intro b s ts hs
  refine (hx b s ts hs).bind fun a s₁ hleft => (hf a s₁).mono ?_ ?_
  · intro _ s' hscan
    rwa [hscan]
  · intro _ s' hscan
    rw [Overrun, hscan]
    exact hL.calls_le hleft

/-- At least `k` tokens and a semicolon behind them, or `k` tokens and the `eof`. -/
def AtSemicolon (k b : Nat) (ts : List Token) (s : Scan) : Prop :=
  (∃ rest, Taken k ts (.semicolon :: rest) ∧ Within b s rest) ∨
    Taken k ts [] ∧ Within (b + 1) s []

/-- The first closing brace. -/
def AtBrace (b : Nat) (ts : List Token) (s : Scan) : Prop :=
  ∃ used rest, ts = used ++ .rBrace :: rest ∧ .rBrace ∉ used ∧ Within b s rest

theorem AtSemicolon.after {b : Nat} {ts mid : List Token} {s : Scan} (htaken : Taken j ts mid)
    (h : AtSemicolon k b mid s) : AtSemicolon (j + k) b ts s := by
  rcases h with ⟨rest, hmid, hs⟩ | ⟨hmid, hs⟩
  · exact .inl ⟨rest, htaken.trans hmid, hs⟩
  · exact .inr ⟨htaken.trans hmid, hs⟩

theorem atSemicolon_ending : Ending (AtSemicolon 0) where
  after htaken h := h.after htaken
  calls_le := by
    rintro b ts s (⟨rest, _, hs⟩ | ⟨_, hs⟩)
    · exact Nat.le_succ_of_le hs.calls_le
    · exact hs.calls_le

theorem atBrace_ending : Ending AtBrace where
  after := by
    rintro b _ _ s ⟨used, rfl, _, hinner⟩ ⟨used', rest, rfl, hnot, hs⟩
    refine ⟨used ++ used', rest, by simp, fun hmem => ?_, hs⟩
    rcases List.mem_append.mp hmem with hmem | hmem
    · exact hinner _ hmem (.inr (.inl rfl))
    · exact hnot hmem
  calls_le := by
    rintro b ts s ⟨_, rest, _, _, hs⟩
    exact Nat.le_succ_of_le hs.calls_le

/-- The end of a statement is its semicolon or the `eof`. -/
theorem expectSemicolon_closes : EndsAs (AtSemicolon 0) expectSemicolon := by
  intro b s ts hs
  rcases ts with _ | ⟨t, ts⟩
  · obtain ⟨s₁, hnext, hs₁⟩ := nexts_nextTok.eof hs
    exact Ends.step hnext (.inr ⟨.refl _, hs₁⟩)
  · obtain ⟨s₁, hnext, hs₁⟩ := nexts_nextTok.token hs
    refine Ends.step hnext ?_
    cases t with
    | semicolon => exact .inl ⟨ts, .refl _, hs₁⟩
    | eof => exact absurd List.mem_cons_self hs.1.eof_notMem
    | _ => exact Nat.le_succ_of_le hs₁.calls_le

/-- Call parentheses after the opening one was looked at. -/
theorem callParens_takes {b : Nat} {s : Frame} {ts : List Token}
    (hs : Within b s.scan (.lParen :: ts)) :
    Ends callParens s (fun _ s' => ∃ rest, Taken 1 (.lParen :: ts) rest ∧ Within b s'.scan rest)
      fun _ => Overrun Frame.scan b := by
  obtain ⟨s₁, hnext, hs₁⟩ := nexts_nextTok.token hs
  refine Ends.step hnext ((expect_takes (by simp [Closing]) b s₁ ts hs₁).mono ?_ fun _ _ he => he)
  rintro _ s' ⟨rest, htaken, hs'⟩
  exact ⟨rest, (taken_one (by simp [Closing]) ts).trans htaken, hs'⟩

/-- A call, if the token looked at opens its parentheses. -/
theorem call_or_closes {call other : ParseM α} (hcall : EndsAs (AtSemicolon 0) call)
    (hother : EndsAs (AtSemicolon 0) other) :
    EndsAs (AtSemicolon 0) (peekTok >>= fun t =>
      if t = .lParen then callParens >>= fun _ => call else other) := by
  intro b s ts hs
  obtain ⟨s₁, hpeek, hs₁⟩ := peekTok_within hs
  refine Ends.step hpeek ?_
  split
  · next hfirst =>
      rcases ts with _ | ⟨t, ts⟩
      · cases hfirst
      · obtain rfl : t = .lParen := hfirst
        refine (callParens_takes hs₁).bind ?_
        rintro _ s₂ ⟨ts₂, htaken, hs₂⟩
        refine (hcall b s₂ ts₂ hs₂).mono ?_ fun _ _ he => he
        intro _ s' hleft
        exact atSemicolon_ending.after (htaken.mono (Nat.zero_le _)) hleft
  · exact hother b s₁ ts hs₁

/-! ### What is behind the first statement -/

/-- The tokens without a semicolon at their head. -/
def dropSemicolon : List Token → List Token
  | .semicolon :: ts => ts
  | ts => ts

/-- The commands that take no operand. -/
def bareCommands : List (List Byte) := [bytes "help", bytes "banner", bytes "sys_audit"]

/-- The tokens behind the first `t`. -/
def afterFirst (t : Token) : List Token → List Token
  | [] => []
  | t' :: ts => if t' = t then ts else afterFirst t ts

theorem afterFirst_append {t : Token} {used rest : List Token} (h : t ∉ used) :
    afterFirst t (used ++ t :: rest) = rest := by
  induction used with
  | nil => simp [afterFirst]
  | cons t' used ih =>
      simp only [List.mem_cons, not_or] at h
      rw [List.cons_append, afterFirst, if_neg (Ne.symm h.1), ih h.2]

theorem afterFirst_of_notMem {t : Token} {ts : List Token} (h : t ∉ ts) :
    afterFirst t ts = [] := by
  induction ts with
  | nil => rfl
  | cons t' ts ih =>
      simp only [List.mem_cons, not_or] at h
      rw [afterFirst, if_neg (Ne.symm h.1), ih h.2]

/-- The tokens behind the first statement of a line. -/
def behind : List Token → List Token
  | [] => []
  | .kwFn :: ts => afterFirst .rBrace ts
  | .identifier id :: ts => if id ∈ bareCommands then dropSemicolon ts else afterFirst .semicolon ts
  | _ :: ts => afterFirst .semicolon ts

theorem Taken.no_semicolon {used : List Token} (h : ∀ t ∈ used, ¬ Closing t) :
    Token.semicolon ∉ used := fun hmem => h _ hmem (.inl rfl)

theorem AtSemicolon.within {b : Nat} {ts : List Token} {s : Scan} (h : AtSemicolon k b ts s) :
    Within (b + 1) s (afterFirst .semicolon ts) := by
  rcases h with ⟨rest, ⟨used, rfl, _, hinner⟩, hs⟩ | ⟨⟨used, rfl, _, hinner⟩, hs⟩
  · rw [afterFirst_append (Taken.no_semicolon hinner)]
    exact ⟨hs.1, Nat.le_succ_of_le hs.2⟩
  · rw [List.append_nil, afterFirst_of_notMem (Taken.no_semicolon hinner)]
    exact hs

theorem AtBrace.within {b : Nat} {ts : List Token} {s : Scan} (h : AtBrace b ts s) :
    Within (b + 1) s (afterFirst .rBrace ts) := by
  obtain ⟨used, rest, rfl, hnot, hs⟩ := h
  rw [afterFirst_append hnot]
  exact ⟨hs.1, Nat.le_succ_of_le hs.2⟩

/-! ### The statement parsers -/

section Parts

variable (env : Env) (fuel : Nat)

theorem atomic_takes : Takes Frame.scan 1 (onScan fun self => parseAtomicTerm self fuel) :=
  takes_onScan fun c => (takesTrees c fuel).atomic

theorem expr_takes : Takes Frame.scan 1 (onScan fun self => evalExpr self fuel none) :=
  takes_onScan fun c => (takesTrees c fuel).expr

theorem expr_takes_after (t : Token) :
    Takes Frame.scan 0 (onScan fun self => evalExpr self fuel (some t)) :=
  takes_onScan fun c => evalExpr_takes_after c fuel t

/-- A statement inside a body takes a token. -/
theorem parseBodyStmt_closes : EndsAs (AtSemicolon 1) (parseBodyStmt env fuel) := by
  intro b s ts hs
  rcases ts with _ | ⟨t, ts⟩
  · obtain ⟨s₁, hnext, hs₁⟩ := nexts_nextTok.eof hs
    exact Ends.step hnext hs₁.calls_le
  · obtain ⟨s₁, hnext, hs₁⟩ := nexts_nextTok.token hs
    refine Ends.step hnext ?_
    cases t with
    | identifier id =>
        suffices hrest : ∀ {y : ParseM PUnit}, EndsAs (AtSemicolon 0) y →
            Ends y s₁ (fun _ s' => AtSemicolon 1 b (.identifier id :: ts) s'.scan)
              fun _ => Overrun Frame.scan b by
          simp only
          split
          · refine hrest ((atomic_takes fuel).ends_as atSemicolon_ending fun addr =>
              (expr_takes fuel).ends_as atSemicolon_ending fun val =>
                expectSemicolon_closes.bind_still atSemicolon_ending fun _ => ?_)
            exact (still_enforce env addr).bind fun _ => (still_pushLit env addr).bind fun _ =>
              (still_pushLit env val).bind fun _ => still_streamPush _
          · split
            · refine hrest ((atomic_takes fuel).ends_as atSemicolon_ending fun addr =>
                expectSemicolon_closes.bind_still atSemicolon_ending fun _ => ?_)
              exact (still_enforce env addr).bind fun _ => (still_pushLit env addr).bind fun _ =>
                still_streamPush _
            · refine hrest (call_or_closes (expectSemicolon_closes.bind_still atSemicolon_ending
                fun _ => still_spliceCall id) ?_)
              exact (expr_takes_after fuel _).ends_as atSemicolon_ending fun _ =>
                expectSemicolon_closes
        intro y hy
        refine (hy b s₁ ts hs₁).mono ?_ fun _ _ he => he
        intro _ s' hleft
        exact hleft.after (taken_one (by simp [Closing]) ts)
    | _ => exact Nat.le_succ_of_le hs₁.calls_le

/-- Behind the `eof` a body looks once more and stops. -/
theorem parseBody_drained {b n : Nat} {s : Frame} (hs : Within b s.scan []) :
    Ends (parseBody env fuel n) s (fun _ _ => False) fun _ s' => s'.scan.calls ≤ b := by
  cases n with
  | zero => exact hs.calls_le
  | succ n =>
      obtain ⟨s₁, hpeek, hs₁⟩ := peekTok_within hs
      exact Ends.step hpeek hs₁.calls_le

/-- A statement's own tokens hold no closing brace, and neither does its semicolon. -/
theorem AtBrace.after_stmt {b : Nat} {ts rest : List Token} {s : Scan}
    (htaken : Taken k ts (.semicolon :: rest)) (h : AtBrace b rest s) : AtBrace b ts s := by
  refine atBrace_ending.after (htaken.mono (Nat.zero_le _)) ?_
  obtain ⟨used, rest', rfl, hnot, hs⟩ := h
  exact ⟨.semicolon :: used, rest', rfl, by simpa using hnot, hs⟩

theorem parseBody_closes (n : Nat) : EndsAs AtBrace (parseBody env fuel n) := by
  induction n with
  | zero => exact fun _ _ _ hs => Nat.le_succ_of_le hs.calls_le
  | succ n ih =>
      intro b s ts hs
      obtain ⟨s₁, hpeek, hs₁⟩ := peekTok_within hs
      refine Ends.step hpeek ?_
      rcases ts with _ | ⟨t, ts⟩
      · exact Nat.le_succ_of_le hs₁.calls_le
      · have hround : Ends (parseBodyStmt env fuel >>= fun _ => parseBody env fuel n) s₁
            (fun _ s' => AtBrace b (t :: ts) s'.scan) fun _ => Overrun Frame.scan b := by
          refine (parseBodyStmt_closes env fuel b s₁ _ hs₁).bind ?_
          rintro _ s₂ (⟨ts₂, htaken, hs₂⟩ | ⟨_, hs₂⟩)
          · refine (ih b s₂ ts₂ hs₂).mono ?_ fun _ _ he => he
            intro _ s' hbrace
            exact hbrace.after_stmt htaken
          · exact (parseBody_drained env fuel hs₂).mono (fun _ _ h => h.elim) fun _ _ h => h
        cases t with
        | rBrace =>
            obtain ⟨s₂, hnext, hs₂⟩ := nexts_nextTok.token hs₁
            exact Ends.step hnext ⟨[], ts, rfl, by simp, hs₂⟩
        | eof => exact absurd List.mem_cons_self hs.1.eof_notMem
        | _ => exact hround

theorem parseFn_closes (n : Nat) : EndsAs AtBrace (parseFn env fuel n) :=
  have hparen : ∀ {tok : Token}, tok = .lParen ∨ tok = .rParen ∨ tok = .lBrace →
      Takes Frame.scan 0 (expect tok) := by
    rintro _ (rfl | rfl | rfl) <;> exact expect_takes (by simp [Closing])
  expectName_takes.ends_as atBrace_ending fun name =>
    (hparen (.inl rfl)).ends_as atBrace_ending fun _ =>
      (hparen (.inr (.inl rfl))).ends_as atBrace_ending fun _ =>
        (hparen (.inr (.inr rfl))).ends_as atBrace_ending fun _ =>
          still_streamReset.takes.ends_as atBrace_ending fun _ =>
            (parseBody_closes env fuel n).bind_still atBrace_ending fun _ => still_storeFn name

theorem parseLet_closes : EndsAs (AtSemicolon 0) (parseLet fuel) := by
  refine expectName_takes.ends_as atSemicolon_ending fun name =>
    (expect_takes (by simp [Closing])).ends_as atSemicolon_ending fun _ =>
      (expr_takes fuel).ends_as atSemicolon_ending fun value =>
        expectSemicolon_closes.bind_still atSemicolon_ending fun _ => still_get fun s => ?_
  split
  · exact rfl
  · exact still_throw _ s
  · exact still_throw _ s

theorem parseValueStmt_closes (t : Token) :
    EndsAs (AtSemicolon 0) (parseValueStmt env fuel t) :=
  (expr_takes_after fuel t).ends_as atSemicolon_ending fun value =>
    expectSemicolon_closes.bind_still atSemicolon_ending fun _ =>
      (still_buildValueProgram env value).bind fun _ => still_pure _

theorem parseBitCommand_closes (outcome : Word → Word → Outcome) :
    EndsAs (AtSemicolon 0) (parseBitCommand env fuel outcome) :=
  (atomic_takes fuel).ends_as atSemicolon_ending fun addr =>
    (atomic_takes fuel).ends_as atSemicolon_ending fun _ =>
      expectSemicolon_closes.bind_still atSemicolon_ending fun _ =>
        (still_enforce env addr).bind fun _ => still_pure _

theorem parseCapCommand_closes (outcome : NameBuf → Outcome) :
    EndsAs (AtSemicolon 0) (parseCapCommand outcome) :=
  expectName_takes.ends_as atSemicolon_ending fun _ =>
    expectSemicolon_closes.bind_still atSemicolon_ending fun _ => still_pure _

/-- The optional semicolon is the token looked at. -/
theorem parseBareCommand_closes (outcome : Outcome) {b : Nat} {s : Frame} {ts : List Token}
    (hs : Within b s.scan ts) :
    Ends (parseBareCommand outcome) s (fun _ s' => Within b s'.scan (dropSemicolon ts))
      fun _ => Overrun Frame.scan b := by
  suffices hoptional : Ends allowOptionalSemicolon s
      (fun _ s' => Within b s'.scan (dropSemicolon ts)) fun _ => Overrun Frame.scan b by
    exact hoptional.bind fun _ s₁ hs₁ => Fallible.ends_pure hs₁
  obtain ⟨s₁, hpeek, hs₁⟩ := peekTok_within hs
  refine Ends.step hpeek ?_
  rcases ts with _ | ⟨t, ts⟩
  · exact hs₁
  · cases t with
    | semicolon =>
        obtain ⟨s₂, hnext, hs₂⟩ := nexts_nextTok.token hs₁
        exact Ends.step hnext hs₂
    | _ => exact hs₁

theorem parseCommand_closes {id : List Byte} (hbare : id ∉ bareCommands) :
    EndsAs (AtSemicolon 0) (parseCommand env fuel id) := by
  refine parseCommand_cases (P := EndsAs (AtSemicolon 0)) ?peek ?poke ?cap ?bit ?bare ?name
  case peek =>
    exact fun _ => (atomic_takes fuel).ends_as atSemicolon_ending fun addr =>
      expectSemicolon_closes.bind_still atSemicolon_ending fun _ =>
        (still_enforce env addr).bind fun _ => still_pure _
  case poke =>
    exact fun _ => (atomic_takes fuel).ends_as atSemicolon_ending fun addr =>
      (expr_takes fuel).ends_as atSemicolon_ending fun _ =>
        expectSemicolon_closes.bind_still atSemicolon_ending fun _ =>
          (still_enforce env addr).bind fun _ => still_pure _
  case cap => exact fun outcome _ => parseCapCommand_closes outcome
  case bit => exact fun outcome _ => parseBitCommand_closes env fuel outcome
  case bare =>
    intro outcome h
    refine absurd ?_ hbare
    rcases h with ⟨rfl, -⟩ | ⟨rfl, -⟩ | ⟨rfl, -⟩ <;> simp [bareCommands]
  case name =>
    exact fun _ => call_or_closes
      (expectSemicolon_closes.bind_still atSemicolon_ending fun _ =>
        (still_buildCallProgram env id).bind fun _ => still_pure _)
      (parseValueStmt_closes env fuel _)

theorem parseCommand_bare {id : List Byte} (hbare : id ∈ bareCommands) :
    ∃ outcome, parseCommand env fuel id = parseBareCommand outcome := by
  simp only [bareCommands, List.mem_cons, List.not_mem_nil, or_false] at hbare
  rcases hbare with rfl | rfl | rfl
  · exact ⟨.help, rfl⟩
  · exact ⟨.banner, rfl⟩
  · exact ⟨.sysAudit, rfl⟩

/-- An accepted line leaves what is behind its first statement, and no line makes
more than one call over its budget. -/
theorem parseLine_closes (n : Nat) {b : Nat} {s : Frame} {ts : List Token}
    (hs : Within b s.scan ts) :
    Ends (parseLine env fuel n) s (fun _ s' => Within (b + 1) s'.scan (behind ts))
      fun _ => Overrun Frame.scan b := by
  rcases ts with _ | ⟨t, ts⟩
  · obtain ⟨s₁, hnext, hs₁⟩ := nexts_nextTok.eof hs
    exact Ends.step hnext hs₁.calls_le
  · obtain ⟨s₁, hnext, hs₁⟩ := nexts_nextTok.token hs
    refine Ends.step hnext ?_
    have hsemicolon : ∀ {y : ParseM Outcome}, EndsAs (AtSemicolon 0) y →
        Ends y s₁ (fun _ s' => Within (b + 1) s'.scan (afterFirst .semicolon ts))
          fun _ => Overrun Frame.scan b :=
      fun hy => (hy b s₁ ts hs₁).mono (fun _ _ h => h.within) fun _ _ h => h
    cases t with
    | kwLet => exact hsemicolon (parseLet_closes fuel)
    | kwFn =>
        refine (parseFn_closes env fuel n b s₁ ts hs₁).mono ?_ fun _ _ h => h
        exact fun _ _ h => h.within
    | identifier id =>
        simp only [behind]
        split
        · next hbare =>
            obtain ⟨outcome, heq⟩ := parseCommand_bare env fuel hbare
            rw [heq]
            refine (parseBareCommand_closes outcome hs₁).mono ?_ fun _ _ h => h
            intro _ s' hs'
            exact ⟨hs'.1, Nat.le_succ_of_le hs'.2⟩
        · next hbare => exact hsemicolon (parseCommand_closes env fuel hbare)
    | literal v => exact hsemicolon (parseValueStmt_closes env fuel _)
    | operator op => exact hsemicolon (parseValueStmt_closes env fuel _)
    | lParen => exact hsemicolon (parseValueStmt_closes env fuel _)
    | _ => exact Nat.le_succ_of_le hs₁.calls_le

end Parts

end Statements

theorem parseBodyStmt_progresses (env : Env) (fuel : Nat) :
    Progresses Frame.scan (parseBodyStmt env fuel) := by
  intro s a s' ts hup hx
  rcases (parseBodyStmt_closes env fuel _ s ts (within_of_upcoming hup)).of_ok hx with
    ⟨rest, htaken, hs'⟩ | ⟨htaken, hs'⟩
  · have := htaken.length_le
    exact ⟨rest, hs'.1, by simp only [List.length_cons] at this; omega⟩
  · exact ⟨[], hs'.1, htaken.length_le⟩

end HolyRust.Parser

namespace HolyRust.Sessions

open HolyRust.Parser (Progresses parseAtomicTerm evalExpr opRound parseBodyStmt)

/-- Every line in every session is parsed without a panic, and the lexer is
called at most twice more than the line has bytes. The body loop, the operator
loop and the recursion of the expression functions each take a token a round. -/
theorem parse_total {t : Target} {code : CodeMap} {c : Compiler} (h : Reachable t code c)
    (registry : Registry) (bus : Bus) (line : List Byte) :
    ((∃ o, (c.parse ⟨t, code, registry⟩ bus line).result = .ok o) ∨
        ∃ e, (c.parse ⟨t, code, registry⟩ bus line).result = .error (.error e)) ∧
      (c.parse ⟨t, code, registry⟩ bus line).scan.calls ≤ line.length + 2 ∧
      (∀ env fuel, Progresses Parser.Frame.scan (parseBodyStmt env fuel)) ∧
      ∀ n, Progresses id (parseAtomicTerm c n) ∧ Progresses id (evalExpr c n none) ∧
        ∀ op acc, Progresses id (opRound c n op acc) := by
  refine ⟨?_, ?_, Parser.parseBodyStmt_progresses, fun n => ?_⟩
  · cases hres : (c.parse ⟨t, code, registry⟩ bus line).result with
    | ok o => exact .inl ⟨o, rfl⟩
    | error e =>
        obtain ⟨⟨pe, rfl⟩, _⟩ := rejected ⟨t, code, registry⟩ h.tablesOk hres
        exact .inr ⟨pe, rfl⟩
  · have htoks := Lexer.length_toks_le (Lexer.new line)
    rw [Lexer.rest_new] at htoks
    have hends := Parser.parseLine_closes ⟨t, code, registry⟩ (Parser.evalFuel line)
      (Parser.bodyFuel line) (s := Parser.Frame.start c bus line) (Parser.within_start line bus)
    unfold Fallible.Ends at hends
    unfold Compiler.parse
    rw [show (⟨c, Parser.Scan.start line bus⟩ : Parser.Frame) = Parser.Frame.start c bus line
      from rfl]
    cases hrun : Parser.parseLine ⟨t, code, registry⟩ (Parser.evalFuel line)
        (Parser.bodyFuel line) (Parser.Frame.start c bus line) with
    | ok o s' =>
        rw [hrun] at hends
        exact Nat.le_trans hends.calls_le (by omega)
    | error e s' =>
        rw [hrun] at hends
        exact Nat.le_trans hends (by omega)
  · have htrees := Parser.takesTrees c n
    exact ⟨htrees.atomic.progresses, htrees.expr.progresses,
      fun op acc => (htrees.opRound op acc).progresses⟩

/-- A definition that breaks off inside a group, in a fresh session. -/
theorem parse_total_unclosed :
    (Compiler.new.parse ⟨.arm, .sample, Registry.free⟩ blank
      (bytes "fn f() \x7b peek (1 + peek")).scan.calls ≤
        (bytes "fn f() \x7b peek (1 + peek").length + 2 := by
  have hnew : Reachable .arm .sample Compiler.new := .new
  exact (parse_total hnew Registry.free blank _).2.1

end HolyRust.Sessions
