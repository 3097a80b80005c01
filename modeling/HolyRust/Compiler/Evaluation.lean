import HolyRust.Compiler.Syntax
import HolyRust.Compiler.TokenStream

/-!
The expression functions against the trees of `HolyRust.Compiler.Syntax`.

* `evalExpr_reads` and its siblings — with a budget of twice the tokens, an
  expression function reads a tree off the cursor or stops with a parser error;
  either way it has only read memory.
* `evalExpr_mirrors` and its siblings — what it computes on the spelling of a
  tree is the tree's meaning: the value or the error, and the reads.
-/

namespace HolyRust.Parser

open Syntax
open Fallible (Ends)
open ByteMemory (readWord)

/-! ### Reading only -/

/-- From `b` to `b'` memory was only read. -/
def Quiet (b b' : Bus) : Prop :=
  b'.mem = b.mem ∧ ∃ addrs : List Word,
    b'.trace = b.trace ++ addrs.map fun a => MemEvent.read a (readWord b.mem a)

theorem Quiet.refl (b : Bus) : Quiet b b := ⟨rfl, [], by simp⟩

theorem quiet_of_eq {b b' : Bus} (h : b' = b) : Quiet b b' := h ▸ Quiet.refl b

theorem Quiet.trans {b₁ b₂ b₃ : Bus} (h : Quiet b₁ b₂) (h' : Quiet b₂ b₃) : Quiet b₁ b₃ := by
  obtain ⟨hmem, as, htrace⟩ := h
  obtain ⟨hmem', as', htrace'⟩ := h'
  refine ⟨hmem'.trans hmem, as ++ as', ?_⟩
  rw [htrace', htrace, hmem, List.map_append, List.append_assoc]

theorem quiet_peekU32 (b : Bus) (addr : Word) : Quiet b (b.peekU32 addr).2 :=
  ⟨rfl, [addr], rfl⟩

/-! ### The three shapes of the recursion -/

section Unfolding

variable (self : Compiler) (n : Nat)

/-- A term whose first token has been taken: a group or what `resolve_term`
makes of the token. -/
def termAfter (tok : Token) : EvalM Word :=
  if tok = .lParen then do
    let val ← evalExpr self n none
    expectRParen val
  else resolveTerm self n tok

theorem parseAtomicTerm_succ :
    parseAtomicTerm self (n + 1) = Cur.next >>= termAfter self n := by
  rw [parseAtomicTerm]; rfl

theorem evalExpr_succ_some (t : Token) :
    evalExpr self (n + 1) (some t) = termAfter self n t >>= evalTail self n := by
  rw [evalExpr, pure_bind]
  unfold termAfter
  split <;> simp [*]

theorem evalExpr_succ_none :
    evalExpr self (n + 1) none =
      Cur.next >>= fun t => termAfter self n t >>= evalTail self n := by
  rw [evalExpr]
  refine bind_congr fun t => ?_
  unfold termAfter
  split <;> simp [*]

/-- The rest of a chain after its operator. -/
def foldNext (op : ArithOp) (acc : Word) : EvalM Word := do
  let rhsTok ← Cur.next
  let rhs ← termAfter self n rhsTok
  let acc ← fold op acc rhs
  evalTail self n acc

theorem evalTail_succ (acc : Word) :
    evalTail self (n + 1) acc = Cur.peek >>= fun t =>
      match t with
      | .operator b =>
          match ArithOp.ofByte b with
          | none => pure acc
          | some op => Cur.next >>= fun _ => foldNext self n op acc
      | _ => pure acc := by
  rw [evalTail]
  refine bind_congr fun t => ?_
  cases t with
  | operator b =>
      cases hop : ArithOp.ofByte b with
      | none => simp only [hop]
      | some op =>
          simp only [hop, foldNext]
          refine bind_congr fun _ => bind_congr fun rhsTok => ?_
          unfold termAfter
          split <;> simp [*]
  | _ => rfl

theorem resolveTerm_peek :
    resolveTerm self (n + 1) (.identifier (bytes "peek")) =
      parseAtomicTerm self n >>= peekU32 := by
  rw [resolveTerm]; simp

theorem resolveTerm_name {id : List Byte} (h : id ≠ bytes "peek") :
    resolveTerm self (n + 1) (.identifier id) = lookupSymbol self id := by
  rw [resolveTerm]; simp [h]

end Unfolding

/-! ### Reading a tree off the cursor -/

/-- A proper parser error, with memory only read. -/
def Stopped (s : Scan) (e : Stop) (s' : Scan) : Prop :=
  (∃ pe, e = .error pe) ∧ Quiet s.bus s'.bus

/-- `x` from `s` returns with the cursor before some tokens in `R`, or stops with
a parser error. -/
def Reads {α : Type} (x : EvalM α) (s : Scan) (R : List Token → Prop) : Prop :=
  Ends x s (fun _ s' => ∃ rest, R rest ∧ Upcoming s' rest ∧ Quiet s.bus s'.bus) (Stopped s)

section Reads

variable {α β : Type} {x : EvalM α} {f : α → EvalM β} {s : Scan} {ts : List Token}
  {R R' : List Token → Prop}

theorem Reads.mono (h : Reads x s R) (hR : ∀ rest, R rest → R' rest) : Reads x s R' :=
  Ends.mono h (fun _ _ ⟨rest, hr, hup, hq⟩ => ⟨rest, hR rest hr, hup, hq⟩) fun _ _ he => he

theorem Reads.bind (hx : Reads x s R)
    (hf : ∀ a s' rest, R rest → Upcoming s' rest → Reads (f a) s' R') : Reads (x >>= f) s R' := by
  refine Ends.bind (Q := fun _ s' => ∃ rest, R rest ∧ Upcoming s' rest ∧ Quiet s.bus s'.bus)
    hx fun a s' hs' => ?_
  obtain ⟨rest, hr, hup, hq⟩ := hs'
  refine Ends.mono (hf a s' rest hr hup) ?_ ?_
  · rintro b s'' ⟨rest', hr', hup', hq'⟩
    exact ⟨rest', hr', hup', hq.trans hq'⟩
  · rintro e s'' ⟨he, hq'⟩
    exact ⟨he, hq.trans hq'⟩

theorem reads_pure (a : α) (h : Upcoming s ts) (hR : R ts) : Reads (pure a) s R :=
  ⟨ts, hR, h, .refl _⟩

theorem reads_fail (e : ParseError) : Reads (α := α) (fail e) s R :=
  ⟨⟨e, rfl⟩, .refl _⟩

theorem reads_next (h : Upcoming s ts)
    (hf : ∀ s', Upcoming s' ts.tail → Reads (f' (first ts)) s' R) :
    Reads (Cur.next >>= f') s R := by
  obtain ⟨s', hnext, hup, hbus⟩ := next_upcoming h
  have := hf s' hup
  unfold Reads Ends Stopped at this ⊢
  rw [Fallible.bind_ok hnext]
  rw [hbus] at this
  exact this

theorem reads_peek (h : Upcoming s ts)
    (hf : ∀ s', Upcoming s' ts → Reads (f' (first ts)) s' R) :
    Reads (Cur.peek >>= f') s R := by
  obtain ⟨s', hpeek, hup, hbus⟩ := peek_upcoming h
  have := hf s' hup
  unfold Reads Ends Stopped at this ⊢
  rw [Fallible.bind_ok hpeek]
  rw [hbus] at this
  exact this

end Reads

section ReadingTrees

variable (comp : Compiler)

/-- The four functions read their trees on the budget `n`. -/
structure ReadsTrees (n : Nat) : Prop where
  resolve : ∀ (tok : Token) (s : Scan) (ts : List Token), Upcoming s ts → 2 * ts.length + 3 ≤ n →
    Reads (resolveTerm comp n tok) s fun rest => ∃ a : Atom, tok :: ts = a.toks ++ rest
  atomic : ∀ (s : Scan) (ts : List Token), Upcoming s ts → 2 * ts.length + 2 ≤ n →
    Reads (parseAtomicTerm comp n) s fun rest => ∃ a : Atom, ts = a.toks ++ rest
  expr : ∀ (s : Scan) (ts : List Token), Upcoming s ts → 2 * ts.length + 2 ≤ n →
    Reads (evalExpr comp n none) s fun rest =>
      ∃ e : Expr, ts = e.toks ++ rest ∧ ¬ ContinuesChain rest
  tail : ∀ (acc : Word) (s : Scan) (ts : List Token), Upcoming s ts → 2 * ts.length + 1 ≤ n →
    Reads (evalTail comp n acc) s fun rest =>
      ∃ tl : Tail, ts = tl.toks ++ rest ∧ ¬ ContinuesChain rest

variable {comp} {n : Nat}

theorem ReadsTrees.termAfter (h : ReadsTrees comp n) (tok : Token) {s : Scan} {ts : List Token}
    (hup : Upcoming s ts) (hn : 2 * ts.length + 3 ≤ n) :
    Reads (termAfter comp n tok) s fun rest => ∃ a : Atom, tok :: ts = a.toks ++ rest := by
  unfold Parser.termAfter
  split
  · rename_i htok
    subst htok
    refine (h.expr s ts hup (by omega)).bind fun val s₁ rest hrest hup₁ => ?_
    obtain ⟨e, hts, _⟩ := hrest
    unfold expectRParen
    refine reads_next hup₁ fun s₂ hup₂ => ?_
    split
    · rename_i hfirst
      cases rest with
      | nil => cases hfirst
      | cons t rest =>
          have ht : t = .rParen := hfirst
          exact reads_pure _ hup₂ ⟨.paren e, by simp [Atom.toks, hts, ht]⟩
    · exact reads_fail _
  · exact h.resolve tok s ts hup hn

/-- A term that starts with the next token, whatever it is. -/
theorem ReadsTrees.termNext (h : ReadsTrees comp n) {s : Scan} {ts : List Token}
    (hup : Upcoming s ts.tail) (hn : 2 * ts.length + 1 ≤ n) :
    Reads (Parser.termAfter comp n (first ts)) s fun rest => ∃ a : Atom, ts = a.toks ++ rest := by
  cases ts with
  | nil =>
      cases n with
      | zero => omega
      | succ n => exact reads_fail _
  | cons t ts => exact h.termAfter t hup (by simp only [List.length_cons] at hn; omega)

theorem not_continuesChain_of_first {ts : List Token} (h : ∀ b, first ts ≠ .operator b) :
    ¬ ContinuesChain ts := by
  cases ts with
  | nil => exact not_continuesChain_nil
  | cons t ts =>
      intro hcont
      cases t with
      | operator b => exact h b rfl
      | _ => exact hcont

theorem ReadsTrees.succ (h : ReadsTrees comp n) : ReadsTrees comp (n + 1) where
  resolve tok s ts hup hn := by
    cases tok with
    | literal v => exact reads_pure v hup ⟨.lit v, rfl⟩
    | identifier id =>
        by_cases hid : id = bytes "peek"
        · subst hid
          rw [resolveTerm_peek]
          refine (h.atomic s ts hup (by omega)).bind fun addr s₁ rest hrest hup₁ => ?_
          obtain ⟨a, hts⟩ := hrest
          exact ⟨rest, ⟨.peek a, by simp [Atom.toks, hts]⟩, hup₁.setBus _, quiet_peekU32 _ _⟩
        · rw [resolveTerm_name comp n hid]
          unfold lookupSymbol
          rw [SymbolTable.lookupSymbol_eq]
          cases comp.symbols.value? id with
          | none => exact reads_fail _
          | some v => exact reads_pure v hup ⟨.name ⟨id, hid⟩, rfl⟩
    | error msg => exact reads_fail _
    | _ => exact reads_fail _
  atomic s ts hup hn := by
    rw [parseAtomicTerm_succ]
    exact reads_next hup fun s₁ hup₁ => h.termNext hup₁ (by omega)
  expr s ts hup hn := by
    rw [evalExpr_succ_none]
    refine reads_next hup fun s₁ hup₁ => ?_
    refine (h.termNext hup₁ (by omega)).bind fun acc s₂ rest hrest hup₂ => ?_
    obtain ⟨a, rfl⟩ := hrest
    have hpos := a.toks_length_pos
    have hlen₂ : 2 * rest.length + 1 ≤ n := by
      simp only [List.length_append] at hn
      omega
    refine (h.tail acc s₂ rest hup₂ hlen₂).mono fun rest' htail => ?_
    obtain ⟨tl, htl, hend⟩ := htail
    exact ⟨.mk a tl, by simp [Expr.toks, htl], hend⟩
  tail acc s ts hup hn := by
    rw [evalTail_succ]
    refine reads_peek hup fun s₁ hup₁ => ?_
    split
    · rename_i b hfirst
      cases ts with
      | nil => cases hfirst
      | cons t ts =>
          obtain rfl : t = .operator b := hfirst
          cases hop : ArithOp.ofByte b with
          | none => exact reads_pure _ hup₁ ⟨.nil, rfl, by simp [ContinuesChain, hop]⟩
          | some op =>
              refine reads_next hup₁ fun s₂ hup₂ => ?_
              refine reads_next hup₂ fun s₃ hup₃ => ?_
              simp only [List.tail_cons, List.length_cons] at hup₃ hn ⊢
              refine (h.termNext hup₃ (by omega)).bind
                fun rhs s₄ rest hrest hup₄ => ?_
              obtain ⟨a, rfl⟩ := hrest
              have hpos := a.toks_length_pos
              simp only [List.length_append] at hn
              unfold fold
              split
              · refine (h.tail _ s₄ rest hup₄ (by omega)).mono fun rest' htail => ?_
                obtain ⟨tl, htl, hend⟩ := htail
                exact ⟨.cons op a tl, by simp [Tail.toks, opByte_of_ofByte hop, htl], hend⟩
              · exact reads_fail _
    · rename_i hfirst
      exact reads_pure _ hup₁ ⟨.nil, rfl, not_continuesChain_of_first hfirst⟩

variable (comp)

theorem readsTrees (n : Nat) : ReadsTrees comp n := by
  induction n with
  | zero => exact ⟨by intros; omega, by intros; omega, by intros; omega, by intros; omega⟩
  | succ n ih => exact ih.succ

variable {s : Scan} {ts : List Token}

theorem parseAtomicTerm_reads (hup : Upcoming s ts) (hn : 2 * ts.length + 2 ≤ n) :
    Reads (parseAtomicTerm comp n) s fun rest => ∃ a : Atom, ts = a.toks ++ rest :=
  (readsTrees comp n).atomic s ts hup hn

theorem evalExpr_reads (hup : Upcoming s ts) (hn : 2 * ts.length + 2 ≤ n) :
    Reads (evalExpr comp n none) s fun rest =>
      ∃ e : Expr, ts = e.toks ++ rest ∧ ¬ ContinuesChain rest :=
  (readsTrees comp n).expr s ts hup hn

/-- The same when the first token has been taken already. -/
theorem evalExpr_reads_after (t : Token) (hup : Upcoming s ts) (hn : 2 * ts.length + 4 ≤ n) :
    Reads (evalExpr comp n (some t)) s fun rest =>
      ∃ e : Expr, t :: ts = e.toks ++ rest ∧ ¬ ContinuesChain rest := by
  cases n with
  | zero => omega
  | succ n =>
      rw [evalExpr_succ_some]
      refine ((readsTrees comp n).termAfter t hup (by omega)).bind
        fun acc s₁ rest hrest hup₁ => ?_
      obtain ⟨a, ha⟩ := hrest
      have hpos := a.toks_length_pos
      have hlen : rest.length ≤ ts.length := by
        have := congrArg List.length ha
        simp only [List.length_cons, List.length_append] at this
        omega
      refine ((readsTrees comp n).tail acc s₁ rest hup₁ (by omega)).mono fun rest' htail => ?_
      obtain ⟨tl, htl, hend⟩ := htail
      exact ⟨.mk a tl, by simp [Expr.toks, ha, htl], hend⟩

end ReadingTrees

/-! ### Computing the meaning of a tree -/

/-- `x` from `s` does what the reference computation `y` does on the same bus:
the same value or error with the same reads. After a value the cursor is before
`rest`. -/
def Mirrors {α : Type} (x : EvalM α) (s : Scan) (y : Eval α) (rest : List Token) : Prop :=
  match y s.bus with
  | .ok v b => ∃ s', x s = .ok v s' ∧ Upcoming s' rest ∧ s'.bus = b
  | .error e b => ∃ s', x s = .error (.error e) s' ∧ s'.bus = b

section Mirrors

variable {α β : Type} {x : EvalM α} {y : Eval α} {f : α → EvalM β} {g : α → Eval β} {s s' : Scan}
  {rest mid : List Token}

theorem mirrors_pure (v : α) (h : Upcoming s rest) : Mirrors (pure v) s (pure v) rest :=
  ⟨s, rfl, h, rfl⟩

theorem mirrors_fail (e : ParseError) : Mirrors (α := α) (fail e) s (throw e) rest :=
  ⟨s, rfl, rfl⟩

theorem Mirrors.bind (hx : Mirrors x s y mid)
    (hf : ∀ v s', Upcoming s' mid → Mirrors (f v) s' (g v) rest) :
    Mirrors (x >>= f) s (y >>= g) rest := by
  unfold Mirrors at hx
  cases hy : y s.bus with
  | ok v b =>
      rw [hy] at hx
      obtain ⟨s', hxs, hup, hbus⟩ := hx
      have hnext := hf v s' hup
      unfold Mirrors at hnext ⊢
      rw [Fallible.bind_ok hy, Fallible.bind_ok hxs, ← hbus]
      exact hnext
  | error e b =>
      rw [hy] at hx
      obtain ⟨s', hxs, hbus⟩ := hx
      unfold Mirrors
      rw [Fallible.bind_error hy]
      exact ⟨s', Fallible.bind_error hxs, hbus⟩

/-- A step of the cursor alone does not show in the reference computation. -/
theorem mirrors_step {z : EvalM β} {k : β → EvalM α} {t : β} (hz : z s = .ok t s')
    (hbus : s'.bus = s.bus) (h : Mirrors (k t) s' y rest) : Mirrors (z >>= k) s y rest := by
  unfold Mirrors at h ⊢
  rw [Fallible.bind_ok hz, ← hbus]
  exact h

theorem mirrors_next {k : Token → EvalM α} {t : Token} {ts : List Token}
    (hup : Upcoming s (t :: ts)) (h : ∀ s', Upcoming s' ts → Mirrors (k t) s' y rest) :
    Mirrors (Cur.next >>= k) s y rest := by
  obtain ⟨s', hnext, hup', hbus⟩ := next_upcoming hup
  exact mirrors_step hnext hbus (h s' hup')

theorem mirrors_peek {k : Token → EvalM α} {ts : List Token}
    (hup : Upcoming s ts) (h : ∀ s', Upcoming s' ts → Mirrors (k (first ts)) s' y rest) :
    Mirrors (Cur.peek >>= k) s y rest := by
  obtain ⟨s', hpeek, hup', hbus⟩ := peek_upcoming hup
  exact mirrors_step hpeek hbus (h s' hup')

end Mirrors

section Meaning

variable (comp : Compiler)

theorem lookupSymbol_mirrors {s : Scan} {rest : List Token} (id : Name) (h : Upcoming s rest) :
    Mirrors (lookupSymbol comp id.val) s ((Atom.name id).eval comp.symbols.value?) rest := by
  unfold lookupSymbol Atom.eval
  rw [SymbolTable.lookupSymbol_eq]
  cases comp.symbols.value? id.val with
  | none => exact mirrors_fail _
  | some v => exact mirrors_pure v h

theorem peekU32_mirrors {s : Scan} {rest : List Token} (addr : Word) (h : Upcoming s rest) :
    Mirrors (peekU32 addr) s (Eval.peekU32 addr) rest :=
  ⟨_, rfl, h.setBus _, rfl⟩

theorem fold_mirrors {s : Scan} {rest : List Token} (op : ArithOp) (acc rhs : Word)
    (h : Upcoming s rest) :
    Mirrors (fold op acc rhs) s (Eval.ofExcept (op.apply acc rhs)) rest := by
  unfold fold
  cases op.apply acc rhs with
  | ok v => exact mirrors_pure v h
  | error e => exact mirrors_fail e

mutual

theorem termAfter_mirrors : ∀ (a : Atom) {n : Nat} {s : Scan} {t : Token} {ts rest : List Token},
    a.toks = t :: ts → Upcoming s (ts ++ rest) → 2 * (ts ++ rest).length + 3 ≤ n →
      Mirrors (termAfter comp n t) s (a.eval comp.symbols.value?) rest
  | .lit v, n, s, t, ts, rest, htoks, hup, hn => by
      obtain ⟨rfl, rfl⟩ := List.cons.inj htoks
      obtain ⟨n, rfl⟩ : ∃ m, n = m + 1 := ⟨n - 1, by omega⟩
      exact mirrors_pure v hup
  | .name id, n, s, t, ts, rest, htoks, hup, hn => by
      obtain ⟨rfl, rfl⟩ := List.cons.inj htoks
      obtain ⟨n, rfl⟩ : ∃ m, n = m + 1 := ⟨n - 1, by omega⟩
      rw [termAfter, if_neg (by simp), resolveTerm_name comp n id.property]
      exact lookupSymbol_mirrors comp id hup
  | .paren e, n, s, t, ts, rest, htoks, hup, hn => by
      obtain ⟨rfl, rfl⟩ := List.cons.inj htoks
      rw [termAfter, if_pos rfl, Atom.eval]
      rw [List.append_assoc] at hup hn
      rw [← bind_pure (e.eval comp.symbols.value?)]
      refine (evalExpr_mirrors e hup (not_continuesChain_rParen rest) (by omega)).bind
        fun v s₁ hup₁ => ?_
      exact mirrors_next hup₁ fun s₂ hup₂ => mirrors_pure v hup₂
  | .peek a, n, s, t, ts, rest, htoks, hup, hn => by
      obtain ⟨rfl, rfl⟩ := List.cons.inj htoks
      obtain ⟨n, rfl⟩ : ∃ m, n = m + 1 := ⟨n - 1, by omega⟩
      rw [termAfter, if_neg (by simp), resolveTerm_peek, Atom.eval]
      exact (parseAtomicTerm_mirrors a hup (by omega)).bind fun addr s₁ hup₁ =>
        peekU32_mirrors addr hup₁

theorem parseAtomicTerm_mirrors : ∀ (a : Atom) {n : Nat} {s : Scan} {rest : List Token},
    Upcoming s (a.toks ++ rest) → 2 * (a.toks ++ rest).length + 2 ≤ n →
      Mirrors (parseAtomicTerm comp n) s (a.eval comp.symbols.value?) rest
  | a, n, s, rest, hup, hn => by
      obtain ⟨n, rfl⟩ : ∃ m, n = m + 1 := ⟨n - 1, by omega⟩
      obtain ⟨t, ts, htoks⟩ := List.exists_cons_of_length_pos a.toks_length_pos
      rw [parseAtomicTerm_succ]
      rw [htoks, List.cons_append] at hup hn
      rw [List.length_cons] at hn
      exact mirrors_next hup fun s₁ hup₁ => termAfter_mirrors a htoks hup₁ (by omega)

theorem evalExpr_mirrors : ∀ (e : Expr) {n : Nat} {s : Scan} {rest : List Token},
    Upcoming s (e.toks ++ rest) → ¬ ContinuesChain rest → 2 * (e.toks ++ rest).length + 2 ≤ n →
      Mirrors (evalExpr comp n none) s (e.eval comp.symbols.value?) rest
  | .mk head tail, n, s, rest, hup, hend, hn => by
      obtain ⟨n, rfl⟩ : ∃ m, n = m + 1 := ⟨n - 1, by omega⟩
      obtain ⟨t, ts, htoks⟩ := List.exists_cons_of_length_pos head.toks_length_pos
      rw [evalExpr_succ_none]
      rw [Expr.toks, htoks, List.append_assoc, List.cons_append] at hup hn
      simp only [List.length_cons, List.length_append] at hn
      refine mirrors_next hup fun s₁ hup₁ => ?_
      exact (termAfter_mirrors head htoks hup₁ (by simp only [List.length_append]; omega)).bind
        fun acc s₂ hup₂ => evalTail_mirrors tail hup₂ hend (by
          simp only [List.length_append]; omega)

theorem evalTail_mirrors : ∀ (tl : Tail) {n : Nat} {acc : Word} {s : Scan} {rest : List Token},
    Upcoming s (tl.toks ++ rest) → ¬ ContinuesChain rest → 2 * (tl.toks ++ rest).length + 1 ≤ n →
      Mirrors (evalTail comp n acc) s (tl.eval comp.symbols.value? acc) rest
  | .nil, n, acc, s, rest, hup, hend, hn => by
      obtain ⟨n, rfl⟩ : ∃ m, n = m + 1 := ⟨n - 1, by omega⟩
      rw [evalTail_succ]
      refine mirrors_peek hup fun s₁ hup₁ => ?_
      simp only [Tail.toks, List.nil_append] at hup₁ ⊢
      split
      · rename_i b hfirst
        cases rest with
        | nil => cases hfirst
        | cons t rest =>
            obtain rfl : t = .operator b := hfirst
            cases hop : ArithOp.ofByte b with
            | none => exact mirrors_pure acc hup₁
            | some op => exact absurd (by simp [ContinuesChain, hop]) hend
      · exact mirrors_pure acc hup₁
  | .cons op a tl, n, acc, s, rest, hup, hend, hn => by
      obtain ⟨n, rfl⟩ : ∃ m, n = m + 1 := ⟨n - 1, by omega⟩
      obtain ⟨t, ts, htoks⟩ := List.exists_cons_of_length_pos a.toks_length_pos
      rw [evalTail_succ, Tail.eval]
      rw [Tail.toks, htoks, List.cons_append, List.append_assoc, List.cons_append] at hup hn
      simp only [List.length_cons, List.length_append] at hn
      refine mirrors_peek hup fun s₁ hup₁ => ?_
      simp only [first_cons, ofByte_opByte]
      refine mirrors_next hup₁ fun s₂ hup₂ => ?_
      refine mirrors_next hup₂ fun s₃ hup₃ => ?_
      refine (termAfter_mirrors a htoks hup₃ (by simp only [List.length_append]; omega)).bind
        fun rhs s₄ hup₄ => ?_
      exact (fold_mirrors op acc rhs hup₄).bind fun acc s₅ hup₅ =>
        evalTail_mirrors tl hup₅ hend (by simp only [List.length_append]; omega)

end

/-- The same for an expression whose first token has been taken already. -/
theorem evalExpr_mirrors_after (e : Expr) {n : Nat} {s : Scan} {t : Token} {ts rest : List Token}
    (htoks : e.toks = t :: ts) (hup : Upcoming s (ts ++ rest)) (hend : ¬ ContinuesChain rest)
    (hn : 2 * (ts ++ rest).length + 4 ≤ n) :
    Mirrors (evalExpr comp n (some t)) s (e.eval comp.symbols.value?) rest := by
  cases e with
  | mk head tail =>
      obtain ⟨n, rfl⟩ : ∃ m, n = m + 1 := ⟨n - 1, by omega⟩
      obtain ⟨t', ts', hhead⟩ := List.exists_cons_of_length_pos head.toks_length_pos
      rw [Expr.toks, hhead, List.cons_append] at htoks
      obtain ⟨rfl, rfl⟩ := List.cons.inj htoks
      rw [evalExpr_succ_some]
      rw [List.append_assoc] at hup hn
      simp only [List.length_append] at hn
      exact (termAfter_mirrors comp head hhead hup (by simp only [List.length_append]; omega)).bind
        fun acc s₂ hup₂ => evalTail_mirrors comp tail hup₂ hend (by
          simp only [List.length_append]; omega)

end Meaning

end HolyRust.Parser
