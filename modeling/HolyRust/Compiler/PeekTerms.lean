import HolyRust.Library.Footprints
import HolyRust.Compiler.Values

/-!
The memory an expression reads.

* `Atom.value?` and its siblings — the value of a tree over one memory.
* `AtomPeeks`, `ExprPeeks`, `TailPeeks` — the tokens at hand hold a `peek` term
  that evaluation reaches, and its operand has the given value. Evaluation goes
  left to right and stops at the first unbound name, zero divisor or token that
  fits no term, so the relations are about tokens and not about trees.
* `parseAtomicTerm_exact` and its siblings — the expression functions read these
  addresses and no others.
-/

namespace HolyRust

open ByteMemory (readWord)

namespace Syntax

open HolyRust.Parser (ArithOp)

/-! ### Values -/

section Value

variable (lookup : List Byte → Option Word) (mem : Memory)

mutual

/-- The value of a term, if its names are bound and no divisor in it is zero. -/
def Atom.value? : Atom → Option Word
  | .lit v => some v
  | .name id => lookup id.val
  | .paren e => e.value?
  | .peek a => a.value?.map (readWord mem)

def Expr.value? : Expr → Option Word
  | .mk head tail => head.value?.bind fun acc => tail.value? acc

def Tail.value? : Tail → Word → Option Word
  | .nil, acc => some acc
  | .cons op a rest, acc =>
      a.value?.bind fun rhs => (op.apply acc rhs).toOption.bind fun acc => rest.value? acc

end

end Value

/-- The value of the atomic term spelled before the tokens `rest`. -/
def AtomAt (lookup : List Byte → Option Word) (mem : Memory) (ts : List Token) (v : Word)
    (rest : List Token) : Prop :=
  ∃ a : Atom, ts = a.toks ++ rest ∧ a.value? lookup mem = some v

/-- The value of the whole expression spelled before the tokens `rest`. -/
def ExprAt (lookup : List Byte → Option Word) (mem : Memory) (ts : List Token) (v : Word)
    (rest : List Token) : Prop :=
  ∃ e : Expr, (ts = e.toks ++ rest ∧ ¬ ContinuesChain rest) ∧ e.value? lookup mem = some v

theorem AtomAt.length_lt {lookup : List Byte → Option Word} {mem : Memory} {ts : List Token}
    {v : Word} {rest : List Token} (h : AtomAt lookup mem ts v rest) :
    rest.length < ts.length := by
  obtain ⟨a, rfl, _⟩ := h
  have := a.toks_length_pos
  simp only [List.length_append]
  omega

theorem not_atomAt_nil {lookup : List Byte → Option Word} {mem : Memory} {v : Word}
    {rest : List Token} : ¬ AtomAt lookup mem [] v rest := by
  intro h
  exact absurd h.length_lt (Nat.not_lt_zero _)

/-- Over the memory `mem` the computation has this value, or none if it fails;
it leaves the memory as it is. -/
def Comes {α : Type} (mem : Memory) (y : Eval α) (v : Option α) : Prop :=
  ∀ trace, match y ⟨mem, trace⟩ with
    | .ok w b => v = some w ∧ b.mem = mem
    | .error _ b => v = none ∧ b.mem = mem

section Comes

variable {mem : Memory}

theorem Yields.comes {α : Type} {y : Eval α} {r : Except ParseError α} (h : Yields mem y r) :
    Comes mem y r.toOption := by
  intro trace
  obtain ⟨b, hmem, hrun⟩ := h ⟨mem, trace⟩ rfl
  rw [hrun]
  cases r with
  | ok v => exact ⟨rfl, hmem⟩
  | error e => exact ⟨rfl, hmem⟩

theorem toOption_bind {α β : Type} (r : Except ParseError α) (f : α → Except ParseError β) :
    (r >>= f).toOption = r.toOption.bind fun v => (f v).toOption := by
  cases r <;> rfl

variable (lookup : List Byte → Option Word) (mem)

mutual

/-- The value without the error is that of the reference evaluator. -/
theorem Atom.value?_eq : ∀ a : Atom, a.value? lookup mem = (a.value lookup mem).toOption
  | .lit v => rfl
  | .name id => by
      unfold Atom.value? Atom.value
      cases lookup id.val <;> rfl
  | .paren e => by
      unfold Atom.value? Atom.value
      exact e.value?_eq
  | .peek a => by
      unfold Atom.value? Atom.value
      rw [toOption_bind, a.value?_eq, Option.map_eq_bind]
      rfl

theorem Expr.value?_eq : ∀ e : Expr, e.value? lookup mem = (e.value lookup mem).toOption
  | .mk head tail => by
      unfold Expr.value? Expr.value
      simp only [toOption_bind, head.value?_eq, tail.value?_eq]

theorem Tail.value?_eq : ∀ (tl : Tail) (acc : Word),
    tl.value? lookup mem acc = (tl.value lookup mem acc).toOption
  | .nil, acc => rfl
  | .cons op a rest, acc => by
      unfold Tail.value? Tail.value
      simp only [toOption_bind, a.value?_eq, rest.value?_eq, apply_eq_arith]

end

theorem Atom.eval_comes (a : Atom) : Comes mem (a.eval lookup) (a.value? lookup mem) := by
  rw [Atom.value?_eq]
  exact a.eval_yields.comes

theorem Expr.eval_comes (e : Expr) : Comes mem (e.eval lookup) (e.value? lookup mem) := by
  rw [Expr.value?_eq]
  exact e.eval_yields.comes

end Comes

/-! ### Reached peek terms -/

section Peeks

variable (lookup : List Byte → Option Word) (mem : Memory)

mutual

/-- Evaluating the term at the head of the tokens reads this address. -/
inductive AtomPeeks : List Token → Word → Prop where
  | operand {ts : List Token} {addr : Word} (h : AtomPeeks ts addr) :
      AtomPeeks (.identifier (bytes "peek") :: ts) addr
  | read {a : Atom} {rest : List Token} {addr : Word} (h : a.value? lookup mem = some addr) :
      AtomPeeks (.identifier (bytes "peek") :: (a.toks ++ rest)) addr
  | group {ts : List Token} {addr : Word} (h : ExprPeeks ts addr) : AtomPeeks (.lParen :: ts) addr

/-- Evaluating the expression at the head of the tokens reads this address. -/
inductive ExprPeeks : List Token → Word → Prop where
  | head {ts : List Token} {addr : Word} (h : AtomPeeks ts addr) : ExprPeeks ts addr
  | tail {a : Atom} {acc : Word} {rest : List Token} {addr : Word}
      (ha : a.value? lookup mem = some acc) (h : TailPeeks acc rest addr) :
      ExprPeeks (a.toks ++ rest) addr

/-- Going on from a value with the operators at the head of the tokens reads
this address. -/
inductive TailPeeks : Word → List Token → Word → Prop where
  | operand {op : ArithOp} {acc : Word} {ts : List Token} {addr : Word} (h : AtomPeeks ts addr) :
      TailPeeks acc (.operator (opByte op) :: ts) addr
  | rest {op : ArithOp} {acc rhs acc' : Word} {a : Atom} {ts : List Token} {addr : Word}
      (ha : a.value? lookup mem = some rhs) (hop : op.apply acc rhs = .ok acc')
      (h : TailPeeks acc' ts addr) : TailPeeks acc (.operator (opByte op) :: (a.toks ++ ts)) addr

end

variable {lookup mem} {addr acc : Word} {ts : List Token}

theorem atomPeeks_peek :
    AtomPeeks lookup mem (.identifier (bytes "peek") :: ts) addr ↔
      AtomPeeks lookup mem ts addr ∨ ∃ v rest, AtomAt lookup mem ts v rest ∧ addr = v := by
  constructor
  · intro h
    generalize hall : Token.identifier (bytes "peek") :: ts = all at h
    cases h with
    | operand h =>
        obtain ⟨_, rfl⟩ := List.cons.inj hall
        exact .inl h
    | @read a rest _ h =>
        obtain ⟨_, rfl⟩ := List.cons.inj hall
        exact .inr ⟨addr, rest, ⟨a, rfl, h⟩, rfl⟩
    | group h => cases hall
  · rintro (h | ⟨_, rest, ⟨a, rfl, h⟩, rfl⟩)
    · exact .operand h
    · exact .read h

theorem atomPeeks_lParen :
    AtomPeeks lookup mem (.lParen :: ts) addr ↔ ExprPeeks lookup mem ts addr := by
  constructor
  · intro h
    cases h
    assumption
  · exact .group

theorem not_atomPeeks {t : Token} (hparen : t ≠ .lParen)
    (hpeek : t ≠ .identifier (bytes "peek")) : ¬ AtomPeeks lookup mem (t :: ts) addr := by
  intro h
  cases h with
  | operand h => exact hpeek rfl
  | read h => exact hpeek rfl
  | group h => exact hparen rfl

theorem not_atomPeeks_nil : ¬ AtomPeeks lookup mem [] addr := nofun

theorem exprPeeks_iff :
    ExprPeeks lookup mem ts addr ↔ AtomPeeks lookup mem ts addr ∨ ∃ acc rest,
      AtomAt lookup mem ts acc rest ∧ TailPeeks lookup mem acc rest addr := by
  constructor
  · intro h
    cases h with
    | head h => exact .inl h
    | @tail a acc rest _ ha h => exact .inr ⟨acc, rest, ⟨a, rfl, ha⟩, h⟩
  · rintro (h | ⟨acc, rest, ⟨a, rfl, ha⟩, h⟩)
    · exact .head h
    · exact .tail ha h

theorem opByte_inj {op op' : ArithOp} (h : opByte op = opByte op') : op = op' := by
  have := congrArg ArithOp.ofByte h
  rw [ofByte_opByte, ofByte_opByte] at this
  exact Option.some.inj this

theorem tailPeeks_operator {op : ArithOp} :
    TailPeeks lookup mem acc (.operator (opByte op) :: ts) addr ↔
      AtomPeeks lookup mem ts addr ∨ ∃ rhs rest, AtomAt lookup mem ts rhs rest ∧
        ∃ acc', op.apply acc rhs = .ok acc' ∧ TailPeeks lookup mem acc' rest addr := by
  constructor
  · intro h
    generalize hall : Token.operator (opByte op) :: ts = all at h
    cases h with
    | @operand op' _ _ _ h =>
        obtain ⟨_, rfl⟩ := List.cons.inj hall
        exact .inl h
    | @rest op' _ rhs acc' a rest _ ha hop h =>
        obtain ⟨hhead, rfl⟩ := List.cons.inj hall
        obtain rfl := opByte_inj (Token.operator.inj hhead)
        exact .inr ⟨rhs, rest, ⟨a, rfl, ha⟩, acc', hop, h⟩
  · rintro (h | ⟨rhs, rest, ⟨a, rfl, ha⟩, acc', hop, h⟩)
    · exact .operand h
    · exact .rest ha hop h

theorem not_tailPeeks (h : ¬ ContinuesChain ts) : ¬ TailPeeks lookup mem acc ts addr := by
  intro hp
  cases hp with
  | @operand op _ _ _ _ => exact h (by simp [ContinuesChain, ofByte_opByte])
  | @rest op _ _ _ _ _ _ _ _ _ => exact h (by simp [ContinuesChain, ofByte_opByte])

end Peeks

end Syntax

namespace Parser

open Syntax
open Fallible (Adds Exact Observer Silent)

/-! ### What the cursor shows -/

theorem Upcoming.unique {s : Scan} {ts ts' : List Token} (h : Upcoming s ts)
    (h' : Upcoming s ts') : ts = ts' := by
  cases h with
  | lexer lx calls bus => cases h'; rfl
  | ahead hne lx calls bus =>
      cases h' with
      | ahead => rfl
      | ended => exact absurd rfl hne
  | ended h calls bus =>
      cases h' with
      | ahead hne => exact absurd rfl hne
      | ended => rfl

/-- The addresses read so far. -/
def history (s : Scan) : List Word := MemEvent.reads s.bus.trace

theorem history_of_bus {s s' : Scan} (h : s'.bus = s.bus) : history s' = history s := by
  unfold history
  rw [h]

/-- A cursor, seen as the tokens it is about to give. -/
def cursor : Observer Scan (List Token) Word where
  sees := Upcoming
  keeps s s' := s'.bus.mem = s.bus.mem
  hist := history
  sees_unique := Upcoming.unique
  keeps_refl _ := rfl
  keeps_trans h h' := h'.trans h

section Cursor

variable {α : Type} {s : Scan} {ts : List Token} {P : Word → Prop}

theorem adds_next {k : Token → EvalM α} (h : Upcoming s ts)
    (hk : ∀ s', Upcoming s' ts.tail → s'.bus = s.bus →
      Adds cursor.hist (k (first ts)) s' P) : Adds cursor.hist (Cur.next >>= k) s P := by
  obtain ⟨s', hnext, hup, hbus⟩ := next_upcoming h
  exact (hk s' hup hbus).step hnext (history_of_bus hbus)

theorem adds_peek {k : Token → EvalM α} (h : Upcoming s ts)
    (hk : ∀ s', Upcoming s' ts → s'.bus = s.bus → Adds cursor.hist (k (first ts)) s' P) :
    Adds cursor.hist (Cur.peek >>= k) s P := by
  obtain ⟨s', hpeek, hup, hbus⟩ := peek_upcoming h
  exact (hk s' hup hbus).step hpeek (history_of_bus hbus)

theorem silent_next : Silent cursor.hist Cur.next := by
  intro s
  unfold Cur.next Cur.lexToken
  cases s.ahead with
  | some t => rfl
  | none =>
      cases s.lx.nextToken with
      | some r => rfl
      | none => rfl

theorem adds_fail (e : ParseError) : Adds cursor.hist (fail e : EvalM α) s fun _ => False :=
  Fallible.adds_none rfl

theorem adds_peekU32 (addr : Word) : Adds cursor.hist (peekU32 addr) s (· = addr) := by
  refine ⟨[addr], ?_, by simp⟩
  change MemEvent.reads (s.bus.peekU32 addr).2.trace = MemEvent.reads s.bus.trace ++ [addr]
  simp

/-- A function that does what an evaluation does returns the value this comes to,
or stops. -/
theorem outcome_of_mirrors {x : EvalM Word} {y : Eval Word} {rest : List Token} {val : Option Word}
    (hm : Mirrors x s y rest) (hval : Comes s.bus.mem y val) :
    (∃ w s', val = some w ∧ x s = .ok w s' ∧ Upcoming s' rest) ∨
      val = none ∧ ∃ e s', x s = .error e s' := by
  have hv := hval s.bus.trace
  unfold Mirrors at hm
  cases hy : y s.bus with
  | ok w b =>
      rw [hy] at hm hv
      obtain ⟨s', hrun, hup, _⟩ := hm
      exact .inl ⟨w, s', hv.1, hrun, hup⟩
  | error e b =>
      rw [hy] at hm hv
      obtain ⟨s', hrun, _⟩ := hm
      exact .inr ⟨hv.1, _, s', hrun⟩

/-- Where a function reads one of the trees in `spells` and does what the
tree's evaluation does, it returns the values of these trees. -/
theorem exact_of_mirrors {T : Type} {x : EvalM Word} {spells : T → List Token → Prop}
    {y : T → Eval Word} {val : T → Option Word} (hadds : Adds cursor.hist x s P)
    (hreads : Reads x s fun rest => ∃ t, spells t rest)
    (hmirrors : ∀ t rest, spells t rest → Mirrors x s (y t) rest)
    (hval : ∀ t, Comes s.bus.mem (y t) (val t)) :
    Exact cursor x s (fun v rest => ∃ t, spells t rest ∧ val t = some v) P where
  adds := hadds
  returns v s' hrun := by
    obtain ⟨rest, ⟨t, ht⟩, hup, hquiet⟩ := hreads.of_ok hrun
    refine ⟨rest, ⟨t, ht, ?_⟩, hup, hquiet.1⟩
    rcases outcome_of_mirrors (hmirrors t rest ht) (hval t) with
      ⟨w, s₁, hw, hrun₁, _⟩ | ⟨_, e, s₁, hrun₁⟩
    · cases hrun.symm.trans hrun₁
      exact hw
    · cases hrun.symm.trans hrun₁
  delivers := by
    rintro v rest ⟨t, ht, hvt⟩
    rcases outcome_of_mirrors (hmirrors t rest ht) (hval t) with
      ⟨w, s', hw, hrun, hup⟩ | ⟨hnone, _⟩
    · obtain rfl : v = w := Option.some.inj (hvt.symm.trans hw)
      exact ⟨s', hrun, hup⟩
    · cases hvt.symm.trans hnone

end Cursor

/-! ### The expression functions -/

section Expressions

variable {comp : Compiler} {mem : Memory} {n : Nat} {s : Scan} {ts : List Token}

theorem termAfter_exact (tok : Token) (hup : Upcoming s ts) (hmem : s.bus.mem = mem)
    (hn : 2 * ts.length + 3 ≤ n) {P : Word → Prop}
    (hadds : Adds cursor.hist (termAfter comp n tok) s P) :
    Exact cursor (termAfter comp n tok) s (AtomAt comp.symbols.value? mem (tok :: ts)) P := by
  subst hmem
  refine exact_of_mirrors hadds ((readsTrees comp n).termAfter tok hup hn) ?_
    fun a => a.eval_comes _ _
  intro a rest hspell
  obtain ⟨t', ts', htoks⟩ := List.exists_cons_of_length_pos a.toks_length_pos
  rw [htoks, List.cons_append] at hspell
  obtain ⟨rfl, rfl⟩ := List.cons.inj hspell
  exact termAfter_mirrors comp a htoks hup hn

/-- What the four functions read on the budget `n`. -/
structure ReadsPeeks (comp : Compiler) (mem : Memory) (n : Nat) : Prop where
  resolve : ∀ (tok : Token) (s : Scan) (ts : List Token), tok ≠ .lParen → Upcoming s ts →
    s.bus.mem = mem → 2 * ts.length + 3 ≤ n →
      Adds cursor.hist (resolveTerm comp n tok) s
        (AtomPeeks comp.symbols.value? mem (tok :: ts))
  atomic : ∀ (s : Scan) (ts : List Token), Upcoming s ts → s.bus.mem = mem →
    2 * ts.length + 2 ≤ n →
      Adds cursor.hist (parseAtomicTerm comp n) s (AtomPeeks comp.symbols.value? mem ts)
  expr : ∀ (s : Scan) (ts : List Token), Upcoming s ts → s.bus.mem = mem →
    2 * ts.length + 2 ≤ n →
      Adds cursor.hist (evalExpr comp n none) s (ExprPeeks comp.symbols.value? mem ts)
  tail : ∀ (acc : Word) (s : Scan) (ts : List Token), Upcoming s ts → s.bus.mem = mem →
    2 * ts.length + 1 ≤ n →
      Adds cursor.hist (evalTail comp n acc) s (TailPeeks comp.symbols.value? mem acc ts)

theorem ReadsPeeks.termAfter (h : ReadsPeeks comp mem n) (tok : Token) (hup : Upcoming s ts)
    (hmem : s.bus.mem = mem) (hn : 2 * ts.length + 3 ≤ n) :
    Adds cursor.hist (termAfter comp n tok) s
      (AtomPeeks comp.symbols.value? mem (tok :: ts)) := by
  unfold Parser.termAfter
  split
  · rename_i htok
    subst htok
    refine ((h.expr s ts hup hmem (by omega)).bind_silent fun v => ?_).congr
      fun addr => atomPeeks_lParen.symm
    refine silent_next.bind fun t => ?_
    split
    · exact Fallible.silent_pure v
    · exact Fallible.silent_throw _
  · rename_i htok
    exact h.resolve tok s ts htok hup hmem hn

/-- The same for a term that starts with the next token, whatever it is. -/
theorem ReadsPeeks.termNext (h : ReadsPeeks comp mem n) (hup : Upcoming s ts.tail)
    (hmem : s.bus.mem = mem) (hn : 2 * ts.length + 1 ≤ n) :
    Exact cursor (Parser.termAfter comp n (first ts)) s (AtomAt comp.symbols.value? mem ts)
      (AtomPeeks comp.symbols.value? mem ts) := by
  cases ts with
  | nil =>
      cases n with
      | zero => omega
      | succ n =>
          exact (Fallible.exact_throw _).congr (fun v rest => iff_of_false id not_atomAt_nil)
            fun addr => iff_of_false id not_atomPeeks_nil
  | cons t ts =>
      have hn' : 2 * ts.length + 3 ≤ n := by
        simp only [List.length_cons] at hn
        omega
      exact termAfter_exact t hup hmem hn' (h.termAfter t hup hmem hn')

/-- A literal and a name are resolved without a read. -/
theorem adds_resolve_plain {tok : Token} (hpeek : tok ≠ .identifier (bytes "peek")) (s : Scan) :
    Adds cursor.hist (Parser.resolveTerm comp (n + 1) tok) s fun _ => False := by
  cases tok with
  | identifier id =>
      rw [resolveTerm_name comp n fun hid => hpeek (by rw [hid])]
      unfold lookupSymbol
      rw [SymbolTable.lookupSymbol_eq]
      cases comp.symbols.value? id with
      | none => exact adds_fail _
      | some v => exact (Fallible.silent_pure v).adds s
  | literal v => exact (Fallible.silent_pure v).adds s
  | error msg => exact adds_fail _
  | _ => exact adds_fail _

/-- A chain reads the terms up to the first operation that fails. -/
theorem ReadsPeeks.tail_succ (h : ReadsPeeks comp mem n) (acc : Word) {s : Scan}
    {ts : List Token} (hup : Upcoming s ts) (hmem : s.bus.mem = mem)
    (hn : 2 * ts.length + 1 ≤ n + 1) :
    Adds cursor.hist (Parser.evalTail comp (n + 1) acc) s
      (TailPeeks comp.symbols.value? mem acc ts) := by
  rw [evalTail_succ]
  refine adds_peek hup fun s₁ hup₁ hbus₁ => ?_
  have hmem₁ : s₁.bus.mem = mem := by rw [hbus₁]; exact hmem
  have hdone : ¬ ContinuesChain ts → Adds cursor.hist (pure acc : EvalM Word) s₁
      (TailPeeks comp.symbols.value? mem acc ts) := fun hend =>
    ((Fallible.silent_pure acc).adds s₁).congr fun addr => iff_of_false id (not_tailPeeks hend)
  split
  · rename_i b hfirst
    cases ts with
    | nil => cases hfirst
    | cons t ts =>
        obtain rfl : t = .operator b := hfirst
        cases hop : ArithOp.ofByte b with
        | none => exact hdone (by simp [ContinuesChain, hop])
        | some op =>
            obtain rfl := opByte_of_ofByte hop
            refine adds_next hup₁ fun s₂ hup₂ hbus₂ => ?_
            refine adds_next hup₂ fun s₃ hup₃ hbus₃ => ?_
            simp only [List.tail_cons, List.length_cons] at hup₃ hn ⊢
            have hmem₃ : s₃.bus.mem = mem := by rw [hbus₃, hbus₂]; exact hmem₁
            refine ((h.termNext hup₃ hmem₃ (by omega)).adds_bind
              fun rhs s₄ rest hrest hup₄ hkeeps => ?_).congr
                fun addr => tailPeeks_operator.symm
            obtain ⟨a, rfl, _⟩ := hrest
            have hpos := a.toks_length_pos
            simp only [List.length_append] at hn
            unfold fold
            cases hval : op.apply acc rhs with
            | ok acc' =>
                refine (h.tail acc' s₄ rest hup₄ (hkeeps.trans hmem₃) (by omega)).congr
                  fun addr => ?_
                simp
            | error e => exact (adds_fail e).congr fun addr => by simp
  · rename_i hfirst
    exact hdone (not_continuesChain_of_first hfirst)

theorem ReadsPeeks.succ (h : ReadsPeeks comp mem n) : ReadsPeeks comp mem (n + 1) where
  resolve tok s ts htok hup hmem hn := by
    by_cases hpeek : tok = .identifier (bytes "peek")
    · subst hpeek
      rw [resolveTerm_peek]
      have hexact : Exact cursor (parseAtomicTerm comp n) s (AtomAt comp.symbols.value? mem ts)
          (AtomPeeks comp.symbols.value? mem ts) := by
        subst hmem
        exact exact_of_mirrors (h.atomic s ts hup rfl (by omega))
          (parseAtomicTerm_reads comp hup (by omega))
          (fun a rest hts => parseAtomicTerm_mirrors comp a (hts ▸ hup) (by rw [← hts]; omega))
          fun a => a.eval_comes _ _
      refine (hexact.adds_bind fun v s₁ rest _ _ _ => adds_peekU32 v).congr fun addr => ?_
      exact atomPeeks_peek.symm
    · exact (adds_resolve_plain hpeek s).congr
        fun addr => iff_of_false id (not_atomPeeks htok hpeek)
  atomic s ts hup hmem hn := by
    rw [parseAtomicTerm_succ]
    exact adds_next hup fun s₁ hup₁ hbus₁ =>
      (h.termNext hup₁ (by rw [hbus₁]; exact hmem) (by omega)).adds
  expr s ts hup hmem hn := by
    rw [evalExpr_succ_none]
    refine adds_next hup fun s₁ hup₁ hbus₁ => ?_
    have hmem₁ : s₁.bus.mem = mem := by rw [hbus₁]; exact hmem
    refine ((h.termNext hup₁ hmem₁ (by omega)).adds_bind
      fun acc s₂ rest hrest hup₂ hkeeps => ?_).congr fun addr => exprPeeks_iff.symm
    obtain ⟨a, rfl, _⟩ := hrest
    have hpos := a.toks_length_pos
    have hlen₂ : 2 * rest.length + 1 ≤ n := by
      simp only [List.length_append] at hn
      omega
    exact h.tail acc s₂ rest hup₂ (hkeeps.trans hmem₁) hlen₂
  tail acc _ _ hup hmem hn := h.tail_succ acc hup hmem hn

variable (comp mem)

theorem readsPeeks (n : Nat) : ReadsPeeks comp mem n := by
  induction n with
  | zero => exact ⟨by intros; omega, by intros; omega, by intros; omega, by intros; omega⟩
  | succ n ih => exact ih.succ

/-- A term is evaluated as it is spelled and reads its peek terms. -/
theorem parseAtomicTerm_exact (hup : Upcoming s ts) (hmem : s.bus.mem = mem)
    (hn : 2 * ts.length + 2 ≤ n) :
    Exact cursor (parseAtomicTerm comp n) s (AtomAt comp.symbols.value? mem ts)
      (AtomPeeks comp.symbols.value? mem ts) := by
  subst hmem
  exact exact_of_mirrors ((readsPeeks comp _ n).atomic s ts hup rfl hn)
    (parseAtomicTerm_reads comp hup hn)
    (fun a rest hts => parseAtomicTerm_mirrors comp a (hts ▸ hup) (by rw [← hts]; exact hn))
    fun a => a.eval_comes _ _

theorem evalExpr_exact (hup : Upcoming s ts) (hmem : s.bus.mem = mem)
    (hn : 2 * ts.length + 2 ≤ n) :
    Exact cursor (evalExpr comp n none) s (ExprAt comp.symbols.value? mem ts)
      (ExprPeeks comp.symbols.value? mem ts) := by
  subst hmem
  refine exact_of_mirrors ((readsPeeks comp _ n).expr s ts hup rfl hn)
    (evalExpr_reads comp hup hn) ?_ fun e => e.eval_comes _ _
  rintro e rest ⟨hts, hend⟩
  exact evalExpr_mirrors comp e (hts ▸ hup) hend (by rw [← hts]; exact hn)

/-- The same for an expression whose first token has been taken already. -/
theorem evalExpr_exact_after (t : Token) (hup : Upcoming s ts) (hmem : s.bus.mem = mem)
    (hn : 2 * ts.length + 4 ≤ n) :
    Exact cursor (evalExpr comp n (some t)) s (ExprAt comp.symbols.value? mem (t :: ts))
      (ExprPeeks comp.symbols.value? mem (t :: ts)) := by
  subst hmem
  refine exact_of_mirrors ?_ (evalExpr_reads_after comp t hup hn) ?_ fun e => e.eval_comes _ _
  · obtain ⟨n, rfl⟩ : ∃ m, n = m + 1 := ⟨n - 1, by omega⟩
    rw [evalExpr_succ_some]
    have hterm := termAfter_exact t hup rfl (by omega)
      ((readsPeeks comp s.bus.mem n).termAfter t hup rfl (by omega))
    refine (hterm.adds_bind fun acc s₂ rest hrest hup₂ hkeeps => ?_).congr
      fun addr => exprPeeks_iff.symm
    obtain ⟨a, hts, _⟩ := hrest
    have hpos := a.toks_length_pos
    have hlen := congrArg List.length hts
    simp only [List.length_cons, List.length_append] at hlen
    exact (readsPeeks comp _ n).tail acc s₂ rest hup₂ hkeeps (by omega)
  · rintro e rest ⟨hts, hend⟩
    cases e with
    | mk head tail =>
        obtain ⟨t', ts', hhead⟩ := List.exists_cons_of_length_pos head.toks_length_pos
        have htoks : (Expr.mk head tail).toks = t' :: (ts' ++ tail.toks) := by
          rw [Expr.toks, hhead, List.cons_append]
        rw [htoks, List.cons_append] at hts
        obtain ⟨rfl, rfl⟩ := List.cons.inj hts
        exact evalExpr_mirrors_after comp _ htoks hup hend hn

end Expressions

end Parser

end HolyRust
