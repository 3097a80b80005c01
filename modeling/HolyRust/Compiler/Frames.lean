import HolyRust.Compiler.Accesses
import HolyRust.Compiler.Evaluation

/-!
Rules for the statement functions, which run over the whole compiler.

* `Unchanged s s'` — from `s` to `s'` the tables are the same and memory was only
  read. `Walks x s R` — `x` ends with the cursor before tokens in `R`, or is
  rejected; either way `Unchanged`.
* `FrameMirrors x s y rest` — `x` does what the reference computation `y` does.
* `pushAll_room`, `pushAll_full` — emission, as appending to the scratch words.
-/

namespace HolyRust

open Fallible (Ends)

/-! ### The tables and the scratch stream -/

namespace Compiler

/-- What later lines can see of a compiler. -/
structure SameTables (c c' : Compiler) : Prop where
  symbols : c'.symbols = c.symbols
  fnNames : c'.fnNames = c.fnNames
  fnBodies : c'.fnBodies = c.fnBodies
  fnBodyLens : c'.fnBodyLens = c.fnBodyLens

theorem SameTables.refl (c : Compiler) : SameTables c c := ⟨rfl, rfl, rfl, rfl⟩

theorem SameTables.trans {c₁ c₂ c₃ : Compiler} (h : SameTables c₁ c₂) (h' : SameTables c₂ c₃) :
    SameTables c₁ c₃ :=
  ⟨h'.symbols.trans h.symbols, h'.fnNames.trans h.fnNames, h'.fnBodies.trans h.fnBodies,
    h'.fnBodyLens.trans h.fnBodyLens⟩

theorem SameTables.symm {c c' : Compiler} (h : SameTables c c') : SameTables c' c :=
  ⟨h.symbols.symm, h.fnNames.symm, h.fnBodies.symm, h.fnBodyLens.symm⟩

/-- The words emitted so far. -/
def scratch (c : Compiler) : List Word := c.stream.toList.take c.streamLen

/-- The stored body of a slot. -/
def bodyAt (c : Compiler) (i : Fin maxFns) : List Word :=
  (c.fnBody i).toList.take (c.fnBodyLen i)

/-- The stored body of a live function. -/
def bodyOf (c : Compiler) (name : List Byte) : Option (List Word) := (c.findFn name).map c.bodyAt

theorem SameTables.fnName {c c' : Compiler} (h : SameTables c c') : c'.fnName = c.fnName := by
  unfold Compiler.fnName
  rw [h.fnNames]

theorem SameTables.fnBody {c c' : Compiler} (h : SameTables c c') : c'.fnBody = c.fnBody := by
  unfold Compiler.fnBody
  rw [h.fnBodies]

theorem SameTables.fnBodyLen {c c' : Compiler} (h : SameTables c c') :
    c'.fnBodyLen = c.fnBodyLen := by
  unfold Compiler.fnBodyLen
  rw [h.fnBodyLens]

theorem SameTables.findFn {c c' : Compiler} (h : SameTables c c') (name : List Byte) :
    c'.findFn name = c.findFn name := by
  simp only [Compiler.findFn, fnAllocated, h.fnName]

theorem SameTables.bodyAt {c c' : Compiler} (h : SameTables c c') (i : Fin maxFns) :
    c'.bodyAt i = c.bodyAt i := by
  rw [Compiler.bodyAt, h.fnBody, h.fnBodyLen, Compiler.bodyAt]

theorem SameTables.bodyOf {c c' : Compiler} (h : SameTables c c') (name : List Byte) :
    c'.bodyOf name = c.bodyOf name := by
  unfold Compiler.bodyOf
  rw [h.findFn, funext h.bodyAt]

end Compiler

namespace Parser

open Syntax

/-! ### Reading and rejecting -/

/-- The tables are the same and memory was only read. -/
structure Unchanged (s s' : Frame) : Prop where
  tables : Compiler.SameTables s.comp s'.comp
  quiet : Quiet s.scan.bus s'.scan.bus

theorem Unchanged.refl (s : Frame) : Unchanged s s := ⟨.refl _, .refl _⟩

theorem Unchanged.trans {s₁ s₂ s₃ : Frame} (h : Unchanged s₁ s₂) (h' : Unchanged s₂ s₃) :
    Unchanged s₁ s₃ :=
  ⟨h.tables.trans h'.tables, h.quiet.trans h'.quiet⟩

/-- A proper parser error that left nothing behind. -/
def Rejected (s : Frame) (e : Stop) (s' : Frame) : Prop :=
  (∃ pe, e = .error pe) ∧ Unchanged s s'

theorem Rejected.trans {s s₁ s₂ : Frame} {e : Stop} (h : Unchanged s s₁)
    (h' : Rejected s₁ e s₂) : Rejected s e s₂ :=
  ⟨h'.1, h.trans h'.2⟩

/-- `x` from `s` returns with the cursor before some tokens in `R`, or is
rejected; nothing has changed either way. -/
def Walks {α : Type} (x : ParseM α) (s : Frame) (R : α → List Token → Prop) : Prop :=
  Ends x s (fun a s' => ∃ rest, R a rest ∧ Upcoming s'.scan rest ∧ Unchanged s s') (Rejected s)

section Walks

variable {α β : Type} {x : ParseM α} {f : α → ParseM β} {s : Frame} {ts : List Token}
  {R : α → List Token → Prop} {R' : β → List Token → Prop}

theorem Walks.bind_run {Q : β → Frame → Prop} (hx : Walks x s R)
    (hf : ∀ a s' rest, x s = .ok a s' → R a rest → Upcoming s'.scan rest → Unchanged s s' →
      Ends (f a) s' Q (Rejected s')) : Ends (x >>= f) s Q (Rejected s) := by
  refine Ends.bind (Q := fun a (s' : Frame) => (∃ rest, R a rest ∧ Upcoming s'.scan rest ∧
    Unchanged s s') ∧ x s = .ok a s') (Ends.with_run hx) fun a s' hs' => ?_
  obtain ⟨⟨rest, hr, hup, hun⟩, hrun⟩ := hs'
  exact (hf a s' rest hrun hr hup hun).mono (fun _ _ hq => hq) fun _ _ he => .trans hun he

theorem Walks.bind_ends {Q : β → Frame → Prop} (hx : Walks x s R)
    (hf : ∀ a s' rest, R a rest → Upcoming s'.scan rest → Unchanged s s' →
      Ends (f a) s' Q (Rejected s')) : Ends (x >>= f) s Q (Rejected s) :=
  hx.bind_run fun a s' rest _ => hf a s' rest

theorem Walks.bind (hx : Walks x s R)
    (hf : ∀ a s' rest, R a rest → Upcoming s'.scan rest → Unchanged s s' → Walks (f a) s' R') :
    Walks (x >>= f) s R' := by
  refine hx.bind_ends fun a s' rest hr hup hun => ?_
  refine (hf a s' rest hr hup hun).mono ?_ fun _ _ he => he
  rintro b s'' ⟨rest', hr', hup', hun'⟩
  exact ⟨rest', hr', hup', hun.trans hun'⟩

theorem Walks.mono {R₁ : α → List Token → Prop} (h : Walks x s R)
    (hR : ∀ a rest, R a rest → R₁ a rest) : Walks x s R₁ :=
  Ends.mono h (fun _ _ ⟨rest, hr, hup, hun⟩ => ⟨rest, hR _ rest hr, hup, hun⟩) fun _ _ he => he

theorem walks_pure {a : α} (h : Upcoming s.scan ts) (hR : R a ts) : Walks (pure a) s R :=
  ⟨ts, hR, h, .refl _⟩

theorem ends_fail {Q : α → Frame → Prop} (e : ParseError) :
    Ends (fail e : ParseM α) s Q (Rejected s) :=
  ⟨⟨e, rfl⟩, .refl _⟩

theorem walks_onScan {g : Compiler → EvalM α} {R : List Token → Prop}
    (h : Reads (g s.comp) s.scan R) : Walks (onScan g) s fun _ rest => R rest := by
  unfold Reads Ends at h
  unfold Walks Ends onScan
  cases hg : g s.comp s.scan with
  | ok a scan =>
      simp only [hg] at h ⊢
      obtain ⟨rest, hr, hup, hq⟩ := h
      exact ⟨rest, hr, hup, .refl _, hq⟩
  | error e scan =>
      simp only [hg] at h ⊢
      exact ⟨h.1, .refl _, h.2⟩

theorem walks_nextTok (h : Upcoming s.scan ts) :
    Walks nextTok s fun t rest => t = first ts ∧ rest = ts.tail := by
  obtain ⟨s', hnext, hup, hbus⟩ := next_upcoming h
  unfold Walks Ends nextTok onScan
  simp only [hnext]
  exact ⟨ts.tail, by simp, hup, .refl _, quiet_of_eq hbus⟩

theorem walks_peekTok (h : Upcoming s.scan ts) :
    Walks peekTok s fun t rest => t = first ts ∧ rest = ts := by
  obtain ⟨s', hpeek, hup, hbus⟩ := peek_upcoming h
  unfold Walks Ends peekTok onScan
  simp only [hpeek]
  exact ⟨ts, by simp, hup, .refl _, quiet_of_eq hbus⟩

/-- The head of a token list that is not `eof`. -/
theorem eq_cons_of_first {t : Token} (h : first ts = t) (hne : t ≠ .eof) : ts = t :: ts.tail := by
  cases ts with
  | nil => exact absurd h.symm hne
  | cons t' ts => exact congrArg (· :: ts) h

theorem walks_expect {tok : Token} (hne : tok ≠ .eof) (h : Upcoming s.scan ts) :
    Walks (expect tok) s fun _ rest => ts = tok :: rest := by
  refine (walks_nextTok h).bind fun t s₁ rest ⟨ht, hrest⟩ hup _ => ?_
  subst ht hrest
  split
  · rename_i htok
    exact walks_pure hup (eq_cons_of_first htok hne)
  · exact ends_fail _

/-- The tokens a statement may end before: its semicolon, or the end. -/
def Closes (ts rest : List Token) : Prop := ts = .semicolon :: rest ∨ ts = [] ∧ rest = []

theorem walks_expectSemicolon (h : Upcoming s.scan ts) :
    Walks expectSemicolon s fun _ rest => Closes ts rest := by
  refine (walks_nextTok h).bind fun t s₁ rest ⟨ht, hrest⟩ hup _ => ?_
  subst ht hrest
  split
  · rename_i hfirst
    exact walks_pure hup (.inl (eq_cons_of_first hfirst (by simp)))
  · rename_i hfirst
    obtain rfl := h.first_eq_eof hfirst
    exact walks_pure hup (.inr ⟨rfl, rfl⟩)
  · exact ends_fail _

theorem walks_expectName (h : Upcoming s.scan ts) :
    Walks expectName s fun name rest => ts = .identifier name.asSlice :: rest := by
  refine (walks_nextTok h).bind fun t s₁ rest ⟨ht, hrest⟩ hup _ => ?_
  subst ht hrest
  split
  · rename_i id hfirst
    cases hname : NameBuf.fromSlice id with
    | ok name =>
        refine walks_pure hup ?_
        rw [NameBuf.asSlice_fromSlice hname]
        exact eq_cons_of_first hfirst (by simp)
    | error e => exact ends_fail _
  · exact ends_fail _

/-- Nothing is read. -/
theorem walks_enforce (env : Env) (addr : Word) (h : Upcoming s.scan ts) :
    Walks (enforce env addr) s fun _ rest =>
      rest = ts ∧ Registry.Permitted env.target env.registry addr := by
  unfold enforce
  split
  · rename_i hcheck
    exact walks_pure h ⟨rfl, hcheck⟩
  · exact ends_fail _

end Walks

/-! ### Moving the cursor -/

/-- The cursor moved and nothing else happened. -/
def Moved (s s' : Frame) : Prop := s'.comp = s.comp ∧ s'.scan.bus = s.scan.bus

theorem Moved.trans {s₁ s₂ s₃ : Frame} (h : Moved s₁ s₂) (h' : Moved s₂ s₃) : Moved s₁ s₃ :=
  ⟨h'.1.trans h.1, h'.2.trans h.2⟩

theorem nextTok_moved {s s' : Frame} {t : Token} (h : nextTok s = .ok t s') : Moved s s' := by
  unfold nextTok onScan Cur.next Cur.lexToken at h
  cases hahead : s.scan.ahead with
  | some u =>
      simp only [hahead] at h
      cases h
      exact ⟨rfl, rfl⟩
  | none =>
      cases hlex : s.scan.lx.nextToken with
      | none => simp [hahead, hlex] at h
      | some r =>
          simp only [hahead, hlex] at h
          cases h
          exact ⟨rfl, rfl⟩

theorem expect_moved {s s' : Frame} {tok : Token} (h : expect tok s = .ok ⟨⟩ s') : Moved s s' := by
  obtain ⟨t, s₁, hnext, hrest⟩ := Fallible.bind_eq_ok.mp h
  have hmoved := nextTok_moved hnext
  split at hrest
  · cases hrest
    exact hmoved
  · cases hrest

theorem expectName_moved {s s' : Frame} {name : NameBuf} (h : expectName s = .ok name s') :
    Moved s s' := by
  obtain ⟨t, s₁, hnext, hrest⟩ := Fallible.bind_eq_ok.mp h
  have hmoved := nextTok_moved hnext
  cases t with
  | identifier id =>
      cases hname : NameBuf.fromSlice id with
      | ok buf =>
          simp only [hname] at hrest
          cases hrest
          exact hmoved
      | error e =>
          simp only [hname] at hrest
          cases hrest
  | _ => cases hrest

/-! ### Doing what a reference computation does -/

/-- `x` from `s` does what `y` does on the same bus, and leaves the compiler as
it is. -/
def FrameMirrors {α : Type} (x : ParseM α) (s : Frame) (y : Eval α) (rest : List Token) : Prop :=
  match y s.scan.bus with
  | .ok v b => ∃ s', x s = .ok v s' ∧ Upcoming s'.scan rest ∧ s'.scan.bus = b ∧ s'.comp = s.comp
  | .error e b => ∃ s', x s = .error (.error e) s' ∧ s'.scan.bus = b ∧ s'.comp = s.comp

section FrameMirrors

variable {α : Type} {y : Eval α} {s : Frame} {rest ts : List Token}

theorem frameMirrors_onScan {h : Compiler → EvalM α}
    (hm : Mirrors (h s.comp) s.scan y rest) : FrameMirrors (onScan h) s y rest := by
  unfold Mirrors at hm
  unfold FrameMirrors onScan
  cases hy : y s.scan.bus with
  | ok v b =>
      rw [hy] at hm
      obtain ⟨scan, hx, hup, hbus⟩ := hm
      exact ⟨{ s with scan := scan }, by simp [hx], hup, hbus, rfl⟩
  | error e b =>
      rw [hy] at hm
      obtain ⟨scan, hx, hbus⟩ := hm
      exact ⟨{ s with scan := scan }, by simp [hx], hbus, rfl⟩

theorem nextTok_cons {t : Token} (h : Upcoming s.scan (t :: ts)) :
    ∃ s', nextTok s = .ok t s' ∧ Upcoming s'.scan ts ∧ s'.scan.bus = s.scan.bus ∧
      s'.comp = s.comp := by
  obtain ⟨scan, hnext, hup, hbus⟩ := next_upcoming h
  exact ⟨{ s with scan := scan }, by simp [nextTok, onScan, hnext], hup, hbus, rfl⟩

theorem peekTok_upcoming (h : Upcoming s.scan ts) :
    ∃ s', peekTok s = .ok (first ts) s' ∧ Upcoming s'.scan ts ∧ s'.scan.bus = s.scan.bus ∧
      s'.comp = s.comp := by
  obtain ⟨scan, hpeek, hup, hbus⟩ := peek_upcoming h
  exact ⟨{ s with scan := scan }, by simp [peekTok, onScan, hpeek], hup, hbus, rfl⟩

theorem expect_cons {tok : Token} (h : Upcoming s.scan (tok :: ts)) :
    ∃ s', expect tok s = .ok ⟨⟩ s' ∧ Upcoming s'.scan ts ∧ s'.scan.bus = s.scan.bus ∧
      s'.comp = s.comp := by
  obtain ⟨s', hnext, hup, hbus, hcomp⟩ := nextTok_cons h
  refine ⟨s', ?_, hup, hbus, hcomp⟩
  unfold expect
  rw [Fallible.bind_ok hnext, if_pos rfl]
  rfl

theorem expectName_identifier {id : List Byte} {name : NameBuf}
    (hname : NameBuf.fromSlice id = .ok name) (h : Upcoming s.scan (.identifier id :: ts)) :
    ∃ s', expectName s = .ok name s' ∧ Upcoming s'.scan ts ∧ s'.scan.bus = s.scan.bus ∧
      s'.comp = s.comp := by
  obtain ⟨s', hnext, hup, hbus, hcomp⟩ := nextTok_cons h
  refine ⟨s', ?_, hup, hbus, hcomp⟩
  unfold expectName
  rw [Fallible.bind_ok hnext]
  simp only [hname]
  rfl

theorem expectSemicolon_semicolon (h : Upcoming s.scan (.semicolon :: ts)) :
    ∃ s', expectSemicolon s = .ok ⟨⟩ s' ∧ Upcoming s'.scan ts ∧ s'.scan.bus = s.scan.bus ∧
      s'.comp = s.comp := by
  obtain ⟨s', hnext, hup, hbus, hcomp⟩ := nextTok_cons h
  exact ⟨s', by unfold expectSemicolon; rw [Fallible.bind_ok hnext]; rfl, hup, hbus, hcomp⟩

theorem expectSemicolon_missing (h : Upcoming s.scan ts) (hsemi : first ts ≠ .semicolon)
    (heof : first ts ≠ .eof) : ∃ s', expectSemicolon s = .error (.error .missingSemicolon) s' := by
  cases ts with
  | nil => exact absurd rfl heof
  | cons t ts =>
      obtain ⟨s', hnext, _⟩ := nextTok_cons h
      refine ⟨s', ?_⟩
      unfold expectSemicolon
      rw [Fallible.bind_ok hnext]
      cases t with
      | semicolon => exact absurd rfl hsemi
      | eof => exact absurd rfl heof
      | _ => rfl

theorem callParens_parens (h : Upcoming s.scan (.lParen :: .rParen :: ts)) :
    ∃ s', callParens s = .ok ⟨⟩ s' ∧ Upcoming s'.scan ts ∧ s'.scan.bus = s.scan.bus ∧
      s'.comp = s.comp := by
  obtain ⟨s₁, hopen, hup₁, hbus₁, hcomp₁⟩ := nextTok_cons h
  obtain ⟨s₂, hclose, hup₂, hbus₂, hcomp₂⟩ := nextTok_cons hup₁
  refine ⟨s₂, ?_, hup₂, hbus₂.trans hbus₁, hcomp₂.trans hcomp₁⟩
  unfold callParens expect
  rw [Fallible.bind_ok hopen, Fallible.bind_ok hclose]
  rfl

end FrameMirrors

/-! ### Emission -/

/-- Push several words. -/
def pushAll : List Word → ParseM PUnit
  | [] => pure ⟨⟩
  | w :: ws => do
      streamPush w
      pushAll ws

theorem streamPushLit_eq (env : Env) (v : Word) :
    streamPushLit env v = pushAll [env.code.wordOf .lit, v] := by
  simp [streamPushLit, pushAll]

/-- What a `poke` pushes is the group of a write. -/
theorem push_write (env : Env) (a v : Word) :
    (streamPushLit env a >>= fun _ => streamPushLit env v >>= fun _ =>
      streamPush (env.code.wordOf .writeReg)) = pushAll (bodyWords env.code [.write a v]) := by
  simp [streamPushLit_eq, bodyWords, Access.words, pushAll]

/-- What a `peek` pushes is the group of a read. -/
theorem push_read (env : Env) (a : Word) :
    (streamPushLit env a >>= fun _ => streamPush (env.code.wordOf .loadReg)) =
      pushAll (bodyWords env.code [.read a]) := by
  simp [streamPushLit_eq, bodyWords, Access.words, pushAll]

/-- A stored body of at most the array's length is pushed without a panic. -/
theorem pushBody_range (body : Vector Word fnBodyWords) : ∀ (n i : Nat), i + n ≤ fnBodyWords →
    pushBody body (List.range' i n) = pushAll ((body.toList.drop i).take n) := by
  intro n
  induction n with
  | zero => intro i _; rfl
  | succ n ih =>
      intro i hle
      have hi : i < fnBodyWords := by omega
      have hdrop : body.toList.drop i = body[i] :: body.toList.drop (i + 1) :=
        List.drop_eq_getElem_cons (by simpa using hi)
      rw [List.range'_succ, pushBody, dif_pos hi, ih (i + 1) (by omega), hdrop,
        List.take_succ_cons, pushAll]

theorem pushBody_eq (body : Vector Word fnBodyWords) {n : Nat} (h : n ≤ fnBodyWords) :
    pushBody body (List.range n) = pushAll (body.toList.take n) := by
  rw [List.range_eq_range', pushBody_range body n 0 (by omega), List.drop_zero]

/-- From `s` to `s'` the words were emitted and nothing else happened. -/
structure Emitted (s s' : Frame) (ws : List Word) : Prop where
  scan : s'.scan = s.scan
  tables : Compiler.SameTables s.comp s'.comp
  len : s'.comp.streamLen = s.comp.streamLen + ws.length
  scratch : s'.comp.scratch = s.comp.scratch ++ ws

theorem Emitted.unchanged {s s' : Frame} {ws : List Word} (h : Emitted s s' ws) :
    Unchanged s s' :=
  ⟨h.tables, quiet_of_eq (by rw [h.scan])⟩

theorem streamPush_room {s : Frame} (w : Word) (h : s.comp.streamLen < maxStreamWords) :
    ∃ s', streamPush w s = .ok ⟨⟩ s' ∧ Emitted s s' [w] := by
  refine ⟨_, dif_pos h, rfl, ⟨rfl, rfl, rfl, rfl⟩, rfl, ?_⟩
  simp only [Compiler.scratch, Vector.toList_set]
  rw [List.take_succ_eq_append_getElem (by simpa using h)]
  simp [List.take_set_of_le]

theorem pushAll_room : ∀ (ws : List Word) {s : Frame},
    s.comp.streamLen + ws.length ≤ maxStreamWords →
      ∃ s', pushAll ws s = .ok ⟨⟩ s' ∧ Emitted s s' ws := by
  intro ws
  induction ws with
  | nil => exact fun _ => ⟨_, rfl, rfl, .refl _, rfl, by simp⟩
  | cons w ws ih =>
      intro s hroom
      rw [List.length_cons] at hroom
      obtain ⟨s₁, hpush, he₁⟩ := streamPush_room (s := s) w (by omega)
      have hlen : s₁.comp.streamLen = s.comp.streamLen + 1 := he₁.len
      obtain ⟨s₂, hall, he₂⟩ := ih (s := s₁) (by omega)
      refine ⟨s₂, by rw [pushAll, Fallible.bind_ok hpush]; exact hall, he₂.scan.trans he₁.scan,
        he₁.tables.trans he₂.tables, ?_, ?_⟩
      · rw [he₂.len, hlen, List.length_cons]
        omega
      · rw [he₂.scratch, he₁.scratch, List.append_assoc]
        rfl

/-- Without room the stream fills up and emission fails. -/
theorem pushAll_full : ∀ (ws : List Word) {s : Frame}, s.comp.streamLen ≤ maxStreamWords →
    maxStreamWords < s.comp.streamLen + ws.length →
      ∃ s', pushAll ws s = .error (.error .streamFull) s' ∧ s'.scan = s.scan ∧
        Compiler.SameTables s.comp s'.comp := by
  intro ws
  induction ws with
  | nil => intro s hle hfull; simp at hfull; omega
  | cons w ws ih =>
      intro s hle hfull
      rw [List.length_cons] at hfull
      by_cases hroom : s.comp.streamLen < maxStreamWords
      · obtain ⟨s₁, hpush, he₁⟩ := streamPush_room (s := s) w hroom
        have hlen : s₁.comp.streamLen = s.comp.streamLen + 1 := he₁.len
        obtain ⟨s₂, hall, hscan, htables⟩ := ih (s := s₁) (by omega) (by omega)
        exact ⟨s₂, by rw [pushAll, Fallible.bind_ok hpush]; exact hall, hscan.trans he₁.scan,
          he₁.tables.trans htables⟩
      · refine ⟨s, ?_, rfl, .refl _⟩
        rw [pushAll, Fallible.bind_error (dif_neg hroom)]

end Parser

end HolyRust
