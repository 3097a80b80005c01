import HolyRust.Drivers.AuditReport
import HolyRust.Drivers.ConsoleSession

/-!
Where the kernel's control loop can stop.

The loop has no exit: a machine that stops has panicked or hangs in a fault handler. Over
every session from power-up, whatever is typed and on either path, there are two ways: a
bit command with a bit past the word, in a build that checks shifts, and an access that
the bus does not answer.

* `feedLine_stops_iff` — one line, where every access is answered.
* `passOn` — an iteration on a bus that leaves accesses unanswered; `pass_accesses` tells
  the accesses of an iteration from the session.
* `loop_stops_iff` — the loop on such a bus, fed any bytes.
-/

namespace HolyRust.Repl

open HolyRust.Sessions (Reachable)

/-- A bit command with a bit past the word. -/
def ShiftsOut : Outcome → Prop
  | .setBit _ bit | .clrBit _ bit => 32 ≤ bit.toNat
  | _ => False

section Lines

variable {img : Image} {m : Machine}

theorem writeValue_isSome (v : Word) : (writeValue v).isSome = true := by
  rw [writeValue, Option.isSome_map]
  exact Uart.writeDecU32_isSome v

theorem bitCommand_eq_none_iff (combine : Word → Word → Word) {cycles addr bit : Word} :
    bitCommand img combine cycles addr bit m = none ↔
      img.overflowChecks = true ∧ 32 ≤ bit.toNat := by
  unfold bitCommand
  rw [Option.map_eq_none_iff]
  unfold bitMask
  split_ifs <;> simp_all

theorem capCommand_isSome (act : List Byte → Registry → Answer × Registry) (name : NameBuf) :
    (capCommand img act name m).isSome = true := by
  unfold capCommand
  cases act name.asSlice (m.registry img.target) with
  | mk answer r =>
      rw [Option.isSome_map]
      cases answer with
      | claimed id =>
          rw [Answer.text, Option.isSome_map]
          exact Uart.writeDecU32_isSome _
      | busy => rfl
      | released => rfl
      | notHeld => rfl
      | unknownResource => rfl

theorem map_ne_none {α β : Type} {x : Option α} {f : α → β} (h : x.isSome = true) :
    x.map f ≠ none := by
  rw [← Option.isSome_iff_ne_none, Option.isSome_map]
  exact h

/-- An accepted line, executed on the machine it left. -/
theorem execute_stops_iff (hreach : Reachable img.target img.code m.comp) {line : List Byte}
    {o : Outcome} (hres : verdict img m line = .ok o) (path : Path) (cycles : Word) :
    execute img path cycles o (m.compiled (m.comp.parse (m.env img) m.vm.bus line)) = none ↔
      img.overflowChecks = true ∧ ShiftsOut o := by
  have hacc := Sessions.accepted (m.env img) hreach.tablesOk hres
  set c := m.compiled (m.comp.parse (m.env img) m.vm.bus line)
  have hgoes {x : Option Machine} {P : Prop} (hx : x ≠ none) (hP : ¬ P) :
      x = none ↔ img.overflowChecks = true ∧ P :=
    iff_of_false hx fun h => hP h.2
  cases o with
  | empty => exact absurd hacc id
  | help => exact hgoes (Option.some_ne_none _) id
  | banner => exact hgoes (Option.some_ne_none _) id
  | bound name value => exact hgoes (map_ne_none (writeValue_isSome value)) id
  | fnDefined name => exact hgoes (Option.some_ne_none _) id
  | run p =>
      refine hgoes ?_ id
      obtain ⟨_, ⟨v, hvalue⟩ | ⟨_, _, ops, _, _, _, hcall⟩⟩ := hacc
      · obtain ⟨m', hrun, _⟩ := run_value (m := c) path hvalue
        simp only [execute, hrun]
        exact map_ne_none (writeValue_isSome _)
      · obtain ⟨m', hrun, _⟩ := run_call (m := c) path hcall
        simp only [execute, hrun]
        exact Option.some_ne_none _
  | claim name => exact hgoes (Option.isSome_iff_ne_none.mp (capCommand_isSome doClaim name)) id
  | drop name => exact hgoes (Option.isSome_iff_ne_none.mp (capCommand_isSome doDrop name)) id
  | enforcedPoke addr value => exact hgoes (Option.some_ne_none _) id
  | enforcedPeek addr =>
      refine hgoes ?_ id
      simp only [execute]
      split
      · exact map_ne_none (writeValue_isSome _)
      · exact Option.some_ne_none _
  | setBit addr bit => exact bitCommand_eq_none_iff fun old mask => old ||| mask
  | clrBit addr bit => exact bitCommand_eq_none_iff fun old mask => old &&& ~~~mask
  | sysAudit =>
      refine hgoes ?_ id
      simp only [execute, handleAudit_eq]
      exact Option.some_ne_none _

/-- A line stops the machine exactly if it is a bit command past the word and shifts are
checked. -/
theorem feedLine_stops_iff (hreach : Reachable img.target img.code m.comp) (input : Input) :
    feedLine img m input = none ↔
      img.overflowChecks = true ∧ ∃ o, verdict img m input.line = .ok o ∧ ShiftsOut o := by
  cases hres : verdict img m input.line with
  | ok o =>
      rw [feedLine_of_verdict img hres input.path input.cycles, Option.map_eq_none_iff,
        execute_stops_iff hreach hres]
      simp
  | error e =>
      refine iff_of_false ?_ (by simp)
      unfold verdict at hres
      obtain ⟨⟨pe, rfl⟩, _⟩ := Sessions.rejected (m.env img) hreach.tablesOk hres
      unfold feedLine
      split_ifs
      · exact nofun
      · simp only [hres]
        exact nofun

end Lines

/-! ### The loop -/

section Loops

variable {img : Image}

theorem session_reachable (bus : Bus) {inputs : List Input} {m : Machine}
    (hrun : Runs.run (Confinement.feed img) (some (.boot bus)) inputs = some m) :
    Reachable img.target img.code m.comp := by
  have hall : ∀ m', Runs.run (Confinement.feed img) (some (.boot bus)) inputs = some m' →
      Reachable img.target img.code m'.comp := by
    refine Runs.run_invariant (I := fun o : Option Machine =>
      ∀ m', o = some m' → Reachable img.target img.code m'.comp) ?_ ?_
    · intro o input hreach m' hm'
      obtain ⟨m₁, rfl, hfed⟩ := Option.bind_eq_some_iff.mp hm'
      exact (feedLine_effect (hreach m₁ rfl) hfed).2
    · intro m' (hm' : some (Machine.boot bus) = some m')
      cases hm'
      exact .new
  exact hall m hrun

/-- The line is on its way out of the loop, and stops it. -/
def Overshifts (img : Image) (bus : Bus) (before : List Tick) : Prop :=
  ∃ line m o, (reads before).stage = .compiled line ∧
    Runs.run (Confinement.feed img) (some (.boot bus)) (reads before).inputs = some m ∧
      verdict img m line = .ok o ∧ ShiftsOut o

/-- Compiling a line never stops. -/
theorem compile_isSome {m : Machine} (hreach : Reachable img.target img.code m.comp)
    (line : List Byte) : (compile img line m).isSome = true := by
  unfold compile
  split_ifs
  · rfl
  · cases hres : (m.comp.parse (m.env img) m.vm.bus line).result with
    | ok o =>
        simp only [hres]
        rfl
    | error e =>
        obtain ⟨⟨pe, rfl⟩, _⟩ := Sessions.rejected (m.env img) hreach.tablesOk hres
        simp only [hres]
        rfl

/-- The loop stops in an iteration exactly if shifts are checked and the line it is about
to answer is a bit command past the word. -/
theorem pass_stops_iff {bus : Bus} {before : List Tick} {l : Loop}
    (hrun : runLoop img before (.start (.boot bus)) = some l) (tick : Tick) :
    pass img tick l = none ↔ img.overflowChecks = true ∧ Overshifts img bus before := by
  obtain ⟨m, hfollows⟩ := follows_runLoop hrun
  have hreach := session_reachable bus hfollows.session
  have hfits := hfollows.stage
  have hedited := hfollows.edited
  have hother {line : List Byte} (hstage : (reads before).stage = .compiled line) :
      Overshifts img bus before ↔ ∃ o, verdict img m line = .ok o ∧ ShiftsOut o := by
    constructor
    · rintro ⟨line', m', o, hstage', hsession, hres, ho⟩
      cases hstage.symm.trans hstage'
      cases hfollows.session.symm.trans hsession
      exact ⟨o, hres, ho⟩
    · rintro ⟨o, hres, ho⟩
      exact ⟨line, m, o, hstage, hfollows.session, hres, ho⟩
  cases hstage : (reads before).stage with
  | typing bs =>
      rw [hstage] at hfits
      refine iff_of_false ?_ ?_
      · intro hstop
        have hstep := follows_pass tick hfollows
        rw [hstop] at hstep
        obtain ⟨line, hline, _⟩ := hstep
        rw [hstage] at hline
        cases hline
      · rintro ⟨_, line, m', o, hstage', _⟩
        cases hstage.symm.trans hstage'
  | submitted line =>
      rw [hstage] at hfits
      obtain ⟨hstate, -⟩ := hfits
      have hmachine := hfollows.machine
      rw [hstage] at hmachine
      refine iff_of_false ?_ ?_
      · rw [pass_evaluating img tick hedited.len_le hstate]
        refine map_ne_none (compile_isSome ?_ l.text)
        rw [hmachine]
        exact hreach
      · rintro ⟨_, line, m', o, hstage', _⟩
        cases hstage.symm.trans hstage'
  | compiled line =>
      rw [hstage] at hfits
      obtain ⟨hstate, hanswer⟩ := hfits
      have hline := feedLine_stops_iff (m := m.withConsole l.machine.console) hreach
        ⟨line, tick.path, tick.cycles⟩
      rw [← hanswer tick, Option.map_eq_none_iff] at hline
      rw [pass_printing img tick hstate, Option.map_eq_none_iff, hline, hother hstage]
      rfl

/-! ### A bus that leaves accesses unanswered -/

/-- What happened on the bus since. -/
def eventsSince (b b' : Bus) : List MemEvent := b'.trace.drop b.trace.length

/-- One iteration. An access that is not answered, at an address where nothing is or at
one that is misaligned, ends in a handler that does not come back. -/
def passOn (answers : Tick → MemEvent → Bool) (img : Image) (tick : Tick) (l : Loop) :
    Option Loop :=
  (pass img tick l).filter fun l' =>
    (eventsSince l.machine.vm.bus l'.machine.vm.bus).all (answers tick)

def runLoopOn (answers : Tick → MemEvent → Bool) (img : Image) (ticks : List Tick) (l : Loop) :
    Option Loop :=
  ticks.foldlM (fun l tick => passOn answers img tick l) l

/-- What an iteration accesses, `m` being the machine of the session: a line is read from
while it is compiled, and does the rest when it is answered. -/
def Stage.accesses (img : Image) (m : Machine) (tick : Tick) : Stage → List MemEvent
  | .typing _ => []
  | .submitted line => eventsSince m.vm.bus (m.compiledLine img line).vm.bus
  | .compiled line =>
      match feedLine img m ⟨line, tick.path, tick.cycles⟩ with
      | some m' => eventsSince (m.compiledLine img line).vm.bus m'.vm.bus
      | none => []

theorem eventsSince_self (b : Bus) : eventsSince b b = [] := List.drop_length

/-- The bus of the loop is the session's. -/
theorem Follows.bus {m₀ m : Machine} {r : Reader} {l : Loop} (h : Follows img m₀ r l m) :
    l.machine.vm.bus = (r.stage.machine img m).vm.bus := by
  rw [h.machine]
  rfl

theorem pass_accesses {m₀ m : Machine} {r : Reader} {l l' : Loop} {tick : Tick}
    (h : Follows img m₀ r l m) (hpass : pass img tick l = some l') :
    eventsSince l.machine.vm.bus l'.machine.vm.bus = r.stage.accesses img m tick := by
  have hstep := follows_pass tick h
  rw [hpass] at hstep
  obtain ⟨m', hfollows⟩ := hstep
  have hsession := hfollows.session
  rw [h.bus, hfollows.bus]
  cases hstage : r.stage with
  | typing bs =>
      have hr : (r.step tick).inputs = r.inputs ∧ (r.step tick).stage.machine img m' = m' := by
        unfold Reader.step
        cases hbyte : tick.byte with
        | none => simp only [hstage, Stage.machine, and_self]
        | some b =>
            simp only [hstage]
            split_ifs <;> exact ⟨rfl, rfl⟩
      rw [hr.1, h.session] at hsession
      cases hsession
      rw [hr.2]
      exact eventsSince_self _
  | submitted line =>
      have hr : r.step tick = ⟨.compiled line, r.inputs⟩ := by
        unfold Reader.step
        rw [hstage]
      rw [hr, h.session] at hsession
      cases hsession
      rw [hr]
      rfl
  | compiled line =>
      have hr : r.step tick = ⟨.typing [], r.inputs ++ [⟨line, tick.path, tick.cycles⟩]⟩ := by
        unfold Reader.step
        rw [hstage]
      rw [hr, Runs.run_concat, h.session] at hsession
      have hfed : feedLine img m ⟨line, tick.path, tick.cycles⟩ = some m' := hsession
      rw [hr, Stage.accesses, hfed]
      rfl

/-- The iteration accesses what is not answered. -/
def Faults (answers : Tick → MemEvent → Bool) (img : Image) (bus : Bus) (before : List Tick)
    (tick : Tick) : Prop :=
  ∃ m, Runs.run (Confinement.feed img) (some (.boot bus)) (reads before).inputs = some m ∧
    ∃ e ∈ (reads before).stage.accesses img m tick, answers tick e = false

theorem passOn_stops_iff (answers : Tick → MemEvent → Bool) {bus : Bus} {before : List Tick}
    {l : Loop} (hrun : runLoop img before (.start (.boot bus)) = some l) (tick : Tick) :
    passOn answers img tick l = none ↔
      (img.overflowChecks = true ∧ Overshifts img bus before) ∨
        Faults answers img bus before tick := by
  have hstops := pass_stops_iff hrun tick
  unfold passOn
  cases hpass : pass img tick l with
  | none => exact iff_of_true rfl (.inl (hstops.mp hpass))
  | some l' =>
      have hgoes : ¬ (img.overflowChecks = true ∧ Overshifts img bus before) := by
        rw [← hstops, hpass]
        exact Option.some_ne_none l'
      obtain ⟨m, hfollows⟩ := follows_runLoop hrun
      have hevents := pass_accesses hfollows hpass
      rw [or_iff_right hgoes, Option.filter_eq_none_iff]
      constructor
      · intro hnot
        have hsome := hnot l' rfl
        rw [hevents, Bool.not_eq_true, List.all_eq_false] at hsome
        obtain ⟨e, he, hanswer⟩ := hsome
        exact ⟨m, hfollows.session, e, he, Bool.eq_false_iff.mpr hanswer⟩
      · rintro ⟨m', hsession, e, he, hanswer⟩ l₁ hl₁ hall
        cases hl₁
        cases hfollows.session.symm.trans hsession
        rw [hevents] at hall
        rw [List.all_eq_true.mp hall e he] at hanswer
        cases hanswer

/-- Where the loop on such a bus goes on, it does what it does on one that answers. -/
theorem runLoop_of_runLoopOn {answers : Tick → MemEvent → Bool} {ticks : List Tick}
    {l l' : Loop} (h : runLoopOn answers img ticks l = some l') :
    runLoop img ticks l = some l' :=
  Runs.foldlM_eq_some_mono (fun _ _ _ hpass => (Option.filter_eq_some_iff.mp hpass).1) h

/-- The loop, fed any bytes, stops exactly when it answers a bit command past the word in
a build that checks shifts, or makes an access that is not answered. -/
theorem loop_stops_iff (answers : Tick → MemEvent → Bool) (bus : Bus) (ticks : List Tick) :
    runLoopOn answers img ticks (.start (.boot bus)) = none ↔
      ∃ before tick after, ticks = before ++ tick :: after ∧
        ((img.overflowChecks = true ∧ Overshifts img bus before) ∨
          Faults answers img bus before tick) := by
  constructor
  · intro h
    obtain ⟨before, tick, after, l, rfl, hbefore, hstop⟩ := Runs.foldlM_eq_none_iff.mp h
    have hrun := runLoop_of_runLoopOn hbefore
    exact ⟨before, tick, after, rfl, (passOn_stops_iff answers hrun tick).mp hstop⟩
  · rintro ⟨before, tick, after, rfl, hstops⟩
    cases hbefore : runLoopOn answers img before (.start (.boot bus)) with
    | some l =>
        have hrun := runLoop_of_runLoopOn hbefore
        have hstop := (passOn_stops_iff answers hrun tick).mpr hstops
        exact Runs.foldlM_eq_none_iff.mpr ⟨before, tick, after, l, rfl, hbefore, hstop⟩
    | none =>
        obtain ⟨first, t, rest, l, rfl, hfirst, hstop⟩ := Runs.foldlM_eq_none_iff.mp hbefore
        exact Runs.foldlM_eq_none_iff.mpr
          ⟨first, t, rest ++ tick :: after, l, by simp, hfirst, hstop⟩

end Loops

end HolyRust.Repl
