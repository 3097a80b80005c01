import HolyRust.Drivers.LineEditor
import HolyRust.Drivers.Output
import HolyRust.System.Confinement

/-!
The loop at the console is the session of the lines that were typed.

`pass` takes one byte or one phase at a time; `feedLine` takes a whole line. A `Reader`
hears what the loop hears and knows nothing of buffers and machines: it collects the
bytes since the last newline, edits them when the newline comes, and notes the line as
fed once it has been answered.

* `Follows` — loop and session side by side; `follows_pass` keeps it.
* `loop_follows_session` — so they are in every run of the loop, and a loop that stops
  stops at a line that stops the session.
-/

namespace HolyRust.Repl

/-! ### The reader -/

/-- Where a reader of the bytes stands. -/
inductive Stage where
  /-- The bytes since the last newline. -/
  | typing (bs : List Byte)
  /-- A line that has been completed. -/
  | submitted (line : List Byte)
  /-- A line that has been compiled. -/
  | compiled (line : List Byte)

/-- The line that is on its way. -/
def Stage.line? : Stage → Option (List Byte)
  | .typing _ => none
  | .submitted line | .compiled line => some line

structure Reader where
  stage : Stage
  /-- The lines that have been answered. -/
  inputs : List Input

def Reader.step (r : Reader) (tick : Tick) : Reader :=
  match r.stage with
  | .typing bs =>
      match tick.byte with
      | some b =>
          if isNewline b then { r with stage := .submitted (replay bs) }
          else { r with stage := .typing (bs ++ [b]) }
      | none => r
  | .submitted line => { r with stage := .compiled line }
  | .compiled line => ⟨.typing [], r.inputs ++ [⟨line, tick.path, tick.cycles⟩]⟩

/-- What was typed in the iterations. -/
def reads (ticks : List Tick) : Reader := Runs.run Reader.step ⟨.typing [], []⟩ ticks

/-! ### Loop and session -/

/-- What is on the console of a session of the lines, and what is on the console of the
loop: the answers are the same, and between them the loop echoes. -/
inductive Shown (start : List Byte) : List Input → List Byte → List Byte → Prop where
  | start : Shown start [] start (start ++ prompt)
  | echo {inputs : List Input} {session console : List Byte}
      (h : Shown start inputs session console) (text : List Byte) :
      Shown start inputs session (console ++ text)
  | answer {inputs : List Input} {session console : List Byte}
      (h : Shown start inputs session console) (input : Input) (text : List Byte) :
      Shown start (inputs ++ [input]) (session ++ text) (console ++ text)

variable {img : Image}

/-- The machine once the line has been compiled; nothing is compiled of an empty line. -/
def Machine.compiledLine (img : Image) (line : List Byte) (m : Machine) : Machine :=
  if line.isEmpty then m else m.compiled (m.comp.parse (m.env img) m.vm.bus line)

/-- The loop stands where the reader does, `m` being the machine of the session. -/
def Stage.Fits (img : Image) (l : Loop) (m : Machine) : Stage → Prop
  | .typing bs => l.state.Waiting ∧ sinceNewline l.heard = bs
  | .submitted line => l.state = .evaluating ∧ l.text = line
  | .compiled line => l.state = .printing ∧ ∀ tick,
      (answer img tick l.machine l.pending).map (·.put prompt) =
        feedLine img (m.withConsole l.machine.console) ⟨line, tick.path, tick.cycles⟩

/-- The machine of the session as far as it has got with the line. -/
def Stage.machine (img : Image) (m : Machine) : Stage → Machine
  | .typing _ | .submitted _ => m
  | .compiled line => m.compiledLine img line

structure Follows (img : Image) (m₀ : Machine) (r : Reader) (l : Loop) (m : Machine) : Prop where
  edited : Edited l
  session : Runs.run (Confinement.feed img) (some m₀) r.inputs = some m
  /-- Tables, memory, bus and audit log are the session's. -/
  machine : l.machine = (r.stage.machine img m).withConsole l.machine.console
  stage : r.stage.Fits img l m
  shown : Shown m₀.console r.inputs m.console l.machine.console

/-! ### One iteration -/

section Feed

variable {byte : Byte} {l l' : Loop}

/-- A byte is echoed and nothing else reaches the machine. -/
theorem feed_machine (h : Repl.feed byte l = some l') :
    l'.heard = l.heard ∧ ∃ text, l'.machine = l.machine.put text := by
  have hnone : l.machine = l.machine.put [] :=
    congrArg l.machine.withConsole (List.append_nil _).symm
  rw [feed_detab] at h
  split_ifs at h
  · cases h
    exact ⟨rfl, _, rfl⟩
  · cases h
    exact ⟨rfl, _, rfl⟩
  · cases h
    exact ⟨rfl, [], hnone⟩
  · cases h
    exact ⟨rfl, _, rfl⟩
  · cases h
    exact ⟨rfl, _, congrArg l.machine.withConsole (List.append_assoc ..)⟩
  · obtain ⟨l₁, hstore, rfl⟩ := Option.map_eq_some_iff.mp h
    unfold Loop.storeByte at hstore
    split_ifs at hstore
    cases hstore
    exact ⟨rfl, _, rfl⟩
  · cases h
    exact ⟨rfl, [], hnone⟩
  · cases h
    exact ⟨rfl, [], hnone⟩

/-- A newline hands the line over, any other byte is waited behind. -/
theorem feed_state (h : Repl.feed byte l = some l') :
    if isNewline byte then l'.state = .evaluating ∧ l'.text = l.text else l'.state.Waiting := by
  rw [feed_detab] at h
  by_cases hnew : isNewline byte = true
  · rw [if_pos ((isNewline_detab byte).mp hnew)] at h
    cases h
    rw [if_pos hnew]
    exact ⟨rfl, rfl⟩
  · rw [if_neg fun hdetab => hnew ((isNewline_detab byte).mpr hdetab)] at h
    rw [if_neg hnew]
    split_ifs at h
    · cases h
      exact .inr rfl
    · cases h
      exact .inr rfl
    · cases h
      exact .inr rfl
    · cases h
      exact .inl rfl
    · obtain ⟨l₁, _, rfl⟩ := Option.map_eq_some_iff.mp h
      exact .inr rfl
    · cases h
      exact .inr rfl
    · cases h
      exact .inr rfl

end Feed

section Passes

variable {m₀ m : Machine} {r : Reader} {l : Loop} {tick : Tick}

theorem compile_machine {line : List Byte} {m : Machine}
    {c : Option (Except ParseError Outcome) × Machine} (h : compile img line m = some c) :
    c.2 = m.compiledLine img line := by
  unfold compile at h
  unfold Machine.compiledLine
  by_cases hempty : line.isEmpty = true
  · rw [if_pos hempty] at h ⊢
    cases h
    rfl
  · rw [if_neg hempty] at h ⊢
    dsimp only at h
    cases hres : (m.comp.parse (m.env img) m.vm.bus line).result with
    | ok o =>
        rw [hres] at h
        cases h
        rfl
    | error e =>
        rw [hres] at h
        cases e <;> cases h
        rfl

theorem compiledLine_withConsole (img : Image) (line : List Byte) (m : Machine) (c : List Byte) :
    (m.withConsole c).compiledLine img line = (m.compiledLine img line).withConsole c := by
  unfold Machine.compiledLine
  split_ifs <;> rfl

/-- What the loop does with an iteration, the session following. -/
def Step (img : Image) (m₀ : Machine) (r : Reader) (tick : Tick) (m : Machine) :
    Option Loop → Prop
  | some l' => ∃ m', Follows img m₀ (r.step tick) l' m'
  | none => ∃ line, r.stage.line? = some line ∧
      feedLine img m ⟨line, tick.path, tick.cycles⟩ = none

/-- Nothing has been answered: the session stays where it is. -/
theorem Follows.silent (h : Follows img m₀ r l m) {r' : Reader} {l' : Loop}
    (hinputs : r'.inputs = r.inputs) (hedited : Edited l')
    (hmachine : l'.machine = (r'.stage.machine img m).withConsole l'.machine.console)
    (hfits : r'.stage.Fits img l' m) {text : List Byte}
    (hconsole : l'.machine.console = l.machine.console ++ text) :
    Follows img m₀ r' l' m where
  edited := hedited
  session := hinputs ▸ h.session
  machine := hmachine
  stage := hfits
  shown := by
    rw [hinputs, hconsole]
    exact h.shown.echo text

theorem follows_typing (h : Follows img m₀ r l m) {bs : List Byte} (hstage : r.stage = .typing bs) :
    Step img m₀ r tick m (pass img tick l) := by
  have hfits := h.stage
  have hmachine := h.machine
  rw [hstage] at hfits hmachine
  obtain ⟨hwait, hheard⟩ := hfits
  cases hbyte : tick.byte with
  | none =>
      have hr : r.step tick = r := by
        unfold Reader.step
        rw [hstage, hbyte]
      have hpass := pass_waiting img hwait hbyte
      have hedited := edited_pass h.edited hpass
      rw [hpass]
      refine ⟨m, h.silent (congrArg Reader.inputs hr) hedited ?_ ?_ (List.append_nil _).symm⟩
      · rw [hr, hstage]
        exact hmachine
      · rw [hr, hstage]
        exact ⟨.inr rfl, hheard⟩
  | some b =>
      obtain ⟨l', hfeed, hedited⟩ := edited_feed h.edited hwait b
      obtain ⟨hheard', text, hmachine'⟩ := feed_machine hfeed
      have hstate := feed_state hfeed
      have hnext : l'.machine = m.withConsole l'.machine.console := by
        rw [hmachine']
        exact congrArg (·.put text) hmachine
      have hconsole : l'.machine.console = l.machine.console ++ text :=
        congrArg Machine.console hmachine'
      have hpass := pass_hearing img hwait hbyte
      rw [hfeed] at hpass
      rw [hpass]
      by_cases hnew : isNewline b = true
      · have hr : r.step tick = ⟨.submitted (replay bs), r.inputs⟩ := by
          unfold Reader.step
          rw [hstage, hbyte]
          simp only [hnew, if_true]
        rw [if_pos hnew] at hstate
        refine ⟨m, h.silent (by rw [hr]) hedited (by rw [hr]; exact hnext) ?_ hconsole⟩
        rw [hr]
        refine ⟨hstate.1, hstate.2.trans ?_⟩
        rw [← hheard]
        exact (h.edited.waiting hwait).1
      · have hr : r.step tick = ⟨.typing (bs ++ [b]), r.inputs⟩ := by
          unfold Reader.step
          rw [hstage, hbyte]
          simp only [hnew, if_false, Bool.false_eq_true]
        rw [if_neg hnew] at hstate
        refine ⟨m, h.silent (by rw [hr]) hedited (by rw [hr]; exact hnext) ?_ hconsole⟩
        rw [hr]
        refine ⟨hstate, ?_⟩
        rw [hheard', show (l.hear b).heard = l.heard ++ [b] from rfl, sinceNewline_append,
          if_neg hnew, hheard]

/-- A line that stops the machine stops it on any console. -/
theorem feedLine_stops {input : Input} {c : List Byte}
    (h : feedLine img (m.withConsole c) input = none) : feedLine img m input = none := by
  rcases feedLine_cases img m input c with ⟨hstop, _⟩ | ⟨m', text, _, _, hother⟩
  · exact hstop
  · cases h.symm.trans hother

theorem follows_submitted (h : Follows img m₀ r l m) {line : List Byte}
    (hstage : r.stage = .submitted line) : Step img m₀ r tick m (pass img tick l) := by
  have hfits := h.stage
  have hmachine : l.machine = m.withConsole l.machine.console := by
    have hsession := h.machine
    rwa [hstage] at hsession
  rw [hstage] at hfits
  obtain ⟨hstate, htext⟩ := hfits
  have hr : r.step tick = ⟨.compiled line, r.inputs⟩ := by
    unfold Reader.step
    rw [hstage]
  have hpass := pass_evaluating img tick h.edited.len_le hstate
  rw [htext] at hpass
  have hanswer := compile_answer img line l.machine
  cases hcompile : compile img line l.machine with
  | none =>
      rw [hcompile] at hpass
      rw [hpass]
      have hnone := hanswer tick
      rw [hcompile, hmachine] at hnone
      exact ⟨line, by rw [hstage]; rfl, feedLine_stops hnone.symm⟩
  | some c =>
      rw [hcompile] at hpass
      have hedited := edited_pass h.edited hpass
      have hconsole : c.2.console = l.machine.console := compile_console hcompile
      rw [hpass]
      have hcompiled : c.2 = (m.compiledLine img line).withConsole c.2.console := by
        rw [hconsole, ← compiledLine_withConsole, ← hmachine]
        exact compile_machine hcompile
      refine ⟨m, h.silent (by rw [hr]) hedited (by rw [hr]; exact hcompiled) ?_
        (hconsole.trans (List.append_nil _).symm)⟩
      rw [hr]
      refine ⟨rfl, fun tick' => ?_⟩
      have hfed := hanswer tick'
      rw [hcompile, show l.machine = m.withConsole c.2.console by rw [hconsole]; exact hmachine]
        at hfed
      exact hfed

theorem follows_compiled (h : Follows img m₀ r l m) {line : List Byte}
    (hstage : r.stage = .compiled line) : Step img m₀ r tick m (pass img tick l) := by
  have hfits := h.stage
  rw [hstage] at hfits
  obtain ⟨hstate, hanswer⟩ := hfits
  replace hanswer := hanswer tick
  have hr : r.step tick = ⟨.typing [], r.inputs ++ [⟨line, tick.path, tick.cycles⟩]⟩ := by
    unfold Reader.step
    rw [hstage]
  have hpass := pass_printing img tick hstate
  cases hans : answer img tick l.machine l.pending with
  | none =>
      rw [hans] at hpass hanswer
      rw [hpass]
      exact ⟨line, by rw [hstage]; rfl, feedLine_stops hanswer.symm⟩
  | some answered =>
      rw [hans] at hpass hanswer
      have hedited := edited_pass h.edited hpass
      rw [hpass]
      rcases feedLine_cases img m ⟨line, tick.path, tick.cycles⟩ l.machine.console with
        ⟨_, hstop⟩ | ⟨m', text, hfed, hconsole, hother⟩
      · cases hanswer.trans hstop
      have hput : answered.put prompt = m'.withConsole (l.machine.console ++ text) :=
        Option.some.inj (hanswer.trans hother)
      refine ⟨m', hedited, ?_, ?_, ?_, ?_⟩
      · rw [hr, Runs.run_concat, h.session]
        exact hfed
      · rw [hr]
        exact hput.trans (congrArg m'.withConsole (congrArg Machine.console hput).symm)
      · rw [hr]
        exact ⟨.inl rfl, (h.edited.printing hstate).2⟩
      · rw [hr]
        have hshown := h.shown.answer ⟨line, tick.path, tick.cycles⟩ text
        rw [← hconsole] at hshown
        have hloop : (answered.put prompt).console = l.machine.console ++ text :=
          congrArg Machine.console hput
        exact hloop ▸ hshown

/-- One iteration: the session follows the loop, or both stop. -/
theorem follows_pass (tick : Tick) (h : Follows img m₀ r l m) :
    Step img m₀ r tick m (pass img tick l) := by
  cases hstage : r.stage with
  | typing bs => exact follows_typing h hstage
  | submitted line => exact follows_submitted h hstage
  | compiled line => exact follows_compiled h hstage

theorem follows_start (img : Image) (m₀ : Machine) :
    Follows img m₀ (reads []) (.start m₀) m₀ where
  edited := edited_start m₀
  session := rfl
  machine := rfl
  stage := ⟨.inl rfl, rfl⟩
  shown := .start

end Passes

/-! ### Runs -/

/-- A loop that has stopped stopped at an iteration. -/
theorem runLoop_eq_none_iff {ticks : List Tick} {l : Loop} : runLoop img ticks l = none ↔
    ∃ before tick after l', ticks = before ++ tick :: after ∧
      runLoop img before l = some l' ∧ pass img tick l' = none :=
  Runs.foldlM_eq_none_iff

theorem follows_runLoop {m₀ : Machine} {ticks : List Tick} {l : Loop}
    (h : runLoop img ticks (.start m₀) = some l) : ∃ m, Follows img m₀ (reads ticks) l m := by
  induction ticks using List.reverseRecOn generalizing l with
  | nil =>
      cases h
      exact ⟨m₀, follows_start img m₀⟩
  | append_singleton ticks tick ih =>
      rw [runLoop, Runs.foldlM_concat] at h
      obtain ⟨l₁, hrun, hpass⟩ := Option.bind_eq_some_iff.mp h
      obtain ⟨m, hfollows⟩ := ih hrun
      have hstep := follows_pass tick hfollows
      rw [hpass] at hstep
      rw [reads, Runs.run_concat]
      exact hstep

/-- The loop stopped at a line, and so does the session of the lines before it. -/
def StopsAt (img : Image) (m₀ : Machine) (ticks : List Tick) : Prop :=
  ∃ before tick after line m, ticks = before ++ tick :: after ∧
    (reads before).stage.line? = some line ∧
      Runs.run (Confinement.feed img) (some m₀) (reads before).inputs = some m ∧
        feedLine img m ⟨line, tick.path, tick.cycles⟩ = none

/-- In every run of the loop the session of the lines that were typed follows: it has
the same tables, memory, bus and audit log and has given the same answers, and it stops
if the loop does. -/
theorem loop_follows_session (img : Image) (m₀ : Machine) (ticks : List Tick) :
    match runLoop img ticks (.start m₀) with
    | some l => ∃ m, Follows img m₀ (reads ticks) l m
    | none => StopsAt img m₀ ticks := by
  cases hrun : runLoop img ticks (.start m₀) with
  | some l => exact follows_runLoop hrun
  | none =>
      obtain ⟨before, tick, after, l, rfl, hbefore, hstop⟩ := runLoop_eq_none_iff.mp hrun
      obtain ⟨m, hfollows⟩ := follows_runLoop hbefore
      have hstep := follows_pass tick hfollows
      rw [hstop] at hstep
      obtain ⟨line, hline, hnone⟩ := hstep
      exact ⟨before, tick, after, line, m, rfl, hline, hfollows.session, hnone⟩

end HolyRust.Repl
