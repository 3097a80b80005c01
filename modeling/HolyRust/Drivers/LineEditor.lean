import HolyRust.Drivers.Repl
import HolyRust.Library.TerminalRow

/-!
The REPL's loop and its line editor (`run` and `feed` in `drivers/repl.rs`).

`Loop` is the loop at the head of an iteration, `pass` one iteration: in Idle and
Reading it takes a byte from the UART if there is one, in Evaluating it compiles
the line, in Printing it answers and prompts again. `heard` and `promptEnd` are
history: the bytes taken so far, and how long the console was after the last
prompt. Like the compiler, the line buffer is a Rust static and no part of the
memory that programs reach.

* `edit`, `replay` — a line edited in the abstract.
* `compile_answer` — the two phases after a line are `feedLine` on it.
* `Edited` — buffer, abstract line and terminal row agree; `edited_pass` keeps it.
* `line_editor` — so they do in every run.
-/

namespace HolyRust.Repl

open TerminalRow (Row Printable)

/-- Maximum input line length. -/
abbrev lineMax : Nat := 128

/-- REPL states per the streaming evaluation cycle. -/
inductive State where
  | idle | reading | evaluating | printing
deriving DecidableEq, Repr

/-- The loop waits for input. -/
def State.Waiting (s : State) : Prop := s = .idle ∨ s = .reading

structure Loop where
  state : State
  lineBuf : Vector Byte lineMax
  lineLen : Nat
  pending : Option (Except ParseError Outcome)
  machine : Machine
  heard : List Byte
  promptEnd : Nat

namespace Loop

def write (l : Loop) (text : List Byte) : Loop := { l with machine := l.machine.put text }

def setLineLen (l : Loop) (len : Nat) : Loop := { l with lineLen := len }

def goto (l : Loop) (s : State) : Loop := { l with state := s }

/-- The byte joins those the loop has taken. -/
def hear (l : Loop) (byte : Byte) : Loop := { l with heard := l.heard ++ [byte] }

def prompt (l : Loop) : Loop :=
  { l.write Repl.prompt with promptEnd := (l.write Repl.prompt).machine.console.length }

/-- `LINE_BUF[len] = byte`; `none` is the bounds-check panic. -/
def storeByte (l : Loop) (byte : Byte) : Option Loop :=
  if h : l.lineLen < lineMax then some { l with lineBuf := l.lineBuf.set l.lineLen byte }
  else none

/-- The loop behind the drain of the UART and the first prompt. -/
def start (m : Machine) : Loop :=
  prompt ⟨.idle, Vector.replicate lineMax 0, 0, none, m, [], 0⟩

end Loop

/-- Process one incoming byte. -/
def feed (byte : Byte) (l : Loop) : Option Loop :=
  let byte := if byte = 0x09 then 0x20 else byte
  if byte = 0x0D ∨ byte = 0x0A then some ((l.write (bytes "\r\n")).goto .evaluating)
  else if byte = 0x08 ∨ byte = 0x7F then
    if l.lineLen > 0 then
      some (((l.setLineLen (l.lineLen - 1)).write [0x08, 0x20, 0x08]).goto .reading)
    else some (l.goto .reading)
  else if byte = 0x15 then
    some (((l.write (List.replicate l.lineLen [0x08, 0x20, 0x08]).flatten).setLineLen 0).goto
      .reading)
  else if byte = 0x03 then
    some ((((l.setLineLen 0).write (bytes "^C\r\n")).prompt).goto .idle)
  else if 0x20 ≤ byte ∧ byte ≤ 0x7E then
    if l.lineLen < lineMax then
      (l.storeByte byte).map fun l => ((l.setLineLen (l.lineLen + 1)).write [byte]).goto .reading
    else some (l.goto .reading)
  else some (l.goto .reading)

/-- The line and the loop without it; `none` is a slice out of bounds. -/
def takeLine (l : Loop) : Option (List Byte × Loop) :=
  (slice l.lineBuf.toList 0 l.lineLen).map fun line => (line, l.setLineLen 0)

section Passes

variable (img : Image)

/-- Evaluating phase: single-pass compile of one input line. -/
def compile (line : List Byte) (m : Machine) :
    Option (Option (Except ParseError Outcome) × Machine) :=
  if line.isEmpty then some (none, m)
  else
    let parsed := m.comp.parse (m.env img) m.vm.bus line
    match parsed.result with
    | .ok outcome => some (some (.ok outcome), m.compiled parsed)
    | .error (.error e) => some (some (.error e), m.compiled parsed)
    | .error .panic | .error .outOfFuel => none

/-- What an iteration finds: the UART's answer, and what the hardware decides
while a line is executed. -/
structure Tick where
  byte : Option Byte
  path : Path
  cycles : Word

/-- The Printing phase's console writes. -/
def answer (tick : Tick) (m : Machine) : Option (Except ParseError Outcome) → Option Machine
  | some (.ok outcome) => execute img tick.path tick.cycles outcome m
  | some (.error e) => some (m.put (bytes "ERR " ++ errorText e))
  | none => some m

/-- One iteration of the loop, on a bus that answers every access. -/
def pass (tick : Tick) (l : Loop) : Option Loop :=
  match l.state with
  | .idle | .reading =>
      match tick.byte with
      | some byte => feed byte (l.hear byte)
      | none => some (l.goto .reading)
  | .evaluating => do
      let (line, l) ← takeLine l
      let (pending, m) ← compile img line l.machine
      some ({ l with pending := pending, machine := m }.goto .printing)
  | .printing => do
      let m ← answer img tick l.machine l.pending
      some (({ l with pending := none, machine := m }.prompt).goto .idle)

/-- The iterations, first to last. -/
def runLoop (ticks : List Tick) (l : Loop) : Option Loop :=
  ticks.foldlM (fun l tick => pass img tick l) l

end Passes

/-! ### The abstract line -/

def isNewline (b : Byte) : Bool := b = 0x0D ∨ b = 0x0A

/-- One byte on an abstract line. -/
def edit (line : List Byte) (b : Byte) : List Byte :=
  let b := if b = 0x09 then 0x20 else b
  if Printable b then if line.length < lineMax then line ++ [b] else line
  else if b = 0x08 ∨ b = 0x7F then line.dropLast
  else if b = 0x15 ∨ b = 0x03 then []
  else line

/-- The bytes, one after the other, on an empty line. -/
def replay (bs : List Byte) : List Byte := bs.foldl edit []

/-- The bytes after the last CR or LF. -/
def sinceNewline (bs : List Byte) : List Byte :=
  (bs.reverse.takeWhile fun b => !isNewline b).reverse

theorem replay_append (bs : List Byte) (b : Byte) : replay (bs ++ [b]) = edit (replay bs) b := by
  simp [replay]

theorem sinceNewline_append (bs : List Byte) (b : Byte) :
    sinceNewline (bs ++ [b]) = if isNewline b then [] else sinceNewline bs ++ [b] := by
  cases h : isNewline b <;> simp [sinceNewline, h]

/-! ### The three lines agree -/

namespace Loop

/-- `LINE_BUF[..LINE_LEN]`. -/
def text (l : Loop) : List Byte := l.lineBuf.toList.take l.lineLen

/-- The output since the last prompt. -/
def echoed (l : Loop) : List Byte := l.machine.console.drop l.promptEnd

/-- The output since the last prompt shows the line, with the cursor at its end. -/
def Shows (l : Loop) : Prop := (Row.showing []).receiveAll l.echoed = some (Row.showing l.text)

variable {l : Loop}

theorem echoed_write (h : l.promptEnd ≤ l.machine.console.length) (text : List Byte) :
    (l.write text).echoed = l.echoed ++ text :=
  List.drop_append_of_le_length h

theorem length_write_le (l : Loop) (text : List Byte) :
    l.machine.console.length ≤ (l.write text).machine.console.length :=
  List.length_append ▸ Nat.le_add_right _ _

theorem echoed_prompt (l : Loop) : l.prompt.echoed = [] :=
  List.drop_length

theorem length_text (h : l.lineLen ≤ lineMax) : l.text.length = l.lineLen := by
  rw [text, List.length_take, Vector.length_toList]
  omega

/-- Shortening the line by its last byte. -/
theorem text_dropLast (h : l.lineLen ≤ lineMax) :
    (l.setLineLen (l.lineLen - 1)).text = l.text.dropLast := by
  have hlen := length_text h
  rw [List.dropLast_eq_take, hlen]
  unfold text setLineLen
  rw [List.take_take, Nat.min_eq_left (Nat.sub_le _ _)]

/-- Storing a byte behind the line and lengthening it. -/
theorem storeByte_of_lt (h : l.lineLen < lineMax) (byte : Byte) :
    ∃ l₁, l.storeByte byte = some l₁ ∧ (l₁.setLineLen (l₁.lineLen + 1)).text = l.text ++ [byte] ∧
      l₁.lineLen = l.lineLen ∧ l₁.echoed = l.echoed ∧ l₁.promptEnd = l.promptEnd ∧
      l₁.machine = l.machine ∧ l₁.heard = l.heard := by
  refine ⟨{ l with lineBuf := l.lineBuf.set l.lineLen byte }, dif_pos h, ?_, rfl, rfl, rfl, rfl,
    rfl⟩
  have hlt : l.lineLen < l.lineBuf.toList.length := by simpa using h
  unfold text setLineLen
  simp only [Vector.toList_set]
  rw [List.take_succ_eq_append_getElem (by simpa using hlt)]
  simp [List.take_set_of_le]

end Loop

/-- Buffer, abstract line and terminal row agree wherever the loop waits, and the
line that is evaluated is the one that was there. -/
structure Edited (l : Loop) : Prop where
  len_le : l.lineLen ≤ lineMax
  end_le : l.promptEnd ≤ l.machine.console.length
  waiting : l.state.Waiting → l.text = replay (sinceNewline l.heard) ∧ l.Shows
  evaluating : l.state = .evaluating → ∃ before b, l.heard = before ++ [b] ∧ isNewline b = true ∧
    l.text = replay (sinceNewline before)
  printing : l.state = .printing → l.lineLen = 0 ∧ sinceNewline l.heard = []

/-- A loop that waits with its three lines in step. -/
theorem edited_of_waiting {l : Loop} (hlen : l.lineLen ≤ lineMax)
    (hend : l.promptEnd ≤ l.machine.console.length) (hstate : l.state.Waiting)
    (htext : l.text = replay (sinceNewline l.heard)) (hshows : l.Shows) : Edited l where
  len_le := hlen
  end_le := hend
  waiting _ := ⟨htext, hshows⟩
  evaluating heq := by rcases hstate with h | h <;> rw [heq] at h <;> cases h
  printing heq := by rcases hstate with h | h <;> rw [heq] at h <;> cases h

/-- An edit whose echo is right keeps the three lines in step. -/
theorem edited_of_echo {l l' : Loop} {byte : Byte} (h : Edited l) (hwait : l.state.Waiting)
    (hnew : isNewline byte = false) (hheard : l'.heard = l.heard ++ [byte])
    (hlen : l'.lineLen ≤ lineMax) (hend : l'.promptEnd ≤ l'.machine.console.length)
    (hstate : l'.state.Waiting) (htext : l'.text = edit l.text byte) {echo : List Byte}
    (hecho : l'.echoed = l.echoed ++ echo)
    (hrow : (Row.showing l.text).receiveAll echo = some (Row.showing l'.text)) : Edited l' := by
  obtain ⟨hline, hshows⟩ := h.waiting hwait
  refine edited_of_waiting hlen hend hstate ?_ ?_
  · rw [htext, hheard, sinceNewline_append, hnew, hline, ← replay_append]
    rfl
  · unfold Loop.Shows at hshows ⊢
    rw [hecho, Row.receiveAll_append_of_some hshows, hrow]

section Feed

variable {l : Loop} {byte : Byte}

/-- The byte as the loop takes it, a tab as a space. -/
def detab (byte : Byte) : Byte := if byte = 0x09 then 0x20 else byte

theorem isNewline_detab (byte : Byte) :
    isNewline byte = true ↔ detab byte = 0x0D ∨ detab byte = 0x0A := by
  unfold detab isNewline
  by_cases h : byte = 0x09
  · subst h
    decide
  · rw [if_neg h]
    simp

theorem edit_of_detab (line : List Byte) (byte : Byte) {nb : Byte} (h : detab byte = nb) :
    edit line byte =
      if Printable nb then if line.length < lineMax then line ++ [nb] else line
      else if nb = 0x08 ∨ nb = 0x7F then line.dropLast
      else if nb = 0x15 ∨ nb = 0x03 then []
      else line := by
  subst h
  rfl

/-- What the loop does with a detabbed byte, one class of bytes after the
other. -/
theorem feed_detab (byte : Byte) (l : Loop) :
    feed byte l =
      if detab byte = 0x0D ∨ detab byte = 0x0A then
        some ((l.write (bytes "\r\n")).goto .evaluating)
      else if detab byte = 0x08 ∨ detab byte = 0x7F then
        if l.lineLen > 0 then
          some (((l.setLineLen (l.lineLen - 1)).write Row.rubout).goto .reading)
        else some (l.goto .reading)
      else if detab byte = 0x15 then
        some (((l.write (List.replicate l.lineLen Row.rubout).flatten).setLineLen 0).goto .reading)
      else if detab byte = 0x03 then
        some ((((l.setLineLen 0).write (bytes "^C\r\n")).prompt).goto .idle)
      else if Printable (detab byte) then
        if l.lineLen < lineMax then
          (l.storeByte (detab byte)).map fun l =>
            ((l.setLineLen (l.lineLen + 1)).write [detab byte]).goto .reading
        else some (l.goto .reading)
      else some (l.goto .reading) := rfl

section Echo

variable (h : Edited l) (hwait : l.state.Waiting) (hnew : isNewline byte = false)
include h hwait hnew

/-- A byte that changes nothing. -/
theorem edited_ignored (hedit : edit l.text byte = l.text) :
    Edited ((l.hear byte).goto .reading) :=
  edited_of_echo h hwait hnew rfl h.len_le h.end_le (.inr rfl) hedit.symm
    (List.append_nil _).symm rfl

theorem edited_erased (hedit : edit l.text byte = l.text.dropLast) (hpos : l.lineLen > 0) :
    Edited ((((l.hear byte).setLineLen (l.lineLen - 1)).write Row.rubout).goto .reading) := by
  have htext : ((l.hear byte).setLineLen (l.lineLen - 1)).text = l.text.dropLast :=
    Loop.text_dropLast h.len_le
  have hne : l.text ≠ [] := by
    intro hnil
    have hlen := Loop.length_text h.len_le
    rw [hnil, List.length_nil] at hlen
    omega
  refine edited_of_echo h hwait hnew rfl (Nat.le_trans (Nat.sub_le _ _) h.len_le) ?_ (.inr rfl)
    (htext.trans hedit.symm) (Loop.echoed_write (l := l) h.end_le Row.rubout) ?_
  · exact h.end_le.trans (l.length_write_le _)
  · have hrow := Row.receiveAll_rubout l.text.dropLast (l.text.getLast hne)
    rw [List.dropLast_concat_getLast hne, ← htext] at hrow
    exact hrow

theorem edited_killed (hedit : edit l.text byte = []) :
    Edited ((((l.hear byte).write (List.replicate l.lineLen Row.rubout).flatten).setLineLen 0).goto
      .reading) := by
  refine edited_of_echo h hwait hnew rfl (Nat.zero_le _) ?_ (.inr rfl) hedit.symm
    (Loop.echoed_write (l := l) h.end_le _) ?_
  · exact h.end_le.trans (l.length_write_le _)
  · have hrow := Row.receiveAll_rubouts l.text
    rw [Loop.length_text h.len_le] at hrow
    exact hrow

/-- Ctrl-C starts a new row. -/
theorem edited_cancelled (hedit : edit l.text byte = []) :
    Edited (((((l.hear byte).setLineLen 0).write (bytes "^C\r\n")).prompt).goto .idle) := by
  refine edited_of_waiting (Nat.zero_le _) (Nat.le_refl _) (.inl rfl) ?_ ?_
  · show [] = replay (sinceNewline (l.heard ++ [byte]))
    rw [sinceNewline_append, hnew, if_neg Bool.false_ne_true, replay_append,
      ← (h.waiting hwait).1, hedit]
  · show (Row.showing []).receiveAll (Loop.prompt _).echoed = _
    rw [Loop.echoed_prompt]
    rfl

theorem edited_printed {nb : Byte} (hprint : Printable nb) (hlt : l.lineLen < lineMax)
    (hedit : edit l.text byte = l.text ++ [nb]) :
    ∃ l', ((l.hear byte).storeByte nb).map (fun l =>
        ((l.setLineLen (l.lineLen + 1)).write [nb]).goto .reading) = some l' ∧ Edited l' := by
  obtain ⟨l₁, hstore, htext, hlen, hecho, hend, hmachine, hheard⟩ :=
    Loop.storeByte_of_lt (l := l.hear byte) hlt nb
  have hle : l₁.promptEnd ≤ l₁.machine.console.length := by
    rw [hend, hmachine]
    exact h.end_le
  refine ⟨_, by rw [hstore]; rfl, ?_⟩
  refine edited_of_echo h hwait hnew hheard ?_ ?_ (.inr rfl) (htext.trans hedit.symm)
    ((Loop.echoed_write hle [nb]).trans (congrArg (· ++ [nb]) hecho)) ?_
  · show l₁.lineLen + 1 ≤ lineMax
    rw [hlen]
    exact hlt
  · exact hle.trans (l₁.length_write_le _)
  · show (Row.showing l.text).receiveAll [nb] =
      some (Row.showing (l₁.setLineLen (l₁.lineLen + 1)).text)
    rw [htext, Row.receiveAll_singleton]
    exact Row.receive_printable hprint l.text

end Echo

/-- A newline hands the line over as it stands. -/
theorem edited_submitted (h : Edited l) (hwait : l.state.Waiting) (hnew : isNewline byte = true) :
    Edited (((l.hear byte).write (bytes "\r\n")).goto .evaluating) where
  len_le := h.len_le
  end_le := h.end_le.trans (l.length_write_le _)
  waiting hstate := by rcases hstate with heq | heq <;> cases heq
  evaluating _ := ⟨l.heard, byte, rfl, hnew, (h.waiting hwait).1⟩
  printing heq := by cases heq

/-- In a waiting loop a byte never stops the machine, and the three lines stay in
step. -/
theorem edited_feed (h : Edited l) (hwait : l.state.Waiting) (byte : Byte) :
    ∃ l', feed byte (l.hear byte) = some l' ∧ Edited l' := by
  have hlen := Loop.length_text h.len_le
  have hedit := edit_of_detab l.text byte rfl
  rw [feed_detab]
  by_cases hnew : detab byte = 0x0D ∨ detab byte = 0x0A
  · exact ⟨_, if_pos hnew, edited_submitted h hwait ((isNewline_detab byte).mpr hnew)⟩
  have hnot : isNewline byte = false := by
    rw [← Bool.not_eq_true, isNewline_detab]
    exact hnew
  rw [if_neg hnew]
  by_cases hprint : Printable (detab byte)
  · have hclass : ¬ (detab byte = 0x08 ∨ detab byte = 0x7F) ∧ detab byte ≠ 0x15 ∧
        detab byte ≠ 0x03 := by
      obtain ⟨hlo, hhi⟩ := hprint
      bv_omega
    rw [if_neg hclass.1, if_neg hclass.2.1, if_neg hclass.2.2, if_pos hprint]
    rw [if_pos hprint, hlen] at hedit
    by_cases hlt : l.lineLen < lineMax
    · rw [if_pos hlt] at hedit
      obtain ⟨l', hrun, hedited⟩ := edited_printed h hwait hnot hprint hlt hedit
      exact ⟨l', (if_pos hlt).trans hrun, hedited⟩
    · rw [if_neg hlt] at hedit
      exact ⟨_, if_neg hlt, edited_ignored h hwait hnot hedit⟩
  rw [if_neg hprint] at hedit ⊢
  by_cases herase : detab byte = 0x08 ∨ detab byte = 0x7F
  · rw [if_pos herase] at hedit ⊢
    by_cases hpos : l.lineLen > 0
    · exact ⟨_, if_pos hpos, edited_erased h hwait hnot hedit hpos⟩
    · have hnil : l.text = [] := List.eq_nil_of_length_eq_zero (by omega)
      refine ⟨_, if_neg hpos, edited_ignored h hwait hnot ?_⟩
      rw [hedit, hnil]
      rfl
  rw [if_neg herase] at hedit ⊢
  by_cases hkill : detab byte = 0x15
  · rw [if_pos (.inl hkill)] at hedit
    rw [if_pos hkill]
    exact ⟨_, rfl, edited_killed h hwait hnot hedit⟩
  rw [if_neg hkill]
  by_cases hcancel : detab byte = 0x03
  · rw [if_pos (.inr hcancel)] at hedit
    rw [if_pos hcancel]
    exact ⟨_, rfl, edited_cancelled h hwait hnot hedit⟩
  rw [if_neg hcancel]
  rw [if_neg (not_or.mpr ⟨hkill, hcancel⟩)] at hedit
  exact ⟨_, rfl, edited_ignored h hwait hnot hedit⟩

end Feed

/-! ### Runs of the loop -/

section Runs

variable {img : Image} {tick : Tick} {l l' : Loop}

/-- The slice that is compiled is the line in the buffer. -/
theorem takeLine_eq (h : l.lineLen ≤ lineMax) : takeLine l = some (l.text, l.setLineLen 0) := by
  have hle : 0 ≤ l.lineLen ∧ l.lineLen ≤ l.lineBuf.toList.length :=
    ⟨Nat.zero_le _, by rw [Vector.length_toList]; exact h⟩
  unfold takeLine slice
  rw [if_pos hle]
  rfl

/-! What an iteration does in each state. -/

theorem pass_waiting (img : Image) (hwait : l.state.Waiting) (hbyte : tick.byte = none) :
    pass img tick l = some (l.goto .reading) := by
  unfold pass
  rcases hwait with hstate | hstate <;> simp only [hstate, hbyte]

theorem pass_hearing (img : Image) (hwait : l.state.Waiting) {byte : Byte}
    (hbyte : tick.byte = some byte) : pass img tick l = Repl.feed byte (l.hear byte) := by
  unfold pass
  rcases hwait with hstate | hstate <;> simp only [hstate, hbyte]

theorem pass_evaluating (img : Image) (tick : Tick) (hlen : l.lineLen ≤ lineMax)
    (hstate : l.state = .evaluating) :
    pass img tick l = (compile img l.text l.machine).map fun r =>
      ({ l.setLineLen 0 with pending := r.1, machine := r.2 }.goto .printing) := by
  unfold pass
  simp only [hstate, takeLine_eq hlen, Option.bind_eq_bind, Option.bind_some]
  rw [Option.map_eq_bind]
  rfl

theorem pass_printing (img : Image) (tick : Tick) (hstate : l.state = .printing) :
    pass img tick l = (answer img tick l.machine l.pending).map fun m =>
      ({ l with pending := none, machine := m }.prompt.goto .idle) := by
  unfold pass
  simp only [hstate, Option.bind_eq_bind]
  rw [Option.map_eq_bind]
  rfl

/-- Compiling a line and answering it is feeding it. -/
theorem compile_answer (img : Image) (line : List Byte) (m : Machine) (tick : Tick) :
    ((compile img line m).bind fun r => (answer img tick r.2 r.1).map (·.put prompt)) =
      feedLine img m ⟨line, tick.path, tick.cycles⟩ := by
  unfold compile feedLine
  by_cases hempty : line.isEmpty = true
  · rw [if_pos hempty, if_pos hempty]
    rfl
  · rw [if_neg hempty, if_neg hempty]
    dsimp only
    cases (m.comp.parse (m.env img) m.vm.bus line).result with
    | ok o => rfl
    | error e => cases e <;> rfl

theorem edited_prompt (hlen : l.lineLen = 0) (hheard : sinceNewline l.heard = []) :
    Edited (l.prompt.goto .idle) := by
  have htext : l.text = [] := by rw [Loop.text, hlen, List.take_zero]
  refine edited_of_waiting (hlen.le.trans (Nat.zero_le _)) (Nat.le_refl _) (.inl rfl) ?_ ?_
  · show l.text = replay (sinceNewline l.heard)
    rw [htext, hheard]
    rfl
  · show (Row.showing []).receiveAll (Loop.prompt l).echoed = some (Row.showing l.text)
    rw [Loop.echoed_prompt, htext]
    rfl

/-- Compiling prints nothing. -/
theorem compile_console {line : List Byte} {m m' : Machine}
    {pending : Option (Except ParseError Outcome)}
    (h : compile img line m = some (pending, m')) : m'.console = m.console := by
  unfold compile at h
  split at h
  · cases h
    rfl
  · simp only at h
    split at h <;> cases h <;> rfl

/-- Every iteration keeps the three lines in step. -/
theorem edited_pass (h : Edited l) (hpass : pass img tick l = some l') : Edited l' := by
  by_cases hwait : l.state.Waiting
  · cases hbyte : tick.byte with
    | some byte =>
        rw [pass_hearing img hwait hbyte] at hpass
        obtain ⟨l₁, hfeed, hedited⟩ := edited_feed h hwait byte
        cases hfeed.symm.trans hpass
        exact hedited
    | none =>
        rw [pass_waiting img hwait hbyte] at hpass
        cases hpass
        obtain ⟨htext, hshows⟩ := h.waiting hwait
        exact edited_of_waiting h.len_le h.end_le (.inr rfl) htext hshows
  · cases hstate : l.state with
    | idle => exact absurd (.inl hstate) hwait
    | reading => exact absurd (.inr hstate) hwait
    | evaluating =>
        rw [pass_evaluating img tick h.len_le hstate] at hpass
        obtain ⟨⟨pending, m⟩, hcompile, hnext⟩ := Option.map_eq_some_iff.mp hpass
        cases hnext
        obtain ⟨before, b, hheard, hnew, _⟩ := h.evaluating hstate
        exact {
          len_le := Nat.zero_le _
          end_le :=
            h.end_le.trans (Nat.le_of_eq (congrArg List.length (compile_console hcompile).symm))
          waiting := fun hwait => by rcases hwait with heq | heq <;> cases heq
          evaluating := fun heq => by cases heq
          printing := fun _ => ⟨rfl, by
            show sinceNewline l.heard = []
            rw [hheard, sinceNewline_append, hnew, if_pos rfl]⟩ }
    | printing =>
        rw [pass_printing img tick hstate] at hpass
        obtain ⟨m, _, hnext⟩ := Option.map_eq_some_iff.mp hpass
        cases hnext
        obtain ⟨hlen, hheard⟩ := h.printing hstate
        exact edited_prompt (l := { l with pending := none, machine := m }) hlen hheard

theorem edited_start (m : Machine) : Edited (Loop.start m) :=
  edited_prompt (l := ⟨.idle, Vector.replicate lineMax 0, 0, none, m, [], 0⟩) rfl rfl

theorem edited_runLoop : ∀ {ticks : List Tick} {l l' : Loop}, Edited l →
    runLoop img ticks l = some l' → Edited l' := by
  intro ticks
  induction ticks with
  | nil =>
      intro l l' h hrun
      cases hrun
      exact h
  | cons tick ticks ih =>
      intro l l' h hrun
      obtain ⟨l₁, hpass, hrest⟩ := Option.bind_eq_some_iff.mp hrun
      exact ih (edited_pass h hpass) hrest

/-- What the line editor promises wherever the loop stands. -/
structure EditorLaw (l : Loop) : Prop where
  len_le : l.lineLen ≤ lineMax
  stores : l.state.Waiting → ∀ byte, (feed byte (l.hear byte)).isSome
  shows : l.state.Waiting →
    (Row.showing []).receiveAll l.echoed = some (Row.showing l.text)
  submits : l.state.Waiting → ∀ byte, isNewline byte = true → ∃ l' l₁,
    feed byte (l.hear byte) = some l' ∧ l'.state = .evaluating ∧
      takeLine l' = some (replay (sinceNewline l.heard), l₁)
  compiles : l.state = .evaluating → ∃ before b l₁, l.heard = before ++ [b] ∧
    isNewline b = true ∧ takeLine l = some (replay (sinceNewline before), l₁)

/-- In every run of the loop: the length stays within the buffer and no byte
makes a store leave it, the line that is compiled is the replay of the bytes since
the last CR or LF, and while the loop waits the terminal shows the buffer's line
with the cursor at its end. -/
theorem line_editor {m : Machine} {ticks : List Tick}
    (h : runLoop img ticks (Loop.start m) = some l) : EditorLaw l := by
  have hedited := edited_runLoop (edited_start m) h
  exact {
    len_le := hedited.len_le
    stores := fun hwait byte => by
      obtain ⟨l', hfeed, _⟩ := edited_feed hedited hwait byte
      rw [hfeed]
      rfl
    shows := fun hwait => (hedited.waiting hwait).2
    submits := fun hwait byte hnew => by
      have hfeed : feed byte (l.hear byte) =
          some (((l.hear byte).write (bytes "\r\n")).goto .evaluating) := by
        rw [feed_detab, if_pos ((isNewline_detab byte).mp hnew)]
      have htake := takeLine_eq (l := ((l.hear byte).write (bytes "\r\n")).goto .evaluating)
        hedited.len_le
      rw [← (hedited.waiting hwait).1]
      exact ⟨_, _, hfeed, rfl, htake⟩
    compiles := fun hstate => by
      obtain ⟨before, b, hheard, hnew, htext⟩ := hedited.evaluating hstate
      exact ⟨before, b, _, hheard, hnew, by rw [takeLine_eq hedited.len_le, htext]⟩ }

end Runs

/-- A byte the UART has. -/
def typed (b : Byte) : Tick := ⟨some b, .threaded, 0⟩

/-- `a`, backspace, `b`: the row shows `b`. -/
theorem line_editor_rubout :
    ∃ l, runLoop ⟨.arm, .sample, true⟩ [typed 0x61, typed 0x08, typed 0x62]
        (Loop.start (Machine.boot ⟨fun _ => 0, []⟩)) = some l ∧
      l.text = [0x62] ∧ (Row.showing []).receiveAll l.echoed = some (Row.showing [0x62]) := by
  have hrun : (runLoop ⟨.arm, .sample, true⟩ [typed 0x61, typed 0x08, typed 0x62]
      (Loop.start (Machine.boot ⟨fun _ => 0, []⟩))).map (fun l => (l.state, l.text)) =
        some (.reading, [0x62]) := by
    rfl
  obtain ⟨l, hl, hstate, htext⟩ : ∃ l : Loop,
      runLoop ⟨.arm, .sample, true⟩ [typed 0x61, typed 0x08, typed 0x62]
        (Loop.start (Machine.boot ⟨fun _ => 0, []⟩)) = some l ∧
      l.state = .reading ∧ l.text = [0x62] := by
    obtain ⟨l, hl, heq⟩ := Option.map_eq_some_iff.mp hrun
    exact ⟨l, hl, congrArg Prod.fst heq, congrArg Prod.snd heq⟩
  have hshows := (line_editor hl).shows (.inr hstate)
  rw [htext] at hshows
  exact ⟨l, hl, htext, hshows⟩

end HolyRust.Repl
