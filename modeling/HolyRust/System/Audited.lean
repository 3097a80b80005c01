import HolyRust.Drivers.Effects
import HolyRust.Library.Runs

/-!
The audit log against the writes it is there for.

A session is watched: beside the machine stands the list of all writes that were
made while the SUPERUSER bit was on, read off the bus and the registry in memory
at the time of each write.

* `feedLine_audited` — a line records its superuser writes, if none of them is
  made inside a called function.
* `superuser_writes_audited` — so a session without such calls has a complete
  log in every state it reaches.
-/

namespace HolyRust.Audited

open HolyRust.Repl
open HolyRust.Parser (Quiet)
open HolyRust.Sessions (Reachable)
open ByteMemory (readWord writeWord)
open Audit (AuditEntry usizeMax)
open Runs (EveryStep EveryState)

/-! ### Writes under SUPERUSER -/

/-- The writes of a trace that are made while the registry in memory has the
SUPERUSER bit on. -/
def underSuperuser (t : Target) : Memory → List MemEvent → List (Word × Word)
  | _, [] => []
  | mem, .read _ _ :: es => underSuperuser t mem es
  | mem, .write addr value :: es =>
      (if Registry.isSuperuserActive (Registry.load t mem) then [(addr, value)] else []) ++
        underSuperuser t (writeWord mem addr value) es

/-- Those made from one bus to a later one. -/
def superuserWrites (t : Target) (b b' : Bus) : List (Word × Word) :=
  underSuperuser t b.mem (b'.trace.drop b.trace.length)

theorem underSuperuser_reads (t : Target) (mem : Memory) (addrs : List Word)
    (es : List MemEvent) :
    underSuperuser t mem ((addrs.map fun a => .read a (readWord mem a)) ++ es) =
      underSuperuser t mem es := by
  induction addrs with
  | nil => rfl
  | cons a addrs ih => exact ih

theorem superuserWrites_quiet {t : Target} {b b' : Bus} (h : Quiet b b') :
    superuserWrites t b b' = [] := by
  obtain ⟨_, addrs, htrace⟩ := h
  have hreads := underSuperuser_reads t b.mem addrs []
  rw [List.append_nil] at hreads
  rw [superuserWrites, htrace, List.drop_left, hreads]
  rfl

/-- Behind some reads only the later events count. -/
theorem superuserWrites_after {t : Target} {b b₁ b' : Bus} {es : List MemEvent}
    (h : Quiet b b₁) (htrace : b'.trace = b₁.trace ++ es) :
    superuserWrites t b b' = underSuperuser t b.mem es := by
  obtain ⟨_, addrs, hreads⟩ := h
  rw [superuserWrites, htrace, hreads, List.append_assoc, List.drop_left, underSuperuser_reads]

/-! ### One line -/

/-- No write of the function that the line calls, if it calls one, is made under
SUPERUSER. -/
def CalleeUnsupervised (img : Image) (m : Machine) (input : Input) : Prop :=
  ∀ ops, Calls img m input.line ops →
    underSuperuser img.target m.vm.bus.mem
      (callBus img.target input.path ops ⟨m.vm.bus.mem, []⟩).trace = []

/-- The writes as the log's entries show them. -/
def shown (entries : List AuditEntry) : List (Word × Word) :=
  entries.map fun e => (e.addr, e.val)

theorem callBus_trace (t : Target) (path : Path) (ops : List Access) (b : Bus) :
    (callBus t path ops b).trace = b.trace ++ (callBus t path ops ⟨b.mem, []⟩).trace := by
  cases path with
  | threaded => exact congrArg Bus.trace (performAll_history ops b)
  | native regs => exact congrArg Bus.trace (Native.nativeBus_history none _ b)

section Line

variable {img : Image} {m m' : Machine} {input : Input}

/-- An enforced store is recorded exactly if it is made under SUPERUSER. -/
theorem noted_recordAll (t : Target) (cycles addr value : Word) (mem : Memory)
    (log : Audit.AuditLog) :
    ∃ entries, noted (Registry.load t mem) cycles addr value log =
        log.recordAll entries ∧
      shown entries = underSuperuser t mem [.write addr value] := by
  unfold noted
  cases hsu : Registry.isSuperuserActive (Registry.load t mem) with
  | true => exact ⟨[⟨addr, value, cycles⟩], rfl, by simp [shown, underSuperuser, hsu]⟩
  | false => exact ⟨[], rfl, by simp [shown, underSuperuser, hsu]⟩

theorem feedLine_audited (hreach : Reachable img.target img.code m.comp)
    (hcallee : CalleeUnsupervised img m input) (h : feedLine img m input = some m') :
    ∃ entries, m'.audit = m.audit.recordAll entries ∧
      shown entries = superuserWrites img.target m.vm.bus m'.vm.bus := by
  cases (feedLine_effect hreach h).1 with
  | reads hq haudit => exact ⟨[], haudit, (superuserWrites_quiet hq).symm⟩
  | @store b addr value hq _ hbus haudit =>
      obtain ⟨entries, hlog, hshown⟩ :=
        noted_recordAll img.target input.cycles addr value m.vm.bus.mem m.audit
      refine ⟨entries, haudit.trans hlog, hshown.trans ?_⟩
      exact (superuserWrites_after hq (by rw [hbus]; rfl)).symm
  | @call b ops hq hcalls hbus haudit =>
      refine ⟨[], haudit, ?_⟩
      have hnone := hcallee ops hcalls
      rw [superuserWrites_after hq (by rw [hbus]; exact callBus_trace _ _ _ _), hq.1, hnone]
      rfl
  | @cap b _ hq _ hbus haudit =>
      refine ⟨[], haudit, ?_⟩
      rw [superuserWrites_after hq (show m'.vm.bus.trace = b.trace ++ [] by
        rw [hbus, List.append_nil])]
      rfl

end Line

/-! ### Sessions -/

/-- A machine with all writes so far that were made under SUPERUSER. -/
structure Watched where
  machine : Machine
  writes : List (Word × Word)

def Watched.boot (bus : Bus) : Watched := ⟨.boot bus, []⟩

/-- One line of a watched session; `none` is a machine that stopped. -/
def step (img : Image) (w : Option Watched) (input : Input) : Option Watched :=
  w.bind fun w => (feedLine img w.machine input).map fun m' =>
    ⟨m', w.writes ++ superuserWrites img.target w.machine.vm.bus m'.vm.bus⟩

/-- The log is what recording each write under SUPERUSER, in order, leaves; below
saturation its total is their number. -/
structure Complete (w : Watched) : Prop where
  recorded : ∃ entries, w.machine.audit = Audit.new.recordAll entries ∧ shown entries = w.writes
  total : w.writes.length ≤ usizeMax → w.machine.audit.totalAudits = w.writes.length

theorem complete_of_recorded {w : Watched}
    (h : ∃ entries, w.machine.audit = Audit.new.recordAll entries ∧ shown entries = w.writes) :
    Complete w where
  recorded := h
  total hle := by
    obtain ⟨entries, hlog, hshown⟩ := h
    have hlen : w.writes.length = entries.length := by rw [← hshown, shown, List.length_map]
    have hzero : Audit.new.totalAudits = 0 := rfl
    rw [hlog, Audit.totalAudits_recordAll (by omega), hzero, hlen, Nat.zero_add]

/-- What holds of a session that did not stop. -/
def Running (P : Watched → Prop) (w : Option Watched) : Prop := ∀ w', w = some w' → P w'

section Sessions

variable {img : Image}

/-- Kept by every line whose callee is not under SUPERUSER. -/
def Kept (img : Image) (w : Watched) : Prop :=
  Reachable img.target img.code w.machine.comp ∧ Complete w

theorem step_kept (w : Option Watched) (input : Input) (hI : Running (Kept img) w)
    (hC : Running (fun w' => CalleeUnsupervised img w'.machine input) w) :
    Running (Kept img) (step img w input) := by
  intro w₂ hstep
  obtain ⟨w₁, rfl, hfed⟩ := Option.bind_eq_some_iff.mp hstep
  obtain ⟨m', hm', rfl⟩ := Option.map_eq_some_iff.mp hfed
  obtain ⟨hreach, hcomplete⟩ := hI w₁ rfl
  obtain ⟨entries, hlog, hshown⟩ := hcomplete.recorded
  obtain ⟨more, hmore, hmoreShown⟩ := feedLine_audited hreach (hC w₁ rfl) hm'
  refine ⟨(feedLine_effect hreach hm').2, complete_of_recorded ⟨entries ++ more, ?_, ?_⟩⟩
  · show m'.audit = _
    rw [hmore, hlog, Audit.recordAll_append]
  · show shown (entries ++ more) = w₁.writes ++ _
    rw [← hshown, ← hmoreShown, shown, List.map_append]
    rfl

/-- In a session from power-up in which no called function writes under
SUPERUSER, the log is complete in every state. -/
theorem superuser_writes_audited (bus : Bus) {inputs : List Input}
    (h : EveryStep (step img)
      (fun w input => Running (fun w' => CalleeUnsupervised img w'.machine input) w)
      (some (.boot bus)) inputs) :
    EveryState (step img) (Running Complete) (some (.boot bus)) inputs := by
  have hboot : Running (Kept img) (some (.boot bus)) := by
    intro w hw
    cases hw
    exact ⟨reachable_boot img bus, complete_of_recorded ⟨[], rfl, rfl⟩⟩
  have hkept := (Runs.everyStep_of_invariant (P := fun _ _ => True) step_kept
    (fun _ _ _ _ => trivial) hboot h).1
  exact hkept.mono fun w hw w' hw' => (hw w' hw').2

end Sessions

/-- A line that does not open with `NAME (` calls nothing. -/
theorem calleeUnsupervised_of_toks {img : Image} {line : String} (t₁ t₂ : Token)
    (ts : List Token) (htoks : (Lexer.new (bytes line)).toks = t₁ :: t₂ :: ts)
    (hne : t₂ ≠ .lParen) (m : Machine) : CalleeUnsupervised img m (threadedLine line) := by
  rintro ops ⟨id, rest, _, _, hcall, _⟩
  rw [show (threadedLine line).line = bytes line from rfl, htoks] at hcall
  exact absurd (List.cons.inj (List.cons.inj hcall).2).1 hne

/-- SUPERUSER claimed, used for a peripheral, and dropped. -/
theorem superuser_writes_audited_poke :
    EveryState (step armImage) (Running Complete) (some (.boot Sessions.blank))
      [threadedLine "cap_claim SUPERUSER;", threadedLine "poke 0x40020000 5;",
        threadedLine "cap_drop SUPERUSER;"] := by
  refine superuser_writes_audited _ ?_
  simp only [Runs.everyStep_cons]
  refine ⟨fun w _ => ?_, fun w _ => ?_, fun w _ => ?_, Runs.everyStep_nil⟩
  · exact calleeUnsupervised_of_toks (.identifier (bytes "cap_claim"))
      (.identifier (bytes "SUPERUSER"))
      [.semicolon] (by decide +kernel) (by simp) _
  · exact calleeUnsupervised_of_toks (.identifier (bytes "poke")) (.literal 0x40020000)
      [.literal 5, .semicolon] (by decide +kernel) (by simp) _
  · exact calleeUnsupervised_of_toks (.identifier (bytes "cap_drop"))
      (.identifier (bytes "SUPERUSER"))
      [.semicolon] (by decide +kernel) (by simp) _

/-- A function called under SUPERUSER writes without an entry. -/
theorem superuser_call_unaudited : ¬ ∀ (img : Image) (bus : Bus) (inputs : List Input),
    EveryState (step img) (Running Complete) (some (.boot bus)) inputs := by
  intro h
  have hlast : (Runs.run (step armImage) (some (.boot Sessions.blank))
      [threadedLine "fn f() \x7b poke 0x20000100 1; \x7d", threadedLine "cap_claim SUPERUSER;",
        threadedLine "f();"]).map (fun w => (w.writes, w.machine.audit.totalAudits)) =
          some ([(0x20000100, 1)], 0) := by
    decide +kernel
  obtain ⟨w, hw, heq⟩ := Option.map_eq_some_iff.mp hlast
  have hcomplete := h armImage Sessions.blank _ _ [] (List.append_nil _).symm w hw
  have hwrites : w.writes = [(0x20000100, 1)] := congrArg Prod.fst heq
  have htotal : w.machine.audit.totalAudits = 0 := congrArg Prod.snd heq
  have := hcomplete.total (by rw [hwrites]; decide)
  rw [htotal, hwrites] at this
  cases this

end HolyRust.Audited
