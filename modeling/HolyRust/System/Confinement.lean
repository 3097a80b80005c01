import HolyRust.Compiler.Meaning
import HolyRust.Drivers.Effects
import HolyRust.Library.Runs
import HolyRust.System.RegistryFrame

/-!
What a session may write to.

A store is checked when its line is compiled, a store of a function when the
function is defined, and a call copies what was checked then. So the registry of
the moment says little about a write; what holds is about the whole session.

* `feedLine_writes_permitted` — a line writes where its own registry permits it, or
  where one did under which a function was defined.
* `writes_confined` — every write of a session from power-up goes to an address that
  the registry permitted when some line of the session began.
-/

namespace HolyRust.Confinement

open HolyRust.Repl
open HolyRust.Parser (Quiet)
open HolyRust.Sessions (Session Ledger Reachable)
open HolyRust.Native (MachineAligned)
open Registry (Permitted)
open Runs (EveryStep)

/-- One line of a session; `none` is a machine that stopped. -/
def feed (img : Image) (m : Option Machine) (input : Input) : Option Machine :=
  m.bind fun m => feedLine img m input

/-- The machine code of the function that the line calls, if it calls one natively, finds
each address it writes to in the accumulator, and its literals arrive. -/
def CalleeAligned (img : Image) (m : Machine) (input : Input) : Prop :=
  input.path = .threaded ∨
    ∀ ops, Calls img m input.line ops → MachineAligned img.target none ops m.vm.bus.mem

/-- Some access of a function was checked under the registry. -/
def Recorded (L : Ledger) (r : Registry) : Prop :=
  ∃ name rs, L.origins name = some rs ∧ r ∈ rs

/-! ### One line -/

section Line

variable {img : Image} {m m' : Machine} {input : Input} {L : Ledger}

/-- A line leaves the compiler as it was or as parse leaves it. -/
theorem feedLine_comp (hreach : Reachable img.target img.code m.comp)
    (h : feedLine img m input = some m') :
    m'.comp = m.comp ∨ m'.comp = (m.comp.parse (m.env img) m.vm.bus input.line).comp := by
  unfold feedLine at h
  split at h
  · cases h
    exact .inl rfl
  · right
    cases hres : (m.comp.parse (m.env img) m.vm.bus input.line).result with
    | ok o =>
        simp only [hres] at h
        obtain ⟨m₁, hexec, rfl⟩ := Option.map_eq_some_iff.mp h
        exact (execute_effect hreach hres hexec).2
    | error e =>
        simp only [hres] at h
        cases e with
        | error pe =>
            cases h
            rfl
        | panic => cases h
        | outOfFuel => cases h

/-- The registries of a function's accesses are the one of its line and those of the
functions it calls. -/
theorem mem_bodyOrigins {now r : Registry} {stmts : List Syntax.BodyStmt}
    (h : r ∈ L.bodyOrigins now stmts) : r = now ∨ Recorded L r := by
  obtain ⟨st, -, hr⟩ := List.mem_flatMap.mp h
  cases st with
  | poke addr value => exact .inl (List.mem_singleton.mp hr)
  | peek addr => exact .inl (List.mem_singleton.mp hr)
  | expr head tail => cases hr
  | call f =>
      right
      cases horigins : L.origins f.val with
      | none => simp [Ledger.stmtOrigins, horigins] at hr
      | some rs => exact ⟨f.val, rs, horigins, by simpa [Ledger.stmtOrigins, horigins] using hr⟩

theorem recorded_define {name : List Byte} {ops : List Access} {origins : List Registry}
    {r : Registry} (h : Recorded (L.define name ops origins) r) : r ∈ origins ∨ Recorded L r := by
  obtain ⟨other, rs, horigins, hr⟩ := h
  by_cases hother : other = name
  · subst hother
    simp only [Ledger.define, Function.update_self, Option.some.injEq] at horigins
    exact .inl (horigins ▸ hr)
  · simp only [Ledger.define, Function.update_of_ne hother] at horigins
    exact .inr ⟨other, rs, horigins, hr⟩

/-- A line records at most the registry it began under. -/
theorem parse_session (hL : Session img.target img.code m.comp L) (line : List Byte) :
    ∃ L', Session img.target img.code (m.comp.parse (m.env img) m.vm.bus line).comp L' ∧
      ∀ r, Recorded L' r → r = m.registry img.target ∨ Recorded L r := by
  have hok := hL.reachable.tablesOk
  by_cases hline : ∃ name, (m.comp.parse (m.env img) m.vm.bus line).result = .ok (.fnDefined name)
  · obtain ⟨name, hdef⟩ := hline
    obtain ⟨_, ⟨stmts, rest, hspell⟩, _⟩ := Sessions.accepted (m.env img) hok hdef
    obtain ⟨ops, bus', heval, _⟩ :=
      Sessions.definition_spec (m.env img) hok hL.records hdef hspell
    refine ⟨_, .definition hL _ _ line hdef hspell heval, fun r hr => ?_⟩
    rcases recorded_define hr with hnew | hold
    · exact mem_bodyOrigins hnew
    · exact .inr hold
  · exact ⟨L, .line hL _ _ line fun name hdef => hline ⟨name, hdef⟩, fun r hr => .inr hr⟩

theorem feedLine_session (hL : Session img.target img.code m.comp L)
    (h : feedLine img m input = some m') :
    ∃ L', Session img.target img.code m'.comp L' ∧
      ∀ r, Recorded L' r → r = m.registry img.target ∨ Recorded L r := by
  rcases feedLine_comp hL.reachable h with hcomp | hcomp
  · rw [hcomp]
    exact ⟨L, hL, fun r hr => .inr hr⟩
  · rw [hcomp]
    exact parse_session hL input.line

/-- A line that stores was checked. -/
theorem permitted_of_storesAt (hreach : Reachable img.target img.code m.comp) {line : List Byte}
    {addr : Word} (h : StoresAt img m line addr) :
    Permitted img.target (m.registry img.target) addr := by
  have hok := hreach.tablesOk
  rcases h with ⟨value, hres⟩ | ⟨bit, hres | hres⟩
  · exact (Sessions.accepted (m.env img) hok hres).2
  · exact (Sessions.accepted (m.env img) hok hres).2
  · exact (Sessions.accepted (m.env img) hok hres).2

theorem passed_mem {t : Target} {ops : List Access} {rs : List Registry}
    (h : Ledger.Passed t ops rs) {op : Access} (hop : op ∈ ops) :
    ∃ r ∈ rs, Permitted t r op.addr := by
  induction h with
  | nil => cases hop
  | @cons first r _ rs hfirst _ ih =>
      rcases List.mem_cons.mp hop with rfl | hop
      · exact ⟨r, List.mem_cons_self, hfirst⟩
      · obtain ⟨r', hr', hperm⟩ := ih hop
        exact ⟨r', List.mem_cons_of_mem r hr', hperm⟩

/-- So was every write of a function, when it was defined. -/
theorem permitted_of_calls (hL : Session img.target img.code m.comp L) {line : List Byte}
    {ops : List Access} (h : Calls img m line ops) {addr value : Word}
    (hmem : (addr, value) ∈ writesOf ops) : ∃ r, Recorded L r ∧ Permitted img.target r addr := by
  obtain ⟨id, _, _, _, _, hcallee, _⟩ := h
  rw [hL.records id] at hcallee
  have hrel := hL.checked id
  rw [hcallee] at hrel
  cases horigins : L.origins id with
  | none =>
      rw [horigins] at hrel
      cases hrel
  | some rs =>
      rw [horigins] at hrel
      cases hrel with
      | some hpassed =>
          obtain ⟨op, hop, hwrite⟩ := List.mem_filterMap.mp hmem
          cases op with
          | read a => cases hwrite
          | write a v =>
              cases hwrite
              obtain ⟨r, hr, hperm⟩ := passed_mem hpassed hop
              exact ⟨r, ⟨id, rs, horigins, hr⟩, hperm⟩

theorem mem_writes {addr value : Word} {es : List MemEvent} :
    (addr, value) ∈ MemEvent.writes es ↔ .write addr value ∈ es := by
  unfold MemEvent.writes
  rw [List.mem_filterMap]
  constructor
  · rintro ⟨e, he, heq⟩
    cases e with
    | read a v => cases heq
    | write a v =>
        cases heq
        exact he
  · intro h
    exact ⟨_, h, rfl⟩

/-- A line writes where its own registry permits it, or where one did under which an
access of a function was checked. -/
theorem feedLine_writes_permitted (hL : Session img.target img.code m.comp L)
    (halign : CalleeAligned img m input) (h : feedLine img m input = some m') :
    ∃ es, m'.vm.bus.trace = m.vm.bus.trace ++ es ∧ ∀ addr value, .write addr value ∈ es →
      ∃ r, (r = m.registry img.target ∨ Recorded L r) ∧ Permitted img.target r addr := by
  cases (feedLine_effect hL.reachable h).1 with
  | reads hq _ =>
      obtain ⟨es, htraced, hnone⟩ := RegistryFrame.traced_of_quiet hq
      refine ⟨es, htraced.trace, fun addr value hmem => ?_⟩
      rw [← mem_writes, hnone] at hmem
      cases hmem
  | @store b addr value hq hstores hbus _ =>
      obtain ⟨es, htraced, hnone⟩ := RegistryFrame.traced_of_quiet hq
      have hall := htraced.trans (hbus ▸ b.traced_pokeU32 addr value)
      refine ⟨_, hall.trace, fun addr' value' hmem => ?_⟩
      rw [← mem_writes, MemEvent.writes_append, hnone] at hmem
      cases List.mem_singleton.mp hmem
      exact ⟨_, .inl rfl, permitted_of_storesAt hL.reachable hstores⟩
  | @call b ops hq hcalls hbus _ =>
      obtain ⟨es, htraced, hnone⟩ := RegistryFrame.traced_of_quiet hq
      rw [callBus_eq (halign.imp_right fun haligned => hq.1 ▸ haligned ops hcalls)] at hbus
      obtain ⟨fs, hfs, hwrites⟩ := traced_performAll ops b
      have hall := htraced.trans (hbus ▸ hfs)
      refine ⟨_, hall.trace, fun addr value hmem => ?_⟩
      rw [← mem_writes, MemEvent.writes_append, hnone, hwrites] at hmem
      obtain ⟨r, hr, hperm⟩ := permitted_of_calls hL hcalls hmem
      exact ⟨r, .inr hr, hperm⟩
  | @cap b _ hq _ hbus _ =>
      obtain ⟨es, htraced, hnone⟩ := RegistryFrame.traced_of_quiet hq
      refine ⟨es, by rw [hbus]; exact htraced.trace, fun addr value hmem => ?_⟩
      rw [← mem_writes, hnone] at hmem
      cases hmem

end Line

/-! ### Sessions -/

section Sessions

variable {img : Image}

/-- Some line of the session began under the registry. -/
def BeganUnder (img : Image) (mem : Memory) (inputs : List Input) (r : Registry) : Prop :=
  ∃ before input after m, inputs = before ++ input :: after ∧
    Runs.run (feed img) (some (.boot ⟨mem, []⟩)) before = some m ∧ m.registry img.target = r

theorem BeganUnder.concat {mem : Memory} {inputs : List Input} {r : Registry}
    (h : BeganUnder img mem inputs r) (input : Input) :
    BeganUnder img mem (inputs ++ [input]) r := by
  obtain ⟨before, first, after, m, rfl, hrun, hreg⟩ := h
  exact ⟨before, first, after ++ [input], m, by simp, hrun, hreg⟩

/-- What all registries so far account for: the checks of the functions and the
writes that were made. -/
structure Accounted (img : Image) (mem : Memory) (inputs : List Input) (m : Machine) : Prop where
  functions : ∃ L, Session img.target img.code m.comp L ∧
    ∀ r, Recorded L r → BeganUnder img mem inputs r
  writes : ∀ addr value, .write addr value ∈ m.vm.bus.trace →
    ∃ r, BeganUnder img mem inputs r ∧ Permitted img.target r addr

theorem accounted_boot (mem : Memory) : Accounted img mem [] (.boot ⟨mem, []⟩) where
  functions := by
    refine ⟨_, .new, fun r hr => ?_⟩
    obtain ⟨name, rs, horigins, _⟩ := hr
    cases horigins
  writes addr value h := by cases h

theorem accounted_line {mem : Memory} {inputs : List Input} {m m' : Machine} {input : Input}
    (hrun : Runs.run (feed img) (some (.boot ⟨mem, []⟩)) inputs = some m)
    (h : Accounted img mem inputs m) (halign : CalleeAligned img m input)
    (hfed : feedLine img m input = some m') : Accounted img mem (inputs ++ [input]) m' := by
  obtain ⟨⟨L, hL, hfunctions⟩, hwrites⟩ := h
  have hbegan : ∀ r, r = m.registry img.target ∨ Recorded L r →
      BeganUnder img mem (inputs ++ [input]) r := by
    intro r hr
    rcases hr with rfl | hr
    · exact ⟨inputs, input, [], m, rfl, hrun, rfl⟩
    · exact (hfunctions r hr).concat input
  obtain ⟨L', hL', hrecorded⟩ := feedLine_session hL hfed
  obtain ⟨es, htrace, hpermitted⟩ := feedLine_writes_permitted hL halign hfed
  refine ⟨⟨L', hL', fun r hr => hbegan r (hrecorded r hr)⟩, fun addr value hmem => ?_⟩
  rw [htrace, List.mem_append] at hmem
  rcases hmem with hold | hnew
  · obtain ⟨r, hr, hperm⟩ := hwrites addr value hold
    exact ⟨r, hr.concat input, hperm⟩
  · obtain ⟨r, hr, hperm⟩ := hpermitted addr value hnew
    exact ⟨r, hbegan r hr, hperm⟩

/-- In a session from power-up whose native calls find their addresses in the
accumulator, with literals that arrive, every write goes to an address that the registry
permitted when some line of the session began. -/
theorem writes_confined (mem : Memory) {inputs : List Input}
    (h : EveryStep (feed img) (fun m input => ∀ m', m = some m' → CalleeAligned img m' input)
      (some (.boot ⟨mem, []⟩)) inputs) {m : Machine}
    (hrun : Runs.run (feed img) (some (.boot ⟨mem, []⟩)) inputs = some m) {addr value : Word}
    (hwrite : .write addr value ∈ m.vm.bus.trace) :
    ∃ r, BeganUnder img mem inputs r ∧ Permitted img.target r addr := by
  have haccounted := Runs.history_invariant
    (J := fun inputs o => Runs.run (feed img) (some (.boot ⟨mem, []⟩)) inputs = o ∧
      ∀ m, o = some m → Accounted img mem inputs m)
    ⟨rfl, fun m hm => by cases hm; exact accounted_boot mem⟩ ?_ h
  · exact (haccounted.2 m hrun).writes addr value hwrite
  · rintro es e ⟨-, hall⟩ halign
    refine ⟨Runs.run_concat _ _ _, fun m' hm' => ?_⟩
    obtain ⟨m₁, hm₁, hfed⟩ := Option.bind_eq_some_iff.mp hm'
    exact accounted_line hm₁ (hall m₁ hm₁) (halign m₁ hm₁) hfed

/-- GPIOB claimed, a function that writes to it defined, GPIOB dropped: the call still
writes there. -/
theorem writes_confined_stale : ∃ r,
    BeganUnder armImage (fun _ => 0) [threadedLine "cap_claim GPIOB;",
      threadedLine "fn a() \x7b poke 0x40020400 1; \x7d", threadedLine "cap_drop GPIOB;",
      threadedLine "a();"] r ∧ Permitted .arm r 0x40020400 := by
  have hlast : (Runs.run (feed armImage) (some (.boot ⟨fun _ => 0, []⟩))
      [threadedLine "cap_claim GPIOB;", threadedLine "fn a() \x7b poke 0x40020400 1; \x7d",
        threadedLine "cap_drop GPIOB;", threadedLine "a();"]).map (fun m => m.vm.bus.trace) =
          some [.write 0x40020400 1] := by
    decide +kernel
  obtain ⟨m, hrun, htrace⟩ := Option.map_eq_some_iff.mp hlast
  refine writes_confined (fun _ => 0) ?_ hrun (htrace ▸ List.mem_singleton_self _)
  simp only [Runs.everyStep_cons]
  exact ⟨fun _ _ => .inl rfl, fun _ _ => .inl rfl, fun _ _ => .inl rfl, fun _ _ => .inl rfl,
    Runs.everyStep_nil⟩

end Sessions

end HolyRust.Confinement
