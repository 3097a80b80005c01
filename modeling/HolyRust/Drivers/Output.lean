import HolyRust.Drivers.Repl

/-!
What a line does and prints does not depend on what is on the console.

Nothing in the REPL reads the console back, so a line does the same on a machine whose
console is longer in front, and appends the same text.
-/

namespace HolyRust.Repl

/-- The machine with another text on its console. -/
def Machine.withConsole (m : Machine) (text : List Byte) : Machine := { m with console := text }

section Output

variable {img : Image} {m : Machine} {path : Path} {cycles : Word}

@[simp] theorem Machine.vm_withConsole (m : Machine) (c : List Byte) :
    (m.withConsole c).vm = m.vm := rfl

@[simp] theorem Machine.withConsole_withConsole (m : Machine) (c c' : List Byte) :
    (m.withConsole c).withConsole c' = m.withConsole c' := rfl

/-- The same machine on a console that is longer in front. -/
def Machine.behind (c : List Byte) (m : Machine) : Machine := m.withConsole (c ++ m.console)

theorem run_withConsole (img : Image) (path : Path) (m : Machine) (p : StreamProgram)
    (c : List Byte) :
    run img path p (m.withConsole c) =
      (run img path p (m.withConsole [])).map fun r => (r.1, r.2.withConsole c) := by
  unfold run
  simp only [Machine.vm_withConsole]
  rcases p.runThreaded img.code m.vm with ⟨exit, value, vm⟩
  by_cases hlen : p.len > 0
  · rw [if_pos hlen, if_pos hlen]
    cases path with
    | threaded => cases exit <;> rfl
    | native regs =>
        dsimp only
        cases Native.instructions img.target img.code p with
        | none => cases exit <;> rfl
        | some is =>
            dsimp only
            cases Emitter.effects is (.holding img.target regs m.vm.bus) <;> rfl
  · rw [if_neg hlen, if_neg hlen]
    cases exit <;> rfl

/-- A program that runs prints nothing itself. -/
theorem run_console {p : StreamProgram} {v : Option Word} {m' : Machine}
    (h : run img path p m = some (v, m')) : m'.console = m.console := by
  have hwith := run_withConsole img path m p m.console
  rw [show m.withConsole m.console = m from rfl, h] at hwith
  obtain ⟨r, _, hr⟩ := Option.map_eq_some_iff.mp hwith.symm
  cases hr
  rfl

theorem map_put (o : Option (List Byte)) (f : List Byte → List Byte) (c : List Byte) :
    (o.map fun text => (m.withConsole c).put (f text)) =
      (o.map fun text => (m.withConsole []).put (f text)).map (.behind c) := by
  cases o <;> rfl

theorem some_put (text c : List Byte) :
    some ((m.withConsole c).put text) =
      (some ((m.withConsole []).put text)).map (.behind c) := rfl

theorem guardedPoke_withConsole (addr value : Word) (c : List Byte) :
    guardedPoke img cycles addr value (m.withConsole c) =
      (guardedPoke img cycles addr value (m.withConsole [])).behind c := by
  have hreg : ∀ c', (m.withConsole c').registry img.target = m.registry img.target := fun _ => rfl
  have haudit : ∀ c', (m.withConsole c').audit = m.audit := fun _ => rfl
  unfold guardedPoke
  simp only [hreg, haudit, Machine.vm_withConsole]
  cases Memory.enforcedPokeU32 img.target (m.registry img.target) cycles addr value m.audit
    m.vm.bus <;> rfl

theorem bitCommand_withConsole (combine : Word → Word → Word) (addr bit : Word) (c : List Byte) :
    bitCommand img combine cycles addr bit (m.withConsole c) =
      (bitCommand img combine cycles addr bit (m.withConsole [])).map (.behind c) := by
  unfold bitCommand
  simp only [Machine.vm_withConsole]
  cases bitMask img bit with
  | none => rfl
  | some mask =>
      exact congrArg some (guardedPoke_withConsole
        (m := m.setBus (m.vm.bus.peekU32 addr).2) addr _ c)

theorem capCommand_withConsole (act : List Byte → Registry → Answer × Registry) (name : NameBuf)
    (c : List Byte) :
    capCommand img act name (m.withConsole c) =
      (capCommand img act name (m.withConsole [])).map (.behind c) := by
  have hreg : ∀ c', (m.withConsole c').registry img.target = m.registry img.target := fun _ => rfl
  unfold capCommand
  simp only [hreg]
  cases act name.asSlice (m.registry img.target) with
  | mk answer r =>
      dsimp only
      cases answer.text name.asSlice <;> rfl

theorem execute_withConsole (o : Outcome) (c : List Byte) :
    execute img path cycles o (m.withConsole c) =
      (execute img path cycles o (m.withConsole [])).map (.behind c) := by
  cases o with
  | empty => exact congrArg some (congrArg m.withConsole (List.append_nil c).symm)
  | help => exact some_put helpText c
  | banner => exact some_put banner c
  | bound name value => exact map_put _ _ c
  | fnDefined name => exact some_put _ c
  | run p =>
      simp only [execute]
      rw [run_withConsole]
      cases hrun : run img path p (m.withConsole []) with
      | none => rfl
      | some r =>
          obtain ⟨value, m'⟩ := r
          have hbare : m' = m'.withConsole [] := congrArg m'.withConsole (run_console hrun)
          cases value with
          | none =>
              rw [hbare]
              exact some_put _ c
          | some value =>
              rw [hbare]
              exact map_put _ _ c
  | claim name => exact capCommand_withConsole doClaim name c
  | drop name => exact capCommand_withConsole doDrop name c
  | enforcedPoke addr value => exact congrArg some (guardedPoke_withConsole addr value c)
  | enforcedPeek addr =>
      have hreg : ∀ c', (m.withConsole c').registry img.target = m.registry img.target :=
        fun _ => rfl
      simp only [execute, hreg, Machine.vm_withConsole]
      cases Memory.enforcedPeekU32 img.target (m.registry img.target) addr m.vm.bus with
      | error e => exact some_put _ c
      | ok r => exact map_put (m := m.setBus r.2) _ _ c
  | setBit addr bit => exact bitCommand_withConsole (fun old mask => old ||| mask) addr bit c
  | clrBit addr bit => exact bitCommand_withConsole (fun old mask => old &&& ~~~mask) addr bit c
  | sysAudit => exact map_put (handleAudit m.audit) id c

theorem compiled_withConsole (parsed : Parser.Parsed) (c : List Byte) :
    (m.withConsole c).compiled parsed = (m.compiled parsed).withConsole c := rfl

/-- A line on another console. -/
theorem feedLine_withConsole (img : Image) (m : Machine) (input : Input) (c : List Byte) :
    feedLine img (m.withConsole c) input =
      (feedLine img (m.withConsole []) input).map (.behind c) := by
  have hcomp : ∀ c', (m.withConsole c').comp = m.comp := fun _ => rfl
  have henv : ∀ c', (m.withConsole c').env img = m.env img := fun _ => rfl
  unfold feedLine
  simp only [hcomp, henv, Machine.vm_withConsole, compiled_withConsole]
  split_ifs
  · exact some_put prompt c
  · cases (m.comp.parse (m.env img) m.vm.bus input.line).result with
    | ok o =>
        dsimp only
        rw [execute_withConsole]
        cases execute img input.path input.cycles o
          ((m.compiled (m.comp.parse (m.env img) m.vm.bus input.line)).withConsole []) with
        | none => rfl
        | some m' => exact congrArg some (congrArg m'.withConsole (List.append_assoc ..))
    | error e =>
        cases e with
        | error pe => exact congrArg some (congrArg (Machine.withConsole _) (List.append_assoc ..))
        | panic => rfl
        | outOfFuel => rfl

/-- Two consoles with one machine: the line stops on both, or appends one text to both. -/
theorem feedLine_cases (img : Image) (m : Machine) (input : Input) (c : List Byte) :
    (feedLine img m input = none ∧ feedLine img (m.withConsole c) input = none) ∨
      ∃ m' text, feedLine img m input = some m' ∧ m'.console = m.console ++ text ∧
        feedLine img (m.withConsole c) input = some (m'.withConsole (c ++ text)) := by
  have hself := feedLine_withConsole img m input m.console
  rw [show m.withConsole m.console = m from rfl] at hself
  rw [feedLine_withConsole, hself]
  cases feedLine img (m.withConsole []) input with
  | none => exact .inl ⟨rfl, rfl⟩
  | some m' => exact .inr ⟨m'.behind m.console, m'.console, rfl, rfl, rfl⟩

end Output

end HolyRust.Repl
