import HolyRust.Compiler.State
import HolyRust.Kernel.Exec

/-!
The dispatcher over a stack without a bound. The 64 slots of `VM_STACK` are enough
for a stream of 128 words: a literal takes two words for its operand, and any other
primitive leaves the stack no deeper than it was unless it was empty. So twice the
depth never exceeds the words consumed by more than one.

* `ListVm`, `runList` — the reference machine; popping its empty stack yields 0.
* `view_applyPrim` — each primitive does the same to both stacks.
* `run_view`, `run_refines` — so does a whole stream, and no push is dropped.
-/

namespace HolyRust.Exec

/-! ### The reference machine -/

/-- The operands as a list, top first, and the data bus. -/
structure ListVm where
  operands : List Word
  bus : Bus

namespace ListVm

def push (m : ListVm) (value : Word) : ListVm := { m with operands := value :: m.operands }

/-- 0 when empty. -/
def pop (m : ListVm) : Word × ListVm :=
  match m.operands with
  | [] => (0, m)
  | value :: operands => (value, { m with operands := operands })

end ListVm

/-- The primitives over the list, as in `applyPrim`. -/
def applyPrimList : MicroPrimitive → ListVm → ListVm
  | .loadReg, m =>
      let (addr, m) := m.pop
      let (value, bus) := m.bus.peekU32 addr
      { m with bus := bus }.push value
  | .writeReg, m =>
      let (value, m) := m.pop
      let (addr, m) := m.pop
      { m with bus := m.bus.pokeU32 addr value }
  | .add, m =>
      let (b, m) := m.pop
      let (a, m) := m.pop
      m.push (a + b)
  | .sub, m =>
      let (b, m) := m.pop
      let (a, m) := m.pop
      m.push (a - b)
  | .mul, m =>
      let (b, m) := m.pop
      let (a, m) := m.pop
      m.push (a * b)
  | .div, m =>
      let (b, m) := m.pop
      let (a, m) := m.pop
      m.push (checkedDivOr0 a b)
  | .lit, m => m
  | .halt, m => m

/-- A stream on the reference machine. -/
def runList (code : CodeMap) : List Word → ListVm → Exit × ListVm
  | [], m => (.overrun, m)
  | word :: rest, m =>
      if word = 0#32 then (.zeroWord, m)
      else
        match code.primAt word with
        | none => (.wildCall word, m)
        | some .halt => (.halted, m)
        | some .lit =>
            match rest with
            | [] => (.overrun, m)
            | v :: rest => runList code rest (m.push v)
        | some p => runList code rest (applyPrimList p m)

/-! ### One primitive -/

/-- The operands a primitive takes. -/
def pops : MicroPrimitive → Nat
  | .loadReg => 1
  | .writeReg | .add | .sub | .mul | .div => 2
  | .lit | .halt => 0

/-- The operands it leaves. -/
def pushes : MicroPrimitive → Nat
  | .writeReg | .halt => 0
  | .lit | .loadReg | .add | .sub | .mul | .div => 1

namespace Vm

/-- What the reference machine sees. -/
def view (m : Vm) : ListVm := ⟨m.operands, m.bus⟩

@[simp] theorem view_log (m : Vm) (s : Step) : (m.log s).view = m.view := rfl

theorem view_push {m : Vm} (h : m.sp < vmStackSize) (v : Word) :
    (m.push v).view = m.view.push v := by
  simp only [view, ListVm.push, push_operands h, push_bus]

theorem view_pop (m : Vm) : m.view.pop = (m.pop.1, m.pop.2.view) := by
  cases hops : m.operands with
  | nil =>
      have hsp : m.sp = 0 := by rw [← operands_length, hops, List.length_nil]
      simp [ListVm.pop, view, pop, hops, hsp]
  | cons v vs =>
      obtain ⟨hval, hrest⟩ := pop_operands hops
      simp only [ListVm.pop, view, hops, hval, hrest, pop_bus]

end Vm

/-- After a pop there is room. -/
theorem pop_room (m : Vm) : m.pop.2.sp < vmStackSize := by
  have hle : m.sp ≤ 64 := m.sp_le
  rw [Vm.pop_sp]
  show m.sp - 1 < 64
  omega

/-- Two operands taken, one left. -/
theorem view_binary (op : Word → Word → Word) (m : Vm) :
    (m.pop.2.pop.2.push (op m.pop.2.pop.1 m.pop.1)).view =
      (m.view.pop.2.pop.2.push (op m.view.pop.2.pop.1 m.view.pop.1)) := by
  rw [Vm.view_push (pop_room _)]
  simp only [Vm.view_pop]

theorem view_applyPrim (p : MicroPrimitive) (m : Vm) :
    (applyPrim p m).view = applyPrimList p m.view := by
  cases p with
  | lit => rfl
  | halt => rfl
  | loadReg =>
      have hroom : { m.pop.2 with bus := (m.pop.2.bus.peekU32 m.pop.1).2 }.sp < vmStackSize :=
        pop_room m
      simp only [applyPrim, applyPrimList, Vm.view_push hroom, Vm.view_pop]
      rfl
  | writeReg =>
      simp only [applyPrim, applyPrimList, Vm.view_pop]
      rfl
  | add => exact view_binary (· + ·) m
  | sub => exact view_binary (· - ·) m
  | mul => exact view_binary (· * ·) m
  | div => exact view_binary checkedDivOr0 m

theorem length_applyPrimList {p : MicroPrimitive} (hlit : p ≠ .lit) (m : ListVm) :
    (applyPrimList p m).operands.length = m.operands.length - pops p + pushes p := by
  obtain ⟨operands, bus⟩ := m
  match operands with
  | [] => cases p <;> first | rfl | exact absurd rfl hlit
  | [v] => cases p <;> first | rfl | exact absurd rfl hlit
  | v :: w :: vs => cases p <;> first | rfl | exact absurd rfl hlit

/-- The depth after a primitive. -/
theorem applyPrim_sp {p : MicroPrimitive} (hlit : p ≠ .lit) (m : Vm) :
    (applyPrim p m).sp = m.sp - pops p + pushes p := by
  rw [← Vm.operands_length, ← Vm.operands_length]
  exact (congrArg (fun l => l.operands.length) (view_applyPrim p m)).trans
    (length_applyPrimList hlit m.view)

/-! ### The history of a run -/

/-- What a primitive does to a stack of depth `d`. -/
def stackSteps (d : Nat) : MicroPrimitive → List Step
  | .loadReg => [.pop d, .push (d - 1)]
  | .writeReg => [.pop d, .pop (d - 1)]
  | .add | .sub | .mul | .div => [.pop d, .pop (d - 1), .push (d - 2)]
  | .lit | .halt => []

theorem applyPrim_steps (p : MicroPrimitive) (m : Vm) :
    (applyPrim p m).steps = m.steps ++ stackSteps m.sp p := by
  cases p <;> simp [applyPrim, stackSteps, Vm.pop_sp, Nat.sub_sub]

/-- The history from slot `ip` and depth `d` on. There are no jumps, so it depends
on the words alone. -/
def history (code : CodeMap) : Nat → Nat → List Word → List Step
  | _, _, [] => []
  | ip, d, word :: rest =>
      .fetch ip word ::
        if word = 0#32 then []
        else
          match code.primAt word with
          | none => []
          | some .halt => [.dispatch ip .halt]
          | some .lit =>
              .dispatch ip .lit ::
                match rest with
                | [] => []
                | v :: rest =>
                    .fetch (ip + 1) v :: .push d :: history code (ip + 2) (d + 1) rest
          | some p =>
              .dispatch ip p ::
                (stackSteps d p ++ history code (ip + 1) (d - pops p + pushes p) rest)

section Dispatch

variable (code : CodeMap) (ip d : Nat) (rest : List Word)

theorem runList_lit (v : Word) (m : ListVm) :
    runList code (code.wordOf .lit :: v :: rest) m = runList code rest (m.push v) := by
  simp [runList, code.ne_zero]

theorem runList_prim {p : MicroPrimitive} (hlit : p ≠ .lit) (hhalt : p ≠ .halt) (m : ListVm) :
    runList code (code.wordOf p :: rest) m = runList code rest (applyPrimList p m) := by
  rw [runList.eq_def]
  cases p <;> simp_all [code.ne_zero]

theorem history_lit (v : Word) :
    history code ip d (code.wordOf .lit :: v :: rest) =
      [.fetch ip (code.wordOf .lit), .dispatch ip .lit, .fetch (ip + 1) v, .push d] ++
        history code (ip + 2) (d + 1) rest := by
  simp [history, code.ne_zero]

theorem history_prim {p : MicroPrimitive} (hlit : p ≠ .lit) (hhalt : p ≠ .halt) :
    history code ip d (code.wordOf p :: rest) =
      [.fetch ip (code.wordOf p), .dispatch ip p] ++ stackSteps d p ++
        history code (ip + 1) (d - pops p + pushes p) rest := by
  rw [history.eq_def]
  cases p <;> simp_all [code.ne_zero]

end Dispatch

/-- A stream that stops at its first word. -/
inductive Stops (code : CodeMap) : List Word → Prop where
  | nil : Stops code []
  | zero (rest : List Word) : Stops code (0#32 :: rest)
  | wild {word : Word} (hne : word ≠ 0#32) (h : code.primAt word = none) (rest : List Word) :
      Stops code (word :: rest)
  | halt (rest : List Word) : Stops code (code.wordOf .halt :: rest)
  | lit : Stops code [code.wordOf .lit]

/-- A stream stops, or a literal or another primitive leads into the rest. -/
theorem stream_induct (code : CodeMap) {motive : List Word → Prop}
    (stops : ∀ {ws}, Stops code ws → motive ws)
    (lit : ∀ (v : Word) (rest : List Word), motive rest → motive (code.wordOf .lit :: v :: rest))
    (prim : ∀ (p : MicroPrimitive) (rest : List Word), p ≠ .lit → p ≠ .halt → motive rest →
      motive (code.wordOf p :: rest)) : ∀ ws, motive ws
  | [] => stops .nil
  | word :: rest => by
      by_cases hzero : word = 0#32
      · subst hzero
        exact stops (.zero rest)
      · cases hprim : code.primAt word with
        | none => exact stops (.wild hzero hprim rest)
        | some p =>
            obtain rfl := code.primAt_eq_some.mp hprim
            by_cases hhalt : p = .halt
            · subst hhalt
              exact stops (.halt rest)
            · by_cases hlit : p = .lit
              · subst hlit
                match rest with
                | [] => exact stops .lit
                | v :: rest => exact lit v rest (stream_induct code stops lit prim rest)
              · exact prim p rest hlit hhalt (stream_induct code stops lit prim rest)

/-! ### Whole streams -/

/-- The depth a stream can have reached at slot `ip`: half the words, and one more
operand if the first came from an underflow. -/
def DepthAt (ip d : Nat) : Prop := 2 * d ≤ ip + 1

/-- There is room for the literal whose argument is still inside the stream. -/
theorem DepthAt.room {ip d : Nat} (h : DepthAt ip d) (hlen : ip + 2 ≤ maxStreamWords) :
    d < vmStackSize := by
  unfold DepthAt at h
  show d < 64
  have : maxStreamWords = 128 := rfl
  omega

theorem DepthAt.lit {ip d : Nat} (h : DepthAt ip d) : DepthAt (ip + 2) (d + 1) := by
  unfold DepthAt at h ⊢
  omega

/-- A primitive leaves the stack no deeper, or holding one operand. -/
theorem DepthAt.prim {ip d : Nat} (h : DepthAt ip d) {p : MicroPrimitive} (hlit : p ≠ .lit) :
    DepthAt (ip + 1) (d - pops p + pushes p) := by
  unfold DepthAt at h ⊢
  cases p <;> simp only [pops, pushes] <;> first | omega | exact absurd rfl hlit

/-- Both machines end alike, and the history is that of the words. -/
structure Agrees (code : CodeMap) (ip : Nat) (ws : List Word) (m : Vm) : Prop where
  exit : (runThreadedStream code ip ws m).1 = (runList code ws m.view).1
  view : (runThreadedStream code ip ws m).2.view = (runList code ws m.view).2
  steps : (runThreadedStream code ip ws m).2.steps = m.steps ++ history code ip m.sp ws

theorem agrees_of_stops {code : CodeMap} {ws : List Word} (h : Stops code ws) (ip : Nat) (m : Vm) :
    Agrees code ip ws m := by
  have hlist : runList code ws m.view = ((runThreadedStream code ip ws m).1, m.view) := by
    unfold runThreadedStream runList
    cases h with
    | nil => rfl
    | zero rest => rfl
    | wild hne h rest => simp [hne, h]
    | halt rest => simp [code.ne_zero]
    | lit => simp [code.ne_zero]
  have hview : (runThreadedStream code ip ws m).2.view = m.view := by
    unfold runThreadedStream
    cases h with
    | nil => rfl
    | zero rest => rfl
    | wild hne h rest => simp [hne, h]
    | halt rest => simp [code.ne_zero]
    | lit => simp [code.ne_zero]
  have hsteps : (runThreadedStream code ip ws m).2.steps = m.steps ++ history code ip m.sp ws := by
    unfold runThreadedStream history
    cases h with
    | nil => exact (List.append_nil _).symm
    | zero rest => rfl
    | wild hne h rest => simp [hne, h]
    | halt rest => simp [code.ne_zero]
    | lit => simp [code.ne_zero]
  exact ⟨by rw [hlist], by rw [hlist, hview], hsteps⟩

/-- The induction is on the words; what it carries is the depth the stream can have
reached. -/
theorem run_agrees (code : CodeMap) (ws : List Word) : ∀ (ip : Nat) (m : Vm),
    DepthAt ip m.sp → ip + ws.length ≤ maxStreamWords → Agrees code ip ws m := by
  induction ws using stream_induct code with
  | stops h => exact fun ip m _ _ => agrees_of_stops h ip m
  | lit v rest ih =>
      intro ip m hdepth hlen
      simp only [List.length_cons] at hlen
      have hroom : m.sp < vmStackSize := hdepth.room (by omega)
      have hsp : (afterLit code ip m v).sp = m.sp + 1 := Vm.push_sp hroom
      have hview : (afterLit code ip m v).view = m.view.push v :=
        Vm.view_push (m := ((m.log _).log _).log _) hroom v
      have hrest := ih (ip + 2) (afterLit code ip m v) (by rw [hsp]; exact hdepth.lit) (by omega)
      constructor
      · rw [run_lit, runList_lit, hrest.exit, hview]
      · rw [run_lit, runList_lit, hrest.view, hview]
      · rw [run_lit, history_lit, hrest.steps, hsp]
        simp [afterLit]
  | prim p rest hlit hhalt ih =>
      intro ip m hdepth hlen
      simp only [List.length_cons] at hlen
      have hsp : (afterPrim code ip m p).sp = m.sp - pops p + pushes p := applyPrim_sp hlit _
      have hview : (afterPrim code ip m p).view = applyPrimList p m.view := view_applyPrim p _
      have hrest := ih (ip + 1) (afterPrim code ip m p) (by rw [hsp]; exact hdepth.prim hlit)
        (by omega)
      have hrun := run_prim code ip rest m hlit hhalt
      have hlist := runList_prim code rest hlit hhalt m.view
      constructor
      · rw [hrun, hlist, hrest.exit, hview]
      · rw [hrun, hlist, hrest.view, hview]
      · rw [hrun, history_prim code ip m.sp rest hlit hhalt, hrest.steps, hsp]
        simp [afterPrim, applyPrim_steps]

/-! ### The bound -/

/-- A push finds a free slot, and no depth is past the last one. -/
def Step.Fits : Step → Prop
  | .push depth => depth < vmStackSize
  | .pop depth => depth ≤ vmStackSize
  | .fetch _ _ | .dispatch _ _ => True

theorem DepthAt.le {ip d : Nat} (h : DepthAt ip d) (hlen : ip ≤ maxStreamWords) :
    d ≤ vmStackSize := by
  unfold DepthAt at h
  show d ≤ 64
  have : maxStreamWords = 128 := rfl
  omega

theorem stackSteps_fits {d : Nat} (hd : d ≤ vmStackSize) (p : MicroPrimitive) :
    ∀ s ∈ stackSteps d p, s.Fits := by
  have hd : d ≤ 64 := hd
  cases p <;> simp [stackSteps, Step.Fits, vmStackSize] <;> omega

/-- A stream that stops leaves the stack alone. -/
theorem mem_history_of_stops {code : CodeMap} {ws : List Word} (h : Stops code ws) {ip d : Nat}
    {s : Step} (hs : s ∈ history code ip d ws) :
    (∃ word, s = .fetch ip word) ∨ ∃ p, s = .dispatch ip p := by
  unfold history at hs
  cases h with
  | nil => cases hs
  | zero rest => exact .inl ⟨_, List.mem_singleton.mp hs⟩
  | wild hne h rest =>
      simp only [hne, if_false, h, List.mem_singleton] at hs
      exact .inl ⟨_, hs⟩
  | halt rest =>
      simp only [code.ne_zero, if_false, code.primAt_wordOf, List.mem_cons, List.not_mem_nil,
        or_false] at hs
      exact hs.imp (⟨_, ·⟩) (⟨_, ·⟩)
  | lit =>
      simp only [code.ne_zero, if_false, code.primAt_wordOf, List.mem_cons, List.not_mem_nil,
        or_false] at hs
      exact hs.imp (⟨_, ·⟩) (⟨_, ·⟩)

theorem history_fits (code : CodeMap) (ws : List Word) : ∀ ip d : Nat, DepthAt ip d →
    ip + ws.length ≤ maxStreamWords → ∀ s ∈ history code ip d ws, s.Fits := by
  induction ws using stream_induct code with
  | stops h =>
      intro ip d _ _ s hs
      rcases mem_history_of_stops h hs with ⟨word, rfl⟩ | ⟨p, rfl⟩
      · trivial
      · trivial
  | lit v rest ih =>
      intro ip d hdepth hlen
      simp only [List.length_cons] at hlen
      have hroom : d < vmStackSize := hdepth.room (by omega)
      have hrest := ih (ip + 2) (d + 1) hdepth.lit (by omega)
      rw [history_lit]
      simpa [Step.Fits, hroom] using hrest
  | prim p rest hlit hhalt ih =>
      intro ip d hdepth hlen
      simp only [List.length_cons] at hlen
      have hsteps := stackSteps_fits (hdepth.le (by omega)) p
      have hrest := ih (ip + 1) _ (hdepth.prim hlit) (by omega)
      rw [history_prim code ip d rest hlit hhalt]
      simp only [List.forall_mem_append]
      exact ⟨⟨by simp [Step.Fits], hsteps⟩, hrest⟩

/-- The machine after `vm_reset` is the empty reference machine. -/
theorem view_reset (m : Vm) : m.reset.view = ⟨[], m.bus⟩ := by
  simp [Vm.view]

/-- A stream of at most 128 words, run from an empty stack: every push finds a free
slot, the depth stays within the 64 slots, and the run ends like that of the
machine without a bound, with its operands and its memory. -/
theorem run_refines (code : CodeMap) (ws : List Word) (hlen : ws.length ≤ maxStreamWords) (m : Vm) :
    (∃ new, (runThreadedStream code 0 ws m.reset).2.steps = m.steps ++ new ∧
        ∀ s ∈ new, s.Fits) ∧
      (runThreadedStream code 0 ws m.reset).1 = (runList code ws ⟨[], m.bus⟩).1 ∧
      (runThreadedStream code 0 ws m.reset).2.view = (runList code ws ⟨[], m.bus⟩).2 := by
  have hdepth : DepthAt 0 m.reset.sp := Nat.zero_le _
  have hwords : 0 + ws.length ≤ maxStreamWords := by rwa [Nat.zero_add]
  obtain ⟨hexit, hview, hsteps⟩ := run_agrees code ws 0 m.reset hdepth hwords
  rw [view_reset] at hexit hview
  exact ⟨⟨_, hsteps, history_fits code ws 0 _ hdepth hwords⟩, hexit, hview⟩

/-- Six times seven, by the machine without a bound. -/
theorem run_refines_product :
    (runThreadedStream .sample 0 [CodeMap.sample.wordOf .lit, 6, CodeMap.sample.wordOf .lit, 7,
        CodeMap.sample.wordOf .mul, CodeMap.sample.wordOf .halt]
      (Vm.new ⟨fun _ => 0, []⟩).reset).2.view.operands = [42] := by
  have h := (run_refines .sample [CodeMap.sample.wordOf .lit, 6, CodeMap.sample.wordOf .lit, 7,
    CodeMap.sample.wordOf .mul, CodeMap.sample.wordOf .halt] (by decide)
    (Vm.new ⟨fun _ => 0, []⟩)).2.2
  rw [h]
  rfl

end HolyRust.Exec
