import HolyRust.Compiler.Backends
import HolyRust.Compiler.Native

/-!
Code generation into EXEC_BUFFER (`compile_and_run` in `compiler/native.rs`, up
to the jump), with what it has written when it gives up.

* `genInto` — the generation loop over the target's emitter.
* `Plan` — the emitter calls the loop makes for a stream, before it ends as
  `ending` says; `exists_plan` gives one for every stream.
* `generateInto_ok`, `generateInto_cutsLit` — a stream `is_compilable` accepts is
  generated whole, unless its last literal has no argument.
-/

namespace HolyRust.Native

open Emitter (CodeBuffer EmitError Instr Reg Usable Fits instrUnits recorder emit)
open Fallible (Ends)

/-- Why `compile_and_run` returns `Err(())`. -/
inductive Refusal where
  | notCompilable
  | missingArgument
  | unknownWord
  | emit (e : EmitError)
deriving DecidableEq, Repr

abbrev GenM (t : Target) := EStateM Refusal (CodeBuffer t)

/-- A call on the emitter, its error mapped. -/
def call {t : Target} (i : Instr) : GenM t PUnit := fun e =>
  match emit t i e with
  | .ok u e' => .ok u e'
  | .error err e' => .error (.emit err) e'

/-- The generation loop. -/
def genInto (t : Target) (code : CodeMap) : List Word → Bool → GenM t PUnit
  | [], _ => pure ⟨⟩
  | word :: rest, accLoaded =>
      if word = 0#32 then pure ⟨⟩
      else if word = code.wordOf .halt then pure ⟨⟩
      else if word = code.wordOf .lit then
        match rest with
        | [] => throw .missingArgument
        | val :: rest => do
            -- Look ahead to decide which register receives this literal.
            let next := rest.headD 0#32
            let addrContext := next = code.wordOf .loadReg ∨ next = code.wordOf .writeReg
            if addrContext then
              call (.movImm (scratch t) val)
              genInto t code rest accLoaded
            else if !accLoaded then
              call (.movImm (acc t) val)
              genInto t code rest true
            else
              call (.movImm (scratch t) val)
              genInto t code rest accLoaded
      else if word = code.wordOf .add then do
        call (.add (acc t) (acc t) (scratch t))
        genInto t code rest true
      else if word = code.wordOf .sub then do
        call (.sub (acc t) (acc t) (scratch t))
        genInto t code rest true
      else if word = code.wordOf .mul then do
        call (.mul (acc t) (acc t) (scratch t))
        genInto t code rest true
      else if word = code.wordOf .div then do
        call (.div (acc t) (acc t) (scratch t))
        genInto t code rest true
      else if word = code.wordOf .loadReg then do
        call (.loadU32 (acc t) (scratch t))
        genInto t code rest true
      else if word = code.wordOf .writeReg then do
        call (.storeU32 (scratch t) (acc t))
        genInto t code rest accLoaded
      else throw .unknownWord

/-- `compile_and_run` up to its jump. -/
def generateInto (t : Target) (code : CodeMap) (stream : List Word) : GenM t PUnit := do
  if isCompilable code stream then
    genInto t code stream false
    call .ret
  else throw .notCompilable

/-! ### How a stream ends -/

/-- How the loop ends on a stream. -/
def ending (code : CodeMap) : List Word → Option Refusal
  | [] => none
  | w :: rest =>
      if w = 0#32 ∨ w = code.wordOf .halt then none
      else if w = code.wordOf .lit then
        match rest with
        | [] => some .missingArgument
        | _ :: rest => ending code rest
      else if w = code.wordOf .add ∨ w = code.wordOf .sub ∨ w = code.wordOf .mul ∨
          w = code.wordOf .div ∨ w = code.wordOf .loadReg ∨ w = code.wordOf .writeReg then
        ending code rest
      else some .unknownWord

/-- The last literal before the end of the stream has no argument. -/
inductive CutsLit (code : CodeMap) : List Word → Prop where
  | here : CutsLit code [code.wordOf .lit]
  | lit (v : Word) {ws : List Word} : CutsLit code ws → CutsLit code (code.wordOf .lit :: v :: ws)
  | prim {p : MicroPrimitive} {ws : List Word} (hlit : p ≠ .lit) (hhalt : p ≠ .halt) :
      CutsLit code ws → CutsLit code (code.wordOf p :: ws)

variable {t : Target} {code : CodeMap}

theorem ending_stop {w : Word} (h : w = 0#32 ∨ w = code.wordOf .halt) (ws : List Word) :
    ending code (w :: ws) = none := by
  unfold ending
  rw [if_pos h]

theorem ending_lit_nil : ending code [code.wordOf .lit] = some .missingArgument := by
  simp [ending, code.ne_zero]

theorem ending_lit (v : Word) (ws : List Word) :
    ending code (code.wordOf .lit :: v :: ws) = ending code ws := by
  simp [ending, code.ne_zero]

theorem ending_prim {p : MicroPrimitive} (hlit : p ≠ .lit) (hhalt : p ≠ .halt) (ws : List Word) :
    ending code (code.wordOf p :: ws) = ending code ws := by
  conv_lhs => unfold ending
  cases p <;> simp_all [code.ne_zero]

/-- The words both scans take for an operation. -/
theorem exists_operation {w : Word}
    (h : w = code.wordOf .add ∨ w = code.wordOf .sub ∨ w = code.wordOf .mul ∨
      w = code.wordOf .div ∨ w = code.wordOf .loadReg ∨ w = code.wordOf .writeReg) :
    ∃ p, p ≠ .lit ∧ p ≠ .halt ∧ w = code.wordOf p := by
  rcases h with rfl | rfl | rfl | rfl | rfl | rfl
  · exact ⟨.add, by decide, by decide, rfl⟩
  · exact ⟨.sub, by decide, by decide, rfl⟩
  · exact ⟨.mul, by decide, by decide, rfl⟩
  · exact ⟨.div, by decide, by decide, rfl⟩
  · exact ⟨.loadReg, by decide, by decide, rfl⟩
  · exact ⟨.writeReg, by decide, by decide, rfl⟩

theorem CutsLit.ending_eq {ws : List Word} (h : CutsLit code ws) :
    ending code ws = some .missingArgument := by
  induction h with
  | here => exact ending_lit_nil
  | lit v _ ih => rw [ending_lit, ih]
  | prim hlit hhalt _ ih => rw [ending_prim hlit hhalt, ih]

theorem cutsLit_of_ending (ws : List Word) (h : ending code ws = some .missingArgument) :
    CutsLit code ws := by
  fun_induction ending code ws with
  | case1 => cases h
  | case2 => cases h
  | case3 => exact .here
  | case4 v ws hstop ih => exact .lit v (ih h)
  | case5 w ws hstop hlit hop ih =>
      obtain ⟨p, hplit, hphalt, rfl⟩ := exists_operation hop
      exact .prim hplit hphalt (ih h)
  | case6 => cases h

theorem ending_eq_missingArgument {ws : List Word} :
    ending code ws = some .missingArgument ↔ CutsLit code ws :=
  ⟨cutsLit_of_ending ws, CutsLit.ending_eq⟩

/-- A stream the gate accepts has no unknown word in front of its end. -/
theorem ending_of_compilable (ws : List Word) (seen : Bool)
    (h : isCompilableFrom code ws seen = true) :
    ending code ws = none ∨ ending code ws = some .missingArgument := by
  fun_induction isCompilableFrom code ws seen with
  | case1 => exact .inl rfl
  | case2 w ws seen hstop => exact .inl (ending_stop hstop ws)
  | case3 => exact .inr ending_lit_nil
  | case4 seen v ws hstop ih =>
      rw [ending_lit]
      exact ih h
  | case5 w ws seen hstop hlit hop ih =>
      obtain ⟨p, hplit, hphalt, rfl⟩ := exists_operation hop
      rw [ending_prim hplit hphalt]
      exact ih h
  | case6 => cases h

/-! ### The calls a stream stands for -/

/-- The calls, one after the other. -/
def emitAll : List Instr → GenM t PUnit
  | [] => pure ⟨⟩
  | i :: is => call i >>= fun _ => emitAll is

/-- The loop's own way to end. -/
def finish : Option Refusal → GenM t PUnit
  | none => pure ⟨⟩
  | some r => throw r

variable (t code) in
/-- The loop makes the calls `is` for the words and then ends as `r`; so does the
loop that records its calls. -/
structure Plan (ws : List Word) (loaded : Bool) (is : List Instr) (r : Option Refusal) : Prop where
  units_le : (is.map (Instr.units t)).sum ≤ instrUnits t * ws.length
  usable : ∀ i ∈ is, ∀ reg ∈ i.regs, Usable t reg
  recorded : ∀ out, genLoop recorder t code ws loaded out =
    if r = none then some (out ++ is) else none
  generated : genInto t code ws loaded = emitAll is >>= fun _ => finish r

/-- A loop that ends at once. -/
theorem plan_stop {ws : List Word} {loaded : Bool} {r : Option Refusal}
    (hrec : ∀ out, genLoop recorder t code ws loaded out = if r = none then some out else none)
    (hgen : genInto t code ws loaded = finish r) : Plan t code ws loaded [] r where
  units_le := Nat.zero_le _
  usable := by simp
  recorded out := by rw [hrec, List.append_nil]
  generated := by rw [hgen, emitAll, pure_bind]

/-- A loop that makes a call and goes on behind the words of it. -/
theorem Plan.cons {ws ws' : List Word} {loaded loaded' : Bool} {i : Instr} {is : List Instr}
    {r : Option Refusal} (h : Plan t code ws' loaded' is r)
    (hunits : i.units t + instrUnits t * ws'.length ≤ instrUnits t * ws.length)
    (husable : ∀ reg ∈ i.regs, Usable t reg)
    (hrec : ∀ out, genLoop recorder t code ws loaded out =
      genLoop recorder t code ws' loaded' (out ++ [i]))
    (hgen : genInto t code ws loaded = call i >>= fun _ => genInto t code ws' loaded') :
    Plan t code ws loaded (i :: is) r where
  units_le := by
    have := h.units_le
    simp only [List.map_cons, List.sum_cons]
    omega
  usable := by
    intro i' hi'
    rcases List.mem_cons.mp hi' with rfl | hi'
    · exact husable
    · exact h.usable i' hi'
  recorded out := by
    rw [hrec, h.recorded]
    split
    · simp
    · rfl
  generated := by rw [hgen, h.generated, emitAll, bind_assoc]

theorem usable_acc (t : Target) : Usable t (acc t) := by
  cases t with
  | arm => show acc .arm ≤ 7; decide
  | riscv32 => trivial

theorem usable_scratch (t : Target) : Usable t (scratch t) := by
  cases t with
  | arm => show scratch .arm ≤ 7; decide
  | riscv32 => trivial

/-- Where the look-ahead sends a literal, and whether the accumulator is in use
behind it. -/
def litTarget (t : Target) (code : CodeMap) (ws : List Word) (loaded : Bool) : Reg × Bool :=
  if ws.headD 0#32 = code.wordOf .loadReg ∨ ws.headD 0#32 = code.wordOf .writeReg then
    (scratch t, loaded)
  else if loaded then (scratch t, true)
  else (acc t, true)

theorem usable_litTarget (ws : List Word) (loaded : Bool) :
    Usable t (litTarget t code ws loaded).1 := by
  unfold litTarget
  split
  · exact usable_scratch t
  · split
    · exact usable_scratch t
    · exact usable_acc t

theorem genLoop_lit (v : Word) (ws : List Word) (loaded : Bool) (out : List Instr) :
    genLoop recorder t code (code.wordOf .lit :: v :: ws) loaded out =
      genLoop recorder t code ws (litTarget t code ws loaded).2
        (out ++ [.movImm (litTarget t code ws loaded).1 v]) := by
  conv_lhs => unfold genLoop
  unfold litTarget
  simp only [code.ne_zero, code.wordOf_inj, reduceCtorEq, if_false, if_true]
  split
  · rfl
  · cases loaded <;> rfl

theorem genInto_lit (v : Word) (ws : List Word) (loaded : Bool) :
    genInto t code (code.wordOf .lit :: v :: ws) loaded =
      call (.movImm (litTarget t code ws loaded).1 v) >>= fun _ =>
        genInto t code ws (litTarget t code ws loaded).2 := by
  conv_lhs => unfold genInto
  unfold litTarget
  simp only [code.ne_zero, code.wordOf_inj, reduceCtorEq, if_false, if_true]
  split
  · rfl
  · cases loaded <;> rfl

/-- The call an operation stands for. -/
def operation (t : Target) : MicroPrimitive → Instr
  | .add => .add (acc t) (acc t) (scratch t)
  | .sub => .sub (acc t) (acc t) (scratch t)
  | .mul => .mul (acc t) (acc t) (scratch t)
  | .div => .div (acc t) (acc t) (scratch t)
  | .loadReg => .loadU32 (acc t) (scratch t)
  | .writeReg => .storeU32 (scratch t) (acc t)
  | .lit | .halt => .ret

theorem operation_units {p : MicroPrimitive} (hlit : p ≠ .lit) (hhalt : p ≠ .halt) :
    (operation t p).units t = instrUnits t := by
  cases p <;> first | rfl | exact absurd rfl hlit | exact absurd rfl hhalt

theorem usable_operation (p : MicroPrimitive) : ∀ reg ∈ (operation t p).regs, Usable t reg := by
  intro reg hreg
  have hpair : reg = acc t ∨ reg = scratch t := by
    cases p <;> simp_all [operation, Instr.regs, or_comm]
  rcases hpair with rfl | rfl
  · exact usable_acc t
  · exact usable_scratch t

/-- Whether the accumulator is in use behind an operation. -/
def loadedAfter : MicroPrimitive → Bool → Bool
  | .writeReg, loaded => loaded
  | _, _ => true

theorem genLoop_operation {p : MicroPrimitive} (hlit : p ≠ .lit) (hhalt : p ≠ .halt)
    (ws : List Word) (loaded : Bool) (out : List Instr) :
    genLoop recorder t code (code.wordOf p :: ws) loaded out =
      genLoop recorder t code ws (loadedAfter p loaded) (out ++ [operation t p]) := by
  conv_lhs => unfold genLoop
  cases p <;> first | exact absurd rfl hlit | exact absurd rfl hhalt |
    simp [code.ne_zero, emitted, Except.toOption, operation, loadedAfter]

theorem genInto_operation {p : MicroPrimitive} (hlit : p ≠ .lit) (hhalt : p ≠ .halt)
    (ws : List Word) (loaded : Bool) :
    genInto t code (code.wordOf p :: ws) loaded =
      call (operation t p) >>= fun _ => genInto t code ws (loadedAfter p loaded) := by
  conv_lhs => unfold genInto
  cases p <;> first | exact absurd rfl hlit | exact absurd rfl hhalt |
    simp [code.ne_zero, operation, loadedAfter]

variable (t code) in
/-- Every stream is a list of calls and its ending. -/
theorem exists_plan (ws : List Word) (loaded : Bool) :
    ∃ is, Plan t code ws loaded is (ending code ws) := by
  fun_induction ending code ws generalizing loaded with
  | case1 => exact ⟨[], plan_stop (fun _ => rfl) rfl⟩
  | case2 w ws hstop =>
      refine ⟨[], plan_stop (fun out => ?_) ?_⟩
      · unfold genLoop
        rcases hstop with rfl | rfl <;> simp
      · unfold genInto
        rcases hstop with rfl | rfl <;> simp [finish]
  | case3 =>
      refine ⟨[], plan_stop (fun out => ?_) ?_⟩
      · simp [genLoop, code.ne_zero]
      · simp [genInto, code.ne_zero, finish]
  | case4 v ws hstop ih =>
      obtain ⟨is, hplan⟩ := ih (litTarget t code ws loaded).2
      refine ⟨_, hplan.cons ?_ ?_ (genLoop_lit v ws loaded) (genInto_lit v ws loaded)⟩
      · simp only [Instr.units, List.length_cons, Nat.mul_succ]
        omega
      · intro reg hreg
        rw [List.mem_singleton.mp hreg]
        exact usable_litTarget ws loaded
  | case5 w ws hstop hlit hop ih =>
      obtain ⟨p, hplit, hphalt, rfl⟩ := exists_operation hop
      obtain ⟨is, hplan⟩ := ih (loadedAfter p loaded)
      refine ⟨_, hplan.cons ?_ (usable_operation p) (genLoop_operation hplit hphalt ws loaded)
        (genInto_operation hplit hphalt ws loaded)⟩
      rw [operation_units hplit hphalt, List.length_cons, Nat.mul_succ, Nat.add_comm]
  | case6 w ws hstop hlit hop =>
      refine ⟨[], plan_stop (fun out => ?_) ?_⟩
      · unfold genLoop
        simp_all
      · unfold genInto
        simp_all [finish]

/-! ### Generation as a whole -/

theorem call_fits {i : Instr} (husable : ∀ reg ∈ i.regs, Usable t reg) {e : CodeBuffer t}
    (hroom : e.lenWords + i.units t ≤ e.capWords) :
    Ends (call i) e (fun _ e' => e'.lenWords ≤ e.lenWords + i.units t) fun _ _ => False := by
  have hemit := Emitter.emit_fits husable e hroom
  unfold Ends at hemit ⊢
  unfold call
  cases hrun : emit t i e with
  | ok u e' =>
      rw [hrun] at hemit
      exact hemit
  | error err e' =>
      rw [hrun] at hemit
      exact hemit

theorem emitAll_fits {is : List Instr} (husable : ∀ i ∈ is, ∀ reg ∈ i.regs, Usable t reg)
    {e : CodeBuffer t} (hroom : e.lenWords + (is.map (Instr.units t)).sum ≤ e.capWords) :
    Ends (emitAll is) e (fun _ e' => e'.lenWords ≤ e.lenWords + (is.map (Instr.units t)).sum)
      fun _ _ => False := by
  induction is generalizing e with
  | nil => exact Nat.le_refl _
  | cons i is ih =>
      simp only [List.map_cons, List.sum_cons] at hroom ⊢
      refine (call_fits (husable i List.mem_cons_self) (by omega)).bind fun _ e₁ hlen₁ => ?_
      have hcap := e.capWords_eq e₁
      refine (ih (fun i' hi' => husable i' (List.mem_cons_of_mem i hi')) (by omega)).mono ?_
        fun _ _ he => he
      intro _ e' hlen
      omega

/-- The buffer holds the code of the longest stream, and a return behind it. -/
theorem capacity_bound {n : Nat} (h : n ≤ maxStreamWords) :
    instrUnits t * n + 1 ≤ (CodeBuffer.intoExecBuffer t).capWords := by
  have hn : n ≤ 128 := h
  cases t with
  | arm =>
      show 2 * n + 1 ≤ 4096 / 2
      omega
  | riscv32 =>
      show 1 * n + 1 ≤ 1024 / 4
      omega

/-- A return is one store. -/
theorem emit_ret (t : Target) :
    ∃ bytes hbytes, emit t .ret = CodeBuffer.push bytes hbytes := by
  cases t with
  | arm => exact ⟨_, Emitter.length_leBytes 2 0x4770#16, rfl⟩
  | riscv32 => exact ⟨_, Emitter.length_leBytes 4 Emitter.rv32Ret, rfl⟩

theorem call_ret {e : CodeBuffer t} (h : e.lenWords < e.capWords) :
    ∃ e' s, call .ret e = .ok ⟨⟩ e' ∧ e'.stores = e.stores ++ [s] := by
  obtain ⟨bytes, hbytes, heq⟩ := emit_ret t
  obtain ⟨e', hpush, _, hstores⟩ := Emitter.push_ok hbytes h
  refine ⟨e', ⟨e.cursor, bytes⟩, ?_, hstores⟩
  unfold call
  rw [heq, hpush]

/-- The calls of a plan of a stream the gate takes all fit. -/
theorem Plan.run {ws : List Word} (hlen : ws.length ≤ maxStreamWords) {is : List Instr}
    {r : Option Refusal} (h : Plan t code ws false is r) :
    ∃ e, emitAll is (CodeBuffer.intoExecBuffer t) = .ok ⟨⟩ e ∧ e.lenWords < e.capWords := by
  have hunits := h.units_le
  have hroom := capacity_bound (t := t) hlen
  have hzero : (CodeBuffer.intoExecBuffer t).lenWords = 0 := rfl
  have hcalls := emitAll_fits h.usable (e := CodeBuffer.intoExecBuffer t) (by omega)
  unfold Ends at hcalls
  cases hrun : emitAll is (CodeBuffer.intoExecBuffer t) with
  | ok u e =>
      rw [hrun] at hcalls
      have hcap := (CodeBuffer.intoExecBuffer t).capWords_eq e
      exact ⟨e, rfl, by omega⟩
  | error err e =>
      rw [hrun] at hcalls
      exact hcalls.elim

/-- A stream the gate accepts whose literals have their arguments is generated
whole, by the calls the recorder notes; the last store is the return. -/
theorem generateInto_ok {ws : List Word} (hlen : ws.length ≤ maxStreamWords)
    (hcompilable : isCompilable code ws = true) (hcut : ¬ CutsLit code ws) :
    ∃ is e e' s, generate recorder t code ws [] = some (is ++ [.ret]) ∧
      emitAll is (CodeBuffer.intoExecBuffer t) = .ok ⟨⟩ e ∧
      generateInto t code ws (CodeBuffer.intoExecBuffer t) = .ok ⟨⟩ e' ∧
      e'.stores = e.stores ++ [s] := by
  have hend : ending code ws = none := by
    rcases ending_of_compilable ws false hcompilable with hend | hend
    · exact hend
    · exact absurd (ending_eq_missingArgument.mp hend) hcut
  obtain ⟨is, hplan⟩ := exists_plan t code ws false
  rw [hend] at hplan
  obtain ⟨e, hrun, hlt⟩ := hplan.run hlen
  obtain ⟨e', s, hret, hstores⟩ := call_ret hlt
  refine ⟨is, e, e', s, ?_, hrun, ?_, hstores⟩
  · unfold generate
    rw [if_pos hcompilable, hplan.recorded]
    rfl
  · unfold generateInto
    rw [if_pos hcompilable, hplan.generated]
    refine (Fallible.bind_ok (a := ⟨⟩) ?_).trans hret
    exact Fallible.bind_ok hrun

/-- A stream the gate accepts whose last literal has no argument is given up
there. -/
theorem generateInto_cutsLit {ws : List Word} (hlen : ws.length ≤ maxStreamWords)
    (hcompilable : isCompilable code ws = true) (hcut : CutsLit code ws) :
    generate recorder t code ws [] = none ∧
      ∃ e, generateInto t code ws (CodeBuffer.intoExecBuffer t) = .error .missingArgument e := by
  obtain ⟨is, hplan⟩ := exists_plan t code ws false
  rw [hcut.ending_eq] at hplan
  obtain ⟨e, hrun, _⟩ := hplan.run hlen
  refine ⟨?_, e, ?_⟩
  · unfold generate
    rw [if_pos hcompilable, hplan.recorded]
    rfl
  · unfold generateInto
    rw [if_pos hcompilable, hplan.generated]
    refine Fallible.bind_error ?_
    exact Fallible.bind_ok hrun

/-- A stream the gate refuses is not generated at all. -/
theorem generateInto_refused {ws : List Word} (hcompilable : isCompilable code ws = false) :
    generate recorder t code ws [] = none ∧
      generateInto t code ws (CodeBuffer.intoExecBuffer t) =
        .error .notCompilable (CodeBuffer.intoExecBuffer t) := by
  constructor
  · simp [generate, hcompilable]
  · simp [generateInto, hcompilable]

end HolyRust.Native
