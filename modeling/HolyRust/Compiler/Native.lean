import HolyRust.Compiler.Emitter
import HolyRust.Compiler.State
import HolyRust.Kernel.Exec

/-!
Native code generation (`compiler/native.rs`) and the two ways a program runs
(`StreamProgram::run` in `compiler/parser.rs`).

Like dispatch, the two scans of the stream keep their position as the words
from there to `len`. Code generation is generic in the emitter, as the source
is through `TargetEmitter`.
-/

namespace HolyRust.Native

open Emitter (Reg TargetEmitter Instr Core)

/-- `regs::ACC`. -/
def acc : Target → Reg
  | .arm => 0
  | .riscv32 => 10

/-- `regs::SCRATCH`. -/
def scratch : Target → Reg
  | .arm => 1
  | .riscv32 => 11

theorem acc_ne_scratch (t : Target) : acc t ≠ scratch t := by
  cases t <;> decide

/-- Whether a stream uses only known primitives, up to its end. -/
def isCompilableFrom (code : CodeMap) : List Word → Bool → Bool
  | [], litSeen => litSeen
  | w :: rest, _ =>
      if w = 0#32 ∨ w = code.wordOf .halt then true
      else if w = code.wordOf .lit then
        match rest with
        | [] => true
        | _ :: rest => isCompilableFrom code rest true
      else if w = code.wordOf .add ∨ w = code.wordOf .sub ∨ w = code.wordOf .mul ∨
          w = code.wordOf .div ∨ w = code.wordOf .loadReg ∨ w = code.wordOf .writeReg then
        isCompilableFrom code rest true
      else false

def isCompilable (code : CodeMap) (stream : List Word) : Bool :=
  isCompilableFrom code stream false

/-- `.map_err(|_| ())`. -/
def emitted {σ : Type} (r : Except Emitter.EmitError σ) : Option σ := r.toOption

/-- The generation loop; `none` is `Err(())`. -/
def genLoop {σ : Type} (em : TargetEmitter σ) (t : Target) (code : CodeMap) :
    List Word → Bool → σ → Option σ
  | [], _, out => some out
  | word :: rest, accLoaded, out =>
      if word = 0#32 then some out
      else if word = code.wordOf .halt then some out
      else if word = code.wordOf .lit then
        match rest with
        | [] => none
        | val :: rest =>
            -- Look ahead to decide which register receives this literal.
            let next := rest.headD 0#32
            let addrContext := next = code.wordOf .loadReg ∨ next = code.wordOf .writeReg
            if addrContext then do
              let out ← emitted (em.emitMovImm (scratch t) val out)
              genLoop em t code rest accLoaded out
            else if !accLoaded then do
              let out ← emitted (em.emitMovImm (acc t) val out)
              genLoop em t code rest true out
            else do
              let out ← emitted (em.emitMovImm (scratch t) val out)
              genLoop em t code rest accLoaded out
      else if word = code.wordOf .add then do
        let out ← emitted (em.emitAdd (acc t) (acc t) (scratch t) out)
        genLoop em t code rest true out
      else if word = code.wordOf .sub then do
        let out ← emitted (em.emitSub (acc t) (acc t) (scratch t) out)
        genLoop em t code rest true out
      else if word = code.wordOf .mul then do
        let out ← emitted (em.emitMul (acc t) (acc t) (scratch t) out)
        genLoop em t code rest true out
      else if word = code.wordOf .div then do
        let out ← emitted (em.emitDiv (acc t) (acc t) (scratch t) out)
        genLoop em t code rest true out
      else if word = code.wordOf .loadReg then do
        let out ← emitted (em.emitLoadU32 (acc t) (scratch t) out)
        genLoop em t code rest true out
      else if word = code.wordOf .writeReg then do
        let out ← emitted (em.emitStoreU32 (scratch t) (acc t) out)
        genLoop em t code rest accLoaded out
      else none

/-- Everything `compile_and_run` does before it jumps. -/
def generate {σ : Type} (em : TargetEmitter σ) (t : Target) (code : CodeMap)
    (stream : List Word) (out : σ) : Option σ :=
  if isCompilable code stream then do
    let out ← genLoop em t code stream false out
    emitted (em.emitRet out)
  else none

/-- The instruction sequence `compile_and_run` generates for a program. -/
def instructions (t : Target) (code : CodeMap) (p : StreamProgram) : Option (List Instr) :=
  generate Emitter.recorder t code (p.words.toList.take p.len) []

/-- `compile_and_run`, each emitter call taken at its documented effect: `none`
is `Err(())`, otherwise the value in the return register if the stream yields
one, and the core afterwards. -/
def compileAndRun (t : Target) (code : CodeMap) (p : StreamProgram) (c : Core) :
    Option (Option Word × Core) :=
  (instructions t code p).map fun is =>
    let c := Emitter.runCode is c
    (if p.yieldsValue then some (c.regs (acc t)) else none, c)

end HolyRust.Native

namespace HolyRust.StreamProgram

open Emitter (Core)

/-- `run` on the threaded path: reset the stack, dispatch the whole array, pop
the value if the stream yields one. -/
def runThreaded (code : CodeMap) (p : StreamProgram) (m : Exec.Vm) : Exec.Exit × Option Word × Exec.Vm :=
  let m := m.reset
  if p.len > 0 then
    let (exit, m) := Exec.runThreadedStream code 0 p.words.toList m
    if p.yieldsValue then
      let (v, m) := m.pop
      (exit, some v, m)
    else (exit, none, m)
  else if p.yieldsValue then
    let (v, m) := m.pop
    (.halted, some v, m)
  else (.halted, none, m)

end HolyRust.StreamProgram
