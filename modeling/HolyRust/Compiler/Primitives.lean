import HolyRust.Words
import Mathlib.Data.Fintype.Basic

/-!
The threaded micro-primitives (`compiler/primitives.rs`) as the words that
stand for them in a token stream. Where the linker puts a primitive is not in
the source; `CodeMap` is any placement that gives the eight of them distinct
addresses, none of them null.
-/

namespace HolyRust

/-- The Flash-resident execution atoms. -/
inductive MicroPrimitive where
  | lit | loadReg | writeReg | add | sub | mul | div | halt
deriving DecidableEq, Repr

namespace MicroPrimitive

def all : List MicroPrimitive := [.lit, .loadReg, .writeReg, .add, .sub, .mul, .div, .halt]

theorem mem_all (p : MicroPrimitive) : p ∈ all := by
  cases p <;> decide

end MicroPrimitive

/-- The code address of each primitive in the linked image. -/
structure CodeMap where
  wordOf : MicroPrimitive → Word
  injective : ∀ p q, wordOf p = wordOf q → p = q
  ne_zero : ∀ p, wordOf p ≠ 0#32

namespace CodeMap

variable (code : CodeMap)

/-- The primitive a word points at, if any. -/
def primAt (w : Word) : Option MicroPrimitive :=
  MicroPrimitive.all.find? fun p => code.wordOf p == w

@[simp] theorem wordOf_inj {p q : MicroPrimitive} : code.wordOf p = code.wordOf q ↔ p = q :=
  ⟨code.injective p q, fun h => by rw [h]⟩

theorem primAt_eq_some {w : Word} {p : MicroPrimitive} :
    code.primAt w = some p ↔ code.wordOf p = w := by
  unfold primAt
  constructor
  · intro h
    simpa using List.find?_some h
  · intro h
    cases hfind : MicroPrimitive.all.find? fun q => code.wordOf q == w with
    | none =>
        have := List.find?_eq_none.mp hfind p (MicroPrimitive.mem_all p)
        simp [h] at this
    | some q =>
        have hq : code.wordOf q = w := by simpa using List.find?_some hfind
        rw [code.injective q p (hq.trans h.symm)]

@[simp] theorem primAt_wordOf (p : MicroPrimitive) : code.primAt (code.wordOf p) = some p :=
  code.primAt_eq_some.mpr rfl

/-- A placement as the linker could make it: Thumb entry points in flash. -/
def sample : CodeMap where
  wordOf
    | .lit => 0x08000101#32
    | .loadReg => 0x08000111#32
    | .writeReg => 0x08000121#32
    | .add => 0x08000131#32
    | .sub => 0x08000141#32
    | .mul => 0x08000151#32
    | .div => 0x08000161#32
    | .halt => 0x08000171#32
  injective := by intro p q; cases p <;> cases q <;> decide
  ne_zero := by intro p; cases p <;> decide

end CodeMap

end HolyRust
