import Mathlib.Data.BitVec
import Mathlib.Logic.Function.Basic

/-!
One row of a terminal that does not wrap: a printable byte overwrites the cell at
the cursor, BS moves left.

Columns are integers, so that moving left of where the output began shows as a
negative column instead of stopping at a margin. Bytes that are neither printable
nor BS have no meaning on a row.

* `Row.showing line` — the row that displays the line, with the cursor behind it.
* `receive_printable`, `receiveAll_rubout`, `receiveAll_rubouts` — typing a byte
  and rubbing bytes out, on such a row.
-/

namespace HolyRust.TerminalRow

def backspace : BitVec 8 := 0x08

/-- The blank, of which an empty row is full. -/
def blank : BitVec 8 := 0x20

def Printable (b : BitVec 8) : Prop := 0x20 ≤ b ∧ b ≤ 0x7E

instance (b : BitVec 8) : Decidable (Printable b) := by
  unfold Printable; infer_instance

structure Row where
  cells : Int → BitVec 8
  cursor : Int

namespace Row

/-- One byte of output; `none` if it has no meaning on a row. -/
def receive (r : Row) (b : BitVec 8) : Option Row :=
  if b = backspace then some { r with cursor := r.cursor - 1 }
  else if Printable b then some ⟨Function.update r.cells r.cursor b, r.cursor + 1⟩
  else none

/-- Output, first byte to last. -/
def receiveAll (r : Row) (bs : List (BitVec 8)) : Option Row := bs.foldlM receive r

/-- The line from column 0 on and blanks elsewhere, the cursor behind the line. -/
def showing (line : List (BitVec 8)) : Row where
  cells i := if 0 ≤ i then line.getD i.toNat blank else blank
  cursor := line.length

theorem cells_showing (line : List (BitVec 8)) (i : Int) :
    (showing line).cells i = if 0 ≤ i then line.getD i.toNat blank else blank := rfl

@[simp] theorem receiveAll_nil (r : Row) : r.receiveAll [] = some r := rfl

@[simp] theorem receiveAll_singleton (r : Row) (b : BitVec 8) : r.receiveAll [b] = r.receive b := by
  simp [receiveAll]

theorem receiveAll_append (r : Row) (bs cs : List (BitVec 8)) :
    r.receiveAll (bs ++ cs) = (r.receiveAll bs).bind (receiveAll · cs) :=
  List.foldlM_append

theorem receiveAll_append_of_some {r r' : Row} {bs : List (BitVec 8)}
    (h : r.receiveAll bs = some r') (cs : List (BitVec 8)) :
    r.receiveAll (bs ++ cs) = r'.receiveAll cs := by
  rw [receiveAll_append, h]
  rfl

@[simp] theorem receive_backspace (r : Row) :
    r.receive backspace = some { r with cursor := r.cursor - 1 } := rfl

theorem receive_of_printable {b : BitVec 8} (h : Printable b) (r : Row) :
    r.receive b = some ⟨Function.update r.cells r.cursor b, r.cursor + 1⟩ := by
  have hne : b ≠ backspace := by
    rintro rfl
    exact absurd h.1 (by decide)
  unfold receive
  rw [if_neg hne, if_pos h]

theorem printable_blank : Printable blank := by decide

/-- A line's row with its next cell overwritten. -/
theorem update_showing (line : List (BitVec 8)) (b : BitVec 8) :
    Function.update (showing line).cells line.length b = (showing (line ++ [b])).cells := by
  funext i
  rw [cells_showing]
  by_cases hi : i = line.length
  · subst hi
    simp
  · rw [Function.update_of_ne hi, cells_showing]
    by_cases hpos : 0 ≤ i
    · rw [if_pos hpos, if_pos hpos]
      have hne : i.toNat ≠ line.length := by omega
      simp only [List.getD_eq_getElem?_getD]
      by_cases hlt : i.toNat < line.length
      · rw [List.getElem?_append_left hlt]
      · rw [List.getElem?_eq_none (by omega), List.getElem?_eq_none (by simp; omega)]
    · rw [if_neg hpos, if_neg hpos]

/-- A trailing blank does not show. -/
theorem cells_showing_blank (line : List (BitVec 8)) :
    (showing (line ++ [blank])).cells = (showing line).cells := by
  funext i
  rw [cells_showing, cells_showing]
  by_cases hpos : 0 ≤ i
  · rw [if_pos hpos, if_pos hpos]
    simp only [List.getD_eq_getElem?_getD]
    by_cases hlt : i.toNat < line.length
    · rw [List.getElem?_append_left hlt]
    · rw [List.getElem?_append_right (by omega), List.getElem?_eq_none (l := line) (by omega)]
      cases i.toNat - line.length <;> simp
  · rw [if_neg hpos, if_neg hpos]

/-- Typing a byte. -/
theorem receive_printable {b : BitVec 8} (h : Printable b) (line : List (BitVec 8)) :
    (showing line).receive b = some (showing (line ++ [b])) := by
  rw [receive_of_printable h]
  show some (Row.mk (Function.update (showing line).cells (line.length : Int) b) _) = _
  rw [update_showing]
  simp [showing]

/-- BS, blank, BS. -/
def rubout : List (BitVec 8) := [backspace, blank, backspace]

/-- The rubout takes the last byte off the row. -/
theorem receiveAll_rubout (line : List (BitVec 8)) (b : BitVec 8) :
    (showing (line ++ [b])).receiveAll rubout = some (showing line) := by
  have hcells : Function.update (showing (line ++ [b])).cells line.length blank =
      (showing line).cells := by
    rw [← update_showing, Function.update_idem, update_showing, cells_showing_blank]
  have hcursor : (showing (line ++ [b])).cursor - 1 = (showing line).cursor := by
    simp [showing]
  unfold rubout receiveAll
  simp only [List.foldlM_cons, List.foldlM_nil, receive_backspace,
    receive_of_printable printable_blank, Option.bind_eq_bind, Option.bind_some, hcursor]
  show some (Row.mk (Function.update (showing (line ++ [b])).cells (line.length : Int) blank) _) = _
  rw [hcells]
  simp [showing]

/-- A rubout for each byte of the line empties the row. -/
theorem receiveAll_rubouts (line : List (BitVec 8)) :
    (showing line).receiveAll (List.replicate line.length rubout).flatten =
      some (showing []) := by
  induction line using List.reverseRecOn with
  | nil => rfl
  | append_singleton line b ih =>
      rw [List.length_append, List.length_singleton, List.replicate_succ, List.flatten_cons,
        receiveAll_append_of_some (receiveAll_rubout line b), ih]

end Row

end HolyRust.TerminalRow
