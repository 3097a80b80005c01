import Mathlib.Algebra.GroupWithZero.Nat
import Mathlib.Data.Fin.Basic
import Mathlib.Data.List.Rotate

/-!
A ring that keeps the most recent entries: a fixed number of slots, written in a
circle, each write over the oldest entry.

* `Ring.contents` — the slots from the oldest entry to the newest.
* `Ring.contents_write` — the oldest entry goes, the new one comes last.
* `Ring.contents_writeAll` — after a run of writes the ring holds the end of its
  history.
* `Ring.slots_perm` — reading the slots in their own order gives the same entries.
-/

namespace HolyRust.RecentRing

/-- The slots, and the one to be written next. -/
structure Ring (α : Type) (n : Nat) where
  slots : Vector α n
  next : Fin n

namespace Ring

variable {α : Type} {n : Nat}

/-- The entries, oldest first: the slot to be written next is the oldest. -/
def contents (r : Ring α n) : List α := r.slots.toList.rotate r.next

theorem slots_perm (r : Ring α n) : r.slots.toList.Perm r.contents :=
  (List.rotate_perm _ _).symm

@[simp] theorem length_contents (r : Ring α n) : r.contents.length = n := by
  simp [contents]

/-- Storing at the start of a rotated list and rotating past it. -/
theorem rotate_set {l : List α} {k : Nat} (hk : k < l.length) (a : α) :
    (l.set k a).rotate (k + 1) = (l.rotate k).tail ++ [a] := by
  rw [List.rotate_eq_drop_append_take (by simpa using Nat.succ_le_of_lt hk),
    List.rotate_eq_drop_append_take (Nat.le_of_lt hk)]
  have hdrop : l.drop k = l[k] :: l.drop (k + 1) := List.drop_eq_getElem_cons hk
  have htake : (l.set k a).take (k + 1) = l.take k ++ [a] := by
    rw [List.take_succ_eq_append_getElem (by simpa using hk), List.getElem_set_self,
      List.take_set_of_le (Nat.le_refl k)]
  rw [htake, List.drop_set_of_lt (Nat.lt_succ_self k), hdrop, List.cons_append, List.tail_cons,
    List.append_assoc]

section Writes

variable [NeZero n]

/-- Every slot as given, the first one next. -/
def fresh (a : α) : Ring α n := ⟨Vector.replicate n a, 0⟩

def write (r : Ring α n) (a : α) : Ring α n := ⟨r.slots.set r.next a, r.next + 1⟩

def writeAll (r : Ring α n) (as : List α) : Ring α n := as.foldl write r

theorem contents_fresh (a : α) : (fresh a : Ring α n).contents = List.replicate n a := by
  simp [contents, fresh]

/-- A write drops the oldest entry and adds the new one. -/
theorem contents_write (r : Ring α n) (a : α) : (r.write a).contents = r.contents.tail ++ [a] := by
  have hnext : r.next.val < r.slots.toList.length := by simp
  have hmod : (r.next + 1).val = (r.next.val + 1) % (r.slots.set r.next a).toList.length := by
    rw [Fin.val_add, Fin.val_one', Nat.add_mod_mod, Vector.length_toList]
  calc (r.write a).contents = (r.slots.set r.next a).toList.rotate (r.next.val + 1) := by
        rw [contents, write, hmod, List.rotate_mod]
    _ = (r.slots.toList.set r.next a).rotate (r.next.val + 1) := by rw [Vector.toList_set]
    _ = r.contents.tail ++ [a] := rotate_set hnext a

/-- After a run of writes the ring holds the last entries of what it held and what
was written. -/
theorem contents_writeAll (as : List α) :
    ∀ r : Ring α n, (r.writeAll as).contents = (r.contents ++ as).drop as.length := by
  induction as with
  | nil => intro r; simp [writeAll]
  | cons a as ih =>
      intro r
      have hpos : 0 < r.contents.length := by simp [Nat.pos_of_neZero]
      have hcons : r.contents = r.contents.head (List.ne_nil_of_length_pos hpos) ::
          r.contents.tail := (List.cons_head_tail _).symm
      calc (r.writeAll (a :: as)).contents = ((r.write a).writeAll as).contents := rfl
        _ = (r.contents.tail ++ [a] ++ as).drop as.length := by rw [ih, contents_write]
        _ = (r.contents ++ a :: as).drop (a :: as).length := by
          rw [List.append_assoc, List.singleton_append, List.length_cons, hcons,
            List.cons_append, List.drop_succ_cons, List.tail_cons]

/-- A fresh ring after a run of writes: the last `n` entries written, and slots
that were never written in front of them. -/
theorem contents_writeAll_fresh (d : α) (as : List α) :
    ((fresh d : Ring α n).writeAll as).contents =
      List.replicate (n - as.length) d ++ as.drop (as.length - n) := by
  rw [contents_writeAll, contents_fresh, List.drop_append, List.drop_replicate,
    List.length_replicate]

end Writes

end Ring

end HolyRust.RecentRing
