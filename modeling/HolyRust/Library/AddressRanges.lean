import Mathlib.Data.List.Pairwise

/-!
Address ranges with both ends included, and accesses of several bytes over a
table of them. A table that is checked at the first byte only lets an access run
past the last address of a range; what waits there is decided by the table:

* `Span.Has` — an address lies in a range.
* `Covered` — some range of the table has the address.
* `Apart`, `Wide` — no address lies in two ranges; every range holds an access
  but for one byte.
* `covered_access_iff` — all bytes of an access are covered exactly when it ends
  inside the range it starts in, or another range begins right behind that one.
-/

namespace HolyRust.AddressRanges

/-- `first ..= last`, never empty. -/
structure Span where
  first : Nat
  last : Nat
  first_le_last : first ≤ last

/-- `x` is one of the addresses of the range. -/
def Span.Has (s : Span) (x : Nat) : Prop := s.first ≤ x ∧ x ≤ s.last

instance (s : Span) (x : Nat) : Decidable (s.Has x) := inferInstanceAs (Decidable (_ ∧ _))

/-- One range begins right behind the last address of the other. -/
def Span.Follows (s' s : Span) : Prop := s'.first = s.last + 1

instance (s' s : Span) : Decidable (s'.Follows s) := inferInstanceAs (Decidable (_ = _))

/-- Some range of the table has the address. -/
def Covered (table : List Span) (x : Nat) : Prop := ∃ s ∈ table, s.Has x

/-- No two ranges of the table share an address. -/
def Apart (table : List Span) : Prop :=
  table.Pairwise fun s s' => s.last < s'.first ∨ s'.last < s.first

instance (table : List Span) : Decidable (Apart table) :=
  inferInstanceAs (Decidable (table.Pairwise _))

/-- Every range has at least `w - 1` addresses. -/
def Wide (w : Nat) (table : List Span) : Prop := ∀ s ∈ table, s.first + w ≤ s.last + 2

instance (w : Nat) (table : List Span) : Decidable (Wide w table) :=
  inferInstanceAs (Decidable (∀ s ∈ table, _))

theorem Apart.sublist {table table' : List Span} (h : Apart table) (hsub : table'.Sublist table) :
    Apart table' :=
  List.Pairwise.sublist hsub h

theorem Wide.subset {w : Nat} {table table' : List Span} (h : Wide w table)
    (hsub : table' ⊆ table) : Wide w table' :=
  fun s hs => h s (hsub hs)

theorem Apart.disjoint {table : List Span} {s s' : Span} (h : Apart table) (hs : s ∈ table)
    (hs' : s' ∈ table) (hne : s ≠ s') : s.last < s'.first ∨ s'.last < s.first := by
  have : Std.Symm fun a b : Span => a.last < b.first ∨ b.last < a.first := ⟨fun _ _ => Or.symm⟩
  exact List.Pairwise.forall h hs hs' hne

/-- An address lies in one range at most. -/
theorem Apart.unique {table : List Span} {s s' : Span} {x : Nat} (h : Apart table)
    (hs : s ∈ table) (hs' : s' ∈ table) (hx : s.Has x) (hx' : s'.Has x) : s = s' := by
  by_contra hne
  obtain ⟨hlo, hhi⟩ := hx
  obtain ⟨hlo', hhi'⟩ := hx'
  have := h.disjoint hs hs' hne
  omega

/-- A range of the table that reaches past the end of another begins behind it. -/
theorem Apart.last_lt_first {table : List Span} {s s' : Span} (h : Apart table) (hs : s ∈ table)
    (hs' : s' ∈ table) (hpast : s.last < s'.last) : s.last < s'.first := by
  have hne : s ≠ s' := fun heq => by rw [heq] at hpast; exact Nat.lt_irrefl _ hpast
  have := s.first_le_last
  rcases h.disjoint hs hs' hne with hlt | hlt
  · exact hlt
  · omega

/-- The bytes `x .. x + w - 1` of an access that starts in the range `s`. -/
theorem covered_access_iff {table : List Span} {w x : Nat} {s : Span} (hapart : Apart table)
    (hwide : Wide w table) (hw : 0 < w) (hs : s ∈ table) (hx : s.Has x) :
    (∀ k < w, Covered table (x + k)) ↔
      x + (w - 1) ≤ s.last ∨ ∃ s' ∈ table, s'.Follows s := by
  obtain ⟨hfirst, hlast⟩ := hx
  constructor
  · intro hall
    by_cases hin : x + (w - 1) ≤ s.last
    · exact .inl hin
    · -- the first byte past `s` is covered, by a range that can only begin there
      obtain ⟨s', hs', hlo, hhi⟩ := hall (s.last + 1 - x) (by omega)
      rw [Nat.add_sub_cancel' (by omega)] at hlo hhi
      have hbehind := hapart.last_lt_first hs hs' (by omega)
      exact .inr ⟨s', hs', Nat.le_antisymm hlo hbehind⟩
  · rintro (hin | ⟨s', hs', hfollows⟩) k hk
    · exact ⟨s, hs, by omega, by omega⟩
    · by_cases hin : x + k ≤ s.last
      · exact ⟨s, hs, by omega, hin⟩
      · have hroom := hwide s' hs'
        rw [Span.Follows] at hfollows
        exact ⟨s', hs', by omega, by omega⟩

end HolyRust.AddressRanges
