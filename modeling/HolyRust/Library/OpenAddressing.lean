import Mathlib.Data.Finset.Card
import Mathlib.Data.Fintype.Card

/-!
Open addressing over any probe order.

A table is what each slot stores; `order k` lists the slots a search for `k`
visits. A search ends at the first slot that is unused or stores `k`.

* `Findable` — the invariant: the search for a stored key ends at its slot. So
  no slot before it is unused, and no key is stored twice.
* `Findable.insert` — insertion keeps it, whatever the fill level.
* `Findable.stored_insert` — insertion changes what is stored under its key only.
* `Findable.insert_eq_none_iff` — insertion fails exactly for a new key in a
  table whose slots store as many keys as there are slots.
-/

namespace HolyRust.OpenAddressing

variable {ι κ ν : Type}

/-- What each slot stores. -/
abbrev Slots (ι κ ν : Type) := ι → Option (κ × ν)

section Search

variable [DecidableEq κ]

/-- A search for the key ends at the slot. -/
def stopsAt (slots : Slots ι κ ν) (k : κ) (i : ι) : Bool :=
  (slots i).all fun e => decide (e.1 = k)

variable (order : κ → List ι)

def search (slots : Slots ι κ ν) (k : κ) : Option ι := (order k).find? (stopsAt slots k)

def lookup (slots : Slots ι κ ν) (k : κ) : Option ν :=
  (search order slots k).bind fun i => (slots i).map Prod.snd

/-- The search for a stored key ends at its slot. -/
def Findable (slots : Slots ι κ ν) : Prop :=
  ∀ i k v, slots i = some (k, v) → search order slots k = some i

variable {order} {slots : Slots ι κ ν} {i j : ι} {k k' : κ} {v v' : ν}

theorem stopsAt_of_unused (h : slots i = none) : stopsAt slots k i = true := by
  simp [stopsAt, h]

theorem stopsAt_of_used (h : slots i = some (k', v)) :
    stopsAt slots k i = decide (k' = k) := by
  simp [stopsAt, h]

/-- Where a search ended, the slot is unused or stores the key. -/
theorem slot_of_search (h : search order slots k = some i) :
    slots i = none ∨ ∃ v, slots i = some (k, v) := by
  have hstop := List.find?_some h
  cases hslot : slots i with
  | none => exact .inl rfl
  | some e =>
      obtain ⟨k', v⟩ := e
      rw [stopsAt_of_used hslot, decide_eq_true_eq] at hstop
      exact .inr ⟨v, by rw [hstop]⟩

/-- An unused slot among those probed ends the search, at it or before. -/
theorem search_isSome_of_unused (hi : i ∈ order k) (h : slots i = none) :
    (search order slots k).isSome = true :=
  List.find?_isSome.mpr ⟨i, hi, stopsAt_of_unused h⟩

theorem search_isSome_of_lookup (h : lookup order slots k = some v) :
    (search order slots k).isSome = true := by
  obtain ⟨i, hsearch, _⟩ := Option.bind_eq_some_iff.mp h
  rw [hsearch]
  rfl

theorem findable_empty : Findable order (fun _ => none : Slots ι κ ν) := by
  intro i k v h
  cases h

/-- A key is stored in one slot at most. -/
theorem Findable.slot_unique (h : Findable order slots) (hi : slots i = some (k, v))
    (hj : slots j = some (k, v')) : i = j :=
  Option.some.inj ((h i k v hi).symm.trans (h j k v' hj))

theorem Findable.lookup_eq_some_iff (h : Findable order slots) :
    lookup order slots k = some v ↔ ∃ i, slots i = some (k, v) := by
  constructor
  · intro hlookup
    obtain ⟨i, hsearch, hvalue⟩ := Option.bind_eq_some_iff.mp hlookup
    rcases slot_of_search hsearch with hnone | ⟨w, hw⟩
    · simp [hnone] at hvalue
    · rw [hw] at hvalue
      obtain rfl : w = v := by simpa using hvalue
      exact ⟨i, hw⟩
  · rintro ⟨i, hi⟩
    simp [lookup, h i k v hi, hi]

end Search

/-! ### Insertion -/

section Insert

variable [DecidableEq κ] [DecidableEq ι] (order : κ → List ι)

/-- Store at the slot where the search ends. -/
def insert (slots : Slots ι κ ν) (k : κ) (v : ν) : Option (Slots ι κ ν) :=
  (search order slots k).map fun i => Function.update slots i (some (k, v))

variable {order} {slots slots' : Slots ι κ ν} {i j : ι} {k k' : κ} {v v' : ν}

theorem insert_eq_some_iff :
    insert order slots k v = some slots' ↔
      ∃ i, search order slots k = some i ∧ slots' = Function.update slots i (some (k, v)) := by
  simp [insert, eq_comm]

/-- What the table stores after an insertion. -/
theorem Findable.stored_insert (h : Findable order slots)
    (hins : insert order slots k v = some slots') :
    (∃ i, slots' i = some (k', v')) ↔
      if k' = k then v' = v else ∃ i, slots i = some (k', v') := by
  obtain ⟨i, hsearch, rfl⟩ := insert_eq_some_iff.mp hins
  by_cases hk : k' = k
  · subst hk
    rw [if_pos rfl]
    constructor
    · rintro ⟨j, hj⟩
      by_cases hji : j = i
      · subst hji
        simpa [eq_comm] using hj
      · -- the key would be stored elsewhere, where its search would have ended
        rw [Function.update_of_ne hji] at hj
        exact absurd (Option.some.inj ((h j k' v' hj).symm.trans hsearch)) hji
    · rintro rfl
      exact ⟨i, Function.update_self ..⟩
  · rw [if_neg hk]
    constructor
    · rintro ⟨j, hj⟩
      by_cases hji : j = i
      · subst hji
        simp [Ne.symm hk] at hj
      · rw [Function.update_of_ne hji] at hj
        exact ⟨j, hj⟩
    · rintro ⟨j, hj⟩
      have hji : j ≠ i := by
        rintro rfl
        rcases slot_of_search hsearch with hnone | ⟨w, hw⟩
        · rw [hnone] at hj
          cases hj
        · rw [hw] at hj
          simp [Ne.symm hk] at hj
      exact ⟨j, by rw [Function.update_of_ne hji, hj]⟩

/-- The search for a key that is not the inserted one still ends at its slot: the
slots before it were used by other keys, and stay so. -/
theorem search_update_of_ne (hsearch : search order slots k = some i) (hne : k' ≠ k)
    (hj : slots j = some (k', v')) (hfound : search order slots k' = some j) :
    search order (Function.update slots i (some (k, v))) k' = some j := by
  have hji : j ≠ i := by
    rintro rfl
    rcases slot_of_search hsearch with hnone | ⟨w, hw⟩
    · rw [hnone] at hj
      cases hj
    · rw [hw] at hj
      simp [Ne.symm hne] at hj
  obtain ⟨hstop, before, after, horder, hbefore⟩ := List.find?_eq_some_iff_append.mp hfound
  refine List.find?_eq_some_iff_append.mpr ⟨?_, before, after, horder, ?_⟩
  · simpa [stopsAt, Function.update_of_ne hji] using hstop
  · intro a ha
    by_cases hai : a = i
    · simp [stopsAt, hai, Ne.symm hne]
    · simpa [stopsAt, Function.update_of_ne hai] using hbefore a ha

/-- The search for the inserted key ends where it ended before. -/
theorem search_update_self (hsearch : search order slots k = some i) :
    search order (Function.update slots i (some (k, v))) k = some i := by
  obtain ⟨hstop, before, after, horder, hbefore⟩ := List.find?_eq_some_iff_append.mp hsearch
  refine List.find?_eq_some_iff_append.mpr ⟨by simp [stopsAt], before, after, horder, ?_⟩
  intro a ha
  have hai : a ≠ i := by
    rintro rfl
    simpa [hstop] using hbefore a ha
  simpa [stopsAt, Function.update_of_ne hai] using hbefore a ha

theorem Findable.insert (h : Findable order slots)
    (hins : OpenAddressing.insert order slots k v = some slots') : Findable order slots' := by
  obtain ⟨i, hsearch, rfl⟩ := insert_eq_some_iff.mp hins
  intro j k' v' hj
  by_cases hji : j = i
  · subst hji
    obtain ⟨rfl, rfl⟩ : k = k' ∧ v = v' := by simpa using hj
    exact search_update_self hsearch
  · rw [Function.update_of_ne hji] at hj
    have hfound := h j k' v' hj
    have hne : k' ≠ k := by
      rintro rfl
      exact hji (Option.some.inj (hfound.symm.trans hsearch))
    exact search_update_of_ne hsearch hne hj hfound

end Insert

/-! ### Capacity -/

section Capacity

variable [DecidableEq κ] [Fintype ι] {order : κ → List ι} {slots : Slots ι κ ν} {k : κ} {v : ν}

/-- The slots in use are as many as the stored keys. -/
theorem Findable.card_used (h : Findable order slots) {stored : Finset κ}
    (hstored : ∀ k, k ∈ stored ↔ ∃ i v, slots i = some (k, v)) :
    (Finset.univ.filter fun i => (slots i).isSome = true).card = stored.card := by
  refine Finset.card_bij (fun i hi => ((slots i).get (Finset.mem_filter.mp hi).2).1) ?_ ?_ ?_
  · intro i hi
    exact (hstored _).mpr ⟨i, _, (Option.some_get _).symm⟩
  · intro i hi j hj heq
    obtain ⟨⟨k₁, v₁⟩, hislot⟩ := Option.isSome_iff_exists.mp (Finset.mem_filter.mp hi).2
    obtain ⟨⟨k₂, v₂⟩, hjslot⟩ := Option.isSome_iff_exists.mp (Finset.mem_filter.mp hj).2
    simp only [hislot, hjslot, Option.get_some] at heq
    subst heq
    exact h.slot_unique hislot hjslot
  · intro k hk
    obtain ⟨i, v, hi⟩ := (hstored k).mp hk
    exact ⟨i, by simp [hi], by simp [hi]⟩

/-- With every slot in every probe order, insertion fails exactly for a new key
when the keys stored are as many as the slots. -/
theorem Findable.insert_eq_none_iff [DecidableEq ι] (h : Findable order slots)
    (hall : ∀ k i, i ∈ order k)
    {stored : Finset κ} (hstored : ∀ k, k ∈ stored ↔ ∃ i v, slots i = some (k, v)) :
    OpenAddressing.insert order slots k v = none ↔
      k ∉ stored ∧ stored.card = Fintype.card ι := by
  have hnone : OpenAddressing.insert order slots k v = none ↔
      ∀ i, ∃ k' v', slots i = some (k', v') ∧ k' ≠ k := by
    rw [OpenAddressing.insert, Option.map_eq_none_iff, search, List.find?_eq_none]
    constructor
    · intro hstop i
      cases hslot : slots i with
      | none => exact absurd (stopsAt_of_unused hslot) (hstop i (hall k i))
      | some e =>
          have := hstop i (hall k i)
          rw [stopsAt_of_used hslot, decide_eq_true_eq] at this
          exact ⟨e.1, e.2, rfl, this⟩
    · intro hused i _
      obtain ⟨k', v', hslot, hne⟩ := hused i
      rw [stopsAt_of_used hslot, decide_eq_true_eq]
      exact hne
  rw [hnone, ← h.card_used hstored, Finset.card_eq_iff_eq_univ, Finset.filter_eq_self, hstored]
  constructor
  · intro hused
    refine ⟨?_, fun i _ => ?_⟩
    · rintro ⟨i, w, hi⟩
      obtain ⟨k', v', hslot, hne⟩ := hused i
      rw [hi] at hslot
      cases hslot
      exact hne rfl
    · obtain ⟨k', v', hslot, _⟩ := hused i
      simp [hslot]
  · rintro ⟨hnew, hfull⟩ i
    obtain ⟨⟨k', v'⟩, hslot⟩ := Option.isSome_iff_exists.mp (hfull i (Finset.mem_univ i))
    refine ⟨k', v', hslot, ?_⟩
    rintro rfl
    exact hnew ⟨i, v', hslot⟩

end Capacity

end HolyRust.OpenAddressing
