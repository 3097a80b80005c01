import HolyRust.Compiler.State
import HolyRust.Library.Fallible
import HolyRust.Library.OpenAddressing
import HolyRust.Library.Runs

/-!
The symbol table as a finite map of 32 names.

* `insertInPlace` — `insert_symbol` over `&mut self`, as the source writes it.
* `slots` — the table seen as an open-addressing table with the probe order of
  the source; `lookupSymbol_eq_lookup` and `insertInPlace_cases` are the probing
  loops as the library's operations on it.
* `insertions_finite_map` — over every sequence of insertions, what a lookup
  finds and when an insertion fails.
-/

namespace HolyRust

open Fallible (bind_ok get_apply)

/-- `!s.used || s.name == *name`: the slot the loop of `insert_symbol` stops at. -/
def Symbol.isFreeFor (s : Symbol) (name : List Byte) : Option Bool :=
  if !s.used then some true else s.isNamed name

theorem Symbol.isFreeFor_eq (s : Symbol) (name : List Byte) :
    s.isFreeFor name = some (!s.used || decide (s.key = name)) := by
  rw [isFreeFor, Symbol.isNamed_eq]
  cases s.used <;> simp

namespace SymbolTable

/-- The loop of `insert_symbol` over the slots still to probe. -/
def insertAlong (name : NameBuf) (value : Word) :
    List (Fin symbolSlots) → EStateM Stop SymbolTable PUnit
  | [] => throw (.error .symbolTableFull)
  | i :: rest => do
      let symbols ← get
      let s := symbols.entry i
      match s.isFreeFor name.asSlice with
      | none => throw .panic
      | some false => insertAlong name value rest
      | some true =>
          match copyPrefix s.name name.bytes name.len with
          | none => throw .panic
          | some stored => set (symbols.setEntry i ⟨true, name.len, stored, value, name.len_le⟩)

/-- `insert_symbol` over `&mut self`. -/
def insertInPlace (name : NameBuf) (value : Word) : EStateM Stop SymbolTable PUnit :=
  insertAlong name value (probeOrder name.asSlice)

/-- The table `Compiler::new` starts with. -/
def empty : SymbolTable := Vector.replicate symbolSlots emptySymbol

/-! ### The table as an open-addressing table -/

/-- What each slot stores. -/
def slots (symbols : SymbolTable) : OpenAddressing.Slots (Fin symbolSlots) (List Byte) Word :=
  fun i => if (symbols.entry i).used then some ((symbols.entry i).key, (symbols.entry i).value)
    else none

/-- Every slot is probed, whatever the hash. -/
theorem mem_probeOrder (name : List Byte) (i : Fin symbolSlots) : i ∈ probeOrder name := by
  have hlt : hash name < symbolSlots := Nat.mod_lt _ (by decide)
  rw [probeOrder, List.mem_map]
  have hi := i.isLt
  let step : Fin symbolSlots := ⟨(i.val + (symbolSlots - hash name)) % symbolSlots,
    Nat.mod_lt _ (by decide)⟩
  refine ⟨step.val, ?_, Fin.ext ?_⟩
  · simp
  · simp only [step, symbolSlots] at hi hlt ⊢
    omega

variable {symbols : SymbolTable} {name : NameBuf} {value : Word}

theorem stopsAt_slots (symbols : SymbolTable) (name : List Byte) (i : Fin symbolSlots) :
    OpenAddressing.stopsAt symbols.slots name i =
      (!(symbols.entry i).used || decide ((symbols.entry i).key = name)) := by
  cases hused : (symbols.entry i).used <;> simp [OpenAddressing.stopsAt, slots, hused]

theorem slotAlong_eq_find? (symbols : SymbolTable) (name : List Byte) :
    ∀ order, slotAlong symbols name order =
      some (order.find? (OpenAddressing.stopsAt symbols.slots name)) := by
  intro order
  induction order with
  | nil => rfl
  | cons i rest ih =>
      rw [List.find?_cons, stopsAt_slots, slotAlong_cons, ih]
      cases hused : (symbols.entry i).used with
      | false => simp
      | true => by_cases hkey : (symbols.entry i).key = name <;> simp [hkey]

theorem lookupAlong_eq_find? (symbols : SymbolTable) (name : List Byte) :
    ∀ order, lookupAlong symbols name order =
      some ((order.find? (OpenAddressing.stopsAt symbols.slots name)).bind fun i =>
        (symbols.slots i).map Prod.snd) := by
  intro order
  induction order with
  | nil => rfl
  | cons i rest ih =>
      rw [List.find?_cons, stopsAt_slots, lookupAlong_cons, ih]
      cases hused : (symbols.entry i).used with
      | false => simp [slots, hused]
      | true => by_cases hkey : (symbols.entry i).key = name <;> simp [hkey, slots, hused]

/-- `lookup_symbol` is the library's lookup, and never panics. -/
theorem lookupSymbol_eq_lookup (symbols : SymbolTable) (name : List Byte) :
    lookupSymbol symbols name = some (OpenAddressing.lookup probeOrder symbols.slots name) :=
  lookupAlong_eq_find? symbols name _

theorem slots_setEntry {i : Fin symbolSlots} {stored : Vector Byte nameMax}
    (hcopy : copyPrefix (symbols.entry i).name name.bytes name.len = some stored) :
    (symbols.setEntry i ⟨true, name.len, stored, value, name.len_le⟩).slots =
      Function.update symbols.slots i (some (name.asSlice, value)) := by
  have hkey : (⟨true, name.len, stored, value, name.len_le⟩ : Symbol).key = name.asSlice :=
    (copyPrefix_take hcopy).1
  funext j
  by_cases hj : j = i
  · subst hj
    simp [slots, entry_setEntry, hkey]
  · simp [slots, entry_setEntry, hj]

/-! ### The loop in place -/

theorem insertAlong_next {i : Fin symbolSlots} {rest : List (Fin symbolSlots)}
    (hnext : (symbols.entry i).isFreeFor name.asSlice = some false) :
    insertAlong name value (i :: rest) symbols = insertAlong name value rest symbols := by
  rw [insertAlong, bind_ok (get_apply symbols)]
  simp only [hnext]

theorem insertAlong_stop {i : Fin symbolSlots} {rest : List (Fin symbolSlots)}
    {stored : Vector Byte nameMax}
    (hstop : (symbols.entry i).isFreeFor name.asSlice = some true)
    (hcopy : copyPrefix (symbols.entry i).name name.bytes name.len = some stored) :
    insertAlong name value (i :: rest) symbols =
      .ok ⟨⟩ (symbols.setEntry i ⟨true, name.len, stored, value, name.len_le⟩) := by
  rw [insertAlong, bind_ok (get_apply symbols)]
  simp only [hstop, hcopy]
  rfl

/-- The loop stores at the slot its search ends at. -/
theorem insertAlong_of_slot {i : Fin symbolSlots} {stored : Vector Byte nameMax}
    (hcopy : copyPrefix (symbols.entry i).name name.bytes name.len = some stored) :
    ∀ {order}, slotAlong symbols name.asSlice order = some (some i) →
      insertAlong name value order symbols =
        .ok ⟨⟩ (symbols.setEntry i ⟨true, name.len, stored, value, name.len_le⟩) := by
  intro order
  induction order with
  | nil => intro hslot; cases hslot
  | cons j rest ih =>
      intro hslot
      rw [slotAlong_cons] at hslot
      by_cases hnext : (symbols.entry j).used = true ∧ (symbols.entry j).key ≠ name.asSlice
      · rw [if_pos hnext] at hslot
        rw [insertAlong_next (by simp [Symbol.isFreeFor_eq, hnext]), ih hslot]
      · rw [if_neg hnext] at hslot
        obtain rfl : j = i := by simpa using hslot
        refine insertAlong_stop ?_ hcopy
        rw [Symbol.isFreeFor_eq]
        by_cases hused : (symbols.entry j).used = true
        · simpa [hused] using hnext
        · simp [hused]

/-- With no slot to store at, the loop reaches its end and has written nothing. -/
theorem insertAlong_of_noSlot :
    ∀ {order}, slotAlong symbols name.asSlice order = some none →
      insertAlong name value order symbols = .error (.error .symbolTableFull) symbols := by
  intro order
  induction order with
  | nil => exact fun _ => rfl
  | cons j rest ih =>
      intro hslot
      rw [slotAlong_cons] at hslot
      by_cases hnext : (symbols.entry j).used = true ∧ (symbols.entry j).key ≠ name.asSlice
      · rw [if_pos hnext] at hslot
        rw [insertAlong_next (by simp [Symbol.isFreeFor_eq, hnext]), ih hslot]
      · rw [if_neg hnext] at hslot
        cases hslot

/-- The two forms of `insert_symbol` do the same, and both are the library's
insertion. -/
theorem insertInPlace_cases (symbols : SymbolTable) (name : NameBuf) (value : Word) :
    (OpenAddressing.insert probeOrder symbols.slots name.asSlice value = none ∧
        insertSymbol symbols name value = some (.error .symbolTableFull) ∧
        insertInPlace name value symbols = .error (.error .symbolTableFull) symbols) ∨
      ∃ t, OpenAddressing.insert probeOrder symbols.slots name.asSlice value = some t.slots ∧
        insertSymbol symbols name value = some (.ok t) ∧
        insertInPlace name value symbols = .ok ⟨⟩ t := by
  have hsearch := slotAlong_eq_find? symbols name.asSlice (probeOrder name.asSlice)
  cases hslot : (probeOrder name.asSlice).find?
      (OpenAddressing.stopsAt symbols.slots name.asSlice) with
  | none =>
      rw [hslot] at hsearch
      exact .inl ⟨by simp [OpenAddressing.insert, OpenAddressing.search, hslot],
        insertSymbol_of_noSlot hsearch, insertAlong_of_noSlot hsearch⟩
  | some i =>
      rw [hslot] at hsearch
      obtain ⟨stored, hcopy, hins⟩ := insertSymbol_of_slot hsearch
      refine .inr ⟨_, ?_, hins, insertAlong_of_slot hcopy hsearch⟩
      rw [slots_setEntry hcopy]
      simp [OpenAddressing.insert, OpenAddressing.search, hslot]

/-! ### Room for a binding -/

/-- The name is bound or a slot is unused. -/
def HasRoom (symbols : SymbolTable) (name : List Byte) : Prop :=
  (∃ v, symbols.value? name = some v) ∨ ∃ i, (symbols.entry i).used = false

theorem HasRoom.search_isSome {symbols : SymbolTable} {name : List Byte}
    (h : symbols.HasRoom name) :
    (OpenAddressing.search probeOrder symbols.slots name).isSome = true := by
  rcases h with ⟨v, hv⟩ | ⟨i, hi⟩
  · rw [value?, lookupSymbol_eq_lookup] at hv
    exact OpenAddressing.search_isSome_of_lookup hv
  · exact OpenAddressing.search_isSome_of_unused (mem_probeOrder name i) (by simp [slots, hi])

/-- With room the insertion succeeds. -/
theorem insertSymbol_of_room (h : symbols.HasRoom name.asSlice) (value : Word) :
    ∃ t, insertSymbol symbols name value = some (.ok t) := by
  rcases insertInPlace_cases symbols name value with ⟨hnone, _, _⟩ | ⟨t, _, hins, _⟩
  · have hsome := h.search_isSome
    rw [Option.map_eq_none_iff.mp hnone] at hsome
    cases hsome
  · exact ⟨t, hins⟩

/-! ### Sequences of insertions -/

/-- The table, and the successful insertions behind it, last first. -/
structure Filled where
  table : SymbolTable
  log : List (List Byte × Word)

/-- One call of `insert_symbol`, whether it succeeds or not. -/
def Filled.insert (s : Filled) (call : NameBuf × Word) : Filled :=
  match insertInPlace call.1 call.2 s.table with
  | .ok _ t => ⟨t, (call.1.asSlice, call.2) :: s.log⟩
  | .error _ t => ⟨t, s.log⟩

/-- The table after the calls. -/
def filled (calls : List (NameBuf × Word)) : Filled := Runs.run Filled.insert ⟨empty, []⟩ calls

/-- The table stores what the log says. -/
structure Filled.Faithful (s : Filled) : Prop where
  findable : OpenAddressing.Findable probeOrder s.table.slots
  stored_iff : ∀ name value,
    (∃ i, s.table.slots i = some (name, value)) ↔ s.log.lookup name = some value

theorem faithful_empty : Filled.Faithful ⟨empty, []⟩ := by
  have hslots : empty.slots = fun _ => none := by
    funext i
    simp [slots, entry, empty, emptySymbol]
  constructor
  · rw [show (⟨empty, []⟩ : Filled).table.slots = fun _ => none from hslots]
    exact OpenAddressing.findable_empty
  · intro name value
    simp [hslots]

/-- One insertion, successful or not, keeps table and log in agreement. -/
theorem Filled.Faithful.insert {s : Filled} (h : s.Faithful) (call : NameBuf × Word) :
    (s.insert call).Faithful := by
  rcases insertInPlace_cases s.table call.1 call.2 with ⟨_, _, hins⟩ | ⟨t, hslots, _, hins⟩
  · rwa [Filled.insert, hins]
  · rw [Filled.insert, hins]
    refine ⟨h.findable.insert hslots, fun name value => ?_⟩
    rw [h.findable.stored_insert hslots, List.lookup_cons]
    by_cases hname : name = call.1.asSlice
    · simp [hname, eq_comm]
    · rw [if_neg hname, beq_eq_false_iff_ne.mpr hname]
      exact h.stored_iff name value

theorem faithful_filled (calls : List (NameBuf × Word)) : (filled calls).Faithful :=
  Runs.run_invariant (fun _ call h => h.insert call) faithful_empty

/-- The names stored so far. -/
def Filled.names (s : Filled) : Finset (List Byte) := (s.log.map Prod.fst).toFinset

theorem Filled.Faithful.mem_names_iff {s : Filled} (h : s.Faithful) (name : List Byte) :
    name ∈ s.names ↔ ∃ i value, s.table.slots i = some (name, value) := by
  rw [exists_comm]
  simp only [h.stored_iff, names, List.mem_toFinset, List.mem_map]
  constructor
  · rintro ⟨binding, hmem, rfl⟩
    refine Option.isSome_iff_exists.mp (Option.isSome_iff_ne_none.mpr fun hnone => ?_)
    have := List.lookup_eq_none_iff.mp hnone binding hmem
    simp at this
  · rintro ⟨value, hlookup⟩
    by_contra hnone
    have : s.log.lookup name = none := by
      refine List.lookup_eq_none_iff.mpr fun binding hmem => ?_
      simpa using fun heq : name = binding.1 => hnone ⟨binding, hmem, heq.symm⟩
    rw [this] at hlookup
    cases hlookup

/-- After any calls of `insert_symbol` from the empty table, a lookup finds the
value of the last successful insertion of the name. A further call fails, with
the table unchanged, exactly for a new name when 32 are stored. -/
theorem insertions_finite_map (calls : List (NameBuf × Word)) :
    (∀ name, (filled calls).table.lookupSymbol name = some ((filled calls).log.lookup name)) ∧
      ∀ name value,
        (insertInPlace name value (filled calls).table =
            .error (.error .symbolTableFull) (filled calls).table ↔
          name.asSlice ∉ (filled calls).names ∧ (filled calls).names.card = symbolSlots) ∧
        ∀ stop t, insertInPlace name value (filled calls).table = .error stop t →
          stop = .error .symbolTableFull ∧ t = (filled calls).table := by
  have h := faithful_filled calls
  refine ⟨fun name => ?_, fun name value => ?_⟩
  · rw [lookupSymbol_eq_lookup, Option.some.injEq]
    refine Option.ext fun value => ?_
    rw [h.findable.lookup_eq_some_iff, h.stored_iff]
  · have hfull := h.findable.insert_eq_none_iff mem_probeOrder h.mem_names_iff
      (k := name.asSlice) (v := value)
    rw [Fintype.card_fin] at hfull
    rcases insertInPlace_cases (filled calls).table name value with
      ⟨hnone, _, hins⟩ | ⟨t, hsome, _, hins⟩
    · refine ⟨⟨fun _ => hfull.mp hnone, fun _ => hins⟩, ?_⟩
      rintro stop t heq
      rw [hins] at heq
      cases heq
      exact ⟨rfl, rfl⟩
    · rw [hsome] at hfull
      rw [hins]
      refine ⟨⟨?_, fun h => absurd (hfull.mpr h) (by simp)⟩, ?_⟩
      · intro heq; cases heq
      · rintro stop t heq; cases heq

end SymbolTable

end HolyRust
