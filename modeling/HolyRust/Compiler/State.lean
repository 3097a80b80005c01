import HolyRust.Words
import HolyRust.Compiler.Primitives
import Mathlib.Data.List.FinRange

/-!
What the front end keeps between lines and what it hands out
(`compiler/parser.rs`, data part): names, errors, programs, outcomes, the
symbol table and the persistent compiler record.
-/

namespace HolyRust

/-- Maximum words in one compiled token stream. -/
abbrev maxStreamWords : Nat := 128
/-- Symbol table slots (open addressing). -/
abbrev symbolSlots : Nat := 32
/-- Longest identifier accepted. -/
abbrev nameMax : Nat := 16
/-- Maximum simultaneously defined functions. -/
abbrev maxFns : Nat := 2
/-- Words per function body (excluding the appended halt). -/
abbrev fnBodyWords : Nat := 32

/-- Parser failure modes. -/
inductive ParseError where
  | lexError (msg : String)
  | unexpectedToken
  | unsupportedOperator (op : Byte)
  | unknownSymbol
  | duplicateFn
  | symbolTableFull
  | fnTableFull
  | streamFull
  | nameTooLong
  | divByZero
  | missingSemicolon
  | emptyLine
  | capabilityViolation
deriving DecidableEq, Repr

/-- Why the front end stopped early: one of its own errors, a Rust panic, or
the model's recursion budget. -/
inductive Stop where
  | error (e : ParseError)
  | panic
  | outOfFuel
deriving DecidableEq, Repr

/-! ### Fixed-capacity arrays -/

/-- `dst[..len].copy_from_slice(&src[..len])`; `none` is the panic on a range
past either array. -/
def copyPrefix {α : Type} {n m : Nat} (dst : Vector α n) (src : Vector α m) (len : Nat) :
    Option (Vector α n) :=
  if h : len ≤ n ∧ len ≤ m then
    some (Vector.ofFn fun i => if hi : i.val < len then src[i.val] else dst[i])
  else none

/-- The copied range is the source's, whatever was behind it. -/
theorem copyPrefix_take {α : Type} {n m : Nat} {dst dst' : Vector α n} {src : Vector α m}
    {len : Nat} (h : copyPrefix dst src len = some dst') :
    dst'.toList.take len = src.toList.take len ∧ len ≤ n ∧ len ≤ m := by
  unfold copyPrefix at h
  split at h
  · rename_i hlen
    obtain rfl := Option.some.inj h
    refine ⟨List.ext_getElem (by simp; omega) fun i hi _ => ?_, hlen⟩
    have hlt : i < len := by
      have : i < min len n := by simpa using hi
      omega
    simp [hlt]
  · exact absurd h (by simp)

theorem exists_copyPrefix {α : Type} {n m : Nat} (dst : Vector α n) (src : Vector α m) {len : Nat}
    (hn : len ≤ n) (hm : len ≤ m) : ∃ dst', copyPrefix dst src len = some dst' := by
  unfold copyPrefix
  rw [dif_pos ⟨hn, hm⟩]
  exact ⟨_, rfl⟩

theorem getElem_set_slot {α : Type} {n : Nat} (v : Vector α n) (i j : Fin n) (x : α) :
    (v.set i x)[j] = if j = i then x else v[j] := by
  by_cases h : j = i
  · subst h
    simp
  · have hval : i.val ≠ j.val := fun heq => h (Fin.ext heq.symm)
    simp [h, Vector.getElem_set_ne _ _ hval]

/-! ### Names -/

/-- Fixed-capacity identifier storage. -/
structure NameBuf where
  len : Nat
  bytes : Vector Byte nameMax
  len_le : len ≤ nameMax
deriving DecidableEq

namespace NameBuf

/-- The unset name of a free function slot. -/
def empty : NameBuf := ⟨0, Vector.replicate nameMax 0, Nat.zero_le _⟩

def fromSlice (name : List Byte) : Except ParseError NameBuf :=
  if h : name.length > nameMax then .error .nameTooLong
  else .ok ⟨name.length, Vector.ofFn fun i => name.getD i 0, Nat.le_of_not_lt h⟩

/-- Borrow the name bytes. -/
def asSlice (n : NameBuf) : List Byte := n.bytes.toList.take n.len

def eqBytes (n : NameBuf) (other : List Byte) : Bool := n.asSlice == other

theorem length_asSlice (n : NameBuf) : n.asSlice.length = n.len := by
  simp [asSlice, n.len_le]

theorem asSlice_fromSlice {name : List Byte} {n : NameBuf} (h : fromSlice name = .ok n) :
    n.asSlice = name := by
  unfold fromSlice at h
  split at h
  · exact absurd h (by simp)
  · rename_i hle
    obtain rfl := Except.ok.inj h
    refine List.ext_getElem ?_ fun i _ hi => ?_
    · simp [asSlice]
      omega
    · simp [asSlice, hi]

theorem fromSlice_eq_ok_iff {name : List Byte} :
    (∃ n, fromSlice name = .ok n) ↔ name.length ≤ nameMax := by
  unfold fromSlice
  split
  · rename_i h
    constructor
    · rintro ⟨n, hn⟩; cases hn
    · intro hle; omega
  · rename_i h
    exact ⟨fun _ => Nat.le_of_not_lt h, fun _ => ⟨_, rfl⟩⟩

end NameBuf

/-! ### Programs and outcomes -/

/-- A compiled threaded token stream ready for SRAM dispatch. -/
structure StreamProgram where
  words : Vector Word maxStreamWords
  len : Nat
  yieldsValue : Bool
deriving DecidableEq

/-- What the parser decided the input line means. -/
inductive Outcome where
  | empty
  | bound (name : NameBuf) (value : Word)
  | fnDefined (name : NameBuf)
  | run (program : StreamProgram)
  | claim (name : NameBuf)
  | drop (name : NameBuf)
  | setBit (addr bit : Word)
  | clrBit (addr bit : Word)
  | help
  | banner
  | sysAudit
  | enforcedPoke (addr val : Word)
  | enforcedPeek (addr : Word)
deriving DecidableEq

/-! ### The symbol table -/

structure Symbol where
  used : Bool
  nameLen : Nat
  name : Vector Byte nameMax
  value : Word
  nameLen_le : nameLen ≤ nameMax
deriving DecidableEq

def emptySymbol : Symbol := ⟨false, 0, Vector.replicate nameMax 0, 0, Nat.zero_le _⟩

/-- The name a slot stores. -/
def Symbol.key (s : Symbol) : List Byte := s.name.toList.take s.nameLen

/-- `usize::from(s.name_len) == name.len() && s.name[..name.len()] == *name`,
with the slice's bounds check. -/
def Symbol.isNamed (s : Symbol) (name : List Byte) : Option Bool :=
  if s.nameLen = name.length then (slice s.name.toList 0 name.length).map (· == name)
  else some false

/-- The guard on the length makes the slice safe. -/
theorem Symbol.isNamed_eq (s : Symbol) (name : List Byte) :
    s.isNamed name = some (decide (s.key = name)) := by
  have hle := s.nameLen_le
  unfold isNamed
  split
  · rename_i hlen
    have hfit : name.length ≤ s.name.toList.length := by simp; omega
    simp only [slice, Nat.zero_le, hfit, and_self, if_true, Option.map_some, List.drop_zero, key,
      hlen]
    rw [beq_eq_decide]
  · rename_i hlen
    have : s.key ≠ name := fun h => hlen (by rw [← h]; simp [key, hle])
    simp [this]

abbrev SymbolTable := Vector Symbol symbolSlots

namespace SymbolTable

/-- FNV-1a 32-bit, reduced to a slot. -/
def hash (name : List Byte) : Nat :=
  (name.foldl (fun h b => (h ^^^ b.setWidth 32) * 0x01000193#32) 0x811C9DC5#32).toNat % symbolSlots

/-- The slots in probing order. -/
def probeOrder (name : List Byte) : List (Fin symbolSlots) :=
  (List.finRange symbolSlots).map fun step =>
    ⟨(hash name + step) % symbolSlots, Nat.mod_lt _ (by decide)⟩

/-- `self.symbols[i]`. -/
def entry (symbols : SymbolTable) (i : Fin symbolSlots) : Symbol := symbols[i]

/-- The table with a symbol stored in a slot. -/
def setEntry (symbols : SymbolTable) (i : Fin symbolSlots) (s : Symbol) : SymbolTable :=
  symbols.set i s

theorem entry_setEntry (symbols : SymbolTable) (i j : Fin symbolSlots) (s : Symbol) :
    (symbols.setEntry i s).entry j = if j = i then s else symbols.entry j :=
  getElem_set_slot symbols i j s

/-- The probing loop of `lookup_symbol`; the outer `none` is a panic. -/
def lookupAlong (symbols : SymbolTable) (name : List Byte) :
    List (Fin symbolSlots) → Option (Option Word)
  | [] => some none
  | i :: rest =>
      let s := symbols[i]
      if !s.used then some none
      else
        match s.isNamed name with
        | none => none
        | some true => some (some s.value)
        | some false => lookupAlong symbols name rest

def lookupSymbol (symbols : SymbolTable) (name : List Byte) : Option (Option Word) :=
  lookupAlong symbols name (probeOrder name)

/-- The value bound to a name. -/
def value? (symbols : SymbolTable) (name : List Byte) : Option Word :=
  (lookupSymbol symbols name).join

/-- The probing loop of `insert_symbol`: the slot to write, if any is left. -/
def slotAlong (symbols : SymbolTable) (name : List Byte) :
    List (Fin symbolSlots) → Option (Option (Fin symbolSlots))
  | [] => some none
  | i :: rest =>
      let s := symbols[i]
      if !s.used then some (some i)
      else
        match s.isNamed name with
        | none => none
        | some true => some (some i)
        | some false => slotAlong symbols name rest

/-- The outer `none` is a panic, the inner error the full table. -/
def insertSymbol (symbols : SymbolTable) (name : NameBuf) (value : Word) :
    Option (Except ParseError SymbolTable) :=
  match slotAlong symbols name.asSlice (probeOrder name.asSlice) with
  | none => none
  | some none => some (.error .symbolTableFull)
  | some (some i) =>
      (copyPrefix symbols[i].name name.bytes name.len).map fun stored =>
        .ok (symbols.set i ⟨true, name.len, stored, value, name.len_le⟩)

theorem lookupAlong_cons (symbols : SymbolTable) (name : List Byte) (i : Fin symbolSlots)
    (rest : List (Fin symbolSlots)) :
    lookupAlong symbols name (i :: rest) =
      if (symbols.entry i).used = true then
        if (symbols.entry i).key = name then some (some (symbols.entry i).value)
        else lookupAlong symbols name rest
      else some none := by
  by_cases hused : symbols[i.val].used = true
  · by_cases hkey : symbols[i.val].key = name <;>
      simp [lookupAlong, entry, Symbol.isNamed_eq, hused, hkey]
  · simp [lookupAlong, entry, hused]

theorem slotAlong_cons (symbols : SymbolTable) (name : List Byte) (i : Fin symbolSlots)
    (rest : List (Fin symbolSlots)) :
    slotAlong symbols name (i :: rest) =
      if (symbols.entry i).used = true ∧ (symbols.entry i).key ≠ name then
        slotAlong symbols name rest
      else some (some i) := by
  by_cases hused : symbols[i.val].used = true
  · by_cases hkey : symbols[i.val].key = name <;>
      simp [slotAlong, entry, Symbol.isNamed_eq, hused, hkey]
  · simp [slotAlong, entry, hused]

theorem lookupAlong_isSome (symbols : SymbolTable) (name : List Byte) :
    ∀ order, ∃ v, lookupAlong symbols name order = some v := by
  intro order
  induction order with
  | nil => exact ⟨none, rfl⟩
  | cons i rest ih =>
      rw [lookupAlong_cons]
      split
      · split
        · exact ⟨_, rfl⟩
        · exact ih
      · exact ⟨_, rfl⟩

theorem slotAlong_isSome (symbols : SymbolTable) (name : List Byte) :
    ∀ order, ∃ r, slotAlong symbols name order = some r := by
  intro order
  induction order with
  | nil => exact ⟨none, rfl⟩
  | cons i rest ih =>
      rw [slotAlong_cons]
      split
      · exact ih
      · exact ⟨_, rfl⟩

theorem insertSymbol_of_noSlot {symbols : SymbolTable} {name : NameBuf} {value : Word}
    (hslot : slotAlong symbols name.asSlice (probeOrder name.asSlice) = some none) :
    insertSymbol symbols name value = some (.error .symbolTableFull) := by
  simp [insertSymbol, hslot]

/-- An insertion stores the name and the value at the slot its search ends at. -/
theorem insertSymbol_of_slot {symbols : SymbolTable} {name : NameBuf} {value : Word}
    {i : Fin symbolSlots}
    (hslot : slotAlong symbols name.asSlice (probeOrder name.asSlice) = some (some i)) :
    ∃ stored, copyPrefix (symbols.entry i).name name.bytes name.len = some stored ∧
      insertSymbol symbols name value =
        some (.ok (symbols.setEntry i ⟨true, name.len, stored, value, name.len_le⟩)) := by
  obtain ⟨stored, hstored⟩ := exists_copyPrefix (symbols.entry i).name name.bytes name.len_le
    name.len_le
  refine ⟨stored, hstored, ?_⟩
  unfold insertSymbol
  rw [hslot]
  exact congrArg (Option.map _) hstored

/-- An insertion never panics. -/
theorem insertSymbol_isSome (symbols : SymbolTable) (name : NameBuf) (value : Word) :
    ∃ r, insertSymbol symbols name value = some r := by
  obtain ⟨slot, hslot⟩ := slotAlong_isSome symbols name.asSlice (probeOrder name.asSlice)
  cases slot with
  | none => exact ⟨_, insertSymbol_of_noSlot hslot⟩
  | some i =>
      obtain ⟨_, _, heq⟩ := @insertSymbol_of_slot _ _ value _ hslot
      exact ⟨_, heq⟩

/-- A lookup never panics. -/
theorem lookupSymbol_eq (symbols : SymbolTable) (name : List Byte) :
    lookupSymbol symbols name = some (value? symbols name) := by
  obtain ⟨v, hv⟩ := lookupAlong_isSome symbols name (probeOrder name)
  have : lookupSymbol symbols name = some v := hv
  simp [value?, this]

end SymbolTable

/-! ### The compiler record -/

/-- Persistent compiler state: symbol table, function bodies, stream buffer. -/
structure Compiler where
  symbols : SymbolTable
  fnNames : Vector NameBuf maxFns
  fnBodies : Vector (Vector Word fnBodyWords) maxFns
  fnBodyLens : Vector Nat maxFns
  stream : Vector Word maxStreamWords
  streamLen : Nat

namespace Compiler

/-- `Compiler::new()`. -/
def new : Compiler where
  symbols := Vector.replicate symbolSlots emptySymbol
  fnNames := Vector.replicate maxFns NameBuf.empty
  fnBodies := Vector.replicate maxFns (Vector.replicate fnBodyWords 0)
  fnBodyLens := Vector.replicate maxFns 0
  stream := Vector.replicate maxStreamWords 0
  streamLen := 0

/-- `self.fn_names[i]`. -/
def fnName (c : Compiler) (i : Fin maxFns) : NameBuf := c.fnNames[i]

/-- `self.fn_bodies[i]`. -/
def fnBody (c : Compiler) (i : Fin maxFns) : Vector Word fnBodyWords := c.fnBodies[i]

/-- `self.fn_body_lens[i]`. -/
def fnBodyLen (c : Compiler) (i : Fin maxFns) : Nat := c.fnBodyLens[i]

/-- The record with a function stored in a slot. -/
def storeAt (c : Compiler) (i : Fin maxFns) (name : NameBuf) (body : Vector Word fnBodyWords)
    (len : Nat) : Compiler :=
  { c with
    fnNames := c.fnNames.set i name
    fnBodyLens := c.fnBodyLens.set i len
    fnBodies := c.fnBodies.set i body }

/-- Liveness of a function slot is tracked by its name's length. -/
def fnAllocated (c : Compiler) (i : Fin maxFns) : Bool := decide ((c.fnName i).len > 0)

def findFn (c : Compiler) (name : List Byte) : Option (Fin maxFns) :=
  (List.finRange maxFns).find? fun i => c.fnAllocated i && (c.fnName i).eqBytes name

/-- A slot for a new function: not a live name, and one slot unused. -/
def allocFnSlot (c : Compiler) (name : NameBuf) : Except ParseError (Fin maxFns) :=
  if (c.findFn name.asSlice).isSome then .error .duplicateFn
  else
    match (List.finRange maxFns).find? fun i => (c.fnName i).len == 0 with
    | some i => .ok i
    | none => .error .fnTableFull

section Store

variable {c : Compiler} {i j : Fin maxFns} {name : NameBuf} {body : Vector Word fnBodyWords}
  {len : Nat}

theorem fnName_storeAt :
    (c.storeAt i name body len).fnName j = if j = i then name else c.fnName j :=
  getElem_set_slot c.fnNames i j name

theorem fnBody_storeAt :
    (c.storeAt i name body len).fnBody j = if j = i then body else c.fnBody j :=
  getElem_set_slot c.fnBodies i j body

theorem fnBodyLen_storeAt :
    (c.storeAt i name body len).fnBodyLen j = if j = i then len else c.fnBodyLen j :=
  getElem_set_slot c.fnBodyLens i j len

end Store

end Compiler

end HolyRust
