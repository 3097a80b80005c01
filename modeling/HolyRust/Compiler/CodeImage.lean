import HolyRust.Compiler.Backends

/-!
What EXEC_BUFFER holds after an emitter has written to it, read back in the
backend's units.

* `CodeBuffer.content` — the buffer's bytes, the last store to each winning.
* `units_push` — a store at the cursor adds its unit behind those that are there.
* `Writes` — a computation that adds these units whenever it succeeds, with the
  rule for sequences.
-/

namespace HolyRust.Emitter

/-- EXEC_BUFFER after a store. -/
def Store.put (s : Store) (m : Nat → Byte) : Nat → Byte := fun i =>
  if s.offset ≤ i ∧ i < s.offset + s.bytes.length then s.bytes.getD (i - s.offset) 0 else m i

theorem Store.put_of_lt {s : Store} {m : Nat → Byte} {i : Nat} (h : i < s.offset) :
    s.put m i = m i := by
  unfold Store.put
  rw [if_neg (by omega)]

theorem Store.put_inside {s : Store} {m : Nat → Byte} {j : Nat} (h : j < s.bytes.length) :
    s.put m (s.offset + j) = s.bytes[j] := by
  unfold Store.put
  rw [if_pos (by omega), Nat.add_sub_cancel_left, List.getD_eq_getElem?_getD,
    List.getElem?_eq_getElem h, Option.getD_some]

/-- The value of little-endian bytes. -/
def ofLeBytes (w : Nat) (bs : List Byte) : BitVec w :=
  bs.foldr (fun b acc => (acc <<< 8) ||| b.setWidth w) 0

theorem ofLeBytes_leBytes16 (v : HalfWord) : ofLeBytes 16 (leBytes 2 v) = v := by
  ext i hi
  simp only [leBytes, ofLeBytes, List.range_succ, List.range_zero, List.nil_append,
    List.cons_append, List.map_cons, List.map_nil, List.foldr_cons, List.foldr_nil]
  by_cases h : i < 8
  · simp [h, hi]
  · simp [h, hi, show 8 + (i - 8) = i by omega, show i - 8 < 8 by omega]

theorem ofLeBytes_leBytes32 (v : Word) : ofLeBytes 32 (leBytes 4 v) = v := by
  ext i hi
  simp only [leBytes, ofLeBytes, List.range_succ, List.range_zero, List.nil_append,
    List.cons_append, List.map_cons, List.map_nil, List.foldr_cons, List.foldr_nil]
  grind

namespace CodeBuffer

variable {t : Target}

/-- The bytes of the buffer, zero where nothing was stored. -/
def content (e : CodeBuffer t) : Nat → Byte := e.stores.foldl (fun m s => s.put m) fun _ => 0

/-- The units written so far, in address order. -/
def units (e : CodeBuffer t) : List (List Byte) :=
  (List.range e.lenWords).map fun i =>
    (List.range (unitBytes t)).map fun j => e.content (unitBytes t * i + j)

theorem units_intoExecBuffer (t : Target) : (intoExecBuffer t).units = [] := rfl

/-- A store at the cursor leaves the units below it and adds its own. -/
theorem units_push {bytes : List Byte} {hbytes : bytes.length = unitBytes t}
    {e e' : CodeBuffer t} (h : push bytes hbytes e = .ok ⟨⟩ e') :
    e'.units = e.units ++ [bytes] := by
  unfold push at h
  split at h
  · cases h
    simp only [units, content, List.foldl_append, List.foldl_cons, List.foldl_nil,
      List.range_succ, List.map_append, List.map_cons, List.map_nil]
    refine congr (congrArg _ (List.map_congr_left fun i hi => List.map_congr_left fun j hj => ?_))
      (congrArg (fun bs => [bs]) ?_)
    · -- an earlier unit ends where the store begins
      refine Store.put_of_lt ?_
      show unitBytes t * i + j < e.cursor
      have hi' := List.mem_range.mp hi
      have hj' := List.mem_range.mp hj
      calc unitBytes t * i + j < unitBytes t * (i + 1) := by rw [Nat.mul_succ]; omega
        _ ≤ unitBytes t * e.lenWords := Nat.mul_le_mul_left _ hi'
        _ = e.cursor := e.cursor_eq.symm
    · refine List.ext_getElem (by simp [hbytes]) fun j hj hj' => ?_
      rw [List.getElem_map, List.getElem_range, ← e.cursor_eq]
      exact Store.put_inside hj'
  · cases h

end CodeBuffer

/-- The halfwords in the buffer. -/
def halfwords (e : CodeBuffer .arm) : List HalfWord := e.units.map (ofLeBytes 16)

/-- The words in the buffer. -/
def codeWords (e : CodeBuffer .riscv32) : List Word := e.units.map (ofLeBytes 32)

/-- Whenever `x` succeeds it has added these units. -/
def Writes {t : Target} (x : EmitM t PUnit) (us : List (List Byte)) : Prop :=
  ∀ ⦃e e'⦄, x e = .ok ⟨⟩ e' → e'.units = e.units ++ us

section Writes

variable {t : Target} {x y : EmitM t PUnit} {us vs : List (List Byte)}

theorem writes_push {bytes : List Byte} (hbytes : bytes.length = unitBytes t) :
    Writes (CodeBuffer.push bytes hbytes) [bytes] :=
  fun _ _ h => CodeBuffer.units_push h

theorem writes_pure : Writes (pure ⟨⟩ : EmitM t PUnit) [] := by
  intro e e' h
  cases h
  rw [List.append_nil]

theorem Writes.seq (hx : Writes x us) (hy : Writes y vs) :
    Writes (x >>= fun _ => y) (us ++ vs) := by
  intro e e' h
  obtain ⟨_, e₁, h₁, h₂⟩ := Fallible.bind_eq_ok.mp h
  rw [hy h₂, hx h₁, List.append_assoc]

theorem length_units (e : CodeBuffer t) : e.units.length = e.lenWords := by
  simp [CodeBuffer.units]

/-- With room for it, a computation that fits succeeds and adds just its units. -/
theorem Writes.appends {k : Nat} (hx : Writes x us) (hfits : Fits k x) {e : CodeBuffer t}
    (hroom : e.lenWords + k ≤ e.capWords) :
    ∃ e', x e = .ok ⟨⟩ e' ∧ e'.units.drop e.lenWords = us := by
  have hends := hfits e hroom
  unfold Fallible.Ends at hends
  cases hrun : x e with
  | error err e' =>
      rw [hrun] at hends
      exact hends.elim
  | ok u e' =>
      refine ⟨e', rfl, ?_⟩
      rw [hx hrun, ← length_units e, List.drop_left]

end Writes

end HolyRust.Emitter
