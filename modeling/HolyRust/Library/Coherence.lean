/-!
Instruction fetch from memory that is written as data. A fetch is sure to see a
write only once a flush has come after it; until then it may return what memory
held at any time since the last flush.

* `contents` — memory after a history of writes and flushes.
* `Fetched` — a value that a fetch may return.
* `Settled` — every write has a flush behind it; then a fetch returns what memory
  holds (`fetched_of_settled`).
* `EntriesSettled` — execution enters the memory only when it is settled, so that
  it runs what was written (`EntriesFresh`).
-/

namespace HolyRust.Coherence

/-- A write, a flush, or an entry of execution into the memory. -/
inductive Event (ω : Type) where
  | write (w : ω)
  | flush
  | enter
deriving DecidableEq, Repr

variable {ω ι β : Type} (put : ω → (ι → β) → ι → β)

/-- Memory after the events, from `m`. -/
def contents (m : ι → β) : List (Event ω) → ι → β
  | [] => m
  | .write w :: es => contents (put w m) es
  | .flush :: es => contents m es
  | .enter :: es => contents m es

/-- A fetch at `i` may return `v`: memory held it at the last flush or since. -/
def Fetched (m : ι → β) (es : List (Event ω)) (i : ι) (v : β) : Prop :=
  ∃ old recent, es = old ++ recent ∧ .flush ∉ recent ∧ contents put m old i = v

/-- Every write has a flush behind it. -/
def Settled (es : List (Event ω)) : Prop :=
  ∀ old w recent, es = old ++ .write w :: recent → .flush ∈ recent

variable {put} {m : ι → β} {es fs : List (Event ω)}

theorem contents_append (m : ι → β) (es fs : List (Event ω)) :
    contents put m (es ++ fs) = contents put (contents put m es) fs := by
  induction es generalizing m with
  | nil => rfl
  | cons e es ih =>
      cases e with
      | write w => exact ih (put w m)
      | flush => exact ih m
      | enter => exact ih m

theorem contents_of_no_write (h : ∀ w, .write w ∉ es) : contents put m es = m := by
  induction es with
  | nil => rfl
  | cons e es ih =>
      have hrest : contents put m es = m := ih fun w hw => h w (List.mem_cons_of_mem e hw)
      cases e with
      | write w => exact absurd List.mem_cons_self (h w)
      | flush => exact hrest
      | enter => exact hrest

/-- In settled memory a fetch returns what is there. -/
theorem fetched_of_settled (h : Settled es) {i : ι} {v : β} (hf : Fetched put m es i v) :
    v = contents put m es i := by
  obtain ⟨old, recent, rfl, hflush, rfl⟩ := hf
  have hwrite : ∀ w, .write w ∉ recent := by
    intro w hw
    obtain ⟨before, after, rfl⟩ := List.append_of_mem hw
    have := h (old ++ before) w after (by simp)
    exact hflush (by simp [this])
  rw [contents_append, contents_of_no_write hwrite]

/-- A write that no flush follows is not settled. -/
theorem not_settled_of_last (es : List (Event ω)) (w : ω) : ¬ Settled (es ++ [.write w]) := by
  intro h
  have := h es w [] rfl
  cases this

/-- Right behind a flush everything is settled. -/
theorem settled_flush (es : List (Event ω)) : Settled (es ++ [.flush]) := by
  intro old w recent heq
  have hlast : (.write w :: recent : List (Event ω)).getLast? = some .flush := by
    have hends := congrArg List.getLast? heq
    rwa [List.getLast?_concat, List.getLast?_append, List.getLast?_cons, Option.some_or,
      eq_comm, ← List.getLast?_cons] at hends
  rcases List.mem_cons.mp (List.mem_of_getLast? hlast) with h | h
  · cases h
  · exact h

/-- Every entry among the events `es`, behind the history `old`, finds the memory
settled. -/
def EntriesSettled (old es : List (Event ω)) : Prop :=
  ∀ before after, es = before ++ .enter :: after → Settled (old ++ before)

variable (put m) in
/-- Every entry finds the memory settled and fetches what memory holds. -/
def EntriesFresh (old es : List (Event ω)) : Prop :=
  ∀ before after, es = before ++ .enter :: after → Settled (old ++ before) ∧
    ∀ i v, Fetched put m (old ++ before) i v → v = contents put m (old ++ before) i

theorem entriesFresh_iff {old : List (Event ω)} :
    EntriesFresh put m old es ↔ EntriesSettled old es := by
  constructor
  · intro h before after heq
    exact (h before after heq).1
  · intro h before after heq
    exact ⟨h before after heq, fun _ _ => fetched_of_settled (h before after heq)⟩

theorem entriesSettled_of_no_entry {old : List (Event ω)} (h : .enter ∉ es) :
    EntriesSettled old es := by
  rintro before after rfl
  exact absurd (by simp) h

theorem entriesSettled_append {old : List (Event ω)} :
    EntriesSettled old (es ++ fs) ↔
      EntriesSettled old es ∧ EntriesSettled (old ++ es) fs := by
  constructor
  · intro h
    refine ⟨?_, ?_⟩
    · rintro before after rfl
      exact h before (after ++ fs) (by simp)
    · rintro before after rfl
      have := h (es ++ before) after (by simp)
      rwa [← List.append_assoc] at this
  · rintro ⟨hes, hfs⟩ before after heq
    rcases List.append_eq_append_iff.mp heq with ⟨mid, rfl, hmid⟩ | ⟨mid, rfl, hmid⟩
    · rw [← List.append_assoc]
      exact hfs mid after hmid
    · cases mid with
      | nil =>
          have := hfs [] after (by simpa using hmid.symm)
          simpa using this
      | cons e mid =>
          simp only [List.cons_append, List.cons.injEq] at hmid
          obtain ⟨rfl, rfl⟩ := hmid
          exact hes before mid rfl

end HolyRust.Coherence
