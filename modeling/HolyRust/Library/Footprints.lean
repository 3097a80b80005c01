import HolyRust.Library.Fallible

/-!
What a run adds to a history kept in its state, said exactly.

* `Adds hist x s P` — running `x` from `s` appends entries to the history, and
  just the entries in `P` are among them. In a sequence the second part counts
  where the first returns (`Adds.bind`).
* `Silent hist x` — no run of `x` appends anything.
* `Exact O x s D P` — besides, `x` returns `a` in a state seen as `v` exactly
  when `D a v`. With `Exact.adds_bind` the footprint of a sequence is a statement
  about inputs alone: it mentions `D`, and no run.
-/

namespace HolyRust.Fallible

variable {ε σ α β ι V : Type}

/-- The state a run leaves, on either exit. -/
def final : EStateM.Result ε σ α → σ
  | .ok _ s => s
  | .error _ s => s

theorem final_bind_ok {x : EStateM ε σ α} {f : α → EStateM ε σ β} {s s' : σ} {a : α}
    (h : x s = .ok a s') : final ((x >>= f) s) = final (f a s') := by
  rw [bind_ok h]

theorem final_bind_error {x : EStateM ε σ α} {f : α → EStateM ε σ β} {s s' : σ} {e : ε}
    (h : x s = .error e s') : final ((x >>= f) s) = s' := by
  rw [bind_error h]
  rfl

/-! ### Footprints -/

/-- The run appends entries to the history, and these are the entries in `P`. -/
def Adds (hist : σ → List ι) (x : EStateM ε σ α) (s : σ) (P : ι → Prop) : Prop :=
  ∃ new, hist (final (x s)) = hist s ++ new ∧ ∀ i, i ∈ new ↔ P i

/-- No run appends anything. -/
def Silent (hist : σ → List ι) (x : EStateM ε σ α) : Prop := ∀ s, hist (final (x s)) = hist s

section Footprints

variable {hist : σ → List ι} {x : EStateM ε σ α} {f : α → EStateM ε σ β} {s s' : σ}
  {P P' : ι → Prop}

theorem Adds.congr (h : Adds hist x s P) (hP : ∀ i, P i ↔ P' i) : Adds hist x s P' := by
  obtain ⟨new, hnew, hmem⟩ := h
  exact ⟨new, hnew, fun i => (hmem i).trans (hP i)⟩

theorem adds_none (h : hist (final (x s)) = hist s) : Adds hist x s fun _ => False :=
  ⟨[], by simpa using h, by simp⟩

theorem Adds.bind {P' : α → σ → ι → Prop} (hx : Adds hist x s P)
    (hf : ∀ a s', x s = .ok a s' → Adds hist (f a) s' (P' a s')) :
    Adds hist (x >>= f) s fun i => P i ∨ ∃ a s', x s = .ok a s' ∧ P' a s' i := by
  obtain ⟨new, hnew, hmem⟩ := hx
  cases hrun : x s with
  | ok a s₁ =>
      obtain ⟨more, hmore, hmem'⟩ := hf a s₁ hrun
      rw [hrun] at hnew
      refine ⟨new ++ more, ?_, fun i => ?_⟩
      · rw [final_bind_ok hrun, hmore, ← List.append_assoc, ← hnew]
        rfl
      · rw [List.mem_append, hmem, hmem']
        constructor
        · rintro (h | h)
          · exact .inl h
          · exact .inr ⟨a, s₁, rfl, h⟩
        · rintro (h | ⟨a', s', heq, h⟩)
          · exact .inl h
          · cases heq
            exact .inr h
  | error e s₁ =>
      rw [hrun] at hnew
      refine ⟨new, ?_, fun i => ?_⟩
      · rw [final_bind_error hrun]
        exact hnew
      · rw [hmem]
        constructor
        · exact .inl
        · rintro (h | ⟨a', s', heq, _⟩)
          · exact h
          · cases heq

/-- A first step that leaves the history as it is. -/
theorem Adds.step {a : α} (hx : x s = .ok a s') (hhist : hist s' = hist s)
    (hf : Adds hist (f a) s' P) : Adds hist (x >>= f) s P := by
  obtain ⟨new, hnew, hmem⟩ := hf
  refine ⟨new, ?_, hmem⟩
  rw [final_bind_ok hx, hnew, hhist]

theorem silent_pure (a : α) : Silent hist (pure a : EStateM ε σ α) := fun _ => rfl

theorem silent_throw (e : ε) : Silent hist (throw e : EStateM ε σ α) := fun _ => rfl

theorem Silent.bind (hx : Silent hist x) (hf : ∀ a, Silent hist (f a)) :
    Silent hist (x >>= f) := by
  intro s
  have hfirst := hx s
  cases hrun : x s with
  | ok a s₁ =>
      rw [final_bind_ok hrun, hf a s₁, ← hfirst, hrun]
      rfl
  | error e s₁ =>
      rw [final_bind_error hrun, ← hfirst, hrun]
      rfl

theorem silent_get {f : σ → EStateM ε σ β} (hf : ∀ s, hist (final (f s s)) = hist s) :
    Silent hist (get >>= f) := hf

theorem Silent.adds (h : Silent hist x) (s : σ) : Adds hist x s fun _ => False :=
  adds_none (h s)

/-- What silent computations do after `x` does not count. -/
theorem Adds.bind_silent (hx : Adds hist x s P) (hf : ∀ a, Silent hist (f a)) :
    Adds hist (x >>= f) s P := by
  refine (hx.bind fun a s' _ => (hf a).adds s').congr fun i => ?_
  simp

end Footprints

/-! ### Exact outcomes -/

/-- How a state is looked at: what is seen of it, what two states must agree on
to be as good as equal, and the history. -/
structure Observer (σ V ι : Type) where
  sees : σ → V → Prop
  keeps : σ → σ → Prop
  hist : σ → List ι
  sees_unique : ∀ {s v v'}, sees s v → sees s v' → v = v'
  keeps_refl : ∀ s, keeps s s
  keeps_trans : ∀ {s₁ s₂ s₃}, keeps s₁ s₂ → keeps s₂ s₃ → keeps s₁ s₃

/-- From `s`, `x` returns `a` in a state seen as `v` exactly when `D a v`, and
appends exactly the entries in `P`. -/
structure Exact (O : Observer σ V ι) (x : EStateM ε σ α) (s : σ) (D : α → V → Prop)
    (P : ι → Prop) : Prop where
  adds : Adds O.hist x s P
  returns : ∀ a s', x s = .ok a s' → ∃ v, D a v ∧ O.sees s' v ∧ O.keeps s s'
  delivers : ∀ a v, D a v → ∃ s', x s = .ok a s' ∧ O.sees s' v

section Exact

variable {O : Observer σ V ι} {x : EStateM ε σ α} {f : α → EStateM ε σ β} {s s' : σ}
  {D D₁ : α → V → Prop} {P P₁ : ι → Prop}

theorem Exact.congr (h : Exact O x s D P) (hD : ∀ a v, D a v ↔ D₁ a v) (hP : ∀ i, P i ↔ P₁ i) :
    Exact O x s D₁ P₁ where
  adds := h.adds.congr hP
  returns a s' hrun := by
    obtain ⟨v, hv, hrest⟩ := h.returns a s' hrun
    exact ⟨v, (hD a v).mp hv, hrest⟩
  delivers a v hv := h.delivers a v ((hD a v).mpr hv)

/-- Only the run from `s` matters. -/
theorem Exact.of_run {y : EStateM ε σ α} (hrun : y s = x s) (h : Exact O x s D P) :
    Exact O y s D P where
  adds := by
    unfold Adds
    rw [hrun]
    exact h.adds
  returns a s' := by
    rw [hrun]
    exact h.returns a s'
  delivers a v := by
    rw [hrun]
    exact h.delivers a v

theorem exact_pure {a : α} {v : V} (h : O.sees s v) :
    Exact O (pure a : EStateM ε σ α) s (fun a' v' => a' = a ∧ v' = v) fun _ => False where
  adds := adds_none rfl
  returns := by
    rintro _ _ ⟨⟩
    exact ⟨v, ⟨rfl, rfl⟩, h, O.keeps_refl s⟩
  delivers := by
    rintro _ _ ⟨rfl, rfl⟩
    exact ⟨s, rfl, h⟩

theorem exact_throw (e : ε) :
    Exact O (throw e : EStateM ε σ α) s (fun _ _ => False) fun _ => False where
  adds := adds_none rfl
  returns := by
    rintro _ _ ⟨⟩
  delivers _ _ h := absurd h id

/-- A step known to return, with the history as it is. -/
theorem exact_ok {a : α} {v : V} (hx : x s = .ok a s') (hhist : O.hist s' = O.hist s)
    (hsees : O.sees s' v) (hkeeps : O.keeps s s') :
    Exact O x s (fun a' v' => a' = a ∧ v' = v) fun _ => False where
  adds := adds_none (by rw [hx]; exact hhist)
  returns := by
    intro a' s₁ hrun
    cases hx.symm.trans hrun
    exact ⟨v, ⟨rfl, rfl⟩, hsees, hkeeps⟩
  delivers := by
    rintro _ _ ⟨rfl, rfl⟩
    exact ⟨s', hx, hsees⟩

/-- A step known to fail, with the history as it is. -/
theorem exact_error {e : ε} (hx : x s = .error e s') (hhist : O.hist s' = O.hist s) :
    Exact O x s (fun _ _ => False) fun _ => False where
  adds := adds_none (by rw [hx]; exact hhist)
  returns a s₁ hrun := by cases hx.symm.trans hrun
  delivers _ _ h := absurd h id

/-- The footprint of a sequence whose first part is known exactly. -/
theorem Exact.adds_bind {P' : α → V → ι → Prop} (hx : Exact O x s D P)
    (hf : ∀ a s' v, D a v → O.sees s' v → O.keeps s s' → Adds O.hist (f a) s' (P' a v)) :
    Adds O.hist (x >>= f) s fun i => P i ∨ ∃ a v, D a v ∧ P' a v i := by
  have hbind : Adds O.hist (x >>= f) s fun i =>
      P i ∨ ∃ a s', x s = .ok a s' ∧ ∃ v, D a v ∧ P' a v i := by
    refine hx.adds.bind fun a s' hrun => ?_
    obtain ⟨v, hv, hsees, hkeeps⟩ := hx.returns a s' hrun
    refine (hf a s' v hv hsees hkeeps).congr fun i => ⟨fun hi => ⟨v, hv, hi⟩, ?_⟩
    rintro ⟨v', hv', hi⟩
    obtain ⟨s₁, hrun₁, hsees₁⟩ := hx.delivers a v' hv'
    cases hrun.symm.trans hrun₁
    cases O.sees_unique hsees hsees₁
    exact hi
  refine hbind.congr fun i => or_congr_right ⟨?_, ?_⟩
  · rintro ⟨a, _, _, v, hv, hi⟩
    exact ⟨a, v, hv, hi⟩
  · rintro ⟨a, v, hv, hi⟩
    obtain ⟨s', hrun, _⟩ := hx.delivers a v hv
    exact ⟨a, s', hrun, v, hv, hi⟩

/-- The same behind a part that appends nothing. -/
theorem Exact.adds_then {P' : α → V → ι → Prop} (hx : Exact O x s D fun _ => False)
    (hf : ∀ a s' v, D a v → O.sees s' v → O.keeps s s' → Adds O.hist (f a) s' (P' a v)) :
    Adds O.hist (x >>= f) s fun i => ∃ a v, D a v ∧ P' a v i :=
  (hx.adds_bind hf).congr fun _ => by rw [false_or]

theorem Exact.bind {D' : α → V → β → V → Prop} {P' : α → V → ι → Prop} (hx : Exact O x s D P)
    (hf : ∀ a s' v, D a v → O.sees s' v → O.keeps s s' → Exact O (f a) s' (D' a v) (P' a v)) :
    Exact O (x >>= f) s (fun b w => ∃ a v, D a v ∧ D' a v b w)
      fun i => P i ∨ ∃ a v, D a v ∧ P' a v i where
  adds := hx.adds_bind fun a s' v hv hsees hkeeps => (hf a s' v hv hsees hkeeps).adds
  returns b s' hrun := by
    obtain ⟨a, s₁, hrun₁, hrun₂⟩ := bind_eq_ok.mp hrun
    obtain ⟨v, hv, hsees, hkeeps⟩ := hx.returns a s₁ hrun₁
    obtain ⟨w, hw, hsees', hkeeps'⟩ := (hf a s₁ v hv hsees hkeeps).returns b s' hrun₂
    exact ⟨w, ⟨a, v, hv, hw⟩, hsees', O.keeps_trans hkeeps hkeeps'⟩
  delivers := by
    rintro b w ⟨a, v, hv, hw⟩
    obtain ⟨s₁, hrun₁, hsees⟩ := hx.delivers a v hv
    obtain ⟨v', hv', hsees', hkeeps⟩ := hx.returns a s₁ hrun₁
    cases O.sees_unique hsees hsees'
    obtain ⟨s', hrun₂, hsees'⟩ := (hf a s₁ v hv hsees hkeeps).delivers b w hw
    exact ⟨s', by rw [bind_ok hrun₁]; exact hrun₂, hsees'⟩

/-- Two parts that append nothing, with the outcome of the second named. -/
theorem Exact.bind_into (D' : α → V → β → V → Prop) (hx : Exact O x s D fun _ => False)
    (hf : ∀ a s' v, D a v → O.sees s' v → O.keeps s s' →
      Exact O (f a) s' (D' a v) fun _ => False) :
    Exact O (x >>= f) s (fun b w => ∃ a v, D a v ∧ D' a v b w) fun _ => False :=
  (hx.bind hf).congr (fun _ _ => Iff.rfl) fun _ => by simp

/-- A first step known to return. -/
theorem Exact.step {a : α} {D' : β → V → Prop} {P' : ι → Prop} (hx : x s = .ok a s')
    (hhist : O.hist s' = O.hist s) (hkeeps : O.keeps s s') (hf : Exact O (f a) s' D' P') :
    Exact O (x >>= f) s D' P' where
  adds := hf.adds.step hx hhist
  returns b s₂ hrun := by
    rw [bind_ok hx] at hrun
    obtain ⟨w, hw, hsees, hkeeps'⟩ := hf.returns b s₂ hrun
    exact ⟨w, hw, hsees, O.keeps_trans hkeeps hkeeps'⟩
  delivers b w hw := by
    rw [bind_ok hx]
    exact hf.delivers b w hw

end Exact

end HolyRust.Fallible
