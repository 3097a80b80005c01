import Mathlib.Data.List.Induction

/-!
Runs of a transition function over a list of inputs, and what holds at every
step of one.

* `run` — the state after the inputs.
* `EveryStep P s es` — `P` holds of each state reached before an input together
  with that input; `EveryState I s es` — `I` holds of each state reached.
* `everyStep_of_invariant` — the induction rule: an invariant that each step
  keeps, as long as the steps meet a side condition, gives every step its
  conclusion.
* `everyState_iff_everyStep` — the exact rule, where the side condition is what
  keeps the invariant.
* `history_invariant` — the rule for invariants that speak of the inputs so far.
* `run_related`, `related_take_iff` — the simulation rule, and the exact one.
* `eventually_of_variant` — the rule for what comes about in the end.
* `run_take_eq_iff` — two transition functions have the same run up to every point
  exactly if they take the same steps.
* `foldlM_eq_none_iff`, `foldlM_eq_some_mono` — the rules for steps that may stop.
-/

namespace HolyRust.Runs

variable {σ ε : Type} (step : σ → ε → σ)

/-- The state after the inputs, first to last. -/
def run (s : σ) (es : List ε) : σ := es.foldl step s

@[simp] theorem run_nil (s : σ) : run step s [] = s := rfl

@[simp] theorem run_cons (s : σ) (e : ε) (es : List ε) :
    run step s (e :: es) = run step (step s e) es := rfl

/-- `P` holds at each step of the run. -/
def EveryStep (P : σ → ε → Prop) (s : σ) (es : List ε) : Prop :=
  ∀ before e after, es = before ++ e :: after → P (run step s before) e

/-- `I` holds in each state of the run, its first and its last included. -/
def EveryState (I : σ → Prop) (s : σ) (es : List ε) : Prop :=
  ∀ before after, es = before ++ after → I (run step s before)

variable {step} {P Q : σ → ε → Prop} {I : σ → Prop} {s : σ} {e : ε} {es : List ε}

theorem everyStep_nil : EveryStep step P s [] := by
  intro before e after h
  simp at h

theorem everyStep_cons :
    EveryStep step P s (e :: es) ↔ P s e ∧ EveryStep step P (step s e) es := by
  constructor
  · intro h
    refine ⟨h [] e es rfl, fun before e' after heq => ?_⟩
    exact h (e :: before) e' after (by simp [heq])
  · rintro ⟨hfirst, hrest⟩ before e' after heq
    cases before with
    | nil =>
        obtain ⟨rfl, rfl⟩ := List.cons.inj heq
        exact hfirst
    | cons b bs =>
        obtain ⟨rfl, hes⟩ := List.cons.inj heq
        exact hrest bs e' after hes

theorem everyState_nil : EveryState step I s [] ↔ I s := by
  constructor
  · intro h
    exact h [] [] rfl
  · intro h before after heq
    obtain ⟨rfl, _⟩ := List.append_eq_nil_iff.mp heq.symm
    exact h

theorem everyState_cons :
    EveryState step I s (e :: es) ↔ I s ∧ EveryState step I (step s e) es := by
  constructor
  · intro h
    exact ⟨h [] (e :: es) rfl, fun before after heq => h (e :: before) after (by simp [heq])⟩
  · rintro ⟨hfirst, hrest⟩ before after heq
    cases before with
    | nil => exact hfirst
    | cons b bs =>
        obtain ⟨rfl, hes⟩ := List.cons.inj heq
        exact hrest bs after hes

theorem EveryStep.mono (h : EveryStep step P s es) (hPQ : ∀ s e, P s e → Q s e) :
    EveryStep step Q s es :=
  fun before e after heq => hPQ _ _ (h before e after heq)

theorem EveryState.mono {J : σ → Prop} (h : EveryState step I s es) (hIJ : ∀ s, I s → J s) :
    EveryState step J s es :=
  fun before after heq => hIJ _ (h before after heq)

/-- An invariant kept by the steps that meet `C` holds in every state of a run
whose steps all meet `C`, and each step has what invariant and `C` give it. -/
theorem everyStep_of_invariant {C : σ → ε → Prop} (keep : ∀ s e, I s → C s e → I (step s e))
    (gives : ∀ s e, I s → C s e → P s e) :
    ∀ {es : List ε} {s : σ}, I s → EveryStep step C s es →
      EveryState step I s es ∧ EveryStep step P s es := by
  intro es
  induction es with
  | nil =>
      intro s hs _
      exact ⟨everyState_nil.mpr hs, everyStep_nil⟩
  | cons e es ih =>
      intro s hs hC
      obtain ⟨hCe, hCrest⟩ := everyStep_cons.mp hC
      obtain ⟨hstates, hsteps⟩ := ih (keep s e hs hCe) hCrest
      exact ⟨everyState_cons.mpr ⟨hs, hstates⟩, everyStep_cons.mpr ⟨gives s e hs hCe, hsteps⟩⟩

/-- If a step from a state of `I` stays in `I` exactly when it meets `C`, a run
stays in `I` throughout exactly when its steps all meet `C`. -/
theorem everyState_iff_everyStep {C : σ → ε → Prop}
    (keep : ∀ s e, I s → (I (step s e) ↔ C s e)) :
    ∀ {es : List ε} {s : σ}, I s → (EveryState step I s es ↔ EveryStep step C s es) := by
  intro es
  induction es with
  | nil => exact fun hs => iff_of_true (everyState_nil.mpr hs) everyStep_nil
  | cons e es ih =>
      intro s hs
      rw [everyState_cons, everyStep_cons]
      constructor
      · rintro ⟨_, hrest⟩
        have hnext : I (step s e) := hrest [] es rfl
        exact ⟨(keep s e hs).mp hnext, (ih hnext).mp hrest⟩
      · rintro ⟨hC, hrest⟩
        exact ⟨hs, (ih ((keep s e hs).mpr hC)).mpr hrest⟩

/-- Two runs over the same inputs are in the same state after each input exactly
if each step of the first is a step of the second. -/
theorem run_take_eq_iff {step' : σ → ε → σ} :
    ∀ {es : List ε} {s : σ}, (∀ k, run step' s (es.take k) = run step s (es.take k)) ↔
      EveryStep step (fun s e => step' s e = step s e) s es := by
  intro es
  induction es with
  | nil => exact fun {s} => iff_of_true (fun k => by simp) everyStep_nil
  | cons e es ih =>
      intro s
      rw [everyStep_cons]
      constructor
      · intro h
        have hfirst : step' s e = step s e := h 1
        refine ⟨hfirst, ih.mp fun k => ?_⟩
        have hnext := h (k + 1)
        simp only [List.take_succ_cons, run_cons, hfirst] at hnext
        exact hnext
      · rintro ⟨hfirst, hrest⟩ k
        cases k with
        | zero => rfl
        | succ k =>
            simp only [List.take_succ_cons, run_cons, hfirst]
            exact ih.mpr hrest k

theorem run_concat (s : σ) (es : List ε) (e : ε) :
    run step s (es ++ [e]) = step (run step s es) e := by
  simp [run]

/-- An invariant that may speak of the inputs so far: kept by the steps that meet
`C`, it holds at the end of a run whose steps all meet `C`. -/
theorem history_invariant {J : List ε → σ → Prop} {C : σ → ε → Prop} (hstart : J [] s)
    (keep : ∀ es e, J es (run step s es) → C (run step s es) e →
      J (es ++ [e]) (step (run step s es) e)) (h : EveryStep step C s es) :
    J es (run step s es) := by
  induction es using List.reverseRecOn with
  | nil => exact hstart
  | append_singleton es e ih =>
      have hbefore : EveryStep step C s es := by
        intro before e' after heq
        exact h before e' (after ++ [e]) (by simp [heq])
      rw [run_concat]
      exact keep es e (ih hbefore) (h es e [] rfl)

/-- Related states stay related along two runs over the same inputs, if related
steps do as long as the second run's steps meet `C`. -/
theorem run_related {τ : Type} {step' : τ → ε → τ} {R : σ → τ → Prop} {C : τ → ε → Prop}
    (keep : ∀ s t e, R s t → C t e → R (step s e) (step' t e)) :
    ∀ {es : List ε} {s : σ} {t : τ}, R s t → EveryStep step' C t es →
      R (run step s es) (run step' t es) := by
  intro es
  induction es with
  | nil => exact fun hs _ => hs
  | cons e es ih =>
      intro s t hs hC
      obtain ⟨hCe, hCrest⟩ := everyStep_cons.mp hC
      exact ih (keep s t e hs hCe) hCrest

/-- If a step from related states leads to related states exactly when it meets `C`, two
runs are related after each input exactly when their steps all meet `C`. -/
theorem related_take_iff {τ : Type} {step' : τ → ε → τ} {R : σ → τ → Prop}
    {C : τ → ε → Prop} (keep : ∀ s t e, R s t → (R (step s e) (step' t e) ↔ C t e)) :
    ∀ {es : List ε} {s : σ} {t : τ}, R s t →
      ((∀ k, R (run step s (es.take k)) (run step' t (es.take k))) ↔ EveryStep step' C t es) := by
  intro es
  induction es with
  | nil => exact fun hs => iff_of_true (fun k => by simpa using hs) everyStep_nil
  | cons e es ih =>
      intro s t hs
      rw [everyStep_cons]
      constructor
      · intro h
        have hfirst : R (step s e) (step' t e) := h 1
        exact ⟨(keep s t e hs).mp hfirst, (ih hfirst).mp fun k => h (k + 1)⟩
      · rintro ⟨hC, hrest⟩ k
        cases k with
        | zero => exact hs
        | succ k => exact (ih ((keep s t e hs).mpr hC)).mpr hrest k

/-- An invariant every step keeps holds at the end of every run. -/
theorem run_invariant (keep : ∀ s e, I s → I (step s e)) :
    ∀ {es : List ε} {s : σ}, I s → I (run step s es) := by
  intro es
  induction es with
  | nil => exact id
  | cons e es ih => exact fun hs => ih (keep _ e hs)

/-- A variant that never rises, and falls at the moments of `F` until `D` holds, brings
`D` about if `F` comes again and again. -/
theorem eventually_of_variant {x : Nat → σ} {v : σ → Nat} {D : σ → Prop}
    {F : Nat → Prop} (hle : ∀ n, v (x (n + 1)) ≤ v (x n))
    (hstay : ∀ n, D (x n) → D (x (n + 1)))
    (hlt : ∀ n, F n → ¬ D (x n) → v (x (n + 1)) < v (x n))
    (hfair : ∀ n, ∃ k, n ≤ k ∧ F k) : ∃ n, ∀ k, n ≤ k → D (x k) := by
  have hmono : ∀ {n k}, n ≤ k → v (x k) ≤ v (x n) := by
    intro n k hnk
    induction hnk with
    | refl => exact Nat.le_refl _
    | step _ ih => exact Nat.le_trans (hle _) ih
  have hreached : ∀ b n, v (x n) ≤ b → ∃ k, D (x k) := by
    intro b
    induction b with
    | zero =>
        intro n hn
        obtain ⟨k, hk, hF⟩ := hfair n
        by_contra hnot
        have hdown := hlt k hF fun hD => hnot ⟨k, hD⟩
        have hzero := Nat.le_trans (hmono hk) hn
        omega
    | succ b ih =>
        intro n hn
        obtain ⟨k, hk, hF⟩ := hfair n
        by_cases hD : D (x k)
        · exact ⟨k, hD⟩
        · have hdown := hlt k hF hD
          have hbound := Nat.le_trans (hmono hk) hn
          exact ih (k + 1) (by omega)
  obtain ⟨n, hD⟩ := hreached _ 0 (Nat.le_refl _)
  refine ⟨n, fun k hk => ?_⟩
  induction hk with
  | refl => exact hD
  | step _ ih => exact hstay _ ih

/-! ### Steps that may stop -/

section Stopping

variable {next next' : σ → ε → Option σ}

theorem foldlM_concat (s : σ) (es : List ε) (e : ε) :
    (es ++ [e]).foldlM next s = (es.foldlM next s).bind (next · e) := by
  rw [List.foldlM_append]
  refine congrArg (Option.bind _) (funext fun s => ?_)
  exact Option.bind_fun_some (next s e)

/-- A run that has stopped stopped at an input. -/
theorem foldlM_eq_none_iff : es.foldlM next s = none ↔
    ∃ before e after s', es = before ++ e :: after ∧
      before.foldlM next s = some s' ∧ next s' e = none := by
  constructor
  · intro h
    induction es using List.reverseRecOn with
    | nil => cases h
    | append_singleton es e ih =>
        rw [foldlM_concat] at h
        cases hrun : es.foldlM next s with
        | none =>
            obtain ⟨before, first, after, s', rfl, hbefore, hstop⟩ := ih hrun
            exact ⟨before, first, after ++ [e], s', by simp, hbefore, hstop⟩
        | some s' =>
            rw [hrun] at h
            exact ⟨es, e, [], s', rfl, hrun, h⟩
  · rintro ⟨before, e, after, s', rfl, hbefore, hstop⟩
    rw [List.foldlM_append, hbefore]
    simp [hstop]

/-- Where a step that stops more often goes on, the run is the same. -/
theorem foldlM_eq_some_mono (hnext : ∀ s e s', next' s e = some s' → next s e = some s') :
    ∀ {es : List ε} {s s' : σ}, es.foldlM next' s = some s' → es.foldlM next s = some s' := by
  intro es
  induction es with
  | nil => exact id
  | cons e es ih =>
      intro s s' h
      rw [List.foldlM_cons] at h ⊢
      obtain ⟨s₁, hone, hrest⟩ := Option.bind_eq_some_iff.mp h
      rw [hnext s e s₁ hone]
      exact ih hrest

end Stopping

end HolyRust.Runs
