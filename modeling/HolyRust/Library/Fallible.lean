/-!
Computations that thread a state and may stop with an error. Core's `EStateM`
keeps the state on both exits, so it fits code that mutates in place and leaves
early; this module gives it the rules a verification needs.

* Inversion: `bind_eq_ok` and `bind_eq_error` take a finished sequence apart.
* `answer x s` — the value or the error, without the state.
* `Ends x s Q E` — from `s` the computation `x` ends in `Q` or stops in `E` —
  with one rule for each way to build a computation.
* `Paired x y s t Q E` — `x` from `s` and `y` from `t` end alike — the same for
  two runs side by side.
-/

namespace HolyRust.Fallible

variable {ε σ τ α β γ : Type}

/-! ### Inversion -/

theorem bind_ok {x : EStateM ε σ α} {f : α → EStateM ε σ β} {s s₁ : σ} {a : α}
    (h : x s = .ok a s₁) : (x >>= f) s = f a s₁ := by
  simp [bind, EStateM.bind, h]

theorem bind_error {x : EStateM ε σ α} {f : α → EStateM ε σ β} {s s₁ : σ} {e : ε}
    (h : x s = .error e s₁) : (x >>= f) s = .error e s₁ := by
  simp [bind, EStateM.bind, h]

theorem bind_eq_ok {x : EStateM ε σ α} {f : α → EStateM ε σ β} {s s' : σ} {b : β} :
    (x >>= f) s = .ok b s' ↔ ∃ a s₁, x s = .ok a s₁ ∧ f a s₁ = .ok b s' := by
  cases h : x s with
  | ok a s₁ =>
      rw [bind_ok h]
      constructor
      · exact fun hf => ⟨a, s₁, rfl, hf⟩
      · rintro ⟨a', s₁', heq, hf⟩
        cases heq
        exact hf
  | error e s₁ =>
      rw [bind_error h]
      constructor
      · intro hf; cases hf
      · rintro ⟨a', s₁', heq, _⟩
        cases heq

/-- Two lists, one computed after the other. -/
theorem append_eq_ok {x y : EStateM ε σ (List α)} {s s' : σ} {all : List α}
    (h : (x >>= fun a => y >>= fun b => pure (a ++ b)) s = .ok all s') :
    ∃ a b s₁, x s = .ok a s₁ ∧ y s₁ = .ok b s' ∧ all = a ++ b := by
  obtain ⟨a, s₁, hx, hrest⟩ := bind_eq_ok.mp h
  obtain ⟨b, s₂, hy, hpure⟩ := bind_eq_ok.mp hrest
  cases hpure
  exact ⟨a, b, s₁, hx, hy, rfl⟩

theorem bind_eq_error {x : EStateM ε σ α} {f : α → EStateM ε σ β} {s s' : σ} {e : ε} :
    (x >>= f) s = .error e s' ↔
      x s = .error e s' ∨ ∃ a s₁, x s = .ok a s₁ ∧ f a s₁ = .error e s' := by
  cases h : x s with
  | ok a s₁ =>
      rw [bind_ok h]
      constructor
      · exact fun hf => .inr ⟨a, s₁, rfl, hf⟩
      · rintro (heq | ⟨a', s₁', heq, hf⟩)
        · cases heq
        · cases heq
          exact hf
  | error e₁ s₁ =>
      rw [bind_error h]
      constructor
      · intro hf
        cases hf
        exact .inl rfl
      · rintro (heq | ⟨a', s₁', heq, _⟩)
        · cases heq
          rfl
        · cases heq

@[simp] theorem pure_apply (a : α) (s : σ) : (pure a : EStateM ε σ α) s = .ok a s := rfl

@[simp] theorem throw_apply (e : ε) (s : σ) : (throw e : EStateM ε σ α) s = .error e s := rfl

@[simp] theorem get_apply (s : σ) : (get : EStateM ε σ σ) s = .ok s s := rfl

@[simp] theorem set_apply (t s : σ) : (set t : EStateM ε σ PUnit) s = .ok ⟨⟩ t := rfl

@[simp] theorem modify_apply (f : σ → σ) (s : σ) :
    (modify f : EStateM ε σ PUnit) s = .ok ⟨⟩ (f s) := rfl

@[simp] theorem modifyGet_apply (f : σ → α × σ) (s : σ) :
    (modifyGet f : EStateM ε σ α) s = .ok (f s).1 (f s).2 := rfl

/-! ### The answer alone -/

/-- What `x` answers from `s`, whatever state it leaves. -/
def answer (x : EStateM ε σ α) (s : σ) : Except ε α :=
  match x s with
  | .ok a _ => .ok a
  | .error e _ => .error e

theorem answer_error {x : EStateM ε σ α} {s s' : σ} {e : ε} (h : x s = .error e s') :
    answer x s = .error e := by
  rw [answer, h]

theorem answer_bind {x : EStateM ε σ α} {f : α → EStateM ε σ β} {s s₁ : σ} {a : α}
    (h : x s = .ok a s₁) : answer (x >>= f) s = answer (f a) s₁ := by
  rw [answer, bind_ok h, answer]

theorem answer_bind_error {x : EStateM ε σ α} {f : α → EStateM ε σ β} {s s₁ : σ} {e : ε}
    (h : x s = .error e s₁) : answer (x >>= f) s = .error e :=
  answer_error (bind_error h)

/-! ### One run -/

/-- From `s`, `x` either returns into `Q` or stops in `E`. -/
def Ends (x : EStateM ε σ α) (s : σ) (Q : α → σ → Prop) (E : ε → σ → Prop) : Prop :=
  match x s with
  | .ok a s' => Q a s'
  | .error e s' => E e s'

section Ends

variable {Q Q' : α → σ → Prop} {R : β → σ → Prop} {E E' : ε → σ → Prop} {s s' : σ}

theorem ends_iff {x : EStateM ε σ α} :
    Ends x s Q E ↔
      (∀ a s', x s = .ok a s' → Q a s') ∧ ∀ e s', x s = .error e s' → E e s' := by
  unfold Ends
  cases x s with
  | ok a s₁ => simp
  | error e s₁ => simp

theorem Ends.of_ok {x : EStateM ε σ α} {a : α} (h : Ends x s Q E) (hx : x s = .ok a s') :
    Q a s' :=
  (ends_iff.mp h).1 a s' hx

theorem Ends.of_error {x : EStateM ε σ α} {e : ε} (h : Ends x s Q E)
    (hx : x s = .error e s') : E e s' :=
  (ends_iff.mp h).2 e s' hx

theorem Ends.mono {x : EStateM ε σ α} (h : Ends x s Q E) (hQ : ∀ a s', Q a s' → Q' a s')
    (hE : ∀ e s', E e s' → E' e s') : Ends x s Q' E' :=
  ends_iff.mpr ⟨fun a s' hx => hQ a s' (h.of_ok hx), fun e s' hx => hE e s' (h.of_error hx)⟩

theorem ends_pure {a : α} (h : Q a s) : Ends (pure a) s Q E := h

theorem ends_throw {e : ε} (h : E e s) : Ends (throw e : EStateM ε σ α) s Q E := h

theorem Ends.bind {x : EStateM ε σ α} {f : α → EStateM ε σ β} (hx : Ends x s Q E)
    (hf : ∀ a s', Q a s' → Ends (f a) s' R E) : Ends (x >>= f) s R E := by
  refine ends_iff.mpr ⟨fun b s' h => ?_, fun e s' h => ?_⟩
  · obtain ⟨a, s₁, hxa, hfb⟩ := bind_eq_ok.mp h
    exact (hf a s₁ (hx.of_ok hxa)).of_ok hfb
  · rcases bind_eq_error.mp h with hxe | ⟨a, s₁, hxa, hfe⟩
    · exact hx.of_error hxe
    · exact (hf a s₁ (hx.of_ok hxa)).of_error hfe

/-- A first step whose result is known. -/
theorem Ends.step {x : EStateM ε σ α} {f : α → EStateM ε σ β} {a : α} (hx : x s = .ok a s')
    (hf : Ends (f a) s' R E) : Ends (x >>= f) s R E := by
  unfold Ends
  rw [bind_ok hx]
  exact hf

/-- The run itself may be used where it returns. -/
theorem Ends.with_run {x : EStateM ε σ α} (h : Ends x s Q E) :
    Ends x s (fun a s' => Q a s' ∧ x s = .ok a s') E :=
  ends_iff.mpr ⟨fun _ _ hx => ⟨h.of_ok hx, hx⟩, fun _ _ hx => h.of_error hx⟩

end Ends

/-! ### Two runs side by side -/

/-- `x` from `s` and `y` from `t` end the same way: both return, into `Q`, or
both stop with one error, in `E`. -/
def Paired (x : EStateM ε σ α) (y : EStateM ε τ β) (s : σ) (t : τ)
    (Q : α → σ → β → τ → Prop) (E : σ → τ → Prop) : Prop :=
  match x s, y t with
  | .ok a s', .ok b t' => Q a s' b t'
  | .error e s', .error e' t' => e = e' ∧ E s' t'
  | _, _ => False

section Paired

variable {s : σ} {t : τ} {E E' : σ → τ → Prop}

theorem paired_pure {a : α} {b : β} {Q : α → σ → β → τ → Prop} (h : Q a s b t) :
    Paired (pure a : EStateM ε σ α) (pure b) s t Q E := h

theorem paired_throw {e : ε} {Q : α → σ → β → τ → Prop} (h : E s t) :
    Paired (throw e : EStateM ε σ α) (throw e) s t Q E := ⟨rfl, h⟩

theorem Paired.mono {x : EStateM ε σ α} {y : EStateM ε τ β} {Q Q' : α → σ → β → τ → Prop}
    (h : Paired x y s t Q E) (hQ : ∀ a s' b t', Q a s' b t' → Q' a s' b t')
    (hE : ∀ s' t', E s' t' → E' s' t') : Paired x y s t Q' E' := by
  unfold Paired at h ⊢
  cases hx : x s <;> cases hy : y t <;> simp only [hx, hy] at h ⊢
  · exact hQ _ _ _ _ h
  · exact ⟨h.1, hE _ _ h.2⟩

theorem Paired.bind {α' β' : Type} {x : EStateM ε σ α} {y : EStateM ε τ β}
    {f : α → EStateM ε σ α'} {g : β → EStateM ε τ β'} {Q : α → σ → β → τ → Prop}
    {R : α' → σ → β' → τ → Prop} (hxy : Paired x y s t Q E)
    (hfg : ∀ a s' b t', Q a s' b t' → Paired (f a) (g b) s' t' R E) :
    Paired (x >>= f) (y >>= g) s t R E := by
  unfold Paired at hxy
  cases hx : x s with
  | ok a s₁ =>
      cases hy : y t with
      | ok b t₁ =>
          simp only [hx, hy] at hxy
          have := hfg a s₁ b t₁ hxy
          unfold Paired at this ⊢
          rwa [bind_ok hx, bind_ok hy]
      | error e t₁ => simp [hx, hy] at hxy
  | error e s₁ =>
      cases hy : y t with
      | ok b t₁ => simp [hx, hy] at hxy
      | error e' t₁ =>
          simp only [hx, hy] at hxy
          unfold Paired
          rw [bind_error hx, bind_error hy]
          exact hxy

theorem paired_get {f : σ → EStateM ε σ α} {g : τ → EStateM ε τ β} {Q : α → σ → β → τ → Prop}
    (h : Paired (f s) (g t) s t Q E) : Paired (get >>= f) (get >>= g) s t Q E := h

end Paired

end HolyRust.Fallible
