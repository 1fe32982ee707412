namespace TagCodec.Steps

instance decidableEqResult [DecidableEq α] [DecidableEq ε] [DecidableEq σ] :
    DecidableEq (EStateM.Result ε σ α)
  | .ok a s, .ok b t => decidable_of_iff (a = b ∧ s = t) (by simp)
  | .error e s, .error f t => decidable_of_iff (e = f ∧ s = t) (by simp)
  | .ok _ _, .error _ _ => isFalse nofun
  | .error _ _, .ok _ _ => isFalse nofun

theorem bind_of_ok {x : EStateM ε σ α} {f : α → EStateM ε σ β} (h : x s = .ok a t) :
    (x >>= f) s = f a t := by
  change EStateM.bind x f s = _
  simp only [EStateM.bind, h]

theorem bind_of_error {x : EStateM ε σ α} {f : α → EStateM ε σ β} (h : x s = .error e t) :
    (x >>= f) s = .error e t := by
  change EStateM.bind x f s = _
  simp only [EStateM.bind, h]

theorem bind_eq_ok {x : EStateM ε σ α} {f : α → EStateM ε σ β} :
    (x >>= f) s = .ok b u ↔ ∃ a t, x s = .ok a t ∧ f a t = .ok b u := by
  cases h : x s with
  | ok a t =>
    rw [bind_of_ok h]
    exact ⟨fun hf => ⟨a, t, rfl, hf⟩, by rintro ⟨_, _, ⟨⟩, hf⟩; exact hf⟩
  | error e t => simp [bind_of_error h]

theorem bind_eq_error {x : EStateM ε σ α} {f : α → EStateM ε σ β} :
    (x >>= f) s = .error e u ↔
      x s = .error e u ∨ ∃ a t, x s = .ok a t ∧ f a t = .error e u := by
  cases h : x s with
  | ok a t =>
    rw [bind_of_ok h]
    exact ⟨fun hf => .inr ⟨a, t, rfl, hf⟩, by rintro (⟨⟨⟩⟩ | ⟨_, _, ⟨⟩, hf⟩); exact hf⟩
  | error e t => simp [bind_of_error h]

theorem bind_except_eq_ok {x : Except ε α} {f : α → Except ε β} {b : β} :
    (x >>= f) = .ok b ↔ ∃ a, x = .ok a ∧ f a = .ok b := by
  cases x with
  | error e => exact ⟨nofun, nofun⟩
  | ok a =>
    constructor
    · exact fun h => ⟨a, rfl, h⟩
    · rintro ⟨_, ⟨⟩, h⟩
      exact h

/-- The second steps need to agree only on what the first step leaves. -/
theorem bind_congr {x y : EStateM ε σ α} {f g : α → EStateM ε σ β} (first : x s = y s)
    (second : ∀ a t, x s = .ok a t → f a t = g a t) : (x >>= f) s = (y >>= g) s := by
  cases h : x s with
  | ok a t => rw [bind_of_ok h, bind_of_ok (first.symm.trans h), second a t h]
  | error e t => rw [bind_of_error h, bind_of_error (first.symm.trans h)]

@[simp] theorem pure_run (a : α) (s : σ) : (pure a : EStateM ε σ α) s = .ok a s := rfl

@[simp] theorem throw_run (e : ε) (s : σ) : (throw e : EStateM ε σ α) s = .error e s := rfl

@[simp] theorem get_run (s : σ) : (get : EStateM ε σ σ) s = .ok s s := rfl

/-- The state that a run leaves, whether it fails or not. -/
def after (x : EStateM ε σ α) (s : σ) : σ :=
  match x s with
  | .ok _ t => t
  | .error _ t => t

theorem after_of_ok {x : EStateM ε σ α} (h : x s = .ok a t) : after x s = t := by
  simp only [after, h]

theorem after_of_error {x : EStateM ε σ α} (h : x s = .error e t) : after x s = t := by
  simp only [after, h]

/-- Whatever state it starts from, the one it leaves is related to it. -/
def Keeps (R : σ → σ → Prop) (x : EStateM ε σ α) : Prop := ∀ s, R s (after x s)

namespace Keeps

variable {R : σ → σ → Prop}

theorem ok {x : EStateM ε σ α} (h : Keeps R x) (hx : x s = .ok a t) : R s t :=
  after_of_ok hx ▸ h s

theorem error {x : EStateM ε σ α} (h : Keeps R x) (hx : x s = .error e t) : R s t :=
  after_of_error hx ▸ h s

theorem pure (refl : ∀ s, R s s) (a : α) : Keeps R (pure a : EStateM ε σ α) := refl

theorem throw (refl : ∀ s, R s s) (e : ε) : Keeps R (throw e : EStateM ε σ α) := refl

theorem bind (trans : ∀ s t u, R s t → R t u → R s u) {x : EStateM ε σ α}
    {f : α → EStateM ε σ β} (hx : Keeps R x) (hf : ∀ a, Keeps R (f a)) : Keeps R (x >>= f) := by
  intro s
  cases h : x s with
  | ok a t =>
    have hft := hf a t
    rw [after, ← bind_of_ok (f := f) h] at hft
    exact trans _ _ _ (hx.ok h) hft
  | error e t => exact after_of_error (bind_of_error (f := f) h) ▸ hx.error h

end Keeps

end TagCodec.Steps
