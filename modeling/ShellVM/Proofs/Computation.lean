/-!
# Computations that end well

A computation with state is run step by step: `bind_ok` splits a run that ends well at the first step, and the other
lemmas run single steps. `Outcome` is what holds however a run ends; `Preserves` says that a part of the state is the
same then.
-/

namespace ShellVM

section Steps

variable {ε σ α β : Type} {s s' : σ}

/-- A run of two steps that ends well is two runs that end well. -/
theorem bind_ok {m : EStateM ε σ α} {f : α → EStateM ε σ β} {b : β} :
    (m >>= f) s = .ok b s' ↔ ∃ a s₁, m s = .ok a s₁ ∧ f a s₁ = .ok b s' := by
  show EStateM.bind m f s = _ ↔ _
  unfold EStateM.bind
  constructor
  · intro h
    cases hm : m s with
    | ok a s₁ => rw [hm] at h; exact ⟨a, s₁, rfl, h⟩
    | error e s₁ => rw [hm] at h; cases h
  · rintro ⟨a, s₁, hm, hf⟩
    rw [hm]
    exact hf

/-- A run of two steps whose first step ends well goes on with the second. -/
theorem bind_run_ok {m : EStateM ε σ α} {f : α → EStateM ε σ β} {a : α} (h : m s = .ok a s') :
    (m >>= f) s = f a s' := by
  show EStateM.bind m f s = _
  unfold EStateM.bind
  rw [h]

/-- A run of two steps whose first step fails fails. -/
theorem bind_run_error {m : EStateM ε σ α} {f : α → EStateM ε σ β} {e : ε} (h : m s = .error e s') :
    (m >>= f) s = .error e s' := by
  show EStateM.bind m f s = _
  unfold EStateM.bind
  rw [h]

/-- What holds of a run of two steps, by how the first step ends. -/
theorem bind_run_cases {P : EStateM.Result ε σ β → Prop} {m : EStateM ε σ α} {f : α → EStateM ε σ β}
    (hok : ∀ a s', m s = .ok a s' → P (f a s')) (herror : ∀ e s', m s = .error e s' → P (.error e s')) :
    P ((m >>= f) s) := by
  cases hm : m s with
  | ok a s' =>
    rw [bind_run_ok hm]
    exact hok a s' hm
  | error e s' =>
    rw [bind_run_error hm]
    exact herror e s' hm

theorem tryFinally_run (m : EStateM ε σ α) (f : Option α → EStateM ε σ β) (s : σ) : tryFinally' m f s =
    match m s with
    | .ok a s =>
      match f (some a) s with
      | .ok b s => .ok (a, b) s
      | .error e s => .error e s
    | .error e s =>
      match f none s with
      | .ok _ s => .error e s
      | .error e' s => .error e' s := rfl

/-- Behind a run that ends well, what is done in any case is done with its result. -/
theorem finally_run_ok {m : EStateM ε σ α} {f : Option α → EStateM ε σ β} {a : α} (h : m s = .ok a s') :
    (Prod.snd <$> tryFinally' m f) s = f (some a) s' := by
  show EStateM.map Prod.snd (tryFinally' m f) s = _
  unfold EStateM.map
  rw [tryFinally_run, h]
  dsimp only
  cases f (some a) s' <;> rfl

/-- Behind a run that fails, what is done in any case may fail, too. -/
theorem finally_run_error {m : EStateM ε σ α} {f : Option α → EStateM ε σ β} {e : ε} (h : m s = .error e s') :
    (Prod.snd <$> tryFinally' m f) s =
      match f none s' with
      | .ok _ t => .error e t
      | .error e' t => .error e' t := by
  show EStateM.map Prod.snd (tryFinally' m f) s = _
  unfold EStateM.map
  rw [tryFinally_run, h]
  dsimp only
  cases f none s' <;> rfl

/-- A look at the state, and what follows it. -/
theorem get_bind_run (f : σ → EStateM ε σ α) : (get >>= f) s = f s s := rfl

/-- One step that changes the state and gives something back. -/
theorem modifyGet_ok {f : σ → α × σ} {a : α} (h : (modifyGet f : EStateM ε σ α) s = .ok a s') : f s = (a, s') := by
  change EStateM.modifyGet f s = _ at h
  unfold EStateM.modifyGet at h
  cases hf : f s with
  | mk b s₁ => rw [hf] at h; cases h; rfl

/-- A check in front of a computation that ends well has been passed. -/
theorem check_ok {c : Prop} [Decidable c] {e : ε} {m : Unit → EStateM ε σ α} {a : α}
    (h : (if c then (throw e : EStateM ε σ Unit) >>= m else m ()) s = .ok a s') : ¬c ∧ m () s = .ok a s' := by
  split at h
  · obtain ⟨_, _, h, _⟩ := bind_ok.1 h
    cases h
  · next hc => exact ⟨hc, h⟩

end Steps

/-- What holds of an outcome: `Q` if it is a result, and `E` if it is a failure. -/
def Outcome {ε σ α : Type} (Q : α → σ → Prop) (E : σ → Prop) : EStateM.Result ε σ α → Prop
  | .ok a s => Q a s
  | .error _ s => E s

namespace Outcome

variable {ε σ α β : Type} {Q : α → σ → Prop} {R : β → σ → Prop} {E : σ → Prop} {s : σ}

theorem bind {m : EStateM ε σ α} {f : α → EStateM ε σ β} (h : Outcome Q E (m s))
    (h' : ∀ a s', m s = .ok a s' → Q a s' → Outcome R E (f a s')) : Outcome R E ((m >>= f) s) := by
  show Outcome R E (EStateM.bind m f s)
  unfold EStateM.bind
  cases hm : m s with
  | ok a s' => rw [hm] at h; exact h' a s' hm h
  | error e s' => rw [hm] at h; exact h

theorem get {f : σ → EStateM ε σ α} (h : Outcome Q E (f s s)) : Outcome Q E ((get >>= f) s) := h

theorem check {c : Prop} [Decidable c] {e : ε} {g : Unit → EStateM ε σ α} (h : c → E s)
    (h' : ¬c → Outcome Q E (g () s)) :
    Outcome Q E ((if c then (throw e : EStateM ε σ Unit) >>= g else g ()) s) := by
  split
  · next hc => exact h hc
  · next hc => exact h' hc

theorem mono {Q' : α → σ → Prop} {r : EStateM.Result ε σ α} (h : Outcome Q E r) (hQ : ∀ a s, Q a s → Q' a s) :
    Outcome Q' E r := by
  cases r with
  | ok a s => exact hQ a s h
  | error e s => exact h

end Outcome

/-! ## What computations preserve -/

/-- However the computation ends, a part of the state is as it was. -/
def Preserves {ε σ τ α : Type} (part : σ → τ) (x : EStateM ε σ α) : Prop := ∀ s,
  Outcome (fun _ s' => part s' = part s) (fun s' => part s' = part s) (x s)

namespace Preserves

variable {ε σ τ α β : Type} {part : σ → τ} {x y : EStateM ε σ α} {f : α → EStateM ε σ β}

theorem pure (a : α) : Preserves part (Pure.pure a : EStateM ε σ α) := fun _ => rfl

theorem throw (e : ε) : Preserves part (throw e : EStateM ε σ α) := fun _ => rfl

theorem bind (h : Preserves part x) (h' : ∀ a, Preserves part (f a)) : Preserves part (x >>= f) := by
  intro s
  have hx := h s
  show Outcome _ _ (EStateM.bind x f s)
  unfold EStateM.bind
  cases hxs : x s with
  | error e t =>
    rw [hxs] at hx
    exact hx
  | ok a t =>
    rw [hxs] at hx
    have hf := h' a t
    dsimp only
    cases hft : f a t with
    | ok b u =>
      rw [hft] at hf
      exact Eq.trans (show part u = part t from hf) hx
    | error e u =>
      rw [hft] at hf
      exact Eq.trans (show part u = part t from hf) hx

theorem map {g : α → β} (h : Preserves part x) : Preserves part (g <$> x) := by
  rw [map_eq_pure_bind]
  exact h.bind fun a => pure (g a)

theorem get {f : σ → EStateM ε σ β} (h : ∀ s, Preserves part (f s)) : Preserves part (get >>= f) := fun s => h s s

theorem modify {g : σ → σ} (h : ∀ s, part (g s) = part s) :
    Preserves part (modify g : EStateM ε σ PUnit) := fun s => h s

theorem modifyGet {g : σ → α × σ} (h : ∀ s, part (g s).2 = part s) : Preserves part (modifyGet g : EStateM ε σ α) :=
  fun s => h s

theorem ite {p : Prop} [Decidable p] (hx : Preserves part x) (hy : Preserves part y) :
    Preserves part (if p then x else y) := by
  split
  · exact hx
  · exact hy

theorem tryCatch {f : ε → EStateM ε σ α} (h : Preserves part x) (h' : ∀ e, Preserves part (f e)) :
    Preserves part (tryCatch x f) := by
  intro s
  have hx := h s
  show Outcome _ _ (EStateM.tryCatch x f s)
  unfold EStateM.tryCatch
  cases hxs : x s with
  | ok a t =>
    rw [hxs] at hx
    exact hx
  | error e t =>
    rw [hxs] at hx
    have hf : Outcome _ _ (f e t) := h' e t
    have hrestore : EStateM.Backtrackable.restore t (EStateM.Backtrackable.save s) = t := rfl
    dsimp only
    rw [hrestore]
    cases hft : f e t with
    | ok b u =>
      rw [hft] at hf
      exact Eq.trans (show part u = part t from hf) hx
    | error e u =>
      rw [hft] at hf
      exact Eq.trans (show part u = part t from hf) hx

end Preserves

end ShellVM
