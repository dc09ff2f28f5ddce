/-!
# Computations in lockstep

Two computations run side by side from related states. They run in lockstep if both succeed or both fail, with related
results and related states. One relation covers what two runs have in common; with the same run on both sides it is an
invariant of that run.
-/

namespace ShellVM

variable {ε σ α β α' β' : Type}

/-- Two outcomes: both are successes related by `Q`, or both are failures related by `E`. -/
def Both (Q : α → β → σ → σ → Prop) (E : ε → ε → σ → σ → Prop) : EStateM.Result ε σ α → EStateM.Result ε σ β → Prop
  | .ok a s, .ok b t => Q a b s t
  | .error e s, .error f t => E e f s t
  | _, _ => False

namespace Both

variable {Q Q' : α → β → σ → σ → Prop} {E E' : ε → ε → σ → σ → Prop} {x : EStateM.Result ε σ α}
  {y : EStateM.Result ε σ β}

/-- The two outcomes at hand. -/
theorem cases (h : Both Q E x y) : (∃ a b s t, x = .ok a s ∧ y = .ok b t ∧ Q a b s t) ∨
    ∃ e f s t, x = .error e s ∧ y = .error f t ∧ E e f s t := by
  cases x with
  | ok a s =>
    cases y with
    | ok b t => exact .inl ⟨a, b, s, t, rfl, rfl, h⟩
    | error f t => exact h.elim
  | error e s =>
    cases y with
    | ok b t => exact h.elim
    | error f t => exact .inr ⟨e, f, s, t, rfl, rfl, h⟩

theorem imp (h : Both Q E x y) (hQ : ∀ a b s t, Q a b s t → Q' a b s t) (hE : ∀ e f s t, E e f s t → E' e f s t) :
    Both Q' E' x y := by
  rcases h.cases with ⟨a, b, s, t, rfl, rfl, h⟩ | ⟨e, f, s, t, rfl, rfl, h⟩
  · exact hQ a b s t h
  · exact hE e f s t h

end Both

/-- From states related by `P`, both computations succeed as `Q` says, or both fail as `E` says. -/
def Lockstep (P : σ → σ → Prop) (x : EStateM ε σ α) (y : EStateM ε σ β) (Q : α → β → σ → σ → Prop)
    (E : ε → ε → σ → σ → Prop) : Prop :=
  ∀ ⦃s t : σ⦄, P s t → Both Q E (x s) (y t)

namespace Lockstep

variable {P P' : σ → σ → Prop} {x : EStateM ε σ α} {y : EStateM ε σ β} {Q Q' : α → β → σ → σ → Prop}
  {E E' : ε → ε → σ → σ → Prop}

/-- The two outcomes at hand. -/
theorem cases (h : Lockstep P x y Q E) {s t : σ} (hP : P s t) :
    (∃ a b s' t', x s = .ok a s' ∧ y t = .ok b t' ∧ Q a b s' t') ∨
      ∃ e f s' t', x s = .error e s' ∧ y t = .error f t' ∧ E e f s' t' :=
  (h hP).cases

theorem weaken (h : Lockstep P x y Q E) (hP : ∀ s t, P' s t → P s t) (hQ : ∀ a b s t, Q a b s t → Q' a b s t)
    (hE : ∀ e f s t, E e f s t → E' e f s t) : Lockstep P' x y Q' E' :=
  fun _ _ hs => (h (hP _ _ hs)).imp hQ hE

theorem post (h : Lockstep P x y Q E) (hQ : ∀ a b s t, Q a b s t → Q' a b s t) : Lockstep P x y Q' E :=
  h.weaken (fun _ _ h => h) hQ fun _ _ _ _ h => h

/-- Whatever holds of the states to begin with can be assumed. -/
theorem assume {p : Prop} (h : p → Lockstep P x y Q E) : Lockstep (fun s t => p ∧ P s t) x y Q E :=
  fun _ _ hs => h hs.1 hs.2

theorem bind {g : α → EStateM ε σ α'} {k : β → EStateM ε σ β'} {R : α' → β' → σ → σ → Prop}
    (h : Lockstep P x y Q E) (h' : ∀ a b, Lockstep (Q a b) (g a) (k b) R E) :
    Lockstep P (x >>= g) (y >>= k) R E := by
  intro s t hs
  rcases h.cases hs with ⟨a, b, s', t', hx, hy, hQ⟩ | ⟨e, f, s', t', hx, hy, hE⟩
  · show Both R E (EStateM.bind x g s) (EStateM.bind y k t)
    simp only [EStateM.bind, hx, hy]
    exact h' a b hQ
  · show Both R E (EStateM.bind x g s) (EStateM.bind y k t)
    simp only [EStateM.bind, hx, hy]
    exact hE

theorem pure {a : α} {b : β} (h : ∀ s t, P s t → Q a b s t) :
    Lockstep P (Pure.pure a : EStateM ε σ α) (Pure.pure b : EStateM ε σ β) Q E :=
  fun s t hs => h s t hs

theorem throw {e f : ε} (h : ∀ s t, P s t → E e f s t) :
    Lockstep P (throw e : EStateM ε σ α) (throw f : EStateM ε σ β) Q E :=
  fun s t hs => h s t hs

theorem get {R : σ → σ → σ → σ → Prop} (h : ∀ s t, P s t → R s t s t) :
    Lockstep P (get : EStateM ε σ σ) (get : EStateM ε σ σ) R E :=
  fun s t hs => h s t hs

theorem modify {f g : σ → σ} {R : PUnit → PUnit → σ → σ → Prop} (h : ∀ s t, P s t → R ⟨⟩ ⟨⟩ (f s) (g t)) :
    Lockstep P (modify f : EStateM ε σ PUnit) (modify g : EStateM ε σ PUnit) R E :=
  fun s t hs => h s t hs

theorem modifyGet {f : σ → α × σ} {g : σ → β × σ}
    (h : ∀ s t, P s t → Q (f s).1 (g t).1 (f s).2 (g t).2) :
    Lockstep P (modifyGet f : EStateM ε σ α) (modifyGet g : EStateM ε σ β) Q E :=
  fun s t hs => h s t hs

/-- A failure may be caught; what was changed before it stays changed. -/
theorem tryCatch {g : ε → EStateM ε σ α} {k : ε → EStateM ε σ β} (h : Lockstep P x y Q E)
    (h' : ∀ e f, Lockstep (E e f) (g e) (k f) Q E') : Lockstep P (tryCatch x g) (tryCatch y k) Q E' := by
  intro s t hs
  rcases h.cases hs with ⟨a, b, s', t', hx, hy, hQ⟩ | ⟨e, f, s', t', hx, hy, hE⟩
  · show Both Q E' (EStateM.tryCatch x g s) (EStateM.tryCatch y k t)
    unfold EStateM.tryCatch
    rw [hx, hy]
    exact hQ
  · show Both Q E' (EStateM.tryCatch x g s) (EStateM.tryCatch y k t)
    unfold EStateM.tryCatch
    rw [hx, hy]
    exact h' e f hE

end Lockstep

end ShellVM
