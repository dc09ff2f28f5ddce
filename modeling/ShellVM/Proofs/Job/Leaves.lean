import ShellVM.Proofs.Job.Operands
import ShellVM.Proofs.Nesting

/-!
# Leaves

As arguments of a program, lists and tuples stand for what is inside of them, at any depth: the `Leaves` of a row of
values. Values without cycles have leaves, and their arguments are the texts of these (`Value.Acyclic.arguments`): the
depth to which the machine looks into lists suffices, as there are no more lists inside of each other than there are
containers.
-/

namespace ShellVM.Value

/-- The leaves of a row of values, in order: what there is when all lists and tuples are opened. -/
inductive Leaves (w : World) : List Value → List Value → Prop where
  | nil : Leaves w [] []
  | list {a : Addr} {vs ls ls' : List Value} (items : Leaves w (w.list a).toList ls) (rest : Leaves w vs ls') :
      Leaves w (list a :: vs) (ls ++ ls')
  | tuple {us vs ls ls' : List Value} (items : Leaves w us ls) (rest : Leaves w vs ls') :
      Leaves w (tuple us :: vs) (ls ++ ls')
  | leaf {v : Value} {vs ls : List Value} (single : v.IsLeaf) (rest : Leaves w vs ls) : Leaves w (v :: vs) (v :: ls)

variable {w w' : World} {v : Value} {vs ls ls' : List Value} {n m : Nat}

/-- The leaves of a row are those that were found in it. -/
theorem Leaves.unique (h : Leaves w vs ls) : ∀ {ls'}, Leaves w vs ls' → ls' = ls := by
  induction h with
  | nil =>
    intro ls' h'
    cases h'
    rfl
  | list _ _ ihItems ihRest =>
    intro ls' h'
    cases h' with
    | list items rest => rw [ihItems items, ihRest rest]
    | leaf single => exact single.elim
  | tuple _ _ ihItems ihRest =>
    intro ls' h'
    cases h' with
    | tuple items rest => rw [ihItems items, ihRest rest]
    | leaf single => exact single.elim
  | leaf single _ ih =>
    intro ls' h'
    cases h' with
    | list => exact single.elim
    | tuple => exact single.elim
    | leaf _ rest => rw [ih rest]

/-! ## The texts of rows -/

/-- Lists are as they were after streams were read. -/
theorem lists_apart : World.Apart World.lists := ⟨fun _ _ => rfl, fun _ _ => rfl, fun _ _ _ => rfl⟩

theorem textAll_append (xs ys : List Value) :
    textAll (xs ++ ys) = (do let first ← textAll xs; return first ++ (← textAll ys)) := by
  induction xs with
  | nil => simp [textAll]
  | cons x xs ih => simp [textAll, ih]

/-- In worlds with the lists of `w` the computation gives the texts of the values. -/
def Texts (w : World) (x : Effect (List String)) (ls : List Value) :
    Prop := ∀ w', w'.lists = w.lists → x w' = textAll ls w'

theorem Texts.append {x y : Effect (List String)} (hx : Texts w x ls) (hy : Texts w y ls') :
    Texts w (do let first ← x; return first ++ (← y)) (ls ++ ls') := by
  intro w' hw'
  have hlists := textAll_preserves lists_apart ls w'
  rw [textAll_append]
  cases hfirst : textAll ls w' with
  | error fault w₁ => rw [bind_run_error ((hx w' hw').trans hfirst), bind_run_error hfirst]
  | ok first w₁ =>
    rw [hfirst] at hlists
    have hw₁ : w₁.lists = w.lists := Eq.trans hlists hw'
    rw [bind_run_ok ((hx w' hw').trans hfirst), bind_run_ok hfirst]
    show EStateM.bind y _ w₁ = EStateM.bind (textAll ls') _ w₁
    unfold EStateM.bind
    rw [hy w₁ hw₁]

theorem texts_leaf (hv : v.IsLeaf) (deep : Value → Effect (List String)) : Texts w (argumentsWith deep v) [v] := by
  intro w' _
  have hone : argumentsWith deep v = do return [← v.text] := by
    cases v with
    | list a => exact hv.elim
    | tuple vs => exact hv.elim
    | _ => rfl
  rw [hone]
  simp [textAll]

/-! ## Arguments to a depth -/

/-- The arguments that the items of a row stand for, `n` rows counted. -/
def argumentsIn : (n : Nat) → Value → Effect (List String)
  | 0 => fun _ => pure []
  | n + 1 => argumentsTo n

theorem argumentsIn_succ (n : Nat) : argumentsIn (n + 1) = argumentsWith (argumentsIn n) := by cases n <;> rfl

theorem argumentsAllWith_eq (deep : Value → Effect (List String)) (vs : List Value) :
    argumentsAllWith deep vs = flatMapEffect (argumentsWith deep) vs := by
  induction vs with
  | nil => rfl
  | cons v vs ih => rw [argumentsAllWith, flatMapEffect, ih]

/-- Wherever the lists are those of `w`, the arguments are those that `n` rows or more give. -/
def Deep (w : World) (n : Nat) (f : Value → Effect (List String)) : Prop :=
  ∀ v w', w'.lists = w.lists → ∃ m, n ≤ m ∧ f v w' = argumentsIn m v w'

theorem deep_argumentsIn (h : n ≤ m) : Deep w n (argumentsIn m) := fun _ _ _ => ⟨m, h, rfl⟩

theorem deep_arguments (w : World) : Deep w (w.lists.size + 1) Value.arguments := by
  intro v w' hw'
  refine ⟨w'.containers + 1, ?_, rfl⟩
  unfold World.containers
  rw [hw']
  omega

theorem Deep.texts {f : Value → Effect (List String)} (hf : Deep w (n + 1) f)
    (h : ∀ m, n ≤ m → Texts w (argumentsWith (argumentsIn m) v) ls) : Texts w (f v) ls := by
  intro w' hw'
  obtain ⟨m, hm, heq⟩ := hf v w' hw'
  obtain ⟨m, rfl⟩ := Nat.exists_eq_add_of_le' (Nat.le_trans (Nat.le_add_left 1 _) hm)
  rw [heq, argumentsIn_succ, h m (Nat.le_of_succ_le_succ hm) w' hw']

/-- A list stands for its items, one row further inside. -/
theorem texts_list {a : Addr} (h : Texts w (flatMapEffect (argumentsIn n) (w.list a).toList) ls) :
    Texts w (argumentsWith (argumentsIn n) (list a)) ls := by
  intro w' hw'
  have hitems : w'.list a = w.list a := by
    unfold World.list
    rw [hw']
  show flatMapEffect (argumentsIn n) (w'.list a).toList w' = _
  rw [hitems, h w' hw']

theorem texts_tuple (h : Texts w (flatMapEffect (argumentsIn (n + 1)) vs) ls) :
    Texts w (argumentsWith (argumentsIn n) (tuple vs)) ls := by
  rw [argumentsIn_succ] at h
  rwa [argumentsWith, argumentsAllWith_eq]

/-- Rows that nest no deeper than the arguments go have leaves, and their arguments are the texts of these. -/
theorem Nests.texts (h : Nests w n vs) : ∃ ls, Leaves w vs ls ∧ ∀ f, Deep w n f → Texts w (flatMapEffect f vs) ls := by
  induction h with
  | nil => exact ⟨[], .nil, fun _ _ _ _ => rfl⟩
  | list _ _ ihItems ihRest =>
    obtain ⟨ls, hitems, htexts⟩ := ihItems
    obtain ⟨ls', hrest, htexts'⟩ := ihRest
    exact ⟨ls ++ ls', .list hitems hrest,
      fun f hf => (hf.texts fun m hm => texts_list (htexts _ (deep_argumentsIn hm))).append (htexts' f hf)⟩
  | tuple _ _ ihItems ihRest =>
    obtain ⟨ls, hitems, htexts⟩ := ihItems
    obtain ⟨ls', hrest, htexts'⟩ := ihRest
    exact ⟨ls ++ ls', .tuple hitems hrest, fun f hf =>
      (hf.texts fun m hm => texts_tuple (htexts _ (deep_argumentsIn (Nat.succ_le_succ hm)))).append (htexts' f hf)⟩
  | leaf single _ ih =>
    obtain ⟨ls, hrest, htexts⟩ := ih
    exact ⟨_ :: ls, .leaf single hrest,
      fun f hf => (hf.texts fun m _ => texts_leaf single (argumentsIn m)).append (htexts f hf)⟩

/-- What has leaves nests to some depth. -/
theorem Leaves.nests (h : Leaves w vs ls) : ∃ n, Nests w (n + 1) vs := by
  induction h with
  | nil => exact ⟨0, .nil⟩
  | list _ _ ihItems ihRest =>
    obtain ⟨n, hitems⟩ := ihItems
    obtain ⟨m, hrest⟩ := ihRest
    exact ⟨max (n + 1) m, .list (hitems.mono (by omega)) (hrest.mono (by omega))⟩
  | tuple _ _ ihItems ihRest =>
    obtain ⟨n, hitems⟩ := ihItems
    obtain ⟨m, hrest⟩ := ihRest
    exact ⟨max n m, .tuple (hitems.mono (by omega)) (hrest.mono (by omega))⟩
  | leaf single _ ih =>
    obtain ⟨n, hrest⟩ := ih
    exact ⟨n, .leaf single hrest⟩

/-- The arguments of values without cycles are the texts of their leaves. -/
theorem Acyclic.arguments (h : ∀ v ∈ vs, v.Acyclic w) :
    ∃ ls, Leaves w vs ls ∧ Texts w (flatMapEffect Value.arguments vs) ls := by
  obtain ⟨ls, hleaves, htexts⟩ := (Acyclic.nests h).texts
  exact ⟨ls, hleaves, htexts _ (deep_arguments w)⟩

end ShellVM.Value
