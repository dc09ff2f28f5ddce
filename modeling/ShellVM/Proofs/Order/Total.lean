import ShellVM.Proofs.Order.Compare
import ShellVM.Value.Arithmetic

/-!
# The total order of values

Values compare as the trees that they show (`compare_eq_rank`). So equality is an equivalence relation, the order is
total where it is defined, and the operators follow it (`comparing_is_total_order`).
-/

namespace ShellVM.Value

variable {w : World} {u v a b c : Value} {s t : Content} {o : Ordering}

theorem toOption_eq_some {ε α : Type} {x : Except ε α} {y : α} : x.toOption = some y ↔ x = .ok y := by
  cases x <;> simp [Except.toOption]

theorem toOption_eq_none {ε α : Type} {x : Except ε α} : x.toOption = none ↔ ∃ e, x = .error e := by
  cases x <;> simp [Except.toOption]

/-- Values compare as their trees do. -/
theorem compare_eq_rank (hu : Shows w w.containers u s) (hv : Shows w w.containers v t) :
    (compare w u v).toOption = s.rank t := by
  have hless : (less w .less u v).toOption = (s.rank t).map (· == .lt) := lessTo_eq_rank .less hu hv (Nat.le_refl _)
  have hsame : same w u v = true ↔ s = t := same_iff hu hv
  unfold compare
  cases hrank : s.rank t with
  | none =>
    obtain ⟨e, he⟩ := toOption_eq_none.1 (hless.trans (congrArg _ hrank))
    rw [he]
    rfl
  | some o =>
    rw [toOption_eq_some.1 (hless.trans (congrArg _ hrank))]
    have horder := (Content.rank_eq_some.1 hrank).1
    cases o with
    | lt => rfl
    | eq =>
      rw [hsame.2 (Content.order_eq_iff.1 horder)]
      rfl
    | gt =>
      have hne : same w u v = false := by
        refine Bool.eq_false_iff.2 fun h => ?_
        rw [Content.order_eq_iff.2 (hsame.1 h)] at horder
        cases horder
      rw [hne]
      rfl

theorem less_run {op : BinaryOp} {x : Bool} (h : less w op u v = .ok x) :
    (do return boolean (← Effect.ofExcept (less w op u v)) : Effect Value) w = .ok (boolean x) w := by
  rw [h]
  rfl

theorem same_or_less_run {op : BinaryOp} {x y : Bool} (hsame : same w a b = y) (h : less w op u v = .ok x) :
    (do
      if same w a b then return boolean true
      return boolean (← Effect.ofExcept (less w op u v)) : Effect Value) w = .ok (boolean (y || x)) w := by
  rw [hsame]
  cases y with
  | true => rfl
  | false => exact less_run h

/-- Where two values compare, the operators give what the comparison says. -/
theorem binary_of_compare (ha : Plain w a) (hb : Plain w b) (h : compare w a b = .ok o) :
    binary .less a b w = .ok (boolean o.isLT) w ∧ binary .lessEqual a b w = .ok (boolean o.isLE) w ∧
      binary .greater a b w = .ok (boolean o.isGT) w ∧ binary .greaterEqual a b w = .ok (boolean o.isGE) w := by
  obtain ⟨s, hs⟩ := ha.shows
  obtain ⟨t, ht⟩ := hb.shows
  have hrank : s.rank t = some o := (compare_eq_rank hs ht).symm.trans (toOption_eq_some.2 h)
  have hless (op : BinaryOp) : less w op a b = .ok (o == .lt) :=
    toOption_eq_some.1 ((lessTo_eq_rank op hs ht (Nat.le_refl _)).trans (congrArg _ hrank))
  have hmore (op : BinaryOp) : less w op b a = .ok (o.swap == .lt) := by
    refine toOption_eq_some.1 ((lessTo_eq_rank op ht hs (Nat.le_refl _)).trans ?_)
    rw [Content.rank_swap, hrank]
    rfl
  have hsame : same w a b = (o == .eq) := by
    rw [Bool.eq_iff_iff, same_iff hs ht, beq_iff_eq, ← Content.order_eq_iff, (Content.rank_eq_some.1 hrank).1,
      Option.some.injEq]
  refine ⟨?_, ?_, ?_, ?_⟩
  · exact (less_run (hless .less)).trans (by cases o <;> rfl)
  · exact (same_or_less_run hsame (hless .lessEqual)).trans (by cases o <;> rfl)
  · exact (less_run (hmore .greater)).trans (by cases o <;> rfl)
  · exact (same_or_less_run hsame (hmore .greaterEqual)).trans (by cases o <;> rfl)

/-- Nil, booleans, integers, strings, and lists and tuples of these are equal by an equivalence relation, and their
order is total where it is defined: it is defined for two values either way round or not at all, gives the reverse the
other way round, is transitive, and the operators follow it. -/
theorem comparing_is_total_order (ha : Plain w a) (hb : Plain w b) (hc : Plain w c) :
    (same w a a = true ∧ (same w a b = true → same w b a = true) ∧
      (same w a b = true → same w b c = true → same w a c = true)) ∧
    (∀ o, compare w a b = .ok o ↔ compare w b a = .ok o.swap) ∧
    ((∃ e, compare w a b = .error e) ↔ ∃ e, compare w b a = .error e) ∧
    (∀ o o', compare w a b = .ok o → compare w b c = .ok o' → o ≠ .gt → o' ≠ .gt →
      compare w a c = .ok (if o = .eq ∧ o' = .eq then .eq else .lt)) ∧
    ∀ o, compare w a b = .ok o →
      binary .less a b w = .ok (boolean o.isLT) w ∧ binary .lessEqual a b w = .ok (boolean o.isLE) w ∧
        binary .greater a b w = .ok (boolean o.isGT) w ∧ binary .greaterEqual a b w = .ok (boolean o.isGE) w := by
  obtain ⟨s, hs⟩ := ha.shows
  obtain ⟨t, ht⟩ := hb.shows
  obtain ⟨u, hu⟩ := hc.shows
  refine ⟨⟨?_, ?_, ?_⟩, fun o => ?_, ?_, fun o o' h h' ho ho' => ?_, fun o => binary_of_compare ha hb⟩
  · exact (same_iff hs hs).2 rfl
  · exact fun h => (same_iff ht hs).2 ((same_iff hs ht).1 h).symm
  · exact fun h h' => (same_iff hs hu).2 (((same_iff hs ht).1 h).trans ((same_iff ht hu).1 h'))
  · rw [← toOption_eq_some, ← toOption_eq_some, compare_eq_rank hs ht, compare_eq_rank ht hs, Content.rank_swap s t]
    cases s.rank t with
    | none => simp
    | some o' => cases o' <;> cases o <;> simp
  · rw [← toOption_eq_none, ← toOption_eq_none, compare_eq_rank hs ht, compare_eq_rank ht hs, Content.rank_swap]
    simp
  · rw [← toOption_eq_some, compare_eq_rank] at h h' ⊢ <;> try assumption
    exact Content.rank_trans h h' ho ho'

/-- Lists of nil and one, of nil and two, and of nil, two and a string. -/
theorem comparing_is_total_order_lists :
    let w : World := { lists := #[#[nil, integer 1], #[nil, integer 2], #[nil, integer 2, string "x"]] }
    compare w (list 0) (list 1) = .ok .lt ∧ compare w (list 1) (list 2) = .ok .lt ∧
      compare w (list 0) (list 2) = .ok .lt ∧ compare w (list 2) (list 0) = .ok .gt := by
  intro w
  have h0 : Plain w (list 0) := Shows.plain (.list (n := 1) (.cons .nil (.cons (.integer 1) .nil)))
  have h1 : Plain w (list 1) := Shows.plain (.list (n := 1) (.cons .nil (.cons (.integer 2) .nil)))
  have h2 :
      Plain w (list 2) := Shows.plain (.list (n := 1) (.cons .nil (.cons (.integer 2) (.cons (.string "x") .nil))))
  obtain ⟨-, -, -, htrans, -⟩ := comparing_is_total_order h0 h1 h2
  have h01 : compare w (list 0) (list 1) = .ok .lt := by rfl
  have h12 : compare w (list 1) (list 2) = .ok .lt := by rfl
  have h02 := htrans .lt .lt h01 h12 (by decide) (by decide)
  exact ⟨h01, h12, h02, ((comparing_is_total_order h0 h2 h1).2.1 .lt).1 h02⟩

end ShellVM.Value
