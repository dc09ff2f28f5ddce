import ShellVM.Value.Basic

/-!
# Contents

What a value without cycles shows is a tree, its `Content`. Two trees of one kind are ordered by the first difference
(`Content.order`), trees of different kinds have no order. Where it is defined the order is total: it gives `.eq` for
equal trees only (`order_eq_iff`), the other way round it gives the reverse (`order_swap`), and it is transitive
(`order_trans`).
-/

namespace ShellVM

/-- The tree that a value shows: its lists are opened. -/
inductive Content where
  | nil
  | boolean (b : Bool)
  | integer (n : Int64)
  | string (s : String)
  | list (items : List Content)
  | tuple (items : List Content)

namespace Content

mutual

/-- How two trees compare, if they do. -/
def order : Content → Content → Option Ordering
  | nil, nil => some .eq
  | boolean a, boolean b => some (compare a b)
  | integer a, integer b => some (compare a b)
  | string a, string b => some (compare a b)
  | list ss, list ts => orderAll ss ts
  | tuple ss, tuple ts => orderAll ss ts
  | _, _ => none

/-- Rows compare by the first pair that differs, and by length if none does. -/
def orderAll : List Content → List Content → Option Ordering
  | [], [] => some .eq
  | [], _ :: _ => some .lt
  | _ :: _, [] => some .gt
  | s :: ss, t :: ts =>
    match order s t with
    | some .eq => orderAll ss ts
    | o => o

end

variable {s t u : Content} {ss ts us : List Content}

theorem orderAll_cons (h : order s t = some .eq) : orderAll (s :: ss) (t :: ts) = orderAll ss ts := by rw [orderAll, h]

theorem orderAll_differ (h : order s t ≠ some .eq) : orderAll (s :: ss) (t :: ts) = order s t := by
  rw [orderAll]
  split
  · contradiction
  · rfl

/-! ## Equality -/

mutual

theorem order_self : ∀ s : Content, order s s = some .eq
  | nil => rfl
  | boolean _ | integer _ | string _ => by simp [order]
  | list ss | tuple ss => by rw [order, orderAll_self ss]

theorem orderAll_self : ∀ ss : List Content, orderAll ss ss = some .eq
  | [] => rfl
  | s :: ss => by rw [orderAll_cons (order_self s), orderAll_self ss]

end

mutual

theorem eq_of_order : ∀ {s t : Content}, order s t = some .eq → s = t
  | nil, t, h => by cases t <;> simp_all [order]
  | boolean _, t, h | integer _, t, h | string _, t, h => by cases t <;> simp_all [order]
  | list ss, t, h | tuple ss, t, h => by
    cases t <;> simp only [order, reduceCtorEq] at h
    rw [eq_of_orderAll h]

theorem eq_of_orderAll : ∀ {ss ts : List Content}, orderAll ss ts = some .eq → ss = ts
  | [], ts, h => by cases ts <;> simp_all [orderAll]
  | s :: ss, [], h => by simp [orderAll] at h
  | s :: ss, t :: ts, h => by
    by_cases heq : order s t = some .eq
    · rw [orderAll_cons heq] at h
      rw [eq_of_order heq, eq_of_orderAll h]
    · exact absurd (orderAll_differ heq ▸ h) heq

end

/-- Trees compare as equal if they are the same. -/
theorem order_eq_iff : order s t = some .eq ↔ s = t := ⟨eq_of_order, fun h => h ▸ order_self s⟩

theorem orderAll_cons_self : orderAll (s :: ss) (s :: ts) = orderAll ss ts := orderAll_cons (order_self s)

theorem orderAll_of_ne (h : s ≠ t) : orderAll (s :: ss) (t :: ts) = order s t := orderAll_differ (mt order_eq_iff.1 h)

/-! ## The other way round -/

mutual

theorem order_swap : ∀ s t : Content, order t s = (order s t).map Ordering.swap
  | nil, t => by cases t <;> rfl
  | boolean a, t | integer a, t | string a, t => by
    cases t <;> first | rfl | exact congrArg some Std.OrientedOrd.eq_swap
  | list ss, t | tuple ss, t => by cases t <;> first | rfl | exact orderAll_swap ss _

theorem orderAll_swap : ∀ ss ts : List Content, orderAll ts ss = (orderAll ss ts).map Ordering.swap
  | [], ts => by cases ts <;> rfl
  | s :: ss, [] => rfl
  | s :: ss, t :: ts => by
    by_cases h : s = t
    · subst h
      rw [orderAll_cons_self, orderAll_cons_self, orderAll_swap ss ts]
    · rw [orderAll_of_ne h, orderAll_of_ne (Ne.symm h), order_swap s t]

end

/-! ## Transitivity -/

mutual

theorem order_lt_trans : ∀ {s t u : Content}, order s t = some .lt → order t u = some .lt → order s u = some .lt
  | nil, t, _, hst, _ => by cases t <;> simp [order] at hst
  | boolean _, t, u, hst, htu | integer _, t, u, hst, htu | string _, t, u, hst, htu => by
    cases t <;> simp only [order, reduceCtorEq] at hst
    cases u <;> simp only [order, reduceCtorEq] at htu
    exact congrArg some (Std.TransCmp.lt_trans (Option.some.inj hst) (Option.some.inj htu))
  | list _, t, u, hst, htu | tuple _, t, u, hst, htu => by
    cases t <;> simp only [order, reduceCtorEq] at hst
    cases u <;> simp only [order, reduceCtorEq] at htu
    exact orderAll_lt_trans hst htu

theorem orderAll_lt_trans : ∀ {ss ts us : List Content},
    orderAll ss ts = some .lt → orderAll ts us = some .lt → orderAll ss us = some .lt
  | [], [], _, hst, _ => by simp [orderAll] at hst
  | _ :: _, [], _, hst, _ => by simp [orderAll] at hst
  | _, _ :: _, [], _, htu => by simp [orderAll] at htu
  | [], _ :: _, _ :: _, _, _ => rfl
  | s :: ss, t :: ts, u :: us, hst, htu => by
    -- The first difference is where the earlier of the two differences is.
    by_cases h : s = t
    · subst h
      rw [orderAll_cons_self] at hst
      by_cases h' : s = u
      · subst h'
        rw [orderAll_cons_self] at htu ⊢
        exact orderAll_lt_trans hst htu
      · rwa [orderAll_of_ne h'] at htu ⊢
    · rw [orderAll_of_ne h] at hst
      by_cases h' : t = u
      · subst h'
        rwa [orderAll_of_ne h]
      · rw [orderAll_of_ne h'] at htu
        have hsu := order_lt_trans hst htu
        rwa [orderAll_differ (by simp [hsu])]

end

/-- Two steps that do not go down lead to the same tree if both stay, and up otherwise. -/
theorem order_trans {o o' : Ordering} (hst : order s t = some o) (htu : order t u = some o') (ho : o ≠ .gt)
    (ho' : o' ≠ .gt) : order s u = some (if o = .eq ∧ o' = .eq then .eq else .lt) := by
  cases o with
  | gt => contradiction
  | eq =>
    obtain rfl := eq_of_order hst
    cases o' with
    | gt => contradiction
    | eq => exact htu
    | lt => exact htu
  | lt =>
    cases o' with
    | gt => contradiction
    | eq =>
      obtain rfl := eq_of_order htu
      exact hst
    | lt => exact order_lt_trans hst htu

/-! ## Trees on their own -/

/-- How two trees that are not items of rows compare: there nil has no order, not even with itself. -/
def rank : Content → Content → Option Ordering
  | nil, nil => none
  | s, t => order s t

/-- Where there is a rank, it is the order, and the first tree is not nil. -/
theorem rank_eq_some {o : Ordering} : rank s t = some o ↔ order s t = some o ∧ s ≠ nil := by
  cases s <;> cases t <;> simp [rank, order]

theorem rank_of_ne (h : s ≠ t) : rank s t = order s t := by
  cases s <;> cases t <;> first | rfl | exact absurd rfl h

theorem rank_swap (s t : Content) : rank t s = (rank s t).map Ordering.swap := by
  by_cases h : s = t
  · subst h
    cases s <;> first | rfl | exact order_swap _ _
  · rw [rank_of_ne h, rank_of_ne (Ne.symm h), order_swap]

theorem rank_trans {o o' : Ordering} (hst : rank s t = some o) (htu : rank t u = some o') (ho : o ≠ .gt)
    (ho' : o' ≠ .gt) : rank s u = some (if o = .eq ∧ o' = .eq then .eq else .lt) := by
  rw [rank_eq_some] at hst htu ⊢
  exact ⟨order_trans hst.1 htu.1 ho ho', hst.2⟩

end Content

end ShellVM
