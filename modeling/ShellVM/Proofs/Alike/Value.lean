import Mathlib.Data.List.Forall2
import ShellVM.World

/-!
# Values that are alike

Two values are alike if they differ in nothing but the traces of errors. A `View` adds what must hold of both: the
functions in them can be called, and the storage that they reach lies above a floor, so that nothing needs to be known
about what was there before. A value that is alike to itself is one that respects the view.
-/

namespace ShellVM

/-- What values may refer to: storage from certain places on, closures with these environments, functions whose pages
can be called with so many cells, and library functions of a kind. -/
structure View where
  lists : Nat
  dictionaries : Nat
  records : Nat
  cells : Nat
  environments : Array (List Addr)
  hosts : UInt16 → Nat → Prop
  library : LibraryFunction → Prop

/-- The function can be called. -/
def View.Trusts (V : View) : Function → Prop
  | .page index _ => V.hosts index 0
  | .closure index environment => ∃ cells, V.environments[environment]? = some cells ∧ V.hosts index cells.length ∧
      ∀ a ∈ cells, V.cells ≤ a
  | .library f => V.library f

namespace Value

mutual

/-- The values differ in nothing but the traces of errors, and respect the view. -/
def Alike (V : View) : Value → Value → Prop
  | nil, v => v = nil
  | boolean b, v => v = boolean b
  | integer n, v => v = integer n
  | float x, v => v = float x
  | string s, v => v = string s
  | list a, v => v = list a ∧ V.lists ≤ a
  | tuple items, v => ∃ items', v = tuple items' ∧ AllAlike V items items'
  | dictionary a, v => v = dictionary a ∧ V.dictionaries ≤ a
  | set a, v => v = set a
  | range r, v => v = range r
  | struct a, v => v = struct a ∧ V.records ≤ a
  | function f, v => v = function f ∧ V.Trusts f
  | error value _, v => ∃ value' trace?, v = error value' trace? ∧ Alike V value value'
  | stream a, v => v = stream a

def AllAlike (V : View) : List Value → List Value → Prop
  | [], vs => vs = []
  | u :: us, vs => ∃ v vs', vs = v :: vs' ∧ Alike V u v ∧ AllAlike V us vs'

end

variable {V : View} {u v : Value} {us vs : List Value}

theorem allAlike_iff : ∀ {us vs : List Value}, AllAlike V us vs ↔ List.Forall₂ (Alike V) us vs
  | [], _ => List.forall₂_nil_left_iff.symm
  | u :: us, vs => by
    rw [List.forall₂_cons_left_iff]
    constructor
    · rintro ⟨v, vs', rfl, hv, h⟩
      exact ⟨v, vs', hv, allAlike_iff.1 h, rfl⟩
    · rintro ⟨v, vs', hv, h, rfl⟩
      exact ⟨v, vs', rfl, hv, allAlike_iff.2 h⟩

theorem Alike.tuple (h : List.Forall₂ (Alike V) us vs) : (Value.tuple us).Alike V (.tuple vs) :=
  ⟨vs, rfl, allAlike_iff.2 h⟩

/-- Values that are alike: two tuples, two errors, or twice the same. -/
theorem Alike.cases (h : u.Alike V v) : (v = u ∧ ∀ us, u ≠ .tuple us) ∨
    (∃ us vs, u = .tuple us ∧ v = .tuple vs ∧ List.Forall₂ (Alike V) us vs) ∨
    ∃ u' v' t t', u = .error u' t ∧ v = .error v' t' ∧ u'.Alike V v' := by
  cases u with
  | tuple us =>
    obtain ⟨vs, rfl, h⟩ := h
    exact .inr (.inl ⟨us, vs, rfl, rfl, allAlike_iff.1 h⟩)
  | error u' t =>
    obtain ⟨v', t', rfl, h⟩ := h
    exact .inr (.inr ⟨u', v', t, t', rfl, rfl, h⟩)
  | list a | dictionary a | struct a | function f => exact .inl ⟨h.1, nofun⟩
  | _ => exact .inl ⟨h, nofun⟩

/-- A value that is neither a tuple nor an error is alike to no other one. -/
theorem Alike.eq (h : u.Alike V v) (htuple : ∀ vs, v ≠ .tuple vs) (herror : ∀ v' trace?, v ≠ .error v' trace?) :
    u = v := by
  rcases h.cases with ⟨rfl, -⟩ | ⟨_, vs, -, rfl, -⟩ | ⟨_, v', _, t, -, rfl, -⟩
  · rfl
  · exact absurd rfl (htuple vs)
  · exact absurd rfl (herror v' t)

theorem Alike.kind (h : u.Alike V v) : v.kind = u.kind := by
  rcases h.cases with ⟨rfl, -⟩ | ⟨us, vs, rfl, rfl, -⟩ | ⟨u', v', t, t', rfl, rfl, -⟩ <;> rfl

theorem Alike.asInteger? (h : u.Alike V v) : v.asInteger? = u.asInteger? := by
  rcases h.cases with ⟨rfl, -⟩ | ⟨us, vs, rfl, rfl, -⟩ | ⟨u', v', t, t', rfl, rfl, -⟩ <;> rfl

theorem Alike.asNumber? (h : u.Alike V v) : v.asNumber? = u.asNumber? := by
  rcases h.cases with ⟨rfl, -⟩ | ⟨us, vs, rfl, rfl, -⟩ | ⟨u', v', t, t', rfl, rfl, -⟩ <;> rfl

mutual

theorem Alike.key? : ∀ {u v : Value}, u.Alike V v → v.key? = u.key?
  | .tuple us, _, h => by
    obtain ⟨vs, rfl, h⟩ := h
    rw [Value.key?, Value.key?, h.keys?]
  | .error _ _, _, h => by
    obtain ⟨_, _, rfl, -⟩ := h
    rfl
  | .nil, _, h | .boolean _, _, h | .integer _, _, h | .float _, _, h | .string _, _, h | .set _, _, h
  | .range _, _, h | .stream _, _, h => by rw [show _ = _ from h]
  | .list _, _, h | .dictionary _, _, h | .struct _, _, h | .function _, _, h => by rw [h.1]

theorem AllAlike.keys? : ∀ {us vs : List Value}, AllAlike V us vs → Value.keys? vs = Value.keys? us
  | [], _, h => by rw [show _ = _ from h]
  | u :: us, _, ⟨v, vs, h₁, hu, h⟩ => by rw [h₁, Value.keys?, Value.keys?, hu.key?, h.keys?]

end

mutual

theorem alike_ofKey : ∀ k : Key, (ofKey k).Alike V (ofKey k)
  | .boolean _ | .integer _ | .string _ | .range _ => rfl
  | .tuple items => ⟨_, rfl, allAlike_ofKeys items⟩

theorem allAlike_ofKeys : ∀ ks : List Key, AllAlike V (ofKeys ks) (ofKeys ks)
  | [] => rfl
  | k :: ks => ⟨_, _, rfl, alike_ofKey k, allAlike_ofKeys ks⟩

end

end Value

/-! ## Rows -/

section Rows

variable {α β : Type} {R : α → β → Prop} {xs : List α} {ys : List β}

/-- Related rows are related place by place. -/
theorem forall₂_getElem? (h : List.Forall₂ R xs ys) : ∀ i : Nat,
    xs[i]? = none ∧ ys[i]? = none ∨ ∃ x y, xs[i]? = some x ∧ ys[i]? = some y ∧ R x y := by
  induction h with
  | nil => exact fun i => .inl ⟨rfl, rfl⟩
  | cons hxy _ ih =>
    intro i
    cases i with
    | zero => exact .inr ⟨_, _, rfl, rfl, hxy⟩
    | succ i => exact ih i

theorem forall₂_set (h : List.Forall₂ R xs ys) {x : α} {y : β} (hxy : R x y) : ∀ i : Nat,
    List.Forall₂ R (xs.set i x) (ys.set i y) := by
  induction h with
  | nil => exact fun _ => .nil
  | cons h₁ h₂ ih =>
    intro i
    cases i with
    | zero => exact .cons hxy h₂
    | succ i => exact .cons h₁ (ih i)

/-- Functions that do not tell related things apart. -/
theorem forall₂_map_eq {γ : Type} {f : α → γ} {g : β → γ} (h : List.Forall₂ R xs ys)
    (hfg : ∀ x y, R x y → g y = f x) : ys.map g = xs.map f := by
  induction h with
  | nil => rfl
  | cons hxy _ ih => rw [List.map_cons, List.map_cons, hfg _ _ hxy, ih]

end Rows

end ShellVM
