import ShellVM.Proofs.Alike.Value

/-!
# Worlds that are alike

Two worlds are alike if what they store above the floors of a view is alike place by place, and all the rest that
programs can see is the same. Reading alike worlds at the same place gives what is alike, and writing what is alike
keeps them alike.
-/

namespace ShellVM

/-! ## Maps -/

namespace OrderedMap

variable {κ : Type} [BEq κ] [Hashable κ] {V : View} {m m' : OrderedMap κ Value}

/-- The same keys in the same order, with values that are alike. -/
structure Alike (V : View) (m m' : OrderedMap κ Value) : Prop where
  index : m'.index = m.index
  entries : List.Forall₂ (fun e e' => e'.1 = e.1 ∧ e.2.Alike V e'.2) m.toList m'.toList

theorem Alike.size (h : m.Alike V m') : m'.size = m.size := by
  have := h.entries.length_eq
  simp only [toList, Array.length_toList] at this
  exact this.symm

theorem Alike.contains (h : m.Alike V m') (k : κ) : m'.contains k = m.contains k := by
  unfold OrderedMap.contains
  rw [h.index]

theorem Alike.empty [EquivBEq κ] [LawfulHashable κ] : (OrderedMap.empty : OrderedMap κ Value).Alike V .empty :=
  ⟨rfl, .nil⟩

/-- The entries at the same place. -/
theorem Alike.getElem? (h : m.Alike V m') (i : Nat) : m.entries[i]? = none ∧ m'.entries[i]? = none ∨
    ∃ k u v, m.entries[i]? = some (k, u) ∧ m'.entries[i]? = some (k, v) ∧ u.Alike V v := by
  have := forall₂_getElem? h.entries i
  simp only [toList, Array.getElem?_toList] at this
  rcases this with h | ⟨⟨k, u⟩, ⟨k', v⟩, hu, hv, hk, huv⟩
  · exact .inl h
  · exact .inr ⟨k, u, v, hu, by rw [hv, show k' = k from hk], huv⟩

theorem Alike.get? (h : m.Alike V m') (k : κ) : m.get? k = none ∧ m'.get? k = none ∨
    ∃ u v, m.get? k = some u ∧ m'.get? k = some v ∧ u.Alike V v := by
  unfold OrderedMap.get?
  rw [h.index]
  cases m.index[k]? with
  | none => exact .inl ⟨rfl, rfl⟩
  | some i =>
    rcases h.getElem? i with ⟨h₁, h₂⟩ | ⟨k', u, v, h₁, h₂, huv⟩
    · exact .inl ⟨by simp [h₁], by simp [h₂]⟩
    · exact .inr ⟨u, v, by simp [h₁], by simp [h₂], huv⟩

variable [LawfulBEq κ] [LawfulHashable κ]

theorem Alike.insert (h : m.Alike V m') (k : κ) {u v : Value} (huv : u.Alike V v) :
    (m.insert k u).Alike V (m'.insert k v) := by
  have hsize : m'.entries.size = m.entries.size := h.size
  unfold OrderedMap.insert
  split
  · next i hi =>
    split
    · next i' hi' =>
      obtain rfl : i = i' := by
        rw [h.index, hi] at hi'
        exact Option.some.inj hi'
      refine ⟨h.index, ?_⟩
      simp only [toList, Array.toList_setIfInBounds]
      exact forall₂_set h.entries (show k = k ∧ u.Alike V v from ⟨rfl, huv⟩) i
    · next hi' => rw [h.index, hi] at hi'; cases hi'
  · next hi =>
    split
    · next i' hi' => rw [h.index, hi] at hi'; cases hi'
    · refine ⟨by simp only [h.index, hsize], ?_⟩
      simp only [toList, Array.toList_push]
      exact List.rel_append h.entries (.cons ⟨rfl, huv⟩ .nil)

theorem Alike.ofList {es es' : List (κ × Value)}
    (h : List.Forall₂ (fun e e' => e'.1 = e.1 ∧ e.2.Alike V e'.2) es es') :
    (OrderedMap.ofList es).Alike V (OrderedMap.ofList es') := by
  have hfold : ∀ {m m' : OrderedMap κ Value}, m.Alike V m' →
      (es.foldl (fun m (k, v) => m.insert k v) m).Alike V (es'.foldl (fun m (k, v) => m.insert k v) m') := by
    induction h with
    | nil => exact id
    | cons he _ ih =>
      intro m m' hm
      simp only [List.foldl_cons]
      rw [he.1]
      exact ih (hm.insert _ he.2)
  exact hfold .empty

end OrderedMap

/-! ## Stores -/

/-- The two stores have the same size, below `floor` the same contents, and from there on related ones. -/
structure Matches {α : Type} (floor : Nat) (R : α → α → Prop) (xs ys : Array α) : Prop where
  floor_le : floor ≤ xs.size
  size : ys.size = xs.size
  below : ∀ a, a < floor → ys[a]? = xs[a]?
  related : ∀ a x y, floor ≤ a → xs[a]? = some x → ys[a]? = some y → R x y

namespace Matches

variable {α : Type} {n : Nat} {R : α → α → Prop} {xs ys : Array α}

theorem getD {a : Nat} {d : α} (h : Matches n R xs ys) (ha : n ≤ a) (hd : R d d) : R (xs.getD a d) (ys.getD a d) := by
  simp only [Array.getD_eq_getD_getElem?]
  cases hx : xs[a]? with
  | none =>
    rw [Array.getElem?_eq_none (by rw [h.size]; exact Array.getElem?_eq_none_iff.1 hx)]
    exact hd
  | some x =>
    have hlt : a < ys.size := by
      rw [h.size]
      exact (Array.getElem?_eq_some_iff.1 hx).1
    have hy : ys[a]? = some ys[a] := Array.getElem?_eq_getElem hlt
    rw [hy]
    exact h.related a x _ ha hx hy

theorem push {x y : α} (h : Matches n R xs ys) (hxy : R x y) : Matches n R (xs.push x) (ys.push y) where
  floor_le := by
    have := h.floor_le
    simp only [Array.size_push]
    omega
  size := by simp [h.size]
  below := by
    intro a ha
    have := h.floor_le
    rw [Array.getElem?_push, Array.getElem?_push, h.size, if_neg (by omega), if_neg (by omega), h.below a ha]
  related := by
    intro a x' y' ha hx hy
    rw [Array.getElem?_push] at hx hy
    rw [h.size] at hy
    split at hx
    · next h' =>
      rw [if_pos h'] at hy
      cases hx
      cases hy
      exact hxy
    · next h' =>
      rw [if_neg h'] at hy
      exact h.related a x' y' ha hx hy

theorem modify {a : Nat} {f g : α → α} (h : Matches n R xs ys) (ha : n ≤ a) (hfg : ∀ x y, R x y → R (f x) (g y)) :
    Matches n R (xs.modify a f) (ys.modify a g) where
  floor_le := by simpa using h.floor_le
  size := by simp [h.size]
  below := by
    intro b hb
    rw [Array.getElem?_modify, Array.getElem?_modify, if_neg (by omega), if_neg (by omega), h.below b hb]
  related := by
    intro b x y hb hx hy
    rw [Array.getElem?_modify] at hx hy
    split at hx
    · next hab =>
      subst hab
      rw [if_pos rfl] at hy
      obtain ⟨x₀, hx₀, rfl⟩ := Option.map_eq_some_iff.1 hx
      obtain ⟨y₀, hy₀, rfl⟩ := Option.map_eq_some_iff.1 hy
      exact hfg x₀ y₀ (h.related a x₀ y₀ hb hx₀ hy₀)
    · next hab =>
      rw [if_neg hab] at hy
      exact h.related b x y hb hx hy

theorem setIfInBounds {a : Nat} {x y : α} (h : Matches n R xs ys) (ha : n ≤ a) (hxy : R x y) :
    Matches n R (xs.setIfInBounds a x) (ys.setIfInBounds a y) where
  floor_le := by simpa using h.floor_le
  size := by simp [h.size]
  below := by
    intro b hb
    rw [Array.getElem?_setIfInBounds, Array.getElem?_setIfInBounds, if_neg (by omega), if_neg (by omega), h.below b hb]
  related := by
    intro b x' y' hb hx hy
    rw [Array.getElem?_setIfInBounds] at hx hy
    rw [h.size] at hy
    split at hx
    · next hab =>
      rw [if_pos hab] at hy
      split at hx
      · next hlt =>
        rw [if_pos hlt] at hy
        cases hx
        cases hy
        exact hxy
      · cases hx
    · next hab =>
      rw [if_neg hab] at hy
      exact h.related b x' y' hb hx hy

theorem imp {R' : α → α → Prop} (h : Matches n R xs ys) (hR : ∀ x y, R x y → R' x y) : Matches n R' xs ys :=
  ⟨h.floor_le, h.size, h.below, fun a x y ha hx hy => hR x y (h.related a x y ha hx hy)⟩

end Matches

/-! ## Worlds -/

/-- Rows of values that are alike. -/
def ItemsAlike (V : View) (xs ys : Array Value) : Prop := List.Forall₂ (Value.Alike V) xs.toList ys.toList

namespace ItemsAlike

variable {V : View} {xs ys : Array Value} {u v : Value}

theorem size (h : ItemsAlike V xs ys) : ys.size = xs.size := by
  have := h.length_eq
  simpa using this.symm

theorem push (h : ItemsAlike V xs ys) (huv : u.Alike V v) : ItemsAlike V (xs.push u) (ys.push v) := by
  unfold ItemsAlike
  simp only [Array.toList_push]
  exact List.rel_append h (.cons huv .nil)

theorem setIfInBounds (h : ItemsAlike V xs ys) (i : Nat) (huv : u.Alike V v) :
    ItemsAlike V (xs.setIfInBounds i u) (ys.setIfInBounds i v) := by
  unfold ItemsAlike
  simp only [Array.toList_setIfInBounds]
  exact forall₂_set h huv i

end ItemsAlike

structure Record.Alike (V : View) (r r' : Record) : Prop where
  name : r'.name = r.name
  fields : r.fields.Alike V r'.fields

structure World.Alike (V : View) (w w' : World) : Prop where
  lists : Matches V.lists (ItemsAlike V) w.lists w'.lists
  dictionaries : Matches V.dictionaries (OrderedMap.Alike V) w.dictionaries w'.dictionaries
  sets : w'.sets = w.sets
  records : Matches V.records (Record.Alike V) w.records w'.records
  cells : Matches V.cells (Value.Alike V) w.cells w'.cells
  environments : w.environments = V.environments
  environments' : w'.environments = V.environments
  streams : w'.streams = w.streams
  files : w'.files = w.files
  system : w'.system = w.system
  terminal : w'.terminal = w.terminal
  errors : w'.errors = w.errors

namespace World.Alike

variable {V : View} {w w' : World} {a : Addr} {u v : Value}

theorem list (h : w.Alike V w') (ha : V.lists ≤ a) : ItemsAlike V (w.list a) (w'.list a) := h.lists.getD ha .nil

theorem dictionary (h : w.Alike V w') (ha : V.dictionaries ≤ a) : (w.dictionary a).Alike V (w'.dictionary a) :=
  h.dictionaries.getD ha .empty

theorem set (h : w.Alike V w') : w'.set a = w.set a := by
  unfold World.set
  rw [h.sets]

theorem record (h : w.Alike V w') (ha : V.records ≤ a) : (w.record a).Alike V (w'.record a) :=
  h.records.getD ha ⟨rfl, .empty⟩

theorem cell (h : w.Alike V w') (ha : V.cells ≤ a) : (w.cell a).Alike V (w'.cell a) := h.cells.getD ha rfl

theorem stream (h : w.Alike V w') : w'.stream a = w.stream a := by
  unfold World.stream
  rw [h.streams]

theorem containers (h : w.Alike V w') : w'.containers = w.containers := by
  unfold World.containers
  rw [h.lists.size, h.dictionaries.size, h.sets, h.records.size]

theorem setCell (h : w.Alike V w') (ha : V.cells ≤ a) (huv : u.Alike V v) :
    (w.setCell a u).Alike V (w'.setCell a v) :=
  { h with cells := h.cells.setIfInBounds ha huv }

theorem setListItem (h : w.Alike V w') (ha : V.lists ≤ a) (i : Nat) (huv : u.Alike V v) :
    (w.setListItem a i u).Alike V (w'.setListItem a i v) :=
  { h with
    lists := by
      show Matches _ _ (w.lists.modify a (·.setIfInBounds i u)) (w'.lists.modify a (·.setIfInBounds i v))
      exact h.lists.modify ha fun _ _ hxy => hxy.setIfInBounds i huv }

theorem pushListItem (h : w.Alike V w') (ha : V.lists ≤ a) (huv : u.Alike V v) :
    (w.pushListItem a u).Alike V (w'.pushListItem a v) :=
  { h with
    lists := by
      show Matches _ _ (w.lists.modify a (·.push u)) (w'.lists.modify a (·.push v))
      exact h.lists.modify ha fun _ _ hxy => hxy.push huv }

theorem insertEntry (h : w.Alike V w') (ha : V.dictionaries ≤ a) (k : Key) (huv : u.Alike V v) :
    (w.insertEntry a k u).Alike V (w'.insertEntry a k v) :=
  { h with dictionaries := h.dictionaries.modify ha fun _ _ hm => hm.insert k huv }

theorem setField (h : w.Alike V w') (ha : V.records ≤ a) (field : String) (huv : u.Alike V v) :
    (w.setField a field u).Alike V (w'.setField a field v) :=
  { h with
    records := by
      show Matches _ _ (w.records.modify a fun r => { r with fields := r.fields.insert field u })
        (w'.records.modify a fun r => { r with fields := r.fields.insert field v })
      exact h.records.modify ha fun _ _ hr => ⟨hr.name, hr.fields.insert field huv⟩ }

theorem setStream (h : w.Alike V w') (a : Addr) (s : Stream) : (w.setStream a s).Alike V (w'.setStream a s) :=
  { h with streams := by simp only [World.setStream, h.streams] }

theorem write (h : w.Alike V w') (bytes : ByteArray) : (w.write bytes).Alike V (w'.write bytes) :=
  { h with terminal := by simp only [World.write, h.terminal] }

theorem writeErrors (h : w.Alike V w') (bytes : ByteArray) : (w.writeErrors bytes).Alike V (w'.writeErrors bytes) :=
  { h with errors := by simp only [World.writeErrors, h.errors] }

end World.Alike

end ShellVM
