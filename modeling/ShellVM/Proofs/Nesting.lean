import Mathlib.Data.List.Perm.Subperm
import Mathlib.Logic.Relation
import ShellVM.World

/-!
# Nesting

Lists and tuples hold values that may be lists and tuples again. A value without cycles has no more lists inside of
each other than there are lists (`Acyclic.nests`), because on the way inside no list is met twice. So what goes into
lists to the depth that the number of containers bounds goes to the ground of such values.
-/

namespace ShellVM.Value

variable {w : World} {u v : Value} {vs : List Value} {path : List Addr} {a : Addr} {n m : Nat}

/-- The value is an item of a list or a tuple. -/
def IsItem (w : World) (u : Value) : Value → Prop
  | list a => u ∈ (w.list a).toList
  | tuple vs => u ∈ vs
  | _ => False

/-- Neither the value nor anything inside of its lists and tuples contains itself. -/
def Acyclic (w : World) (v : Value) : Prop :=
  ∀ u, Relation.ReflTransGen (IsItem w) u v → ¬Relation.TransGen (IsItem w) u u

/-- What is inside of a value without cycles has none either. -/
theorem Acyclic.item (h : v.Acyclic w) (hu : IsItem w u v) : u.Acyclic w := fun _ ht => h _ (ht.tail hu)

/-- The value stands for itself: it is neither a list nor a tuple. -/
def IsLeaf : Value → Prop
  | list _ | tuple _ => False
  | _ => True

/-- There are rows of values inside of each other to at most the number given, the row itself counted; tuples do not
count. -/
inductive Nests (w : World) : Nat → List Value → Prop where
  | nil {n : Nat} : Nests w n []
  | list {n : Nat} {a : Addr} {vs : List Value} (items : Nests w n (w.list a).toList) (rest : Nests w (n + 1) vs) :
      Nests w (n + 1) (list a :: vs)
  | tuple {n : Nat} {us vs : List Value} (items : Nests w (n + 1) us) (rest : Nests w (n + 1) vs) :
      Nests w (n + 1) (tuple us :: vs)
  | leaf {n : Nat} {v : Value} {vs : List Value} (single : v.IsLeaf) (rest : Nests w (n + 1) vs) :
      Nests w (n + 1) (v :: vs)

/-! ## The way inside -/

/-- The value has no cycle, and lies inside of all lists of the path. -/
structure Inside (w : World) (path : List Addr) (v : Value) : Prop where
  acyclic : v.Acyclic w
  path : ∀ a ∈ path, Relation.TransGen (IsItem w) v (list a)

namespace Inside

theorem item (h : Inside w path v) (hu : IsItem w u v) : Inside w path u :=
  ⟨h.acyclic.item hu, fun a ha => (h.path a ha).head hu⟩

/-- The items of a list that lies inside of a path lie inside of the longer path. -/
theorem opened (h : Inside w path (list a)) (hu : IsItem w u (list a)) : Inside w (a :: path) u where
  acyclic := h.acyclic.item hu
  path := fun b hb => by
    rcases List.mem_cons.1 hb with rfl | hb
    · exact .single hu
    · exact (h.item hu).path b hb

/-- A list is not met again inside of itself, and if it has items it is one of the lists that there are. -/
theorem path_opened (h : Inside w path (list a)) (hitems : (w.list a).toList ≠ []) (hnodup : path.Nodup)
    (hbound : ∀ b ∈ path, b < w.lists.size) : (a :: path).Nodup ∧ ∀ b ∈ a :: path, b < w.lists.size := by
  have hlt : a < w.lists.size := by
    refine Nat.lt_of_not_le fun hle => hitems ?_
    unfold World.list
    rw [Array.getD_eq_getD_getElem?, Array.getElem?_eq_none hle]
    rfl
  exact ⟨List.nodup_cons.2 ⟨fun hmem => h.acyclic _ .refl (h.path a hmem), hnodup⟩,
    List.forall_mem_cons.2 ⟨hlt, hbound⟩⟩

end Inside

/-- A path that meets no list twice is no longer than there are lists. -/
theorem path_length_le (hnodup : path.Nodup) (hbound : ∀ b ∈ path, b < w.lists.size) : path.length ≤ w.lists.size := by
  have hsub : path ⊆ List.range w.lists.size := fun b hb => List.mem_range.2 (hbound b hb)
  have hlength := (hnodup.subperm hsub).length_le
  rwa [List.length_range] at hlength

/-- If the lists on the way nest no deeper, neither does the row. The recursion is on the row, whose tuples hold rows
of their own. -/
theorem nests_row (hlists : ∀ a, Inside w path (list a) → Nests w n (w.list a).toList) :
    ∀ vs : List Value, (∀ v ∈ vs, Inside w path v) → Nests w (n + 1) vs
  | [], _ => .nil
  | v :: vs, hvs => by
    have hrest := nests_row hlists vs fun v hv => hvs v (List.mem_cons_of_mem _ hv)
    have hv := hvs v List.mem_cons_self
    cases v with
    | list a => exact .list (hlists a hv) hrest
    | tuple us => exact .tuple (nests_row hlists us fun u hu => hv.item hu) hrest
    | _ => exact .leaf trivial hrest
termination_by vs => sizeOf vs

/-- The induction is on the number of lists that are not open yet: as none is met again, there is one left for each
list with items on the way. -/
theorem nests_inside : ∀ (n : Nat) {path : List Addr} {vs : List Value}, path.Nodup → (∀ a ∈ path, a < w.lists.size) →
    w.lists.size < n + path.length → (∀ v ∈ vs, Inside w path v) → Nests w n vs
  | 0, path, vs, hnodup, hbound, hdepth, _ => by
    have := path_length_le hnodup hbound
    omega
  | n + 1, path, vs, hnodup, hbound, hdepth, hvs => by
    refine nests_row (fun a ha => ?_) vs hvs
    by_cases hitems : (w.list a).toList = []
    · rw [hitems]
      exact .nil
    obtain ⟨hnodup', hbound'⟩ := ha.path_opened hitems hnodup hbound
    have hdepth' : w.lists.size < n + (a :: path).length := by
      rw [List.length_cons]
      omega
    exact nests_inside n hnodup' hbound' hdepth' fun u hu => ha.opened hu

/-- No more lists are inside of each other than there are. -/
theorem Acyclic.nests (h : ∀ v ∈ vs, v.Acyclic w) : Nests w (w.lists.size + 1) vs :=
  nests_inside (w.lists.size + 1) .nil (fun _ ha => absurd ha List.not_mem_nil) (Nat.lt_succ_self _)
    fun v hv => ⟨h v hv, fun _ ha => absurd ha List.not_mem_nil⟩

/-- What goes into `n` rows goes into more. -/
theorem Nests.mono (h : Nests w n vs) : ∀ {m}, n ≤ m → Nests w m vs := by
  induction h with
  | nil => exact fun _ => .nil
  | list _ _ ihItems ihRest =>
    intro m hm
    obtain ⟨m, rfl⟩ := Nat.exists_eq_add_of_le' (Nat.le_trans (Nat.le_add_left 1 _) hm)
    exact .list (ihItems (Nat.le_of_succ_le_succ hm)) (ihRest hm)
  | tuple _ _ ihItems ihRest =>
    intro m hm
    obtain ⟨m, rfl⟩ := Nat.exists_eq_add_of_le' (Nat.le_trans (Nat.le_add_left 1 _) hm)
    exact .tuple (ihItems hm) (ihRest hm)
  | leaf single _ ih =>
    intro m hm
    obtain ⟨m, rfl⟩ := Nat.exists_eq_add_of_le' (Nat.le_trans (Nat.le_add_left 1 _) hm)
    exact .leaf single (ih hm)

/-- On the way inside of such rows one comes to an end. -/
theorem Nests.acc (h : Nests w n vs) : ∀ v ∈ vs, Acc (IsItem w) v := by
  induction h with
  | nil => exact fun _ hv => absurd hv List.not_mem_nil
  | list _ _ ihItems ihRest => exact List.forall_mem_cons.2 ⟨⟨_, ihItems⟩, ihRest⟩
  | tuple _ _ ihItems ihRest => exact List.forall_mem_cons.2 ⟨⟨_, ihItems⟩, ihRest⟩
  | @leaf _ v _ single _ ih =>
    refine List.forall_mem_cons.2 ⟨⟨_, fun u hu => ?_⟩, ih⟩
    cases v <;> first | exact hu.elim | exact single.elim

theorem not_rel_self_of_acc {α : Type} {r : α → α → Prop} {x : α} (h : Acc r x) : ¬r x x := by
  induction h with
  | intro x _ ih => exact fun hx => ih x hx hx

/-- Values that nest to some depth have no cycles. -/
theorem Nests.acyclic (h : Nests w n vs) : ∀ v ∈ vs, v.Acyclic w := by
  intro v hv u hu
  have hacc : Acc (IsItem w) u := by
    rcases Relation.reflTransGen_iff_eq_or_transGen.1 hu with rfl | hu
    · exact h.acc _ hv
    · exact (h.acc v hv).inv_of_transGen hu
  exact not_rel_self_of_acc hacc.transGen

end ShellVM.Value
