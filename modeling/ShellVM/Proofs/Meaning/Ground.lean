import ShellVM.Proofs.Flow.Basic
import ShellVM.Proofs.Meaning.Evaluator
import ShellVM.Proofs.Turns
import ShellVM.Proofs.Window.Quiet

/-!
# Machines that stand for scenes

`Sits` says that a machine stands for a scene of the reference evaluator: it is at some offset of the entry page, its
locals have the values of the variables in scope, and its world is that of the scene, all up to the traces of errors.
What else lies on its stacks is its `Ground`, on which the code at hand leaves its values.
-/

namespace ShellVM

/-- What lies in the machine below the values of the code at hand: on the stack the values of expressions that are not
complete and, where there is none, the variables; and the handlers and the iterators. -/
structure Ground where
  slots : List (Option Value)
  handlers : List Handler
  iterators : List Iter

namespace Ground

/-- More values, the latest last. -/
def pushAll (G : Ground) (us : List Value) : Ground := { G with slots := G.slots ++ us.map some }

def push (G : Ground) (u : Value) : Ground := G.pushAll [u]

/-- Places for more variables. -/
def grow (G : Ground) (n : Nat) : Ground := { G with slots := G.slots ++ List.replicate n none }

@[simp] theorem pushAll_nil (G : Ground) : G.pushAll [] = G := by simp [pushAll]

theorem pushAll_push (G : Ground) (us : List Value) (u : Value) : (G.pushAll us).push u = G.pushAll (us ++ [u]) := by
  simp [pushAll, push]

@[simp] theorem grow_zero (G : Ground) : G.grow 0 = G := by simp [grow]

theorem grow_grow (G : Ground) (n k : Nat) : (G.grow n).grow k = G.grow (n + k) := by
  simp only [grow, List.append_assoc, List.replicate_append_replicate]

@[simp] theorem length_pushAll (G : Ground) (us : List Value) :
    (G.pushAll us).slots.length = G.slots.length + us.length := by
  simp [pushAll]

@[simp] theorem length_push (G : Ground) (u : Value) : (G.push u).slots.length = G.slots.length + 1 := by simp [push]

@[simp] theorem length_grow (G : Ground) (n : Nat) : (G.grow n).slots.length = G.slots.length + n := by simp [grow]

end Ground

/-! ## The stack -/

variable {V : View} {locals new : List Local} {G G' : Ground} {bindings : List (String × Value)}
  {stack below : Array Value} {u v : Value} {us : List Value}

/-- A local has the name and the value of a variable, if its place is below a height. -/
def Lives (V : View) (height : Nat) (stack : Array Value) (l : Local) (b : String × Value) : Prop :=
  l.name = b.1 ∧ (l.slot.toNat < height → ∃ u, stack[l.slot.toNat]? = some u ∧ u.Alike V b.2)

theorem Lives.beq {height : Nat} {l : Local} {b : String × Value} (h : Lives V height stack l b) (name : String) :
    (name == b.1) = (l.name == name) := by
  rw [h.1, BEq.comm]

/-- On the stack lie the values of the ground, and the variables at the places of their locals, as far as these belong
to it. -/
structure Bears (V : View) (locals : List Local) (G : Ground) (bindings : List (String × Value))
    (stack : Array Value) : Prop where
  height : G.slots.length ≤ stack.size
  values : ∀ (j : Nat) (u : Value), G.slots[j]? = some (some u) → stack[j]? = some u
  bindings : List.Forall₂ (Lives V G.slots.length stack) locals bindings

namespace Bears

/-- What holds of a ground holds of the part of it that comes first. -/
theorem of_take {slots : List (Option Value)} {handlers : List Handler} {iterators : List Iter} {stack' : Array Value}
    (h : Bears V locals G bindings stack) (hslots : slots <+: G.slots) (hsize : slots.length ≤ stack'.size)
    (hstack : ∀ j, j < slots.length → stack'[j]? = stack[j]?) :
    Bears V locals ⟨slots, handlers, iterators⟩ bindings stack' where
  height := hsize
  values := fun j u hj => by
    have hlt : j < slots.length := (List.getElem?_eq_some_iff.1 hj).1
    rw [hstack j hlt]
    refine h.values j u ?_
    rw [List.prefix_iff_getElem?.1 hslots j hlt, ← List.getElem?_eq_getElem hlt]
    exact hj
  bindings := h.bindings.imp fun l b ⟨hname, hlive⟩ => ⟨hname, fun hlt => by
    obtain ⟨u, hu, halike⟩ := hlive (Nat.lt_of_lt_of_le hlt hslots.length_le)
    exact ⟨u, (hstack _ hlt).trans hu, halike⟩⟩

/-- The values on top of a ground. -/
theorem split (h : Bears V locals (G.pushAll us) bindings stack) (hsize : stack.size = G.slots.length + us.length) :
    ∃ below, stack = below ++ us.toArray ∧ below.size = G.slots.length ∧ Bears V locals G bindings below := by
  have hdrop : stack.toList.drop G.slots.length = us := by
    apply List.ext_getElem?
    intro j
    rw [List.getElem?_drop, Array.getElem?_toList]
    by_cases hj : j < us.length
    · rw [List.getElem?_eq_getElem hj]
      refine h.values _ _ ?_
      show (G.slots ++ us.map some)[G.slots.length + j]? = _
      rw [List.getElem?_append_right (by omega), Nat.add_sub_cancel_left, List.getElem?_map,
        List.getElem?_eq_getElem hj]
      rfl
    · rw [List.getElem?_eq_none (by omega), Array.getElem?_eq_none (by omega)]
  refine ⟨(stack.toList.take G.slots.length).toArray, ?_, ?_, ?_⟩
  · apply Array.ext'
    rw [Array.toList_append]
    show stack.toList = stack.toList.take _ ++ us
    rw [← hdrop, List.take_append_drop]
  · simp only [List.size_toArray, List.length_take, Array.length_toList]
    omega
  · refine h.of_take (List.prefix_append ..) ?_ fun j hj => ?_
    · simp only [List.size_toArray, List.length_take, Array.length_toList]
      omega
    · rw [← Array.getElem?_toList, ← Array.getElem?_toList]
      exact List.getElem?_take_of_lt hj

/-- A value on top of a ground. -/
theorem push (h : Bears V locals G bindings below) (hsize : below.size = G.slots.length)
    (hlocals : ∀ l ∈ locals, l.slot.toNat < G.slots.length) (u : Value) :
    Bears V locals (G.push u) bindings (below.push u) where
  height := by simp [hsize]
  values := fun j x hj => by
    by_cases hlt : j < G.slots.length
    · rw [Array.getElem?_push_lt (by omega), ← Array.getElem?_eq_getElem]
      refine h.values j x ?_
      have : (G.slots ++ [some u])[j]? = some (some x) := hj
      rwa [List.getElem?_append_left hlt] at this
    · have : (G.slots ++ [some u])[j]? = some (some x) := hj
      rw [List.getElem?_append_right (by omega)] at this
      obtain ⟨hj', hx⟩ := List.getElem?_eq_some_iff.1 this
      simp only [List.length_cons, List.length_nil] at hj'
      obtain rfl : j = below.size := by omega
      simp only [List.getElem_singleton, Option.some.injEq] at hx
      rw [Array.getElem?_push_size, hx]
  bindings := by
    have := h.bindings
    refine (List.forall₂_iff_get.2 ?_)
    obtain ⟨hlength, hget⟩ := List.forall₂_iff_get.1 this
    refine ⟨hlength, fun i h₁ h₂ => ?_⟩
    obtain ⟨hname, hlive⟩ := hget i h₁ h₂
    refine ⟨hname, fun _ => ?_⟩
    have hlt := hlocals _ (List.get_mem locals ⟨i, h₁⟩)
    obtain ⟨x, hx, halike⟩ := hlive hlt
    refine ⟨x, ?_, halike⟩
    rw [Array.getElem?_push_lt (by omega), ← Array.getElem?_eq_getElem]
    exact hx

/-- The inner variables are forgotten. -/
theorem drop (h : Bears V (new ++ locals) G bindings stack) : Bears V locals G (bindings.drop new.length) stack :=
  { h with bindings := by simpa using List.forall₂_drop new.length h.bindings }

/-- The value on top becomes a variable. -/
theorem declare (h : Bears V locals (G.push u) bindings stack) (huv : u.Alike V v) {l : Local}
    (hslot : l.slot.toNat = G.slots.length) : Bears V (l :: locals) (G.grow 1) ((l.name, v) :: bindings) stack where
  height := by simpa using h.height
  values := fun j x hj => h.values j x (by
    have hj' : (G.slots ++ [none])[j]? = some (some x) := hj
    show (G.slots ++ [some u])[j]? = some (some x)
    by_cases hlt : j < G.slots.length
    · rw [List.getElem?_append_left hlt] at hj' ⊢
      exact hj'
    · rw [List.getElem?_append_right (by omega)] at hj'
      obtain ⟨hlt', hx⟩ := List.getElem?_eq_some_iff.1 hj'
      simp only [List.length_cons, List.length_nil] at hlt'
      simp only [List.getElem_singleton, reduceCtorEq] at hx)
  bindings := by
    refine .cons ⟨rfl, fun _ => ⟨u, ?_, huv⟩⟩ (by simpa using h.bindings)
    refine h.values _ _ ?_
    show (G.slots ++ [some u])[l.slot.toNat]? = some (some u)
    rw [hslot, List.getElem?_append_right (Nat.le_refl _), Nat.sub_self]
    rfl

/-- The variable that a name stands for is the one of the first local with that name. -/
theorem lookup (h : Bears V locals G bindings stack) {name : String} {l : Local}
    (hl : locals.find? (·.name == name) = some l) (hslot : l.slot.toNat < G.slots.length) :
    ∃ u v, bindings.lookup name = some v ∧ stack[l.slot.toNat]? = some u ∧ u.Alike V v := by
  have hall := h.bindings
  induction hall with
  | nil => cases hl
  | @cons l' b locals bindings hb _ ih =>
    have hbeq := hb.beq name
    rw [List.find?_cons] at hl
    cases hx : l'.name == name with
    | true =>
      rw [hx] at hl hbeq
      obtain rfl := Option.some.inj hl
      obtain ⟨u, hu, halike⟩ := hb.2 hslot
      obtain ⟨x, v⟩ := b
      exact ⟨u, v, by rw [List.lookup_cons, hbeq], hu, halike⟩
    | false =>
      rw [hx] at hl hbeq
      obtain ⟨u, v, hv, hu, halike⟩ := ih ⟨h.height, h.values, ‹_›⟩ hl
      obtain ⟨x, w⟩ := b
      exact ⟨u, v, by rw [List.lookup_cons, hbeq]; exact hv, hu, halike⟩

/-- An assignment to the variable that a name stands for changes the place of its local, and no other one. -/
theorem assign (h : Bears V locals G bindings stack) {name : String} {l : Local}
    (hl : locals.find? (·.name == name) = some l) (hplaces : ∀ l ∈ locals, G.slots[l.slot.toNat]? = some none)
    (hdistinct : locals.Pairwise fun l l' => l.slot ≠ l'.slot) (huv : u.Alike V v) (hslot : l.slot.toNat < stack.size) :
    ∃ bindings', Eval.assigned name v bindings = some bindings' ∧
    Bears V locals G bindings' (stack.set l.slot.toNat u hslot) := by
  have hlive : ∀ l' b, l'.slot ≠ l.slot → Lives V G.slots.length stack l' b →
      Lives V G.slots.length (stack.set l.slot.toNat u hslot) l' b := by
    rintro l' b hne ⟨hname, hlive⟩
    refine ⟨hname, fun hlt => ?_⟩
    obtain ⟨x, hx, halike⟩ := hlive hlt
    exact ⟨x, by rw [Array.getElem?_set_ne _ fun heq => hne (UInt8.toNat_inj.1 heq.symm)]; exact hx, halike⟩
  have hbindings : ∃ bindings', Eval.assigned name v bindings = some bindings' ∧
      List.Forall₂ (Lives V G.slots.length (stack.set l.slot.toNat u hslot)) locals bindings' := by
    have hall := h.bindings
    clear h hplaces
    induction hall with
    | nil => cases hl
    | @cons l' b locals bindings hb hrest ih =>
      obtain ⟨hfirst, hdistinct⟩ := List.pairwise_cons.1 hdistinct
      have hbeq := hb.beq name
      obtain ⟨x, w⟩ := b
      rw [List.find?_cons] at hl
      cases hx : l'.name == name with
      | true =>
        rw [hx] at hl hbeq
        obtain rfl := Option.some.inj hl
        refine ⟨(x, v) :: bindings, by rw [Eval.assigned, if_pos hbeq], .cons ⟨hb.1, fun _ => ⟨u, ?_, huv⟩⟩ ?_⟩
        · rw [Array.getElem?_set_self]
        · have hmem := List.forall₂_iff_get.1 hrest
          refine List.forall₂_iff_get.2 ⟨hmem.1, fun i h₁ h₂ => hlive _ _ ?_ (hmem.2 i h₁ h₂)⟩
          exact (hfirst _ (List.get_mem locals ⟨i, h₁⟩)).symm
      | false =>
        rw [hx] at hl hbeq
        obtain ⟨bindings', hassigned, hbindings⟩ := ih hl hdistinct
        refine ⟨(x, w) :: bindings', ?_, .cons (hlive _ _ (hfirst l (List.mem_of_find?_eq_some hl)) hb) hbindings⟩
        rw [Eval.assigned, if_neg (Bool.eq_false_iff.1 hbeq), hassigned]
        rfl
  obtain ⟨bindings', hassigned, hbindings⟩ := hbindings
  refine ⟨bindings', hassigned, ?_, fun j x hj => ?_, hbindings⟩
  · rw [Array.size_set]
    exact h.height
  · have hne : l.slot.toNat ≠ j := by
      rintro rfl
      cases (hplaces l (List.mem_of_find?_eq_some hl)).symm.trans hj
    rw [Array.getElem?_set_ne _ hne]
    exact h.values j x hj

end Bears

end ShellVM
