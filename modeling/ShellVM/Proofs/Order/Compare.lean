import ShellVM.Proofs.Nesting
import ShellVM.Proofs.Order.Content
import ShellVM.Value.Order

/-!
# What values show

Values of nil, booleans, integers, strings, lists and tuples without cycles are those that show trees (`Plain.shows`,
`Shows.plain`). Equality and order of two values are those of the trees (`sameTo_iff`, `lessTo_eq_rank`); the depth to
which the machine compares suffices.
-/

namespace ShellVM.Value

mutual

/-- The value shows the tree, with lists inside of each other to at most the depth given. -/
inductive Shows (w : World) : (depth : Nat) → Value → Content → Prop where
  | nil {n : Nat} : Shows w n nil .nil
  | boolean {n : Nat} (b : Bool) : Shows w n (boolean b) (.boolean b)
  | integer {n : Nat} (i : Int64) : Shows w n (integer i) (.integer i)
  | string {n : Nat} (s : String) : Shows w n (string s) (.string s)
  | list {n : Nat} {a : Addr} {ss : List Content} (items : ShowsAll w n (w.list a).toList ss) :
      Shows w n (list a) (.list ss)
  | tuple {n : Nat} {vs : List Value} {ss : List Content} (items : ShowsAll w (n + 1) vs ss) :
      Shows w n (tuple vs) (.tuple ss)

/-- The row shows the trees. Rows inside of each other are counted, so that items are one less deep; only the empty
row has no depth. -/
inductive ShowsAll (w : World) : (rows : Nat) → List Value → List Content → Prop where
  | nil {n : Nat} : ShowsAll w n [] []
  | cons {n : Nat} {v : Value} {vs : List Value} {s : Content} {ss : List Content} (head : Shows w n v s)
      (tail : ShowsAll w (n + 1) vs ss) : ShowsAll w (n + 1) (v :: vs) (s :: ss)

end

variable {w : World} {u v : Value} {us vs : List Value} {s t : Content} {ss ts : List Content} {n m : Nat}

/-! ## What values show -/

mutual

theorem Shows.mono : ∀ {v s n m}, Shows w n v s → n ≤ m → Shows w m v s
  | _, _, _, _, .nil, _ => .nil
  | _, _, _, _, .boolean b, _ => .boolean b
  | _, _, _, _, .integer i, _ => .integer i
  | _, _, _, _, .string s, _ => .string s
  | _, _, _, _, .list items, h => .list (items.mono h)
  | _, _, _, _, .tuple items, h => .tuple (items.mono (Nat.succ_le_succ h))

theorem ShowsAll.mono : ∀ {vs ss n m}, ShowsAll w n vs ss → n ≤ m → ShowsAll w m vs ss
  | _, _, _, _, .nil, _ => .nil
  | _, _, _, 0, .cons _ _, h => absurd h (Nat.not_succ_le_zero _)
  | _, _, _, _ + 1, .cons head tail, h => .cons (head.mono (Nat.le_of_succ_le_succ h)) (tail.mono h)

end

/-- The value is made of nil, booleans, integers, strings, lists and tuples only, and nothing in it contains itself. -/
structure Plain (w : World) (v : Value) : Prop where
  acyclic : v.Acyclic w
  made : ∀ u, Relation.ReflTransGen (IsItem w) u v → u.kind ∈ [.nil, .boolean, .integer, .string, .list, .tuple]

theorem Plain.item (h : Plain w v) (hu : IsItem w u v) :
    Plain w u := ⟨h.acyclic.item hu, fun _ ht => h.made _ (ht.tail hu)⟩

/-- Such values show trees to the depth to which they nest. -/
theorem Nests.shows (h : Nests w n vs) : (∀ v ∈ vs, Plain w v) → ∃ ss, ShowsAll w n vs ss := by
  induction h with
  | nil => exact fun _ => ⟨[], .nil⟩
  | list _ _ ihItems ihRest =>
    intro hvs
    obtain ⟨hv, hvs⟩ := List.forall_mem_cons.1 hvs
    obtain ⟨ss, hitems⟩ := ihItems fun u hu => hv.item hu
    obtain ⟨ts, hrest⟩ := ihRest hvs
    exact ⟨_, .cons (.list hitems) hrest⟩
  | tuple _ _ ihItems ihRest =>
    intro hvs
    obtain ⟨hv, hvs⟩ := List.forall_mem_cons.1 hvs
    obtain ⟨ss, hitems⟩ := ihItems fun u hu => hv.item hu
    obtain ⟨ts, hrest⟩ := ihRest hvs
    exact ⟨_, .cons (.tuple hitems) hrest⟩
  | @leaf _ v _ single _ ih =>
    intro hvs
    obtain ⟨hv, hvs⟩ := List.forall_mem_cons.1 hvs
    obtain ⟨ts, hrest⟩ := ih hvs
    have hshows : ∃ s, ∀ n, Shows w n v s := by
      have hkind := hv.made v .refl
      cases v with
      | nil => exact ⟨_, fun _ => .nil⟩
      | boolean b => exact ⟨_, fun _ => .boolean b⟩
      | integer i => exact ⟨_, fun _ => .integer i⟩
      | string s => exact ⟨_, fun _ => .string s⟩
      | list | tuple => exact single.elim
      | _ => simp [kind] at hkind
    obtain ⟨s, hs⟩ := hshows
    exact ⟨_, .cons (hs _) hrest⟩

theorem Plain.shows (h : Plain w v) : ∃ s, Shows w w.containers v s := by
  have hnests : Nests w (w.containers + 1) [v] := by
    refine (Acyclic.nests fun u hu => ?_).mono (Nat.succ_le_succ ?_)
    · exact List.mem_singleton.1 hu ▸ h.acyclic
    · unfold World.containers
      omega
  obtain ⟨ss, hss⟩ := hnests.shows fun u hu => List.mem_singleton.1 hu ▸ h
  cases hss with
  | cons head _ => exact ⟨_, head⟩

/-- Values that show a tree have no cycles. -/
theorem ShowsAll.nests : ∀ {n vs ss}, ShowsAll w n vs ss → Nests w n vs
  | _, _, _, .nil => .nil
  | _, _, _, .cons (.list items) tail => .list items.nests tail.nests
  | _, _, _, .cons (.tuple items) tail => .tuple items.nests tail.nests
  | _, _, _, .cons .nil tail | _, _, _, .cons (.boolean _) tail | _, _, _, .cons (.integer _) tail
  | _, _, _, .cons (.string _) tail => .leaf trivial tail.nests

theorem ShowsAll.mem : ∀ {n vs ss}, ShowsAll w n vs ss → ∀ v ∈ vs, ∃ m s, Shows w m v s
  | _, _, _, .nil => fun _ hv => absurd hv List.not_mem_nil
  | _, _, _, .cons head tail => List.forall_mem_cons.2 ⟨⟨_, _, head⟩, tail.mem⟩

theorem Shows.item (h : Shows w n v s) (hu : IsItem w u v) : ∃ m t, Shows w m u t := by
  cases h with
  | list items => exact items.mem u hu
  | tuple items => exact items.mem u hu
  | _ => exact hu.elim

/-- The values that show trees are those that are made so. -/
theorem Shows.plain (h : Shows w n v s) : Plain w v where
  acyclic := (ShowsAll.cons h .nil).nests.acyclic v List.mem_cons_self
  made := fun u hu => by
    have hshows : ∃ m t, Shows w m u t := by
      induction hu using Relation.ReflTransGen.head_induction_on with
      | refl => exact ⟨_, _, h⟩
      | head hu _ ih =>
        obtain ⟨m, t, ht⟩ := ih
        exact ht.item hu
    obtain ⟨m, t, ht⟩ := hshows
    cases ht <;> simp [kind]

/-! ## Equality -/

/-- Equality of the items of rows that are inside of each other, `n` rows counted. -/
def sameIn (w : World) : (n : Nat) → Value → Value → Bool
  | 0 => fun _ _ => false
  | n + 1 => sameTo w n

theorem sameTo_eq (n : Nat) : sameTo w n = sameWith (sameIn w n) w := by cases n <;> rfl

theorem sameAllWith_eq (deep : Value → Value → Bool) : ∀ us vs, sameAllWith deep w us vs = us.isEqv vs (sameWith deep w)
  | [], [] | [], _ :: _ | _ :: _, [] => rfl
  | u :: us, v :: vs => by rw [sameAllWith, List.isEqv, sameAllWith_eq deep us vs]

mutual

/-- Two values are equal if they show the same tree. -/
theorem sameTo_iff {n u s v t} (hu : Shows w n u s) (hv : Shows w n v t) : sameTo w n u v = true ↔ s = t := by
  rw [sameTo_eq]
  cases hu with
  | @list _ a _ is =>
    cases hv with
    | @list _ b _ is' =>
      have hitems := isEqv_iff is is'
      -- Lists that are the same storage are equal without a look inside.
      have hshortcut : a = b → (w.list a).toList.isEqv (w.list b).toList (sameIn w n) = true := by
        rintro rfl
        exact (isEqv_iff is is).2 rfl
      rw [@Array.isEqv_toList _ _ ⟨sameIn w n⟩] at hitems hshortcut
      rw [sameWith, Bool.or_eq_true, beq_iff_eq, or_iff_right_of_imp hshortcut, hitems, Content.list.injEq]
    | _ => simp [sameWith]
  | tuple is =>
    cases hv with
    | tuple is' => rw [sameWith, sameAllWith_eq, ← sameTo_eq, Content.tuple.injEq]; exact isEqv_iff is is'
    | _ => simp [sameWith]
  | _ => cases hv <;> simp [sameWith]

theorem isEqv_iff {n us ss vs ts} (hus : ShowsAll w n us ss) (hvs : ShowsAll w n vs ts) :
    us.isEqv vs (sameIn w n) = true ↔ ss = ts := by
  cases hus with
  | nil => cases hvs <;> simp [List.isEqv]
  | cons hu hus =>
    cases hvs with
    | nil => simp [List.isEqv]
    | cons hv hvs =>
      rw [List.isEqv, Bool.and_eq_true, isEqv_iff hus hvs, List.cons.injEq]
      exact and_congr_left' (sameTo_iff hu hv)

end

theorem same_iff (hu : Shows w w.containers u s) (hv : Shows w w.containers v t) : same w u v = true ↔
    s = t := sameTo_iff hu hv

/-! ## Order -/

/-- Is the item of the first row less than that of the second, for rows that are inside of each other, `n` rows
counted? -/
def lessIn (w : World) (op : BinaryOp) : (n : Nat) → Value → Value → Except Cause Bool
  | 0 => fun _ _ => .ok false
  | n + 1 => lessTo w op n

theorem lessTo_eq (op : BinaryOp) (n : Nat) : lessTo w op n = lessWith (lessIn w op n) w op := by cases n <;> rfl

theorem lessAllWith_eq (deep : Value → Value → Except Cause Bool) (op : BinaryOp) :
    ∀ us vs, lessAllWith deep w op us vs = lessSequence w (lessWith deep w op) us vs
  | [], _ => by rw [lessAllWith, lessSequence]
  | _ :: _, [] => by rw [lessAllWith, lessSequence]
  | u :: us, v :: vs => by rw [lessAllWith, lessSequence, lessAllWith_eq deep op us vs]

theorem lt_integer (a b : Int64) : decide (a < b) = (Ord.compare a b == .lt) := by
  rw [Bool.eq_iff_iff, decide_eq_true_eq, beq_iff_eq, Std.compare_eq_lt]

theorem lt_string (a b : String) : decide (a < b) = (Ord.compare a b == .lt) := by
  rw [Bool.eq_iff_iff, decide_eq_true_eq, beq_iff_eq]
  exact compareOfLessAndEq_eq_lt.symm

theorem lt_boolean (a b : Bool) : (!a && b) = (Ord.compare a b == .lt) := by cases a <;> cases b <;> rfl

mutual

/-- One value is less than another if its tree is. -/
theorem lessTo_eq_rank {n u s v t} (op : BinaryOp) (hu : Shows w n u s) (hv : Shows w n v t) (hn : n ≤ w.containers) :
    (lessTo w op n u v).toOption = (s.rank t).map (· == .lt) := by
  rw [lessTo_eq]
  cases hu with
  | list is =>
    cases hv with
    | list is' =>
      rw [lessWith]
      exact lessSequence_eq_order op is is' (Nat.le_succ_of_le hn)
    | _ => rfl
  | tuple is =>
    cases hv with
    | tuple is' =>
      rw [lessWith, lessAllWith_eq, ← lessTo_eq]
      exact lessSequence_eq_order op is is' (Nat.succ_le_succ hn)
    | _ => rfl
  | integer i =>
    cases hv with
    | integer j => exact congrArg some (lt_integer i j)
    | _ => rfl
  | string s =>
    cases hv with
    | string t => exact congrArg some (lt_string s t)
    | _ => rfl
  | boolean b =>
    cases hv with
    | boolean c => exact congrArg some (lt_boolean b c)
    | _ => rfl
  | nil => cases hv <;> rfl

/-- Rows compare by the first pair of items that are not the same. -/
theorem lessSequence_eq_order {n us ss vs ts} (op : BinaryOp) (hus : ShowsAll w n us ss) (hvs : ShowsAll w n vs ts)
    (hn : n ≤ w.containers + 1) :
    (lessSequence w (lessIn w op n) us vs).toOption = (Content.orderAll ss ts).map (· == .lt) := by
  cases hus with
  | nil => cases hvs <;> rfl
  | @cons n _ _ s _ hu hus =>
    cases hvs with
    | nil => rfl
    | @cons _ _ _ t _ hv hvs =>
      have hle : n ≤ w.containers := Nat.le_of_succ_le_succ hn
      have hsame := same_iff (hu.mono hle) (hv.mono hle)
      rw [lessSequence]
      split
      · next h =>
        obtain rfl := hsame.1 h
        rw [Content.orderAll_cons_self]
        exact lessSequence_eq_order op hus hvs hn
      · next h =>
        have hne : s ≠ t := mt hsame.2 h
        rw [Content.orderAll_of_ne hne, ← Content.rank_of_ne hne]
        exact lessTo_eq_rank op hu hv hle

end

end ShellVM.Value
