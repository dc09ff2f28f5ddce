import ShellVM.Proofs.Alike.World
import ShellVM.Value.Order
import ShellVM.Value.Printer

/-!
# What can be seen of values that are alike

Equality, order and text do not tell values that are alike apart.
-/

namespace ShellVM.Value

variable {V : View} {w w' : World}

section Same

variable {deep deep' : Value → Value → Bool}

theorem isEqv_alike (hdeep : ∀ u u' v v', u.Alike V u' → v.Alike V v' → deep' u' v' = deep u v)
    {xs xs' ys ys' : Array Value} (hx : ItemsAlike V xs xs') (hy : ItemsAlike V ys ys') :
    xs'.isEqv ys' deep' = xs.isEqv ys deep := by
  have hall : ∀ {us us' vs vs' : List Value}, List.Forall₂ (Alike V) us us' → List.Forall₂ (Alike V) vs vs' →
      us'.isEqv vs' deep' = us.isEqv vs deep := by
    intro us us' vs vs' hu
    induction hu generalizing vs vs' with
    | nil =>
      intro hv
      cases hv <;> rfl
    | cons hu _ ih =>
      intro hv
      cases hv with
      | nil => rfl
      | cons hv htail => simp only [List.isEqv, hdeep _ _ _ _ hu hv, ih htail]
  have : BEq Value := ⟨deep⟩
  rw [← Array.isEqv_toList, ← Array.isEqv_toList]
  exact hall hx hy

theorem sameEntries_alike {κ : Type} [BEq κ] [Hashable κ] {m m' n n' : OrderedMap κ Value}
    (hdeep : ∀ u u' v v', u.Alike V u' → v.Alike V v' → deep' u' v' = deep u v) (hm : m.Alike V m')
    (hn : n.Alike V n') : m'.sameEntries deep' n' = m.sameEntries deep n := by
  have hall : ∀ {es es' : List (κ × Value)}, List.Forall₂ (fun e e' => e'.1 = e.1 ∧ e.2.Alike V e'.2) es es' →
      (es'.all fun (k, v) => (n'.get? k).any (deep' v)) = es.all fun (k, v) => (n.get? k).any (deep v) := by
    intro es es' h
    induction h with
    | nil => rfl
    | cons he _ ih =>
      simp only [List.all_cons, ih, he.1]
      rcases hn.get? _ with ⟨h₁, h₂⟩ | ⟨u, v, h₁, h₂, huv⟩
      · rw [h₁, h₂]
        rfl
      · rw [h₁, h₂]
        simp only [Option.any_some, hdeep _ _ _ _ he.2 huv]
  unfold OrderedMap.sameEntries
  rw [hm.size, hn.size, ← Array.all_toList, ← Array.all_toList]
  congr 1
  exact hall hm.entries

/-- Values of different kinds are equal only if they are numbers. -/
theorem sameWith_of_kind {u v : Value} (hk : u.kind ≠ v.kind) (hn : u.asNumber? = none ∨ v.asNumber? = none) :
    sameWith deep w u v = false := by
  cases u <;> cases v <;> first | rfl | exact absurd rfl hk | (rcases hn with hn | hn <;> cases hn)

theorem sameWith_apart {u u' v v' : Value} (hu : u.Alike V u') (hv : v.Alike V v') (hk : u.kind ≠ v.kind)
    (hn : u.asNumber? = none ∨ v.asNumber? = none) : sameWith deep' w' u' v' = sameWith deep w u v := by
  rw [sameWith_of_kind hk hn, sameWith_of_kind (by rwa [hu.kind, hv.kind]) (by rwa [hu.asNumber?, hv.asNumber?])]

/-- Two values of the same kind without parts. -/
theorem sameWith_leaves {u u' v v' : Value} (hu : u' = u) (hv : v' = v)
    (h : sameWith deep' w' u v = sameWith deep w u v) : sameWith deep' w' u' v' = sameWith deep w u v := by
  rw [hu, hv, h]

mutual

theorem sameWith_alike (hw : w.Alike V w')
    (hdeep : ∀ u u' v v', u.Alike V u' → v.Alike V v' → deep' u' v' = deep u v) : ∀ {u u' v v' : Value},
    u.Alike V u' → v.Alike V v' → sameWith deep' w' u' v' = sameWith deep w u v
  | .list a, u', v, v', hu, hv => by
    cases v with
    | list b =>
      obtain ⟨rfl, ha⟩ := hu
      obtain ⟨rfl, hb⟩ := hv
      simp only [sameWith, isEqv_alike hdeep (hw.list ha) (hw.list hb)]
    | _ => exact sameWith_apart hu hv (fun h => by cases h) (.inl rfl)
  | .tuple us, u', v, v', hu, hv => by
    cases v with
    | tuple vs =>
      obtain ⟨us', rfl, hu⟩ := hu
      obtain ⟨vs', rfl, hv⟩ := hv
      simp only [sameWith]
      exact sameAllWith_alike hw hdeep hu hv
    | _ => exact sameWith_apart hu hv (fun h => by cases h) (.inl rfl)
  | .dictionary a, u', v, v', hu, hv => by
    cases v with
    | dictionary b =>
      obtain ⟨rfl, ha⟩ := hu
      obtain ⟨rfl, hb⟩ := hv
      simp only [sameWith, sameEntries_alike hdeep (hw.dictionary ha) (hw.dictionary hb)]
    | _ => exact sameWith_apart hu hv (fun h => by cases h) (.inl rfl)
  | .set a, u', v, v', hu, hv => by
    cases v with
    | set b => exact sameWith_leaves hu hv (by simp only [sameWith, hw.set])
    | _ => exact sameWith_apart hu hv (fun h => by cases h) (.inl rfl)
  | .struct a, u', v, v', hu, hv => by
    cases v with
    | struct b =>
      obtain ⟨rfl, ha⟩ := hu
      obtain ⟨rfl, hb⟩ := hv
      simp only [sameWith, (hw.record ha).name, (hw.record hb).name,
        sameEntries_alike hdeep (hw.record ha).fields (hw.record hb).fields]
    | _ => exact sameWith_apart hu hv (fun h => by cases h) (.inl rfl)
  | .error u _, u', v, v', hu, hv => by
    cases v with
    | error v _ =>
      obtain ⟨u', _, rfl, hu⟩ := hu
      obtain ⟨v', _, rfl, hv⟩ := hv
      simp only [sameWith]
      exact sameWith_alike hw hdeep hu hv
    | _ => exact sameWith_apart hu hv (fun h => by cases h) (.inl rfl)
  | .function f, u', v, v', hu, hv => by
    cases v with
    | function g => exact sameWith_leaves hu.1 hv.1 rfl
    | _ => exact sameWith_apart hu hv (fun h => by cases h) (.inl rfl)
  | .integer n, u', v, v', hu, hv => by
    cases v with
    | integer m => exact sameWith_leaves hu hv rfl
    | float x => exact sameWith_leaves hu hv rfl
    | _ => exact sameWith_apart hu hv (fun h => by cases h) (.inr rfl)
  | .float x, u', v, v', hu, hv => by
    cases v with
    | integer m => exact sameWith_leaves hu hv rfl
    | float x => exact sameWith_leaves hu hv rfl
    | _ => exact sameWith_apart hu hv (fun h => by cases h) (.inr rfl)
  | .nil, u', v, v', hu, hv => by
    cases v with
    | nil => exact sameWith_leaves hu hv rfl
    | _ => exact sameWith_apart hu hv (fun h => by cases h) (.inl rfl)
  | .boolean b, u', v, v', hu, hv => by
    cases v with
    | boolean b' => exact sameWith_leaves hu hv rfl
    | _ => exact sameWith_apart hu hv (fun h => by cases h) (.inl rfl)
  | .string s, u', v, v', hu, hv => by
    cases v with
    | string s' => exact sameWith_leaves hu hv rfl
    | _ => exact sameWith_apart hu hv (fun h => by cases h) (.inl rfl)
  | .range r, u', v, v', hu, hv => by
    cases v with
    | range r' => exact sameWith_leaves hu hv rfl
    | _ => exact sameWith_apart hu hv (fun h => by cases h) (.inl rfl)
  | .stream a, u', v, v', hu, hv => by
    cases v with
    | stream b => exact sameWith_leaves hu hv rfl
    | _ => exact sameWith_apart hu hv (fun h => by cases h) (.inl rfl)

theorem sameAllWith_alike (hw : w.Alike V w')
    (hdeep : ∀ u u' v v', u.Alike V u' → v.Alike V v' → deep' u' v' = deep u v) : ∀ {us us' vs vs' : List Value},
    AllAlike V us us' → AllAlike V vs vs' → sameAllWith deep' w' us' vs' = sameAllWith deep w us vs
  | [], _, [], _, rfl, rfl => rfl
  | [], _, _ :: _, _, rfl, ⟨_, _, rfl, _, _⟩ => rfl
  | _ :: _, _, [], _, ⟨_, _, rfl, _, _⟩, rfl => rfl
  | u :: us, _, v :: vs, _, ⟨u', us', rfl, hu, hus⟩, ⟨v', vs', rfl, hv, hvs⟩ => by
    simp only [sameAllWith]
    rw [sameWith_alike hw hdeep hu hv, sameAllWith_alike hw hdeep hus hvs]

end

theorem sameTo_alike (hw : w.Alike V w') : ∀ (depth : Nat) {u u' v v' : Value}, u.Alike V u' → v.Alike V v' →
    sameTo w' depth u' v' = sameTo w depth u v
  | 0, _, _, _, _, hu, hv => sameWith_alike hw (fun _ _ _ _ _ _ => rfl) hu hv
  | depth + 1, _, _, _, _, hu, hv => sameWith_alike hw (fun _ _ _ _ hu hv => sameTo_alike hw depth hu hv) hu hv

/-- Equality does not tell values that are alike apart. -/
theorem same_alike (hw : w.Alike V w') {u u' v v' : Value} (hu : u.Alike V u') (hv : v.Alike V v') :
    same w' u' v' = same w u v := by
  unfold same
  rw [hw.containers]
  exact sameTo_alike hw _ hu hv

end Same

section Less

variable {deep deep' : Value → Value → Except Cause Bool} {op : BinaryOp}

/-- The order of two values that are not of one kind with an order of its own. -/
def lessNumber (op : BinaryOp) (u v : Value) : Except Cause Bool :=
  match u.asNumber?, v.asNumber? with
  | some x, some y => .ok (x < y)
  | _, _ => .error (.invalidBinary op u.kind v.kind)

/-- The kinds with an order of their own. -/
def Ordered (k : Kind) : Prop := k = .integer ∨ k = .string ∨ k = .boolean ∨ k = .list ∨ k = .tuple

theorem lessWith_of_kind {u v : Value} (h : u.kind ≠ v.kind ∨ ¬Ordered u.kind) :
    lessWith deep w op u v = lessNumber op u v := by
  cases u <;> cases v <;> first | rfl | (rcases h with h | h <;> exact absurd (by simp [Ordered, kind]) h)

theorem lessWith_apart {u u' v v' : Value} (hu : u.Alike V u') (hv : v.Alike V v')
    (h : u.kind ≠ v.kind ∨ ¬Ordered u.kind) : lessWith deep' w' op u' v' = lessWith deep w op u v := by
  rw [lessWith_of_kind h, lessWith_of_kind (by rwa [hu.kind, hv.kind])]
  unfold lessNumber
  rw [hu.asNumber?, hv.asNumber?, hu.kind, hv.kind]

theorem lessWith_leaves {u u' v v' : Value} (hu : u' = u) (hv : v' = v)
    (h : lessWith deep' w' op u v = lessWith deep w op u v) : lessWith deep' w' op u' v' = lessWith deep w op u v := by
  rw [hu, hv, h]

theorem lessSequence_alike (hw : w.Alike V w')
    (hdeep : ∀ u u' v v', u.Alike V u' → v.Alike V v' → deep' u' v' = deep u v) {us us' vs vs' : List Value}
    (hu : List.Forall₂ (Alike V) us us') (hv : List.Forall₂ (Alike V) vs vs') :
    lessSequence w' deep' us' vs' = lessSequence w deep us vs := by
  induction hu generalizing vs vs' with
  | nil => cases hv <;> rfl
  | cons hu _ ih =>
    cases hv with
    | nil => rfl
    | cons hv htail => simp only [lessSequence, same_alike hw hu hv, hdeep _ _ _ _ hu hv, ih htail]

mutual

theorem lessWith_alike (hw : w.Alike V w')
    (hdeep : ∀ u u' v v', u.Alike V u' → v.Alike V v' → deep' u' v' = deep u v) : ∀ {u u' v v' : Value},
    u.Alike V u' → v.Alike V v' → lessWith deep' w' op u' v' = lessWith deep w op u v
  | .list a, u', v, v', hu, hv => by
    cases v with
    | list b =>
      obtain ⟨rfl, ha⟩ := hu
      obtain ⟨rfl, hb⟩ := hv
      simp only [lessWith]
      exact lessSequence_alike hw hdeep (hw.list ha) (hw.list hb)
    | _ => exact lessWith_apart hu hv (.inl fun h => by cases h)
  | .tuple us, u', v, v', hu, hv => by
    cases v with
    | tuple vs =>
      obtain ⟨us', rfl, hu⟩ := hu
      obtain ⟨vs', rfl, hv⟩ := hv
      simp only [lessWith]
      exact lessAllWith_alike hw hdeep hu hv
    | _ => exact lessWith_apart hu hv (.inl fun h => by cases h)
  | .integer n, u', v, v', hu, hv => by
    cases v with
    | integer m => exact lessWith_leaves hu hv rfl
    | _ => exact lessWith_apart hu hv (.inl fun h => by cases h)
  | .string n, u', v, v', hu, hv => by
    cases v with
    | string m => exact lessWith_leaves hu hv rfl
    | _ => exact lessWith_apart hu hv (.inl fun h => by cases h)
  | .boolean n, u', v, v', hu, hv => by
    cases v with
    | boolean m => exact lessWith_leaves hu hv rfl
    | _ => exact lessWith_apart hu hv (.inl fun h => by cases h)
  | .nil, _, _, _, hu, hv | .float _, _, _, _, hu, hv | .dictionary _, _, _, _, hu, hv | .set _, _, _, _, hu, hv
  | .range _, _, _, _, hu, hv | .struct _, _, _, _, hu, hv | .function _, _, _, _, hu, hv
  | .error .., _, _, _, hu, hv | .stream _, _, _, _, hu, hv =>
    lessWith_apart hu hv (.inr (by simp [Ordered, kind]))

theorem lessAllWith_alike (hw : w.Alike V w')
    (hdeep : ∀ u u' v v', u.Alike V u' → v.Alike V v' → deep' u' v' = deep u v) : ∀ {us us' vs vs' : List Value},
    AllAlike V us us' → AllAlike V vs vs' → lessAllWith deep' w' op us' vs' = lessAllWith deep w op us vs
  | [], _, [], _, rfl, rfl => rfl
  | [], _, _ :: _, _, rfl, ⟨_, _, rfl, _, _⟩ => rfl
  | _ :: _, _, [], _, ⟨_, _, rfl, _, _⟩, rfl => rfl
  | u :: us, _, v :: vs, _, ⟨u', us', rfl, hu, hus⟩, ⟨v', vs', rfl, hv, hvs⟩ => by
    simp only [lessAllWith]
    rw [same_alike hw hu hv, lessWith_alike hw hdeep hu hv, lessAllWith_alike hw hdeep hus hvs]

end

theorem lessTo_alike (hw : w.Alike V w') : ∀ (depth : Nat) {u u' v v' : Value}, u.Alike V u' → v.Alike V v' →
    lessTo w' op depth u' v' = lessTo w op depth u v
  | 0, _, _, _, _, hu, hv => lessWith_alike hw (fun _ _ _ _ _ _ => rfl) hu hv
  | depth + 1, _, _, _, _, hu, hv => lessWith_alike hw (fun _ _ _ _ hu hv => lessTo_alike hw depth hu hv) hu hv

theorem less_alike (hw : w.Alike V w') {u u' v v' : Value} (hu : u.Alike V u') (hv : v.Alike V v') :
    less w' op u' v' = less w op u v := by
  unfold less
  rw [hw.containers]
  exact lessTo_alike hw _ hu hv

end Less

section Render

variable {deep deep' : Value → String}

mutual

theorem renderWith_alike (hw : w.Alike V w') (hdeep : ∀ u v, u.Alike V v → deep' v = deep u) :
    ∀ {u v : Value} (inside : Bool), u.Alike V v → renderWith deep' w' inside v = renderWith deep w inside u
  | .list a, _, _, ⟨rfl, ha⟩ => by
    simp only [renderWith]
    rw [forall₂_map_eq (hw.list ha) hdeep]
  | .tuple us, _, _, ⟨vs, rfl, h⟩ => by
    simp only [renderWith]
    rw [renderAllWith_alike hw hdeep h]
  | .dictionary a, _, _, ⟨rfl, ha⟩ => by
    simp only [renderWith]
    rw [forall₂_map_eq (hw.dictionary ha).entries fun e e' he => by rw [he.1, hdeep _ _ he.2]]
  | .set a, _, _, rfl => by simp only [renderWith, hw.set]
  | .struct a, _, _, ⟨rfl, ha⟩ => by
    simp only [renderWith]
    rw [(hw.record ha).name, forall₂_map_eq (hw.record ha).fields.entries fun e e' he => by rw [he.1, hdeep _ _ he.2]]
  | .error u _, _, _, ⟨v, _, rfl, h⟩ => by
    simp only [renderWith]
    rw [renderWith_alike hw hdeep false h]
  | .function f, _, _, ⟨rfl, _⟩ => rfl
  | .stream a, _, _, rfl => by simp only [renderWith, hw.stream]
  | .nil, _, _, rfl | .boolean _, _, _, rfl | .integer _, _, _, rfl | .float _, _, _, rfl | .string _, _, _, rfl
  | .range _, _, _, rfl => rfl

theorem renderAllWith_alike (hw : w.Alike V w') (hdeep : ∀ u v, u.Alike V v → deep' v = deep u) :
    ∀ {us vs : List Value}, AllAlike V us vs → renderAllWith deep' w' vs = renderAllWith deep w us
  | [], _, rfl => rfl
  | u :: us, _, ⟨v, vs, rfl, hu, h⟩ => by
    simp only [renderAllWith]
    rw [renderWith_alike hw hdeep true hu, renderAllWith_alike hw hdeep h]

end

theorem insideTo_alike (hw : w.Alike V w') : ∀ (depth : Nat) {u v : Value}, u.Alike V v →
    insideTo w' depth v = insideTo w depth u
  | 0, _, _, h => renderWith_alike hw (fun _ _ _ => rfl) true h
  | depth + 1, _, _, h => renderWith_alike hw (fun _ _ h => insideTo_alike hw depth h) true h

/-- Values that are alike have the same text. -/
theorem render_alike (hw : w.Alike V w') {u v : Value} (h : u.Alike V v) : v.render w' = u.render w := by
  unfold render
  rw [hw.containers]
  exact renderWith_alike hw (fun _ _ h => insideTo_alike hw _ h) false h

end Render

end ShellVM.Value
