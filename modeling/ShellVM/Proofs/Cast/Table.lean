import ShellVM.Proofs.Cast.Decimal
import ShellVM.Proofs.Cast.Distinct
import ShellVM.Proofs.Job.Operands

/-!
# The table of casts

What an entry of the table does is said once (`Value.Converts`): it reads the value, which changes no container, and
then gives a value of the kind that was asked for, with new storage at most. The entries for lists, tuples and sets
are the ways to make them from the items of a value (`Value.convert?_list`, `Value.convert?_tuple`,
`Value.convert?_set`). From this the table is sound (`Value.casts_are_sound`).
-/

namespace ShellVM

open List (eraseDupsBy)

/-! ## Containers that stay -/

namespace World

/-- All containers of the world. -/
def storage (w : World) :
    Array (Array Value) × Array (OrderedMap Key Value) × Array (OrderedMap Key Unit) × Array Record :=
  (w.lists, w.dictionaries, w.sets, w.records)

theorem storage_apart : Apart storage := ⟨fun _ _ => rfl, fun _ _ => rfl, fun _ _ _ => rfl⟩

/-- The containers that there were are as they were; there may be new ones. -/
structure Retains (w w' : World) : Prop where
  lists : w.lists.toList <+: w'.lists.toList
  dictionaries : w.dictionaries.toList <+: w'.dictionaries.toList
  sets : w.sets.toList <+: w'.sets.toList
  records : w.records.toList <+: w'.records.toList

variable {w w' w'' : World}

theorem Retains.refl (w : World) : w.Retains w :=
  ⟨List.prefix_refl _, List.prefix_refl _, List.prefix_refl _, List.prefix_refl _⟩

theorem retains_of_storage (h : w'.storage = w.storage) : w.Retains w' := by
  obtain ⟨hlists, h⟩ := Prod.mk.inj h
  obtain ⟨hdictionaries, h⟩ := Prod.mk.inj h
  obtain ⟨hsets, hrecords⟩ := Prod.mk.inj h
  constructor <;> simp [hlists, hdictionaries, hsets, hrecords]

theorem Retains.trans (h : w.Retains w') (h' : w'.Retains w'') : w.Retains w'' :=
  ⟨h.lists.trans h'.lists, h.dictionaries.trans h'.dictionaries, h.sets.trans h'.sets, h.records.trans h'.records⟩

end World

namespace Value

variable {w w' u : World} {v r : Value} {xs : List Value} {target : Kind} {α : Type}

/-! ## What the entries of the table do -/

theorem truth_preserves {τ : Type} {part : World → τ} (hpart : World.Apart part) (v : Value) :
    Preserves part v.truth := by
  refine .get fun w => ?_
  cases v with
  | stream a => exact Job.succeeded_preserves hpart a
  | _ => exact .pure _

/-- A computation gives a value of the kind, if it gives one, and however it ends, the containers that there were are
as they were. -/
def Converts (target : Kind) (x : Effect (Option Value)) : Prop :=
  ∀ w, Outcome (fun r? w' => w.Retains w' ∧ ∀ r ∈ r?, r.kind = target) w.Retains (x w)

namespace Converts

theorem none : Converts target (pure none) := fun w => ⟨.refl w, fun _ h => by cases h⟩

theorem some (h : r.kind = target) :
    Converts target (pure (some r)) := fun w => ⟨.refl w, fun _ hr => by cases hr; exact h⟩

theorem map (f : α → Value) (h : ∀ a, (f a).kind = target) (a? : Option α) : Converts target (pure (a?.map f)) := by
  cases a? with
  | none => exact none
  | some a => exact some (h a)

/-- What reads only, and then converts. -/
theorem read {x : Effect α} {f : α → Effect (Option Value)} (hx : Preserves World.storage x)
    (h : ∀ a, Converts target (f a)) : Converts target (x >>= f) := by
  intro w
  have hread : Outcome (fun _ w' => w.Retains w') w.Retains (x w) := by
    have hw := hx w
    cases hresult : x w with
    | ok a w' => exact World.retains_of_storage (by rwa [hresult] at hw)
    | error fault w' => exact World.retains_of_storage (by rwa [hresult] at hw)
  refine hread.bind fun a w' _ hw' => ?_
  have hrest := h a w'
  cases hresult : f a w' with
  | ok r? w'' =>
    rw [hresult] at hrest
    exact ⟨hw'.trans hrest.1, hrest.2⟩
  | error fault w'' =>
    rw [hresult] at hrest
    exact hw'.trans hrest

theorem newList (items : Array Value) : Converts .list (do return Option.some (← Effect.newList items)) := fun w =>
  ⟨{ World.Retains.refl w with lists := Array.toList_push ▸ List.prefix_append _ _ }, fun _ h => by cases h; rfl⟩

theorem newSet (items : OrderedMap Key Unit) : Converts .set (do return Option.some (← Effect.newSet items)) := fun w =>
  ⟨{ World.Retains.refl w with sets := Array.toList_push ▸ List.prefix_append _ _ }, fun _ h => by cases h; rfl⟩

theorem newDictionary (entries : OrderedMap Key Value) :
    Converts .dictionary (do return Option.some (← Effect.newDictionary entries)) := fun w =>
  ⟨{ World.Retains.refl w with dictionaries := Array.toList_push ▸ List.prefix_append _ _ }, fun _ h => by cases h; rfl⟩

end Converts

theorem convert?_converts (v : Value) (target : Kind) : Converts target (v.convert? target) := by
  have htext (v : Value) := v.text_preserves World.storage_apart
  have htruth (v : Value) := v.truth_preserves World.storage_apart
  have hitems (v : Value) := v.items_preserves World.storage_apart
  unfold convert?
  split
  -- texts, booleans and numbers, row by row; then the rows that collect items
  · exact .read (htext _) fun _ => .some rfl
  · exact .read (htruth _) fun _ => .some rfl
  · exact .some rfl
  · exact .some rfl
  · split
    · exact .some rfl
    · exact .none
  · exact .map integer (fun _ => rfl) _
  · exact .map float (fun _ => rfl) _
  · exact .read (htext _) fun _ => .map integer (fun _ => rfl) _
  · exact .read (htext _) fun _ => .map float (fun _ => rfl) _
  all_goals first
    | exact .read (hitems _) fun _ => .newList _
    | exact .read (hitems _) fun _ => .some rfl
    | exact .read (hitems _) fun _ => .read (Effect.ofExcept_preserves _) fun _ => .newSet _
    | exact .read (fun _ => rfl) fun _ => .newDictionary _
    | exact .none

/-! ## Entries for lists, tuples and sets -/

theorem convert?_list : v.convert? .list = if v.kind ∈ [.string, .tuple, .set, .dictionary, .range, .processStream]
    then do return some (← Effect.newList (← v.items).toArray) else pure none := by
  cases v <;> rfl

theorem convert?_tuple : v.convert? .tuple = if v.kind ∈ [.list, .set, .range, .processStream]
    then do return some (tuple (← v.items)) else pure none := by
  cases v <;> rfl

theorem convert?_set : v.convert? .set = if v.kind ∈ [.list, .tuple, .range, .string]
    then do
      let keys ← Effect.ofExcept (Effect.keys (← v.items))
      return some (← Effect.newSet (.ofKeys keys))
    else pure none := by
  cases v <;> rfl

/-! ## Casts -/

theorem cast_self (h : v.kind = target) : v.cast target w = .ok v w := by
  unfold cast
  rw [if_pos h]
  rfl

theorem cast_of_ne (h : v.kind ≠ target) : v.cast target = (do
    match ← v.convert? target with
    | some r => return r
    | none => Effect.fail (.cast v.kind target.name)) := by
  unfold cast
  exact if_neg h

/-- A cast gives a value of the kind, if it gives one, and however it ends, the containers that there were are as they
were. -/
theorem cast_outcome (v : Value) (target : Kind) (w : World) :
    Outcome (fun r w' => w.Retains w' ∧ r.kind = target) w.Retains (v.cast target w) := by
  by_cases hkind : v.kind = target
  · rw [cast_self hkind]
    exact ⟨.refl w, hkind⟩
  · rw [cast_of_ne hkind]
    refine (convert?_converts v target w).bind fun r? w' _ h => ?_
    cases r? with
    | some r => exact ⟨h.1, h.2 r rfl⟩
    | none => exact h.1

/-- A cast that gives a value either gives the very value, or an entry of the table does. -/
theorem cast_ok (h : v.cast target w = .ok r w') :
    (v.kind = target ∧ r = v ∧ w' = w) ∨ (v.kind ≠ target ∧ v.convert? target w = .ok (some r) w') := by
  by_cases hkind : v.kind = target
  · cases (cast_self hkind).symm.trans h
    exact .inl ⟨hkind, rfl, rfl⟩
  · rw [cast_of_ne hkind] at h
    obtain ⟨r?, u, hconvert, h⟩ := bind_ok.1 h
    cases r? with
    | some r =>
      cases h
      exact .inr ⟨hkind, hconvert⟩
    | none => cases h

/-! ## Items of what was cast -/

theorem items_newList (xs : List Value) (w : World) :
    (list w.lists.size).items { w with lists := w.lists.push xs.toArray } =
    .ok xs { w with lists := w.lists.push xs.toArray } := by
  have hitems : World.list { w with lists := w.lists.push xs.toArray } w.lists.size = xs.toArray := by
    unfold World.list
    rw [Array.getD_eq_getD_getElem?, Array.getElem?_push_size]
    rfl
  show EStateM.Result.ok (World.list _ _).toList _ = _
  rw [hitems]

theorem items_newSet (m : OrderedMap Key Unit) (w : World) :
    (set w.sets.size).items { w with sets := w.sets.push m } =
      .ok (m.keys.map ofKey) { w with sets := w.sets.push m } := by
  have hitems : World.set { w with sets := w.sets.push m } w.sets.size = m := by
    unfold World.set
    rw [Array.getD_eq_getD_getElem?, Array.getElem?_push_size]
    rfl
  show EStateM.Result.ok ((World.set _ _).keys.map ofKey) _ = _
  rw [hitems]

/-- A list or a tuple is made of the items. -/
theorem items_of_cast (htarget : target ∈ [.list, .tuple]) (h : v.cast target w = .ok r w') :
    ∃ xs u, v.items w = .ok xs u ∧ r.items w' = .ok xs w' := by
  rcases cast_ok h with ⟨hkind, rfl, rfl⟩ | ⟨-, hconvert⟩
  · cases r with
    | list | tuple => exact ⟨_, _, rfl, rfl⟩
    | _ => simp [← hkind, kind] at htarget
  · obtain rfl | rfl : target = .list ∨ target = .tuple := by simpa using htarget
    · rw [convert?_list] at hconvert
      split at hconvert
      · obtain ⟨xs, u, hitems, hconvert⟩ := bind_ok.1 hconvert
        cases hconvert
        exact ⟨xs, u, hitems, items_newList xs u⟩
      · cases hconvert
    · rw [convert?_tuple] at hconvert
      split at hconvert
      · obtain ⟨xs, u, hitems, hconvert⟩ := bind_ok.1 hconvert
        cases hconvert
        exact ⟨xs, _, hitems, rfl⟩
      · cases hconvert

/-- A set is made of the first of equal items. -/
theorem items_of_cast_set (h : v.cast .set w = .ok r w') :
    ∃ xs u, v.items w = .ok xs u ∧ r.items w' = .ok (xs.eraseDupsBy (same w)) w' := by
  rcases cast_ok h with ⟨hkind, rfl, rfl⟩ | ⟨-, hconvert⟩
  · cases r with
    | set a => exact ⟨_, _, rfl, congrArg (EStateM.Result.ok · w') (items_set w' (w'.set a))⟩
    | _ => cases hkind
  · rw [convert?_set] at hconvert
    split at hconvert
    · obtain ⟨xs, u, hitems, hconvert⟩ := bind_ok.1 hconvert
      rcases keys_cases xs with ⟨ks, rfl, hks⟩ | ⟨x, -, -, hks⟩
      · rw [hks] at hconvert
        cases hconvert
        exact ⟨_, u, hitems, (items_newSet _ u).trans (congrArg (EStateM.Result.ok · _) (items_ofKeys w ks))⟩
      · rw [hks] at hconvert
        cases hconvert
    · cases hconvert

/-- Of the values that the table can make a set of, those with an item that makes no key fail, and the others do not. -/
theorem cast_set_of_items (hkind : v.kind ∈ [.list, .tuple, .range, .string, .set]) (h : v.items w = .ok xs u) :
    (∃ ks : List Key, xs = ks.map ofKey ∧ ∃ r w', v.cast .set w = .ok r w') ∨
    ∃ x ∈ xs, key? x = none ∧ v.cast .set w = .error (.ofCause (.unhashable x.kind)) u := by
  by_cases hset : v.kind = .set
  · cases v with
    | set a =>
      cases h
      exact .inl ⟨_, rfl, _, _, cast_self rfl⟩
    | _ => cases hset
  · have hconvert : v.convert? .set w = (do
        let keys ← Effect.ofExcept (Effect.keys xs)
        return some (← Effect.newSet (.ofKeys keys))) u := by
      rw [convert?_set, if_pos (by simpa [hset] using hkind)]
      exact bind_run_ok h
    rw [cast_of_ne hset]
    rcases keys_cases xs with ⟨ks, hxs, hks⟩ | ⟨x, hx, hnone, hks⟩
    · rw [hks] at hconvert
      exact .inl ⟨ks, hxs, _, _, bind_run_ok hconvert⟩
    · rw [hks] at hconvert
      exact .inr ⟨x, hx, hnone, bind_run_error hconvert⟩

/-- A value of another kind is not in the row of the table for sets. -/
theorem cast_set_of_kind (hkind : v.kind ∉ [.list, .tuple, .range, .string, .set]) :
    v.cast .set w = .error (.ofCause (.cast v.kind "Set")) w := by
  have hset : v.kind ≠ .set := fun h => hkind (by simp [h])
  have hconvert : v.convert? .set w = .ok none w := by
    rw [convert?_set, if_neg fun h => hkind (List.mem_append_left [.set] h)]
    rfl
  rw [cast_of_ne hset]
  exact bind_run_ok hconvert

/-- A word comes back from its text. -/
theorem cast_integer_string (n : Int64) (w : World) :
    ∃ s, (integer n).cast .string w = .ok (string s) w ∧ (string s).cast .integer w = .ok (integer n) w := by
  refine ⟨Word.render n, rfl, ?_⟩
  have hconvert : (string (Word.render n)).convert? .integer w = .ok (some (integer n)) w := by
    show EStateM.Result.ok ((Number.readInteger? (Text.trim (Word.render n))).map integer) w = _
    rw [Text.trim_render, Number.readInteger?_render]
    rfl
  rw [cast_of_ne Kind.noConfusion]
  exact bind_run_ok hconvert

/-- **The table of casts is sound.** What a cast gives is of the kind asked for, and casting it again gives the very
value, as does every cast to the own kind. No cast, however it ends, changes a container that there was. Lists and
tuples are made of the items of the value in their order, and sets of the first of equal ones; where the table makes
sets, this fails just if an item makes no key. Words come back from their texts. -/
theorem casts_are_sound (w : World) :
    (∀ (v : Value) target r w', v.cast target w = .ok r w' → r.kind = target ∧ r.cast target w' = .ok r w') ∧
    (∀ v : Value, v.cast v.kind w = .ok v w) ∧
    (∀ (v : Value) target, Outcome (fun _ w' => w.Retains w') w.Retains (v.cast target w)) ∧
    (∀ (v : Value) target r w', target ∈ [.list, .tuple] → v.cast target w = .ok r w' →
      ∃ xs u, v.items w = .ok xs u ∧ r.items w' = .ok xs w') ∧
    (∀ (v r : Value) w', v.cast .set w = .ok r w' →
      ∃ xs u, v.items w = .ok xs u ∧ r.items w' = .ok (xs.eraseDupsBy (same w)) w') ∧
    (∀ v : Value, if v.kind ∈ [.list, .tuple, .range, .string, .set]
      then ∀ xs u, v.items w = .ok xs u →
        ((∃ r w', v.cast .set w = .ok r w') ↔ ∀ x ∈ xs, x.key? ≠ none) ∧
        ((∃ kind u', v.cast .set w = .error (.ofCause (.unhashable kind)) u') ↔ ∃ x ∈ xs, x.key? = none)
      else v.cast .set w = .error (.ofCause (.cast v.kind "Set")) w) ∧
    ∀ n, ∃ s, (integer n).cast .string w = .ok (string s) w ∧ (string s).cast .integer w = .ok (integer n) w := by
  refine ⟨fun v target r w' h => ?_, fun v => cast_self rfl,
    fun v target => (cast_outcome v target w).mono fun _ _ h => h.1,
    fun v target r w' => items_of_cast, fun v r w' => items_of_cast_set, fun v => ?_, fun n => cast_integer_string n w⟩
  · have houtcome := cast_outcome v target w
    rw [h] at houtcome
    exact ⟨houtcome.2, cast_self houtcome.2⟩
  · split
    · next hkind =>
      intro xs u hitems
      rcases cast_set_of_items hkind hitems with ⟨ks, rfl, r, w', hcast⟩ | ⟨x, hx, hnone, hcast⟩
      · have hkeys : ∀ x ∈ ks.map ofKey, x.key? ≠ none := fun x hx hnone => by
          obtain ⟨k, -, rfl⟩ := List.mem_map.1 hx
          cases (key?_ofKey k).symm.trans hnone
        refine ⟨iff_of_true ⟨r, w', hcast⟩ hkeys, iff_of_false (fun ⟨_, _, h⟩ => ?_) ?_⟩
        · cases hcast.symm.trans h
        · exact fun ⟨x, hx, hnone⟩ => hkeys x hx hnone
      · refine ⟨iff_of_false (fun ⟨_, _, h⟩ => ?_) fun h => h x hx hnone, iff_of_true ⟨_, _, hcast⟩ ⟨x, hx, hnone⟩⟩
        cases hcast.symm.trans h
    · next hkind => exact cast_set_of_kind hkind

/-- A set of a list that has an item twice, the list after it, and a list that contains itself, of which no set can be
made. -/
theorem casts_are_sound_set :
    let w : World := { lists := #[#[integer 2, integer 1, integer 2], #[list 1]] }
    ∃ w', (list 0).cast .set w = .ok (set 0) w' ∧ (set 0).cast .set w' = .ok (set 0) w' ∧
      (set 0).items w' = .ok [integer 2, integer 1] w' ∧ w.lists.toList <+: w'.lists.toList ∧
      ∃ kind u, (list 1).cast .set w = .error (.ofCause (.unhashable kind)) u := by
  intro w
  obtain ⟨hagain, -, hretains, -, hset, hkeys, -⟩ := casts_are_sound w
  have hcast : (list 0).cast .set w = .ok (set 0)
      { w with sets := #[.ofKeys [.integer 2, .integer 1, .integer 2]] } := rfl
  obtain ⟨xs, u, hxs, hitems⟩ := hset _ _ _ hcast
  cases hxs
  have hkept := hretains (list 0) .set
  rw [hcast] at hkept
  exact ⟨_, hcast, (hagain _ _ _ _ hcast).2, hitems.trans rfl, hkept.lists,
    (hkeys (list 1) [list 1] w rfl).2.2 ⟨list 1, List.mem_singleton_self _, rfl⟩⟩

end Value

end ShellVM
