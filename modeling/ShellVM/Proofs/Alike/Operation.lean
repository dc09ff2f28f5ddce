import ShellVM.Iter
import ShellVM.Proofs.Alike.Job
import ShellVM.Value.Arithmetic
import ShellVM.Value.Index

/-!
# Operations on values that are alike

Truth, text, items, casts, indices, operators and iterators do the same on values that are alike.
-/

namespace ShellVM

/-- The operators that calculate, and so may meet values that they cannot calculate with. -/
def BinaryOp.isArithmetic : BinaryOp → Bool
  | .add | .subtract | .multiply | .divide | .modulo | .power => true
  | _ => false

namespace Value

variable {V : View} {u u' v v' : Value}

/-! ## Truth, text and items -/

theorem truth_agrees (h : u.Alike V v) : Agrees V Eq u.truth v.truth := by
  unfold truth
  refine .get fun w w' hw => ?_
  cases u with
  | list a =>
    obtain ⟨rfl, ha⟩ := h
    have hsize := (hw.list ha).size
    refine .pure ?_
    simp only [Array.isEmpty, hsize]
  | tuple us =>
    obtain ⟨vs, rfl, h⟩ := h
    have hlength := (allAlike_iff.1 h).length_eq
    cases us with
    | nil => rw [List.length_eq_zero_iff.1 hlength.symm]; exact .pure rfl
    | cons u us =>
      cases vs with
      | nil => cases hlength
      | cons v vs => exact .pure rfl
  | dictionary a =>
    obtain ⟨rfl, ha⟩ := h
    refine .pure ?_
    rw [(hw.dictionary ha).size]
  | set a =>
    rw [show v = _ from h]
    refine .pure ?_
    rw [hw.set]
  | struct a | function f =>
    obtain ⟨rfl, -⟩ := h
    exact .pure rfl
  | error u' t =>
    obtain ⟨v', t', rfl, -⟩ := h
    exact .pure rfl
  | stream a =>
    rw [show v = _ from h]
    exact Job.succeeded_agrees a
  | _ =>
    rw [show v = _ from h]
    exact .pure rfl

theorem text_agrees (h : u.Alike V v) : Agrees V Eq u.text v.text := by
  have hrender : Agrees V Eq (do return u.render (← get)) (do return v.render (← get)) :=
    .get fun w w' hw => .pure (render_alike hw h).symm
  unfold text
  cases u with
  | tuple us =>
    obtain ⟨vs, rfl, -⟩ := h
    exact hrender
  | error u' t =>
    obtain ⟨v', t', rfl, h⟩ := h
    exact .get fun w w' hw => .pure (render_alike hw h).symm
  | stream a =>
    rw [show v = _ from h]
    exact (Job.lines_agrees a).bind fun _ _ hl => .pure (by rw [hl])
  | list a | dictionary a | struct a | function f =>
    obtain ⟨rfl, -⟩ := h
    exact hrender
  | _ =>
    obtain rfl := show v = _ from h
    exact hrender

/-- A row of values that are alike to themselves. -/
theorem forall₂_map_self {α : Type} {f : α → Value} (hf : ∀ x, (f x).Alike V (f x)) (xs : List α) :
    List.Forall₂ (Alike V) (xs.map f) (xs.map f) := by
  refine List.forall₂_same.2 fun v hv => ?_
  obtain ⟨x, -, rfl⟩ := List.mem_map.1 hv
  exact hf x

theorem items_agrees (h : u.Alike V v) : Agrees V (List.Forall₂ (Alike V)) u.items v.items := by
  unfold items
  refine .get fun w w' hw => ?_
  cases u with
  | list a =>
    obtain ⟨rfl, ha⟩ := h
    exact .pure (hw.list ha)
  | tuple us =>
    obtain ⟨vs, rfl, h⟩ := h
    exact .pure (allAlike_iff.1 h)
  | set a =>
    rw [show v = _ from h]
    refine .pure ?_
    rw [hw.set]
    exact forall₂_map_self alike_ofKey _
  | dictionary a =>
    obtain ⟨rfl, ha⟩ := h
    refine .pure ?_
    rw [List.forall₂_map_left_iff, List.forall₂_map_right_iff]
    refine (hw.dictionary ha).entries.imp fun e e' he => ?_
    show (tuple [ofKey e.1, e.2]).Alike V (tuple [ofKey e'.1, e'.2])
    rw [he.1]
    exact .tuple (.cons (alike_ofKey _) (.cons he.2 .nil))
  | range r =>
    rw [show v = _ from h]
    dsimp only
    split
    · exact .pure (forall₂_map_self (f := integer) (fun _ => rfl) _)
    · exact .fail rfl
  | string s =>
    rw [show v = _ from h]
    exact .pure (forall₂_map_self (f := fun c : Char => string c.toString) (fun _ => rfl) _)
  | stream a =>
    rw [show v = _ from h]
    refine (Job.lines_agrees a).bind ?_
    rintro ls _ rfl
    exact .pure (forall₂_map_self (f := string) (fun _ => rfl) ls)
  | struct a | function f =>
    obtain ⟨rfl, -⟩ := h
    exact .fail rfl
  | error u' t =>
    obtain ⟨v', t', rfl, -⟩ := h
    exact .fail rfl
  | _ =>
    rw [show v = _ from h]
    exact .fail rfl

/-! ## Keys and casts -/

theorem rel_map_self {α : Type} {f : α → Value} (hf : ∀ x, (f x).Alike V (f x)) (x? : Option α) :
    Option.Rel (Alike V) (x?.map f) (x?.map f) := by
  cases x? with
  | none => exact .none
  | some x => exact .some (hf x)

theorem key_alike (h : u.Alike V v) : Effect.key v = Effect.key u := by
  unfold Effect.key
  rw [h.key?, h.kind]

theorem key_plain (v : Value) : Plainly (Effect.key v) := by
  unfold Effect.key
  split
  · exact .ok _
  · exact .error rfl

theorem keys_alike {us vs : List Value} (h : List.Forall₂ (Alike V) us vs) : Effect.keys vs = Effect.keys us := by
  induction h with
  | nil => rfl
  | cons hv _ ih => rw [Effect.keys, Effect.keys, key_alike hv, ih]

theorem keys_plain (vs : List Value) : Plainly (Effect.keys vs) := by
  induction vs with
  | nil => exact .ok _
  | cons v vs ih => exact (key_plain v).bind fun _ => ih.bind fun _ => .ok _

theorem convert_integer_agrees (h : u.Alike V v) :
    Agrees V (Option.Rel (Alike V)) (u.convert? .integer) (v.convert? .integer) := by
  unfold convert?
  rcases h.cases with ⟨rfl, -⟩ | ⟨us, vs, rfl, rfl, -⟩ | ⟨u', v', t, t', rfl, rfl, -⟩
  · cases v with
    | boolean b => exact .pure (.some rfl)
    | float x =>
      refine .pure ?_
      split
      · exact .some rfl
      · exact .none
    | string s => exact .pure (rel_map_self (f := integer) (fun _ => rfl) _)
    | stream a =>
      refine (text_agrees h).bind ?_
      rintro t _ rfl
      exact .pure (rel_map_self (f := integer) (fun _ => rfl) _)
    | _ => exact .pure .none
  · exact .pure .none
  · exact .pure .none

theorem convert_float_agrees (h : u.Alike V v) :
    Agrees V (Option.Rel (Alike V)) (u.convert? .float) (v.convert? .float) := by
  unfold convert?
  rcases h.cases with ⟨rfl, -⟩ | ⟨us, vs, rfl, rfl, -⟩ | ⟨u', v', t, t', rfl, rfl, -⟩
  · cases v with
    | integer n => exact .pure (.some rfl)
    | string s => exact .pure (rel_map_self (f := float) (fun _ => rfl) _)
    | stream a =>
      refine (text_agrees h).bind ?_
      rintro t _ rfl
      exact .pure (rel_map_self (f := float) (fun _ => rfl) _)
    | _ => exact .pure .none
  · exact .pure .none
  · exact .pure .none

theorem convert_list_agrees (h : u.Alike V v) :
    Agrees V (Option.Rel (Alike V)) (u.convert? .list) (v.convert? .list) := by
  have hlist : Agrees V (Option.Rel (Alike V)) (do return some (← Effect.newList (← u.items).toArray))
      (do return some (← Effect.newList (← v.items).toArray)) :=
    (items_agrees h).bind fun _ _ hvs => (Agrees.newList hvs).bind fun _ _ hv => .pure (.some hv)
  unfold convert?
  rcases h.cases with ⟨rfl, -⟩ | ⟨us, vs, rfl, rfl, -⟩ | ⟨u', v', t, t', rfl, rfl, -⟩
  · cases v with
    | string _ | tuple _ | set _ | dictionary _ | range _ | stream _ => exact hlist
    | _ => exact .pure .none
  · exact hlist
  · exact .pure .none

theorem convert_tuple_agrees (h : u.Alike V v) :
    Agrees V (Option.Rel (Alike V)) (u.convert? .tuple) (v.convert? .tuple) := by
  have htuple : Agrees V (Option.Rel (Alike V)) (do return some (tuple (← u.items)))
      (do return some (tuple (← v.items))) :=
    (items_agrees h).bind fun _ _ hvs => .pure (.some (.tuple hvs))
  unfold convert?
  rcases h.cases with ⟨rfl, -⟩ | ⟨us, vs, rfl, rfl, -⟩ | ⟨u', v', t, t', rfl, rfl, -⟩
  · cases v with
    | list _ | set _ | range _ | stream _ => exact htuple
    | _ => exact .pure .none
  · exact .pure .none
  · exact .pure .none

theorem convert_set_agrees (h : u.Alike V v) :
    Agrees V (Option.Rel (Alike V)) (u.convert? .set) (v.convert? .set) := by
  have hset : Agrees V (Option.Rel (Alike V))
      (do
        let keys ← Effect.ofExcept (Effect.keys (← u.items))
        return some (← Effect.newSet (.ofKeys keys)))
      (do
        let keys ← Effect.ofExcept (Effect.keys (← v.items))
        return some (← Effect.newSet (.ofKeys keys))) := by
    refine (items_agrees h).bind fun us vs hvs => ?_
    rw [keys_alike hvs]
    refine (Agrees.ofExcept (keys_plain us)).bind ?_
    rintro keys _ rfl
    exact (Agrees.newSet _).bind fun _ _ hv => .pure (.some hv)
  unfold convert?
  rcases h.cases with ⟨rfl, -⟩ | ⟨us, vs, rfl, rfl, -⟩ | ⟨u', v', t, t', rfl, rfl, -⟩
  · cases v with
    | list _ | tuple _ | range _ | string _ => exact hset
    | _ => exact .pure .none
  · exact hset
  · exact .pure .none

/-- Only a struct becomes a dictionary. -/
theorem convert_dictionary_agrees (h : u.Alike V v) :
    Agrees V (Option.Rel (Alike V)) (u.convert? .dictionary) (v.convert? .dictionary) := by
  unfold convert?
  rcases h.cases with ⟨rfl, -⟩ | ⟨us, vs, rfl, rfl, -⟩ | ⟨u', v', t, t', rfl, rfl, -⟩
  · cases v with
    | struct a =>
      refine .get fun w w' hw => ?_
      refine (Agrees.newDictionary (.ofList ?_)).bind fun _ _ hv => .pure (.some hv)
      rw [List.forall₂_map_left_iff, List.forall₂_map_right_iff]
      refine (hw.record h.2).fields.entries.imp fun e e' he => ?_
      exact ⟨congrArg Key.string he.1, he.2⟩
    | _ => exact .pure .none
  · exact .pure .none
  · exact .pure .none

theorem convert?_agrees (h : u.Alike V v) (target : Kind) :
    Agrees V (Option.Rel (Alike V)) (u.convert? target) (v.convert? target) := by
  cases target with
  | string => exact (text_agrees h).bind fun _ _ ht => .pure (.some (by rw [ht]; rfl))
  | boolean => exact (truth_agrees h).bind fun _ _ ht => .pure (.some (by rw [ht]; rfl))
  | integer => exact convert_integer_agrees h
  | float => exact convert_float_agrees h
  | list => exact convert_list_agrees h
  | tuple => exact convert_tuple_agrees h
  | set => exact convert_set_agrees h
  | dictionary => exact convert_dictionary_agrees h
  | _ => exact .pure .none

theorem cast_agrees (h : u.Alike V v) (target : Kind) : Agrees V (Alike V) (u.cast target) (v.cast target) := by
  unfold cast
  rw [h.kind]
  split
  · exact .pure h
  · refine (convert?_agrees h target).bind fun a b hab => ?_
    cases hab with
    | none => exact .fail rfl
    | some h => exact .pure h

/-! ## Reading and writing by index -/

theorem resolveIndex_plain (i : Int64) (length : Nat) : Plainly (resolveIndex i length) := by
  unfold resolveIndex
  dsimp only
  split
  · split
    · exact .error rfl
    · split
      · exact .ok _
      · exact .error rfl
  · split
    · exact .ok _
    · exact .error rfl

theorem slice_plain (r : Range) (length : Nat) : Plainly (r.slice length) := by
  unfold Range.slice
  dsimp only
  split
  · exact .error rfl
  · exact .ok _

theorem rangeItem_plain (r : Range) (i : Int64) : Plainly (rangeItem r i) := by
  unfold rangeItem
  dsimp only
  split
  · refine (resolveIndex_plain i _).bind fun place => .bind (.ok _) fun found => ?_
    cases found with
    | none => exact .error rfl
    | some n => exact .ok n
  · refine .bind (.ok _) fun found => ?_
    cases found with
    | none => exact .error rfl
    | some n => exact .ok n

theorem getD_alike {xs ys : Array Value} (h : ItemsAlike V xs ys) (i : Nat) :
    (xs.getD i nil).Alike V (ys.getD i nil) := by
  have := forall₂_getElem? h i
  simp only [Array.getElem?_toList] at this
  simp only [Array.getD_eq_getD_getElem?]
  rcases this with ⟨hx, hy⟩ | ⟨x, y, hx, hy, hxy⟩
  · rw [hx, hy]
    rfl
  · rw [hx, hy]
    exact hxy

theorem pick_alike {xs ys : Array Value} (h : ItemsAlike V xs ys) (positions : List Nat) :
    List.Forall₂ (Alike V) (pick xs positions) (pick ys positions) := by
  unfold pick
  induction positions with
  | nil => exact .nil
  | cons i positions ih =>
    have := forall₂_getElem? h i
    simp only [Array.getElem?_toList] at this
    rcases this with ⟨hx, hy⟩ | ⟨x, y, hx, hy, hxy⟩
    · rwa [List.filterMap_cons_none hx, List.filterMap_cons_none hy]
    · rw [List.filterMap_cons_some hx, List.filterMap_cons_some hy]
      exact .cons hxy ih

variable {i j : Value}

/-- An index that no sequence takes. -/
theorem cast_fails (hi : i.Alike V j) :
    Agrees V (Alike V) (Effect.fail (.cast i.kind "index")) (Effect.fail (.cast j.kind "index")) := by
  rw [hi.kind]
  exact .fail rfl

theorem index_tuple_agrees {us vs : List Value} (h : List.Forall₂ (Alike V) us vs) (hi : i.Alike V j) :
    Agrees V (Alike V) ((tuple us).index i) ((tuple vs).index j) := by
  have hcast := cast_fails hi
  unfold index
  refine .get fun w w' hw => ?_
  rcases hi.cases with ⟨rfl, -⟩ | ⟨_, _, rfl, rfl, -⟩ | ⟨_, _, _, _, rfl, rfl, -⟩
  · cases j with
    | integer i =>
      dsimp only
      rw [h.length_eq]
      refine (Agrees.ofExcept (resolveIndex_plain i _)).bind ?_
      rintro place _ rfl
      refine .pure ?_
      simp only [List.getD_eq_getElem?_getD]
      rcases forall₂_getElem? h place with ⟨hx, hy⟩ | ⟨x, y, hx, hy, hxy⟩
      · rw [hx, hy]
        rfl
      · rw [hx, hy]
        exact hxy
    | range r =>
      dsimp only
      rw [h.length_eq]
      refine (Agrees.ofExcept (slice_plain r _)).bind ?_
      rintro positions _ rfl
      have hitems : ItemsAlike V us.toArray vs.toArray := h
      exact .pure (.tuple (pick_alike hitems positions))
    | _ => exact hcast
  · exact hcast
  · exact hcast

theorem index_list_agrees {a : Addr} (ha : V.lists ≤ a) (hi : i.Alike V j) :
    Agrees V (Alike V) ((list a).index i) ((list a).index j) := by
  have hcast := cast_fails hi
  unfold index
  refine .get fun w w' hw => ?_
  have hitems := hw.list ha
  rcases hi.cases with ⟨rfl, -⟩ | ⟨_, _, rfl, rfl, -⟩ | ⟨_, _, _, _, rfl, rfl, -⟩
  · cases j with
    | integer i =>
      dsimp only
      rw [hitems.size]
      refine (Agrees.ofExcept (resolveIndex_plain i _)).bind ?_
      rintro place _ rfl
      exact .pure (getD_alike hitems place)
    | range r =>
      dsimp only
      rw [hitems.size]
      refine (Agrees.ofExcept (slice_plain r _)).bind ?_
      rintro positions _ rfl
      exact .newList (pick_alike hitems positions)
    | _ => exact hcast
  · exact hcast
  · exact hcast

theorem index_dictionary_agrees {a : Addr} (ha : V.dictionaries ≤ a) (hi : i.Alike V j) :
    Agrees V (Alike V) ((dictionary a).index i) ((dictionary a).index j) := by
  unfold index
  refine .get fun w w' hw => ?_
  dsimp only
  rw [key_alike hi]
  refine (Agrees.ofExcept (key_plain i)).bind ?_
  rintro k _ rfl
  rcases (hw.dictionary ha).get? k with ⟨h₁, h₂⟩ | ⟨x, y, h₁, h₂, hxy⟩
  · rw [h₁, h₂]
    exact .pure rfl
  · rw [h₁, h₂]
    exact .pure hxy

theorem index_struct_agrees {a : Addr} (ha : V.records ≤ a) (hi : i.Alike V j) :
    Agrees V (Alike V) ((struct a).index i) ((struct a).index j) := by
  have hcast := cast_fails hi
  unfold index
  refine .get fun w w' hw => ?_
  have hrecord := hw.record ha
  rcases hi.cases with ⟨rfl, -⟩ | ⟨_, _, rfl, rfl, -⟩ | ⟨_, _, _, _, rfl, rfl, -⟩
  · cases j with
    | string field =>
      rcases hrecord.fields.get? field with ⟨h₁, h₂⟩ | ⟨x, y, h₁, h₂, hxy⟩
      · dsimp only
        rw [h₁, h₂, hrecord.name]
        exact .fail rfl
      · dsimp only
        rw [h₁, h₂]
        exact .pure hxy
    | _ => exact hcast
  · exact hcast
  · exact hcast

theorem index_string_agrees (s : String) (hi : i.Alike V j) :
    Agrees V (Alike V) ((string s).index i) ((string s).index j) := by
  have hcast := cast_fails hi
  unfold index
  refine .get fun w w' hw => ?_
  rcases hi.cases with ⟨rfl, -⟩ | ⟨_, _, rfl, rfl, -⟩ | ⟨_, _, _, _, rfl, rfl, -⟩
  · cases j with
    | integer i => exact (Agrees.ofExcept (resolveIndex_plain i _)).bind fun _ _ hp => .pure (by rw [hp]; rfl)
    | range r => exact (Agrees.ofExcept (slice_plain r _)).bind fun _ _ hp => .pure (by rw [hp]; rfl)
    | _ => exact hcast
  · exact hcast
  · exact hcast

theorem index_range_agrees (r : Range) (hi : i.Alike V j) :
    Agrees V (Alike V) ((range r).index i) ((range r).index j) := by
  have hcast := cast_fails hi
  unfold index
  refine .get fun w w' hw => ?_
  rcases hi.cases with ⟨rfl, -⟩ | ⟨_, _, rfl, rfl, -⟩ | ⟨_, _, _, _, rfl, rfl, -⟩
  · cases j with
    | integer i => exact (Agrees.ofExcept (rangeItem_plain r i)).bind fun _ _ hn => .pure (by rw [hn]; rfl)
    | _ => exact hcast
  · exact hcast
  · exact hcast

theorem index_stream_agrees (a : Addr) (hi : i.Alike V j) :
    Agrees V (Alike V) ((stream a).index i) ((stream a).index j) := by
  have hcast := cast_fails hi
  unfold index
  refine .get fun w w' hw => ?_
  rcases hi.cases with ⟨rfl, -⟩ | ⟨_, _, rfl, rfl, -⟩ | ⟨_, _, _, _, rfl, rfl, -⟩
  · cases j with
    | integer i =>
      refine (Job.lines_agrees a).bind ?_
      rintro lines _ rfl
      exact (Agrees.ofExcept (resolveIndex_plain i _)).bind fun _ _ hp => .pure (by rw [hp]; rfl)
    | _ => exact hcast
  · exact hcast
  · exact hcast

theorem index_agrees (h : u.Alike V v) (hi : i.Alike V j) : Agrees V (Alike V) (u.index i) (v.index j) := by
  rcases h.cases with ⟨rfl, -⟩ | ⟨us, vs, rfl, rfl, hvs⟩ | ⟨u', v', t, t', rfl, rfl, -⟩
  · cases v with
    | tuple vs =>
      obtain ⟨_, ⟨⟩, hvs⟩ := h
      exact index_tuple_agrees (allAlike_iff.1 hvs) hi
    | list a => exact index_list_agrees h.2 hi
    | dictionary a => exact index_dictionary_agrees h.2 hi
    | struct a => exact index_struct_agrees h.2 hi
    | string s => exact index_string_agrees s hi
    | range r => exact index_range_agrees r hi
    | stream a => exact index_stream_agrees a hi
    | _ => exact .get fun _ _ _ => .fail rfl
  · exact index_tuple_agrees hvs hi
  · exact .get fun _ _ _ => .fail rfl

theorem store_agrees {x y : Value} (h : u.Alike V v) (hi : i.Alike V j) (hx : x.Alike V y) :
    Agrees V Eq (u.store i x) (v.store j y) := by
  have hcast : Agrees V Eq (Effect.fail (.cast i.kind "index") : Effect Unit) (Effect.fail (.cast j.kind "index")) := by
    rw [hi.kind]
    exact .fail rfl
  unfold store
  refine .get fun w w' hw => ?_
  rcases h.cases with ⟨rfl, -⟩ | ⟨us, vs, rfl, rfl, -⟩ | ⟨u', v', t, t', rfl, rfl, -⟩
  · cases v with
    | list a =>
      rcases hi.cases with ⟨rfl, -⟩ | ⟨_, _, rfl, rfl, -⟩ | ⟨_, _, _, _, rfl, rfl, -⟩
      · cases j with
        | integer i =>
          dsimp only
          rw [(hw.list h.2).size]
          refine (Agrees.ofExcept (resolveIndex_plain i _)).bind ?_
          rintro place _ rfl
          exact .modify fun w w' hw => hw.setListItem h.2 place hx
        | _ => exact hcast
      · exact hcast
      · exact hcast
    | dictionary a =>
      dsimp only
      rw [key_alike hi]
      refine (Agrees.ofExcept (key_plain i)).bind ?_
      rintro k _ rfl
      exact .modify fun w w' hw => hw.insertEntry h.2 k hx
    | struct a =>
      rcases hi.cases with ⟨rfl, -⟩ | ⟨_, _, rfl, rfl, -⟩ | ⟨_, _, _, _, rfl, rfl, -⟩
      · cases j with
        | string field =>
          have hrecord := hw.record h.2
          dsimp only
          rw [hrecord.fields.contains, hrecord.name]
          split
          · exact .modify fun w w' hw => hw.setField h.2 field hx
          · exact .fail rfl
        | _ => exact hcast
      · exact hcast
      · exact hcast
    | _ => exact .fail rfl
  · exact .fail rfl
  · exact .fail rfl

/-! ## Operators -/

variable {a a' b b' : Value} {op : BinaryOp}

/-- The outcome of a calculation: a value that refers to nothing, or a plain failure. -/
def Outcome (V : View) : Except Cause Value → Prop
  | .ok v => v.Alike V v
  | .error cause => cause.isPlain

theorem Outcome.agrees {e : Except Cause Value} (h : Outcome V e) :
    Agrees V (Alike V) (Effect.ofExcept e) (Effect.ofExcept e) := by
  cases e with
  | ok v => exact .pure h
  | error cause => exact .fail h

theorem floatArithmetic_outcome (hop : op.isArithmetic) (x y : Float) : Outcome V (floatArithmetic op x y) := by
  cases op with
  | add | subtract | multiply | power => exact rfl
  | divide | modulo =>
    unfold floatArithmetic
    dsimp only
    split
    · exact rfl
    · exact rfl
  | _ => cases hop

theorem integerArithmetic_outcome (hop : op.isArithmetic) (m n : Int64) : Outcome V (integerArithmetic op m n) := by
  unfold integerArithmetic
  cases op with
  | add | subtract | multiply =>
    dsimp only
    split
    · exact rfl
    · exact rfl
  | divide => exact floatArithmetic_outcome hop _ _
  | modulo =>
    dsimp only
    split
    · exact rfl
    · split
      · exact rfl
      · exact rfl
  | power =>
    dsimp only
    split
    · split
      · exact rfl
      · exact rfl
    · exact floatArithmetic_outcome hop _ _
  | _ => cases hop

theorem mixedArithmetic_agrees (hop : op.isArithmetic) (ha : a.Alike V a') (hb : b.Alike V b') :
    Agrees V (Alike V) (Effect.ofExcept (mixedArithmetic op a b)) (Effect.ofExcept (mixedArithmetic op a' b')) := by
  unfold mixedArithmetic
  rw [ha.asNumber?, hb.asNumber?, ha.kind, hb.kind]
  refine Outcome.agrees ?_
  split
  · exact floatArithmetic_outcome hop _ _
  · exact rfl

theorem repeatCount_plain (length : Nat) (n : Int64) : Plainly (repeatCount length n) := by
  unfold repeatCount
  split
  · exact .ok _
  · dsimp only
    split
    · exact .error rfl
    · split
      · exact .error rfl
      · exact .ok _

theorem append_alike {xs xs' ys ys' : Array Value} (hx : ItemsAlike V xs xs') (hy : ItemsAlike V ys ys') :
    ItemsAlike V (xs ++ ys) (xs' ++ ys') := by
  unfold ItemsAlike
  simp only [Array.toList_append]
  exact List.rel_append hx hy

theorem repeatArray_alike {xs ys : Array Value} (h : ItemsAlike V xs ys) :
    ∀ count : Nat, ItemsAlike V (repeatArray xs count) (repeatArray ys count)
  | 0 => .nil
  | count + 1 => append_alike (repeatArray_alike h count) h

theorem arithmetic_integer_agrees (hop : op.isArithmetic) (m : Int64) (hb : b.Alike V b') :
    Agrees V (Alike V) (arithmetic op (integer m) b) (arithmetic op (integer m) b') := by
  have hmixed := mixedArithmetic_agrees hop (show (integer m).Alike V (integer m) from rfl) hb
  unfold arithmetic
  rcases hb.cases with ⟨rfl, -⟩ | ⟨_, _, rfl, rfl, -⟩ | ⟨_, _, _, _, rfl, rfl, -⟩
  · cases b' with
    | integer n => exact (integerArithmetic_outcome hop m n).agrees
    | _ => exact hmixed
  · exact hmixed
  · exact hmixed

/-- A string can be followed by the text of any value. -/
theorem arithmetic_string_agrees (hop : op.isArithmetic) (s : String) (hb : b.Alike V b') :
    Agrees V (Alike V) (arithmetic op (string s) b) (arithmetic op (string s) b') := by
  have hmixed := mixedArithmetic_agrees hop (show (string s).Alike V (string s) from rfl) hb
  have htext : Agrees V (Alike V) (do return string (s ++ (← b.text))) (do return string (s ++ (← b'.text))) :=
    (text_agrees hb).bind fun _ _ ht => .pure (by rw [ht]; rfl)
  unfold arithmetic
  cases op with
  | add =>
    rcases hb.cases with ⟨rfl, -⟩ | ⟨_, _, rfl, rfl, -⟩ | ⟨_, _, _, _, rfl, rfl, -⟩
    · cases b' <;> exact htext
    · exact htext
    · exact htext
  | multiply =>
    rcases hb.cases with ⟨rfl, -⟩ | ⟨_, _, rfl, rfl, -⟩ | ⟨_, _, _, _, rfl, rfl, -⟩
    · cases b' with
      | integer n => exact (Agrees.ofExcept (repeatCount_plain _ n)).bind fun _ _ hc => .pure (by rw [hc]; rfl)
      | _ => exact hmixed
    · exact hmixed
    · exact hmixed
  | _ =>
    rcases hb.cases with ⟨rfl, -⟩ | ⟨_, _, rfl, rfl, -⟩ | ⟨_, _, _, _, rfl, rfl, -⟩
    · cases b' <;> exact hmixed
    · exact hmixed
    · exact hmixed

theorem arithmetic_list_agrees (hop : op.isArithmetic) {m : Addr} (hm : V.lists ≤ m) (hb : b.Alike V b') :
    Agrees V (Alike V) (arithmetic op (list m) b) (arithmetic op (list m) b') := by
  have hmixed := mixedArithmetic_agrees hop (show (list m).Alike V (list m) from ⟨rfl, hm⟩) hb
  unfold arithmetic
  rcases hb.cases with ⟨rfl, -⟩ | ⟨_, _, rfl, rfl, -⟩ | ⟨_, _, _, _, rfl, rfl, -⟩
  · cases b' with
    | list n =>
      cases op with
      | add => exact .get fun w w' hw => .newList (append_alike (hw.list hm) (hw.list hb.2))
      | _ => exact hmixed
    | integer n =>
      cases op with
      | multiply =>
        refine .get fun w w' hw => ?_
        dsimp only
        rw [(hw.list hm).size]
        refine (Agrees.ofExcept (repeatCount_plain _ n)).bind ?_
        rintro count _ rfl
        exact .newList (repeatArray_alike (hw.list hm) count)
      | _ => exact hmixed
    | _ => exact hmixed
  · exact hmixed
  · exact hmixed

theorem arithmetic_tuple_agrees (hop : op.isArithmetic) {us vs : List Value} (h : List.Forall₂ (Alike V) us vs)
    (hb : b.Alike V b') : Agrees V (Alike V) (arithmetic op (tuple us) b) (arithmetic op (tuple vs) b') := by
  have hmixed := mixedArithmetic_agrees hop (.tuple h) hb
  unfold arithmetic
  rcases hb.cases with ⟨rfl, hne⟩ | ⟨us', vs', rfl, rfl, h'⟩ | ⟨_, _, _, _, rfl, rfl, -⟩
  · cases b' with
    | tuple vs => exact absurd rfl (hne vs)
    | _ => exact hmixed
  · cases op with
    | add => exact .pure (.tuple (List.rel_append h h'))
    | _ => exact hmixed
  · exact hmixed

theorem arithmetic_set_agrees (hop : op.isArithmetic) (m : Addr) (hb : b.Alike V b') :
    Agrees V (Alike V) (arithmetic op (set m) b) (arithmetic op (set m) b') := by
  have hmixed := mixedArithmetic_agrees hop (show (set m).Alike V (set m) from rfl) hb
  unfold arithmetic
  rcases hb.cases with ⟨rfl, -⟩ | ⟨_, _, rfl, rfl, -⟩ | ⟨_, _, _, _, rfl, rfl, -⟩
  · cases b' with
    | set n =>
      cases op with
      | add | subtract =>
        refine .get fun w w' hw => ?_
        rw [hw.set, hw.set]
        exact .newSet _
      | _ => exact hmixed
    | _ => exact hmixed
  · exact hmixed
  · exact hmixed

theorem arithmetic_agrees (hop : op.isArithmetic) (ha : a.Alike V a') (hb : b.Alike V b') :
    Agrees V (Alike V) (arithmetic op a b) (arithmetic op a' b') := by
  have hmixed := mixedArithmetic_agrees hop ha hb
  rcases ha.cases with ⟨rfl, hne⟩ | ⟨us, vs, rfl, rfl, hvs⟩ | ⟨_, _, _, _, rfl, rfl, -⟩
  · cases a' with
    | integer m => exact arithmetic_integer_agrees hop m hb
    | string s => exact arithmetic_string_agrees hop s hb
    | list m => exact arithmetic_list_agrees hop ha.2 hb
    | tuple vs => exact absurd rfl (hne vs)
    | set m => exact arithmetic_set_agrees hop m hb
    | _ => exact hmixed
  · exact arithmetic_tuple_agrees hop hvs hb
  · exact hmixed

theorem any_alike {us vs : List Value} {p q : Value → Bool} (h : List.Forall₂ (Alike V) us vs)
    (hpq : ∀ u v, u.Alike V v → q v = p u) : vs.any q = us.any p := by
  induction h with
  | nil => rfl
  | cons hv _ ih => rw [List.any_cons, List.any_cons, hpq _ _ hv, ih]

theorem contains_agrees (hv : a.Alike V a') (hn : b.Alike V b') : Agrees V Eq (a.contains b) (a'.contains b') := by
  unfold contains
  refine .get fun w w' hw => ?_
  have hsame : ∀ x y : Value, x.Alike V y → same w' y b' = same w x b := fun x y hxy => same_alike hw hxy hn
  rcases hv.cases with ⟨rfl, -⟩ | ⟨us, vs, rfl, rfl, hvs⟩ | ⟨_, _, _, _, rfl, rfl, -⟩
  · cases a' with
    | list m =>
      refine .pure ?_
      rw [← Array.any_toList, ← Array.any_toList]
      exact (any_alike (hw.list hv.2) hsame).symm
    | tuple vs =>
      obtain ⟨_, ⟨⟩, hvs⟩ := hv
      exact .pure (any_alike (allAlike_iff.1 hvs) hsame).symm
    | set m =>
      refine .pure ?_
      rw [hn.key?, hw.set]
    | dictionary m =>
      have hm := hw.dictionary hv.2
      refine .pure ?_
      rw [hn.key?, funext hm.contains]
    | string s =>
      rcases hn.cases with ⟨rfl, -⟩ | ⟨_, _, rfl, rfl, -⟩ | ⟨_, _, _, _, rfl, rfl, -⟩
      · cases b' with
        | string n => exact .pure rfl
        | _ => exact .fail rfl
      · exact .fail rfl
      · exact .fail rfl
    | range r =>
      refine .pure ?_
      rw [hn.asInteger?]
    | stream m =>
      refine (text_agrees hn).bind ?_
      rintro t _ rfl
      exact (Job.lines_agrees m).bind fun _ _ hl => .pure (by rw [hl])
    | _ =>
      dsimp only
      rw [hn.kind]
      exact .fail rfl
  · exact .pure (any_alike hvs hsame).symm
  · dsimp only
    rw [hn.kind]
    exact .fail rfl

section Less

variable {w : World} {deep : Value → Value → Except Cause Bool}

theorem lessSequence_plain (hdeep : ∀ a b, Plainly (deep a b)) :
    ∀ as bs : List Value, Plainly (lessSequence w deep as bs)
  | [], _ => .ok _
  | _ :: _, [] => .ok _
  | a :: as, b :: bs => by
    unfold lessSequence
    split
    · exact lessSequence_plain hdeep as bs
    · exact hdeep a b

mutual

theorem lessWith_plain (hdeep : ∀ a b, Plainly (deep a b)) : ∀ a b : Value, Plainly (lessWith deep w op a b)
  | .tuple as, b => by
    cases b with
    | tuple bs => exact lessAllWith_plain hdeep as bs
    | _ => exact .error rfl
  | .list a, b => by
    cases b with
    | list b => exact lessSequence_plain hdeep _ _
    | _ => exact .error rfl
  | .integer a, b | .float a, b => by
    cases b with
    | integer b | float b => exact .ok _
    | _ => exact .error rfl
  | .string a, b => by
    cases b with
    | string b => exact .ok _
    | _ => exact .error rfl
  | .boolean a, b => by
    cases b with
    | boolean b => exact .ok _
    | _ => exact .error rfl
  | .nil, b | .dictionary _, b | .set _, b | .range _, b | .struct _, b | .function _, b | .error .., b
  | .stream _, b => by cases b <;> exact .error rfl

theorem lessAllWith_plain (hdeep : ∀ a b, Plainly (deep a b)) :
    ∀ as bs : List Value, Plainly (lessAllWith deep w op as bs)
  | [], _ => .ok _
  | _ :: _, [] => .ok _
  | a :: as, b :: bs => by
    unfold lessAllWith
    split
    · exact lessAllWith_plain hdeep as bs
    · exact lessWith_plain hdeep a b

end

theorem lessTo_plain : ∀ (depth : Nat) (a b : Value), Plainly (lessTo w op depth a b)
  | 0, a, b => lessWith_plain (fun _ _ => .ok _) a b
  | depth + 1, a, b => lessWith_plain (lessTo_plain depth) a b

theorem less_plain (w : World) (op : BinaryOp) (a b : Value) : Plainly (less w op a b) := lessTo_plain _ a b

end Less

theorem binary_agrees (op : BinaryOp) (ha : a.Alike V a') (hb : b.Alike V b') :
    Agrees V (Alike V) (binary op a b) (binary op a' b') := by
  unfold binary
  cases op with
  | equal | notEqual => exact .get fun w w' hw => .pure (by rw [same_alike hw ha hb]; rfl)
  | and =>
    refine (truth_agrees ha).bind ?_
    rintro x _ rfl
    cases x with
    | true => exact (truth_agrees hb).bind fun _ _ ht => .pure (by rw [ht]; rfl)
    | false => exact .pure rfl
  | or =>
    refine (truth_agrees ha).bind ?_
    rintro x _ rfl
    cases x with
    | true => exact .pure rfl
    | false => exact (truth_agrees hb).bind fun _ _ ht => .pure (by rw [ht]; rfl)
  | member => exact (contains_agrees hb ha).bind fun _ _ hx => .pure (by rw [hx]; rfl)
  | less =>
    refine .get fun w w' hw => ?_
    rw [less_alike hw ha hb]
    exact (Agrees.ofExcept (less_plain w _ a b)).bind fun _ _ hx => .pure (by rw [hx]; rfl)
  | greater =>
    refine .get fun w w' hw => ?_
    rw [less_alike hw hb ha]
    exact (Agrees.ofExcept (less_plain w _ b a)).bind fun _ _ hx => .pure (by rw [hx]; rfl)
  | lessEqual =>
    refine .get fun w w' hw => ?_
    rw [same_alike hw ha hb, less_alike hw ha hb]
    split
    · exact .pure rfl
    · exact (Agrees.ofExcept (less_plain w _ a b)).bind fun _ _ hx => .pure (by rw [hx]; rfl)
  | greaterEqual =>
    refine .get fun w w' hw => ?_
    rw [same_alike hw ha hb, less_alike hw hb ha]
    split
    · exact .pure rfl
    · exact (Agrees.ofExcept (less_plain w _ b a)).bind fun _ _ hx => .pure (by rw [hx]; rfl)
  | _ => exact arithmetic_agrees rfl ha hb

theorem unary_agrees (op : UnaryOp) (h : a.Alike V a') : Agrees V (Alike V) (unary op a) (unary op a') := by
  unfold unary
  cases op with
  | not => exact (truth_agrees h).bind fun _ _ ht => .pure (by rw [ht]; rfl)
  | negate =>
    rcases h.cases with ⟨rfl, -⟩ | ⟨_, _, rfl, rfl, -⟩ | ⟨_, _, _, _, rfl, rfl, -⟩
    · cases a' with
      | integer n =>
        dsimp only
        split
        · exact .pure rfl
        · exact .fail rfl
      | float x => exact .pure rfl
      | _ => exact .fail rfl
    · exact .fail rfl
    · exact .fail rfl

end Value

/-! ## Iterators -/

/-- Iterators over values that are alike. -/
def Iter.Alike (V : View) : Iter → Iter → Prop
  | .list a i, it => it = .list a i ∧ V.lists ≤ a
  | .snapshot us, it => ∃ vs, it = .snapshot vs ∧ List.Forall₂ (Value.Alike V) us vs
  | it, it' => it' = it

namespace Iter

variable {V : View}

theorem ofValue_agrees {u v : Value} (h : u.Alike V v) : Agrees V (Iter.Alike V) (ofValue u) (ofValue v) := by
  have hitems : Agrees V (Iter.Alike V) (do return snapshot (← u.items)) (do return snapshot (← v.items)) :=
    (Value.items_agrees h).bind fun _ vs hvs => .pure ⟨vs, rfl, hvs⟩
  unfold ofValue
  rcases h.cases with ⟨rfl, hne⟩ | ⟨us, vs, rfl, rfl, -⟩ | ⟨_, _, _, _, rfl, rfl, -⟩
  · cases v with
    | list a => exact .pure ⟨rfl, h.2⟩
    | range r | string s | stream a => exact .pure rfl
    | tuple _ | dictionary _ | set _ => exact hitems
    | _ => exact .fail rfl
  · exact hitems
  · exact .fail rfl

theorem next_agrees {it it' : Iter} (h : it.Alike V it') :
    Agrees V (fun r r' => Option.Rel (Value.Alike V) r.1 r'.1 ∧ r.2.Alike V r'.2) it.next it'.next := by
  unfold next
  cases it with
  | list a i =>
    obtain ⟨rfl, ha⟩ := h
    refine .get fun w w' hw => ?_
    have := forall₂_getElem? (hw.list ha) i
    simp only [Array.getElem?_toList] at this
    rcases this with ⟨hx, hy⟩ | ⟨x, y, hx, hy, hxy⟩
    · rw [hx, hy]
      exact .pure ⟨.none, rfl, ha⟩
    · rw [hx, hy]
      exact .pure ⟨.some hxy, rfl, ha⟩
  | snapshot us =>
    obtain ⟨vs, rfl, hvs⟩ := h
    cases hvs with
    | nil => exact .pure ⟨.none, [], rfl, .nil⟩
    | cons hv hvs => exact .pure ⟨.some hv, _, rfl, hvs⟩
  | range walk =>
    rw [show it' = _ from h]
    exact .pure ⟨Value.rel_map_self (f := Value.integer) (fun _ => rfl) _, rfl⟩
  | chars cs =>
    rw [show it' = _ from h]
    cases cs with
    | nil => exact .pure ⟨.none, rfl⟩
    | cons c cs => exact .pure ⟨.some rfl, rfl⟩
  | lines a i =>
    rw [show it' = _ from h]
    refine (Job.pull_agrees a i).bind ?_
    rintro line? _ rfl
    cases line? with
    | none => exact .pure ⟨.none, rfl⟩
    | some line => exact .pure ⟨.some rfl, rfl⟩

end Iter

end ShellVM
