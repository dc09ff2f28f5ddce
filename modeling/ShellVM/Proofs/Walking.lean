import ShellVM.Iter
import ShellVM.Library
import ShellVM.Proofs.Computation
import ShellVM.Proofs.Container.Keys
import ShellVM.Proofs.Keys
import ShellVM.Proofs.Range.Walk
import ShellVM.Value.Arithmetic

/-!
# Ways of walking a value

The items of a value are written down at once, given one by one by an iterator, counted, and asked for a value that
may be among them, each in its own way: a range is counted and asked by arithmetic, and sets and dictionaries are
asked through their hash, which knows values that make keys only. An iterator is looked at again and again for its
next item (`Iter.looks`); while nothing changes, it gives the items of the value one after the other, and nothing from
then on, however often it is asked (`Iter.looks_eq_items`). All the ways agree (`Value.ways_of_walking_agree`).
-/

namespace ShellVM

namespace Value

variable {w u : World} {xs : List Value} {r : Range}

theorem items_range (r : Range) : (range r).items w = (match r.items? with
    | some ns => .ok (ns.map integer) w
    | none => .error (.ofCause .infiniteRange) w) := by
  show (match r.items? with | some ns => pure (ns.map integer) | none => Effect.fail .infiniteRange :
    Effect (List Value)) w = _
  cases r.items? <;> rfl

theorem items_range_ok (h : (range r).items w = .ok xs u) : ∃ ns, r.items? = some ns ∧ xs = ns.map integer ∧ u = w := by
  rw [items_range] at h
  cases hitems : r.items? with
  | some ns =>
    rw [hitems] at h
    cases h
    exact ⟨ns, rfl, rfl, rfl⟩
  | none =>
    rw [hitems] at h
    cases h

end Value

/-! ## Looks at the next item -/

namespace Iter

/-- What so many looks at the next item give, one after the other. -/
def looks : Nat → Iter → Effect (List (Option Value))
  | 0, _ => return []
  | n + 1, it => do
    let (item?, it) ← it.next
    return item? :: (← looks n it)

variable {w u : World} {v : Value} {xs : List Value} {k n : Nat}

/-- Looks at iterators that come one after the other give what each of them gives. -/
theorem looks_of_steps {f : Nat → Iter} (h : ∀ k, (f k).next w = .ok (xs[k]?, f (k + 1)) w) :
    looks n (f k) w = .ok ((List.range' k n).map (xs[·]?)) w := by
  induction n generalizing k with
  | zero => rfl
  | succ n ih =>
    have hrest : (do return xs[k]? :: (← looks n (f (k + 1))) : Effect (List (Option Value))) w =
        .ok ((List.range' k (n + 1)).map (xs[·]?)) w := bind_run_ok ih
    exact (bind_run_ok (h k)).trans hrest

theorem next_at (a : Addr) (i : Nat) : (list a i).next w = (match (w.list a)[i]? with
    | some v => .ok (some v, list a (i + 1)) w
    | none => .ok (none, list a i) w) := by
  show (match (w.list a)[i]? with
    | some v => pure (some v, list a (i + 1))
    | none => pure (none, list a i) : Effect (Option Value × Iter)) w = _
  cases (w.list a)[i]? <;> rfl

/-- A live list is looked at place by place, and stays at its end. -/
theorem next_list (a : Addr) (k : Nat) : (list a (min k (w.list a).size)).next w =
    .ok ((w.list a).toList[k]?, list a (min (k + 1) (w.list a).size)) w := by
  rw [next_at, Array.getElem?_toList]
  by_cases hk : k < (w.list a).size
  · rw [Nat.min_eq_left (Nat.le_of_lt hk), Nat.min_eq_left hk, Array.getElem?_eq_getElem hk]
  · have hle := Nat.not_lt.1 hk
    rw [Nat.min_eq_right hle, Nat.min_eq_right (Nat.le_succ_of_le hle), Array.getElem?_eq_none hle,
      Array.getElem?_eq_none (Nat.le_refl _)]

/-- What is left of a row from a place on: the item there and what is left behind it, or nothing. -/
theorem drop_cases {α : Type} (xs : List α) (k : Nat) : (∃ x, xs[k]? = some x ∧ xs.drop k = x :: xs.drop (k + 1)) ∨
    (xs[k]? = none ∧ xs.drop k = [] ∧ xs.drop (k + 1) = []) := by
  by_cases hk : k < xs.length
  · exact .inl ⟨xs[k], List.getElem?_eq_getElem hk, List.drop_eq_getElem_cons hk⟩
  · have hle := Nat.not_lt.1 hk
    exact .inr ⟨List.getElem?_eq_none hle, List.drop_eq_nil_of_le hle, List.drop_eq_nil_of_le (Nat.le_succ_of_le hle)⟩

theorem next_snapshot (xs : List Value) (k : Nat) :
    (snapshot (xs.drop k)).next w = .ok (xs[k]?, snapshot (xs.drop (k + 1))) w := by
  rcases drop_cases xs k with ⟨x, hx, hdrop⟩ | ⟨hx, hdrop, hrest⟩
  · rw [hdrop, hx]
    rfl
  · rw [hdrop, hrest, hx]
    rfl

theorem next_chars (cs : List Char) (k : Nat) : (chars (cs.drop k)).next w =
    .ok ((cs.map fun c => Value.string c.toString)[k]?, chars (cs.drop (k + 1))) w := by
  rw [List.getElem?_map]
  rcases drop_cases cs k with ⟨c, hc, hdrop⟩ | ⟨hc, hdrop, hrest⟩
  · rw [hdrop, hc]
    rfl
  · rw [hdrop, hrest, hc]
    rfl

/-- While nothing changes, looks at the iterator of a value give its items, and nothing from then on. -/
theorem looks_eq_items (hv : v.kind ≠ .processStream) (h : v.items w = .ok xs u) :
    u = w ∧ ∃ it, ofValue v w = .ok it w ∧ ∀ n, looks n it w = .ok ((List.range n).map (xs[·]?)) w := by
  have hlooks (f : Nat → Iter) (hsteps : ∀ k, (f k).next w = .ok (xs[k]?, f (k + 1)) w) (n : Nat) :
      looks n (f 0) w = .ok ((List.range n).map (xs[·]?)) w := by
    rw [List.range_eq_range']
    exact looks_of_steps hsteps
  cases v with
  | list a =>
    -- the place of a list's iterator stays at the end, it does not go on behind it
    cases h
    exact ⟨rfl, _, rfl, hlooks (fun k => list a (min k (w.list a).size)) (next_list a)⟩
  | tuple vs =>
    cases h
    exact ⟨rfl, _, rfl, hlooks (fun k => snapshot (xs.drop k)) (next_snapshot xs)⟩
  | dictionary a | set a =>
    cases h
    exact ⟨rfl, _, rfl, hlooks (fun k => snapshot (List.drop k _)) (next_snapshot _)⟩
  | string s =>
    cases h
    exact ⟨rfl, _, rfl, hlooks (fun k => chars (s.toList.drop k)) (next_chars s.toList)⟩
  | range r =>
    obtain ⟨ns, hns, rfl, rfl⟩ := Value.items_range_ok h
    refine ⟨rfl, _, rfl, hlooks (fun k => range (r.walk.after k)) fun k => ?_⟩
    rw [List.getElem?_map, ← Range.nth_eq_getElem? hns]
    rfl
  | stream a => exact absurd rfl hv
  | _ => cases h

end Iter

namespace Value

variable {w u : World} {v x : Value} {xs : List Value} {a : Addr} {r : Range} {n : Nat}

/-! ## Values that cannot be walked through -/

/-- A value has no iterator just if it has no items by its kind; an open range has one. -/
theorem ofValue_error_iff {fault : Fault} (hv : v.kind ≠ .processStream) (hfault : ∃ k, fault.cause = .notIterable k) :
    Iter.ofValue v w = .error fault u ↔ v.items w = .error fault u := by
  cases v with
  | range r =>
    have hiter : Iter.ofValue (range r) w = .ok (.range r.walk) w := rfl
    rw [hiter, items_range]
    cases r.items? with
    | some ns => simp
    | none =>
      obtain ⟨k, hk⟩ := hfault
      refine iff_of_false (fun h => by cases h) fun h => ?_
      cases h
      cases hk
  | stream a => exact absurd rfl hv
  | list | tuple | dictionary | set | string => exact iff_of_false (fun h => by cases h) fun h => by cases h
  | _ => exact ⟨fun h => by cases h; rfl, fun h => by cases h; rfl⟩

/-! ## Counting -/

theorem length_range (r : Range) : (range r).length w = (match r.length? with
    | some n => .ok n w
    | none => .error (.ofCause .infiniteRange) w) := by
  show (match r.length? with | some n => pure n | none => Effect.fail .infiniteRange : Effect Nat) w = _
  cases r.length? <;> rfl

/-- The number of items, as far as it fits into words. -/
theorem length_of_items (hv : v.kind ≠ .processStream) (h : v.items w = .ok xs u) :
    ∃ n : Nat, v.length w = .ok n w ∧ Word.ofInt? n = Word.ofInt? xs.length := by
  obtain ⟨rfl, -⟩ := Iter.looks_eq_items hv h
  have hlength (hitems : v.length = do return (← v.items).length) : v.length u = .ok xs.length u := by
    rw [hitems]
    exact bind_run_ok h
  cases v with
  | string s =>
    cases h
    refine ⟨s.length, rfl, ?_⟩
    rw [List.length_map, String.length_toList]
  | range r =>
    obtain ⟨ns, hns, rfl, -⟩ := items_range_ok h
    obtain ⟨last, hlast, rfl⟩ := Range.exists_last_of_items? hns
    refine ⟨min (r.count last) Range.maxCount, ?_, ?_⟩
    · rw [length_range, Range.length?_eq hlast]
    · -- A count that is cut off does not fit anyway.
      rw [List.length_map, List.length_map, List.length_range]
      unfold Word.ofInt? Word.Fits Range.maxCount
      by_cases hcount : r.count last ≤ 18446744073709551615
      · rw [Nat.min_eq_left hcount]
      · rw [if_neg (by omega), if_neg (by omega)]
  | stream a => exact absurd rfl hv
  | _ => exact ⟨_, hlength rfl, rfl⟩

theorem standard_len : Library.standard.get? "len" = some ⟨"len", 1, some 1, none, [], .length⟩ := by decide

/-- The library passes the number of items on, if it fits into a word. -/
theorem call_len_eq : (LibraryFunction.mk "len" 1 (some 1) none [] .length).call [v] w =
    (v.length >>= fun n => match Word.ofInt? n with
      | some n => pure (integer n)
      | none => Effect.fail (.integerOverflow "len") : Effect Value) w := rfl

/-- What the library says about the length of a value. -/
theorem call_len {m : Nat} (h : v.length w = .ok n w) (hn : Word.ofInt? n = Word.ofInt? m) :
    (LibraryFunction.mk "len" 1 (some 1) none [] .length).call [v] w =
      if m ≤ 9223372036854775807 then .ok (integer (Int64.ofInt m)) w
      else .error (.ofCause (.integerOverflow "len")) w := by
  rw [call_len_eq, bind_run_ok h, hn]
  unfold Word.ofInt? Word.Fits
  by_cases hm : m ≤ 9223372036854775807
  · rw [if_pos hm, if_pos (by omega)]
    rfl
  · rw [if_neg hm, if_neg (by omega)]
    rfl

/-- A range is counted by its bounds, and an open one cannot be counted. -/
theorem call_len_range (r : Range) :
    (LibraryFunction.mk "len" 1 (some 1) none [] .length).call [range r] w = match r.length? with
    | some n =>
      if n ≤ 9223372036854775807 then .ok (integer (Int64.ofInt n)) w else .error (.ofCause (.integerOverflow "len")) w
    | none => .error (.ofCause .infiniteRange) w := by
  have hlength := length_range (w := w) r
  cases h : r.length? with
  | some n =>
    rw [h] at hlength
    exact call_len hlength rfl
  | none =>
    rw [h] at hlength
    rw [call_len_eq]
    exact bind_run_error hlength

/-! ## Asking for a value -/

/-- A map finds the values of its keys, and says that values that make none are not there. -/
theorem any_contains_iff {ν : Type} {m : OrderedMap Key ν} : x.key?.any m.contains = true ↔
    ∃ k ∈ m.keys, x = ofKey k := by
  cases hkey : x.key? with
  | none =>
    refine iff_of_false Bool.false_ne_true ?_
    rintro ⟨k, -, rfl⟩
    cases (key?_ofKey k).symm.trans hkey
  | some k =>
    obtain rfl := eq_ofKey hkey
    rw [Option.any_some, OrderedMap.contains_iff]
    exact ⟨fun h => ⟨k, h, rfl⟩, fun ⟨l, hl, h⟩ => ofKey_injective h ▸ hl⟩

theorem any_same_keys {ν : Type} {m : OrderedMap Key ν} (hx : FloatFree w x) :
    x.key?.any m.contains = (m.keys.map ofKey).any (same w · x) := by
  rw [Bool.eq_iff_iff, any_contains_iff, any_same_ofKey hx]

/-- A range is asked by arithmetic. -/
theorem any_contains_range {ns : List Int64} (hx : FloatFree w x) (h : r.items? = some ns) :
    x.asInteger?.any r.contains = (ns.map integer).any (same w · x) := by
  have hkeys : ns.map integer = (ns.map Key.integer).map ofKey := by
    rw [List.map_map]
    rfl
  rw [Bool.eq_iff_iff, hkeys, any_same_ofKey hx]
  cases x with
  | integer n =>
    rw [asInteger?, Option.any_some, Range.contains_iff_mem h]
    refine ⟨fun hn => ⟨.integer n, List.mem_map_of_mem hn, rfl⟩, ?_⟩
    rintro ⟨k, hk, heq⟩
    obtain ⟨m, hm, rfl⟩ := List.mem_map.mp hk
    cases heq
    exact hm
  | _ =>
    refine iff_of_false Bool.false_ne_true ?_
    rintro ⟨k, hk, heq⟩
    obtain ⟨m, -, rfl⟩ := List.mem_map.mp hk
    cases heq

/-- Asking a list, a tuple, a set or a range for a value looks whether an item equals it. -/
theorem contains_of_items (hx : FloatFree w x) (hv : v.kind ∈ [.list, .tuple, .set, .range])
    (h : v.items w = .ok xs u) : v.contains x w = .ok (xs.any (same w · x)) w := by
  cases v with
  | list a =>
    cases h
    exact congrArg (EStateM.Result.ok · w) Array.any_toList.symm
  | tuple vs =>
    cases h
    rfl
  | set a =>
    cases h
    exact congrArg (EStateM.Result.ok · w) (any_same_keys hx)
  | range r =>
    obtain ⟨ns, hns, rfl, -⟩ := items_range_ok h
    exact congrArg (EStateM.Result.ok · w) (any_contains_range hx hns)
  | _ => simp [kind] at hv

/-! ## Agreement -/

/-- **The ways of walking a value agree**, for all values but streams. A value has no iterator just if it has no items
by its kind. If it has items, its iterator gives them one after the other while nothing changes, and nothing from then
on; the library counts them, and says of more items than fit into a word that there are too many; and a value without
floats is in a list, a tuple, a set or a range just if an item equals it, and in a dictionary just if a key does.
Ranges are counted by their bounds alone. -/
theorem ways_of_walking_agree (w : World) :
    ∃ len, Library.standard.get? "len" = some len ∧ ∀ v : Value, v.kind ≠ .processStream →
    (∀ fault u, (∃ k, fault.cause = .notIterable k) →
      (Iter.ofValue v w = .error fault u ↔ v.items w = .error fault u)) ∧
    (∀ xs u, v.items w = .ok xs u → u = w ∧
      (∃ it, Iter.ofValue v w = .ok it w ∧ ∀ n, it.looks n w = .ok ((List.range n).map (xs[·]?)) w) ∧
      (len.call [v] w = if xs.length ≤ 9223372036854775807 then .ok (integer (Int64.ofInt xs.length)) w
        else .error (.ofCause (.integerOverflow "len")) w) ∧
      ∀ x, FloatFree w x → v.kind ∈ [.list, .tuple, .set, .range] →
        binary .member x v w = .ok (boolean (xs.any (same w · x))) w) ∧
    (∀ a x, v = dictionary a → FloatFree w x →
      binary .member x v w = .ok (boolean (((w.dictionary a).keys.map ofKey).any (same w · x))) w) ∧
    ∀ r, v = range r → len.call [v] w = match r.length? with
      | some n => if n ≤ 9223372036854775807 then .ok (integer (Int64.ofInt n)) w
        else .error (.ofCause (.integerOverflow "len")) w
      | none => .error (.ofCause .infiniteRange) w := by
  refine ⟨_, standard_len, fun v hv =>
    ⟨fun fault u => ofValue_error_iff hv, fun xs u h => ?_, fun a x hdictionary hx => ?_, fun r hrange => ?_⟩⟩
  · obtain ⟨hworld, hlooks⟩ := Iter.looks_eq_items hv h
    obtain ⟨n, hlength, hn⟩ := length_of_items hv h
    exact ⟨hworld, hlooks, call_len hlength hn, fun x hx hkind => bind_run_ok (contains_of_items hx hkind h)⟩
  · subst hdictionary
    exact congrArg (fun b => EStateM.Result.ok (boolean b) w) (any_same_keys hx)
  · subst hrange
    exact call_len_range r

/-- The set of 1, asked for a list, which makes no key, and looked at once more than it has items. -/
theorem ways_of_walking_agree_set :
    let w : World := { lists := #[#[]], sets := #[.ofKeys [.integer 1]] }
    ∃ len it, Library.standard.get? "len" = some len ∧ len.call [set 0] w = .ok (integer 1) w ∧
      binary .member (list 0) (set 0) w = .ok (boolean false) w ∧
      Iter.ofValue (set 0) w = .ok it w ∧ it.looks 2 w = .ok [some (integer 1), none] w := by
  intro w
  have hitems : (set 0).items w = .ok [integer 1] w := by
    show EStateM.Result.ok ((OrderedMap.empty.insert (Key.integer 1) ()).keys.map ofKey) w = _
    rw [OrderedMap.keys_insert]
    rfl
  have hfree : FloatFree w (list 0) := by
    intro u hu
    cases hu with
    | refl => exact Kind.noConfusion
    | tail _ h => cases h
  obtain ⟨len, hlen, hagree⟩ := ways_of_walking_agree w
  obtain ⟨-, hwalked, -⟩ := hagree (set 0) Kind.noConfusion
  obtain ⟨-, ⟨it, hit, hlooks⟩, hcount, hmember⟩ := hwalked _ w hitems
  exact ⟨len, it, hlen, hcount, hmember _ hfree (by decide), hit, hlooks 2⟩

end Value

end ShellVM
