import Mathlib.Logic.Function.Basic
import ShellVM.Proofs.Order.Compare
import ShellVM.Value.Key

/-!
# Keys

What a key writes to a hash can be read back: the mark in front says which kind of key follows, a row says how many
items it has, and an optional part whether it is there. So where the writes of a key end is plain from the writes
themselves (`Key.writes_append_inj`), and different keys make different writes (`Key.writes_injective`).

A value makes a key if it is a boolean, an integer, a text or a range, or a tuple of such values to any depth
(`Value.exists_key_iff`). It is then the value of that key (`Value.eq_ofKey`), and nothing in it can change: how it
compares with any other value does not depend on the world (`Value.same_ofKey_world`), and two such values are equal
just if their keys are (`Value.same_ofKey`). So maps find what equality finds, and the contract between equality and
hashing holds.
-/

namespace ShellVM

/-! ## Writes -/

namespace Key

variable {s t : List Write}

theorem writesBoolean_append_inj {a b : Bool} (h : writesBoolean a ++ s = writesBoolean b ++ t) : a = b ∧ s = t := by
  cases a <;> cases b <;> simp_all [writesBoolean, Bool.toUInt8]

theorem writesString_append_inj {a b : String} (h : writesString a ++ s = writesString b ++ t) : a = b ∧ s = t := by
  simp only [writesString, List.cons_append, List.nil_append, List.cons.injEq, Write.bytes.injEq, true_and] at h
  exact ⟨String.toByteArray_inj.1 h.1, h.2⟩

theorem writesWord?_append_inj {a b : Option Int64} (h : writesWord? a ++ s = writesWord? b ++ t) : a = b ∧ s = t := by
  cases a <;> cases b <;> simp_all [writesWord?]

theorem writesRange_append_inj {a b : Range} (h : writesRange a ++ s = writesRange b ++ t) : a = b ∧ s = t := by
  obtain ⟨first?, last?, step?, inclusive⟩ := a
  obtain ⟨first?', last?', step?', inclusive'⟩ := b
  simp only [writesRange, List.append_assoc] at h
  obtain ⟨hfirst, h⟩ := writesWord?_append_inj h
  obtain ⟨hlast, h⟩ := writesWord?_append_inj h
  obtain ⟨hstep, h⟩ := writesWord?_append_inj h
  obtain ⟨hinclusive, h⟩ := writesBoolean_append_inj h
  exact ⟨by rw [hfirst, hlast, hstep, hinclusive], h⟩

mutual

/-- A key can be taken off the writes that follow it. -/
theorem writes_append_inj : ∀ {k l : Key} {s t : List Write}, writes k ++ s = writes l ++ t → k = l ∧ s = t
  | boolean a, l, s, t, h => by
    cases l with
    | boolean b =>
      obtain ⟨rfl, hrest⟩ := writesBoolean_append_inj (List.cons.inj h).2
      exact ⟨rfl, hrest⟩
    | _ => simp [writes] at h
  | integer a, l, s, t, h => by
    cases l with
    | integer b => simpa [writes] using h
    | _ => simp [writes] at h
  | string a, l, s, t, h => by
    cases l with
    | string b =>
      obtain ⟨rfl, hrest⟩ := writesString_append_inj (List.cons.inj h).2
      exact ⟨rfl, hrest⟩
    | _ => simp [writes] at h
  | range a, l, s, t, h => by
    cases l with
    | range b =>
      obtain ⟨rfl, hrest⟩ := writesRange_append_inj (List.cons.inj h).2
      exact ⟨rfl, hrest⟩
    | _ => simp [writes] at h
  | tuple ks, l, s, t, h => by
    cases l with
    | tuple ls =>
      obtain ⟨hsize, hitems⟩ := List.cons.inj (List.cons.inj h).2
      obtain ⟨rfl, hrest⟩ := writesAll_append_inj (Write.size.inj hsize) hitems
      exact ⟨rfl, hrest⟩
    | _ => simp [writes] at h

/-- So can a row of keys, if its length is known. -/
theorem writesAll_append_inj : ∀ {ks ls : List Key} {s t : List Write}, ks.length = ls.length →
    writesAll ks ++ s = writesAll ls ++ t → ks = ls ∧ s = t
  | [], [], _, _, _, h => ⟨rfl, h⟩
  | [], _ :: _, _, _, hlength, _ | _ :: _, [], _, _, hlength, _ => by simp at hlength
  | k :: ks, l :: ls, s, t, hlength, h => by
    rw [writesAll, writesAll, List.append_assoc, List.append_assoc] at h
    obtain ⟨hhead, htail⟩ := writes_append_inj h
    obtain ⟨hrow, hrest⟩ := writesAll_append_inj (Nat.succ.inj hlength) htail
    exact ⟨by rw [hhead, hrow], hrest⟩

end

theorem writes_injective : Function.Injective writes := fun k l h =>
  (writes_append_inj (k := k) (l := l) (congrArg (· ++ []) h)).1

end Key

namespace Value

variable {w w' : World} {deep deep' : Value → Value → Bool} {u v x : Value} {vs : List Value} {k l m : Key}
  {ks : List Key}

/-! ## Values of keys -/

mutual

theorem eq_ofKey : ∀ {v k}, key? v = some k → v = ofKey k
  | boolean _, _, h | integer _, _, h | string _, _, h | range _, _, h => by cases h; rfl
  | tuple vs, _, h => by
    obtain ⟨ks, hks, rfl⟩ := Option.map_eq_some_iff.1 h
    rw [ofKey, eq_ofKeys hks]
  | nil, _, h | float _, _, h | list _, _, h | dictionary _, _, h | set _, _, h | struct _, _, h | function _, _, h
  | error _ _, _, h | stream _, _, h => by cases h

theorem eq_ofKeys : ∀ {vs ks}, keys? vs = some ks → vs = ofKeys ks
  | [], _, h => by cases h; rfl
  | v :: vs, _, h => by
    obtain ⟨k, hk, h⟩ := Option.bind_eq_some_iff.1 h
    obtain ⟨ks, hks, h⟩ := Option.bind_eq_some_iff.1 h
    cases h
    rw [ofKeys, eq_ofKey hk, eq_ofKeys hks]

end

/-- The values of keys are those that make them. -/
theorem key?_eq_some_iff : key? v = some k ↔ v = ofKey k := ⟨eq_ofKey, fun h => h ▸ key?_ofKey k⟩

theorem key_ok_iff : Effect.key v = .ok k ↔ v = ofKey k := by
  rw [← key?_eq_some_iff]
  unfold Effect.key
  cases key? v <;> simp

theorem key_error (h : key? v = none) : Effect.key v = .error (.unhashable v.kind) := by
  unfold Effect.key
  rw [h]

theorem ofKey_injective : Function.Injective ofKey := fun k l h => by
  have hk := key?_ofKey k
  rw [h, key?_ofKey] at hk
  exact (Option.some.inj hk).symm

/-- The kinds of which keys are made. -/
def keyKinds : List Kind := [.boolean, .integer, .string, .range, .tuple]

/-- Only values of these kinds are in the value. -/
def OfKeyKinds (w : World) (v : Value) : Prop := ∀ u, Relation.ReflTransGen (IsItem w) u v → u.kind ∈ keyKinds

theorem OfKeyKinds.item (h : OfKeyKinds w v) (hu : IsItem w u v) : OfKeyKinds w u := fun _ ht => h _ (ht.tail hu)

theorem ofKeyKinds_of_items (hkind : v.kind ∈ keyKinds) (h : ∀ u, IsItem w u v → OfKeyKinds w u) : OfKeyKinds w v := by
  intro u hu
  rcases Relation.ReflTransGen.cases_tail hu with rfl | ⟨t, htail, ht⟩
  · exact hkind
  · exact h t ht u htail

mutual

theorem ofKey_ofKeyKinds : ∀ k : Key, OfKeyKinds w (ofKey k)
  | .boolean _ | .integer _ | .string _ | .range _ =>
    ofKeyKinds_of_items (by simp [ofKey, kind, keyKinds]) fun _ h => h.elim
  | .tuple ks => ofKeyKinds_of_items (by simp [ofKey, kind, keyKinds]) (ofKeys_ofKeyKinds ks)

theorem ofKeys_ofKeyKinds : ∀ ks : List Key, ∀ u ∈ ofKeys ks, OfKeyKinds w u
  | [], _, hu => absurd hu List.not_mem_nil
  | k :: ks, u, hu => by
    rcases List.mem_cons.1 hu with rfl | hu
    · exact ofKey_ofKeyKinds k
    · exact ofKeys_ofKeyKinds ks u hu

end

mutual

theorem OfKeyKinds.exists_key : ∀ {v}, OfKeyKinds w v → ∃ k, key? v = some k
  | boolean _, _ | integer _, _ | string _, _ | range _, _ => ⟨_, rfl⟩
  | tuple vs, h => by
    obtain ⟨ks, hks⟩ : ∃ ks, keys? vs = some ks := exists_keys fun u hu => h.item hu
    exact ⟨.tuple ks, by rw [key?, hks]; rfl⟩
  | nil, h | float _, h | list _, h | dictionary _, h | set _, h | struct _, h | function _, h | error _ _, h
  | stream _, h => absurd (h _ .refl) (by simp [kind, keyKinds])

theorem exists_keys : ∀ {vs : List Value}, (∀ v ∈ vs, OfKeyKinds w v) → ∃ ks, keys? vs = some ks
  | [], _ => ⟨_, rfl⟩
  | v :: vs, h => by
    obtain ⟨hv, hvs⟩ := List.forall_mem_cons.1 h
    obtain ⟨k, hk⟩ := hv.exists_key
    obtain ⟨ks, hks⟩ := exists_keys hvs
    exact ⟨k :: ks, by rw [keys?, hk, hks]; rfl⟩

end

/-- What makes a key is made of booleans, integers, texts, ranges and tuples, to any depth. -/
theorem exists_key_iff (w : World) : (∃ k, Effect.key v = .ok k) ↔ OfKeyKinds w v := by
  constructor
  · rintro ⟨k, hk⟩
    exact key_ok_iff.1 hk ▸ ofKey_ofKeyKinds k
  · intro h
    obtain ⟨k, hk⟩ := h.exists_key
    exact ⟨k, key_ok_iff.2 (eq_ofKey hk)⟩

/-! ## Equality -/

mutual

/-- Two values of keys are equal just if the keys are. -/
theorem sameWith_ofKey : ∀ k l : Key, sameWith deep w (ofKey k) (ofKey l) = Key.beq k l
  | .boolean _, l | .integer _, l | .string _, l | .range _, l => by cases l <;> rfl
  | .tuple ks, l => by
    cases l with
    | tuple ls => exact sameAllWith_ofKeys ks ls
    | _ => rfl

theorem sameAllWith_ofKeys : ∀ ks ls : List Key, sameAllWith deep w (ofKeys ks) (ofKeys ls) = Key.beqAll ks ls
  | [], [] | [], _ :: _ | _ :: _, [] => rfl
  | k :: ks, l :: ls => by
    rw [ofKeys, ofKeys, sameAllWith, Key.beqAll, sameWith_ofKey k l, sameAllWith_ofKeys ks ls]

end

mutual

/-- How the value of a key compares does not depend on what containers hold. -/
theorem sameWith_ofKey_world : ∀ (k : Key) (v : Value), sameWith deep w (ofKey k) v = sameWith deep' w' (ofKey k) v
  | .boolean _, v | .integer _, v | .string _, v | .range _, v => by cases v <;> rfl
  | .tuple ks, v => by
    cases v with
    | tuple vs => exact sameAllWith_ofKeys_world ks vs
    | _ => rfl

theorem sameAllWith_ofKeys_world : ∀ (ks : List Key) (vs : List Value),
    sameAllWith deep w (ofKeys ks) vs = sameAllWith deep' w' (ofKeys ks) vs
  | [], [] | [], _ :: _ | _ :: _, [] => rfl
  | k :: ks, v :: vs => by
    rw [ofKeys, sameAllWith, sameAllWith, sameWith_ofKey_world k v, sameAllWith_ofKeys_world ks vs]

end

mutual

theorem sameWith_ofKey_comm : ∀ (k : Key) (v : Value), sameWith deep w v (ofKey k) = sameWith deep w (ofKey k) v
  | .boolean _, v | .integer _, v | .string _, v => by
    cases v <;> first | rfl | exact Bool.beq_comm
  | .range _, v => by
    cases v <;> first | rfl | exact decide_eq_decide.2 eq_comm
  | .tuple ks, v => by
    cases v with
    | tuple vs => exact sameAllWith_ofKeys_comm ks vs
    | _ => rfl

theorem sameAllWith_ofKeys_comm : ∀ (ks : List Key) (vs : List Value),
    sameAllWith deep w vs (ofKeys ks) = sameAllWith deep w (ofKeys ks) vs
  | [], [] | [], _ :: _ | _ :: _, [] => rfl
  | k :: ks, v :: vs => by
    rw [ofKeys, sameAllWith, sameAllWith, sameWith_ofKey_comm k v, sameAllWith_ofKeys_comm ks vs]

end

theorem same_ofKey : same w (ofKey k) (ofKey l) = true ↔ k = l := by
  rw [same, sameTo_eq, sameWith_ofKey]
  exact beq_iff_eq (a := k)

theorem same_ofKey_eq (w : World) (k l : Key) : same w (ofKey k) (ofKey l) = (k == l) := by
  rw [Bool.eq_iff_iff, same_ofKey, beq_iff_eq]

theorem same_ofKey_world (w w' : World) (k : Key) (v : Value) : same w (ofKey k) v = same w' (ofKey k) v := by
  rw [same, same, sameTo_eq, sameTo_eq]
  exact sameWith_ofKey_world k v

theorem same_ofKey_comm (w : World) (k : Key) (v : Value) : same w v (ofKey k) = same w (ofKey k) v := by
  rw [same, same, sameTo_eq]
  exact sameWith_ofKey_comm k v

/-! ## Values without floats -/

/-- No float is in the value. -/
def FloatFree (w : World) (v : Value) : Prop := ∀ u, Relation.ReflTransGen (IsItem w) u v → u.kind ≠ .float

theorem FloatFree.item (h : FloatFree w v) (hu : IsItem w u v) : FloatFree w u := fun _ ht => h _ (ht.tail hu)

mutual

/-- Of the values without floats only the value of a key equals it; a float may equal an integer. -/
theorem eq_of_sameWith_ofKey : ∀ {k v}, sameWith deep w (ofKey k) v = true → FloatFree w v → v = ofKey k
  | .boolean _, v, h, _ => by cases v <;> simp_all [ofKey, sameWith]
  | .integer _, v, h, hv => by
    cases v with
    | float x => exact absurd rfl (hv _ .refl)
    | _ => simp_all [ofKey, sameWith]
  | .string _, v, h, _ => by cases v <;> simp_all [ofKey, sameWith]
  | .range _, v, h, _ => by cases v <;> simp_all [ofKey, sameWith]
  | .tuple ks, v, h, hv => by
    cases v with
    | tuple vs => rw [ofKey, eq_of_sameAllWith_ofKeys h fun u hu => hv.item hu]
    | _ => cases h

theorem eq_of_sameAllWith_ofKeys : ∀ {ks vs}, sameAllWith deep w (ofKeys ks) vs = true → (∀ v ∈ vs, FloatFree w v) →
    vs = ofKeys ks
  | [], [], _, _ => rfl
  | [], _ :: _, h, _ | _ :: _, [], h, _ => by cases h
  | k :: ks, v :: vs, h, hvs => by
    obtain ⟨hv, hvs⟩ := List.forall_mem_cons.1 hvs
    rw [ofKeys, sameAllWith, Bool.and_eq_true] at h
    rw [ofKeys, eq_of_sameWith_ofKey h.1 hv, eq_of_sameAllWith_ofKeys h.2 hvs]

end

/-- A value without floats equals one of the values of keys just if it is one of them. -/
theorem any_same_ofKey (hx : FloatFree w x) : (ks.map ofKey).any (same w · x) = true ↔ ∃ k ∈ ks, x = ofKey k := by
  rw [List.any_map, List.any_eq_true]
  refine exists_congr fun k => and_congr_right fun _ => ⟨fun h => ?_, fun h => h ▸ same_ofKey.2 rfl⟩
  rw [Function.comp_apply, same, sameTo_eq] at h
  exact eq_of_sameWith_ofKey h hx

/-- **Keys obey the contract between equality and hashing.** Exactly the values made of booleans, integers, texts,
ranges and tuples make keys. On these equality is an equivalence, maps tell their keys apart by it, and two of them
write the same to a hash just if they are equal. They compare with every value in the same way in every world, so
nothing that happens to the storage later changes with what a key is equal, nor what it writes, which depends on the
key alone. -/
theorem keys_obey_hash_contract (w : World) :
    (∀ v, (∃ k, Effect.key v = .ok k) ↔ OfKeyKinds w v) ∧
    ∀ u v x k l m, Effect.key u = .ok k → Effect.key v = .ok l → Effect.key x = .ok m →
      (same w u u = true ∧ (same w u v = true → same w v u = true) ∧
        (same w u v = true → same w v x = true → same w u x = true)) ∧
      same w u v = (k == l) ∧
      (same w u v = true ↔ k.writes = l.writes) ∧
      ∀ (w' : World) (y : Value), same w' u y = same w u y ∧ same w' y u = same w y u := by
  refine ⟨fun v => exists_key_iff w, fun u v x k l m hu hv hx => ?_⟩
  obtain rfl := key_ok_iff.1 hu
  obtain rfl := key_ok_iff.1 hv
  obtain rfl := key_ok_iff.1 hx
  refine ⟨⟨same_ofKey.2 rfl, fun h => ?_, fun h h' => ?_⟩, same_ofKey_eq w k l, ?_,
    fun w' y => ⟨same_ofKey_world w' w k y, ?_⟩⟩
  · exact same_ofKey.2 (same_ofKey.1 h).symm
  · exact same_ofKey.2 ((same_ofKey.1 h).trans (same_ofKey.1 h'))
  · rw [same_ofKey, Key.writes_injective.eq_iff]
  · rw [same_ofKey_comm, same_ofKey_comm, same_ofKey_world]

/-- Two ranges with the same items, of which only one has its step written out, in tuples: they make different keys,
and are different also where there are lists. -/
theorem keys_obey_hash_contract_steps :
    let k := Key.tuple [.integer 1, .tuple [.range ⟨some 0, some 3, some 1, false⟩, .string "a"]]
    let l := Key.tuple [.integer 1, .tuple [.range ⟨some 0, some 3, none, false⟩, .string "a"]]
    same {} (ofKey k) (ofKey k) = true ∧ k.writes ≠ l.writes ∧
      same { lists := #[#[ofKey k]] } (ofKey k) (ofKey l) = false := by
  intro k l
  have hk : Effect.key (ofKey k) = .ok k := rfl
  have hl : Effect.key (ofKey l) = .ok l := rfl
  obtain ⟨hequivalence, hkeys, hwrites, hworld⟩ := (keys_obey_hash_contract {}).2 _ _ _ _ _ _ hk hl hk
  have hdiffer : same {} (ofKey k) (ofKey l) = false := hkeys.trans (by decide)
  refine ⟨hequivalence.1, fun h => ?_, ((hworld _ _).1).trans hdiffer⟩
  rw [hwrites.2 h] at hdiffer
  cases hdiffer

end Value

end ShellVM
