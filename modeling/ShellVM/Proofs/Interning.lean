import Mathlib.Data.List.Induction
import ShellVM.Proofs.Constants
import ShellVM.Proofs.Emission.Basic
import ShellVM.Proofs.Wire.Table

/-!
# Constants are interned

A constant table is a row of constants and an index of it, and the two are kept in step by hand. The index leads to
the first place of each constant, as far as keys reach (`ConstantTable.index_eq_some_iff`), also if the row has
repetitions or is longer than that. So a constant keeps its key for good, and the only constant that is refused is one
that would be new to a table without keys left (`ConstantTable.constants_keep_first_keys`).
-/

namespace ShellVM.ConstantTable

variable {t : ConstantTable} {c c' : Constant} {key key' : UInt16} {entries : List Constant}

/-! ## What the index leads to -/

/-- The constant stands at the key, and not in front of it. -/
def FirstAt (t : ConstantTable) (c : Constant) (key : UInt16) : Prop :=
  t.entries[key.toNat]? = some c ∧ ∀ k < key.toNat, t.entries[k]? ≠ some c

theorem indexOf_take (entries : List Constant) : indexOf (entries.take capacity) = indexOf entries := by
  unfold indexOf
  rw [List.take_take, Nat.min_self]

theorem idxOf?_concat (entries : List Constant) (last c : Constant) :
    (entries ++ [last]).idxOf? c = (entries.idxOf? c).or (if last = c then some entries.length else none) := by
  unfold List.idxOf?
  rw [List.findIdx?_append, List.findIdx?_singleton]
  by_cases h : last = c <;> simp [h]

/-- The index of a row that keys can address has the first place of each constant. The induction is on the end of the
row: a constant behind it changes nothing for those that stand in it. -/
theorem getElem?_indexOf (h : entries.length ≤ capacity) :
    (indexOf entries)[c]? = (entries.idxOf? c).map Nat.toUInt16 := by
  induction entries using List.reverseRecOn with
  | nil => exact Std.HashMap.getElem?_empty
  | append_singleton entries last ih =>
    rw [List.length_append, List.length_singleton] at h
    have ih := ih (by omega)
    have hmem : c ∈ indexOf entries ↔ (entries.idxOf? c).isSome := by
      rw [Std.HashMap.mem_iff_isSome_getElem?, ih, Option.isSome_map]
    rw [indexOf_append last (by omega), Std.HashMap.getElem?_insertIfNew, idxOf?_concat, ih]
    by_cases hlast : last = c
    · subst hlast
      cases hplace : entries.idxOf? last with
      | none => simp [hmem, hplace]
      | some i => simp [hmem, hplace]
    · simp [hlast]

theorem idxOf?_eq_some_iff_getElem? {i : Nat} :
    entries.idxOf? c = some i ↔ entries[i]? = some c ∧ ∀ k < i, entries[k]? ≠ some c := by
  rw [List.idxOf?_eq_some_iff]
  constructor
  · rintro ⟨hi, hc, hbefore⟩
    refine ⟨List.getElem?_eq_some_iff.2 ⟨hi, hc⟩, fun k hk hkc => ?_⟩
    exact hbefore k hk (List.getElem?_eq_some_iff.1 hkc).2
  · rintro ⟨hc, hbefore⟩
    obtain ⟨hi, hc⟩ := List.getElem?_eq_some_iff.1 hc
    exact ⟨hi, hc, fun k hk hkc => hbefore k hk (List.getElem?_eq_some_iff.2 ⟨_, hkc⟩)⟩

theorem getElem?_indexOf_eq_some_iff (entries : List Constant) : (indexOf entries)[c]? = some key ↔
    entries[key.toNat]? = some c ∧ ∀ k < key.toNat, entries[k]? ≠ some c := by
  have hkey : key.toNat < capacity := key.toNat_lt
  have htake : (entries.take capacity).idxOf? c = some key.toNat ↔
      entries[key.toNat]? = some c ∧ ∀ k < key.toNat, entries[k]? ≠ some c := by
    rw [idxOf?_eq_some_iff_getElem?, List.getElem?_take_of_lt hkey]
    refine and_congr_right fun _ => forall₂_congr fun k hk => ?_
    rw [List.getElem?_take_of_lt (Nat.lt_trans hk hkey)]
  rw [← indexOf_take, getElem?_indexOf (List.length_take_le ..), Option.map_eq_some_iff, ← htake]
  constructor
  · rintro ⟨i, hi, rfl⟩
    have hlt : i < capacity := by
      obtain ⟨hlt, -⟩ := List.idxOf?_eq_some_iff.1 hi
      exact Nat.lt_of_lt_of_le hlt (List.length_take_le ..)
    have hword : i.toUInt16.toNat = i := Nat.mod_eq_of_lt hlt
    rw [hi, hword]
  · intro hplace
    exact ⟨key.toNat, hplace, UInt16.ofNat_toNat⟩

theorem Built.index_eq_some_iff (ht : t.Built) : t.index[c]? = some key ↔ t.FirstAt c key := by
  rw [ht.indexOf_entries.2, getElem?_indexOf_eq_some_iff]
  simp only [Array.getElem?_toList]
  rfl

theorem Built.nil (ht : t.Built) : t.get? nilKey = some .nil := by
  have hhead := ht.indexOf_entries.1
  rw [List.head?_eq_getElem?, Array.getElem?_toList] at hhead
  exact hhead

/-! ## What adding does -/

/-- What adding a constant does: its key is there already, or it is new and gets the next key, or there is no next
key. -/
theorem add_cases (t : ConstantTable) (c : Constant) :
    (∃ key, t.index[c]? = some key ∧ t.add c = (some key, t)) ∨
    (t.index[c]? = none ∧ t.size < capacity ∧
      t.add c = (some t.size.toUInt16, ⟨t.entries.push c, t.index.insert c t.size.toUInt16⟩)) ∨
    (t.index[c]? = none ∧ capacity ≤ t.size ∧ t.add c = (none, t)) := by
  unfold add
  cases hindex : t.index[c]? with
  | some key => exact .inl ⟨key, rfl, rfl⟩
  | none =>
    refine .inr ?_
    by_cases hroom : t.size < capacity
    · exact .inl ⟨rfl, hroom, if_pos hroom⟩
    · exact .inr ⟨rfl, Nat.le_of_not_lt hroom, if_neg hroom⟩

/-- Constants are added one after the other. -/
def addAll (t : ConstantTable) (constants : List Constant) : ConstantTable := constants.foldl (fun t c => (t.add c).2) t

theorem Built.addAll (ht : t.Built) (constants : List Constant) : (t.addAll constants).Built := by
  induction constants generalizing t with
  | nil => exact ht
  | cons c constants ih => exact ih (ht.add c)

theorem add_of_index (h : t.index[c]? = some key) : t.add c = (some key, t) := by
  unfold add
  rw [h]

/-- The key of a constant that was added is in the index. -/
theorem index_of_add (h : (t.add c).1 = some key) : (t.add c).2.index[c]? = some key := by
  rcases t.add_cases c with ⟨key', hindex, hadd⟩ | ⟨-, -, hadd⟩ | ⟨-, -, hadd⟩
  · rw [hadd] at h ⊢
    cases h
    exact hindex
  · rw [hadd] at h ⊢
    cases h
    exact Std.HashMap.getElem?_insert_self
  · rw [hadd] at h
    cases h

/-- What is in the index stays there when a constant is added. -/
theorem index_add (h : t.index[c]? = some key) (c' : Constant) : (t.add c').2.index[c]? = some key := by
  rcases t.add_cases c' with ⟨_, -, hadd⟩ | ⟨hnew, -, hadd⟩ | ⟨-, -, hadd⟩
  · rw [hadd]
    exact h
  · have hne : c' ≠ c := by
      rintro rfl
      cases hnew.symm.trans h
    rw [hadd, Std.HashMap.getElem?_insert, if_neg (by simpa using hne)]
    exact h
  · rw [hadd]
    exact h

theorem index_addAll (h : t.index[c]? = some key) (constants : List Constant) :
    (t.addAll constants).index[c]? = some key := by
  induction constants generalizing t with
  | nil => exact h
  | cons c' constants ih => exact ih (index_add h c')

theorem add_eq_none_iff : (t.add c).1 = none ↔ t.index[c]? = none ∧ capacity ≤ t.size := by
  rcases t.add_cases c with ⟨key, hindex, hadd⟩ | ⟨-, hroom, hadd⟩ | ⟨hnew, hfull, hadd⟩
  · rw [hadd, hindex]
    exact iff_of_false nofun fun h => nomatch h.1
  · rw [hadd]
    exact iff_of_false nofun fun h => Nat.not_le_of_lt hroom h.2
  · rw [hadd]
    exact iff_of_true rfl ⟨hnew, hfull⟩

theorem add_of_none (h : (t.add c).1 = none) : t.add c = (none, t) := by
  rcases t.add_cases c with ⟨key, -, hadd⟩ | ⟨-, -, hadd⟩ | ⟨-, -, hadd⟩
  · rw [hadd] at h
    cases h
  · rw [hadd] at h
    cases h
  · exact hadd

theorem ofList_of_nil (h : entries.head? = some .nil) : ofList entries = ⟨entries.toArray, indexOf entries⟩ := by
  unfold ofList
  rw [if_pos h]

/-- A new constant stands behind the row. -/
theorem add_ofList_new (hnil : entries.head? = some .nil) (hroom : entries.length < capacity)
    (hc : entries.idxOf? c = none) :
    (ofList entries).add c = (some entries.length.toUInt16, ofList (entries ++ [c])) := by
  have htable := ofList_of_nil hnil
  have hnone : (ofList entries).index[c]? = none := by
    rw [htable]
    show (indexOf entries)[c]? = _
    rw [getElem?_indexOf (Nat.le_of_lt hroom), hc]
    rfl
  have hsize : (ofList entries).size = entries.length := by rw [htable]; rfl
  rcases (ofList entries).add_cases c with ⟨_, hindex, -⟩ | ⟨-, -, hadd⟩ | ⟨-, hfull, -⟩
  · cases hnone.symm.trans hindex
  · have hrow : ((ofList entries).add c).2.entries.toList = entries ++ [c] := by
      rw [hadd, htable]
      exact Array.toList_push ..
    have hbuilt := ((Built.ofList entries).add c).ofList_entries
    rw [hrow] at hbuilt
    rw [hbuilt, ← hsize, hadd]
  · exact absurd (hsize ▸ hfull) (Nat.not_le_of_lt hroom)

/-- A new constant is put behind the row of the page, and its code pushes it. -/
theorem constant_new {s : Workbench} (hs : s.draft.page.constants = ofList entries) (hnil : entries.head? = some .nil)
    (hroom : entries.length < capacity) (hc : entries.idxOf? c = none) : Emit.constant c s =
      Emit.op .const (wordBytes entries.length.toUInt16) { s with
        draft := { s.draft with page := { s.draft.page with constants := ofList (entries ++ [c]) } } } :=
  bind_run_ok (Emit.constantKey_of_add (hs ▸ add_ofList_new hnil hroom hc))

/-- The compiler reports a constant that is refused, and has changed nothing. -/
theorem constantKey_error {s : Workbench} (h : (s.draft.page.constants.add c).1 = none) :
    Emit.constantKey c s = .error (.tooManyConstants s.draft.page.constants.size) s := by
  have hadd : s.addConstant c = (none, s) := by
    unfold Workbench.addConstant
    rw [add_of_none h]
  have hmodify : (modifyGet (·.addConstant c) : Emit (Option UInt16)) s = .ok none s := by
    show (match s.addConstant c with | (key?, s) => EStateM.Result.ok key? s) = _
    rw [hadd]
  exact bind_run_ok hmodify

/-- Nil has the key `0`, and the index leads to the first place of each constant that keys can address, and to nothing
else. A constant that has been given a key is found there from then on, and is given the same key again without a
change to the table; other constants have other keys. The only constant that is refused is one that is not in the
index when there is no key left, and the compiler reports it as too many constants; the table stays as it was. -/
theorem constants_keep_first_keys (constants added : List Constant) :
    let t := (ofList constants).addAll added
    t.get? nilKey = some .nil ∧
    (∀ c key, t.index[c]? = some key ↔ t.FirstAt c key) ∧
    (∀ c key, (t.add c).1 = some key → ∀ more, let later := (t.add c).2.addAll more
      later.get? key = some c ∧ later.add c = (some key, later) ∧
      ∀ c' key', c' ≠ c → (later.add c').1 = some key' → key' ≠ key) ∧
    (∀ c, (t.add c).1 = none ↔ t.index[c]? = none ∧ 65536 ≤ t.size) ∧
    ∀ c, (t.add c).1 = none → (t.add c).2 = t ∧ ∀ s : Workbench, s.draft.page.constants = t →
      Emit.constantKey c s = .error (.tooManyConstants t.size) s := by
  have ht : ((ofList constants).addAll added).Built := (Built.ofList constants).addAll added
  generalize (ofList constants).addAll added = t at ht
  dsimp only
  refine ⟨ht.nil, fun c key => ht.index_eq_some_iff, fun c key hkey more => ?_,
    fun c => add_eq_none_iff, fun c hnone => ?_⟩
  · have hlater := (ht.add c).addAll more
    have hindex := index_addAll (index_of_add hkey) more
    refine ⟨(hlater.index_eq_some_iff.1 hindex).1, add_of_index hindex, fun c' key' hne hkey' => ?_⟩
    rintro rfl
    -- both constants would stand at the one key of the table after the second
    have hfirst := ((hlater.add c').index_eq_some_iff.1 (index_add hindex c')).1
    have hsecond := ((hlater.add c').index_eq_some_iff.1 (index_of_add hkey')).1
    exact hne (Option.some.inj (hsecond.symm.trans hfirst))
  · refine ⟨congrArg Prod.snd (add_of_none hnone), ?_⟩
    rintro s rfl
    exact constantKey_error hnone

/-- A table that was made from a row with a repetition and without nil in front. -/
def repeated : ConstantTable := ofList [.integer 7, .nil, .integer 7]

/-- A constant with two places has the key of the first, and keeps it beside the two zeros. -/
theorem constants_keep_first_keys_repeated : (repeated.add (.integer 7)).1 = some 1 ∧
    ((repeated.add (.integer 7)).2.addAll [.float 0, .float 0x8000000000000000]).get? 1 = some (.integer 7) := by
  obtain ⟨-, hindex, hkeeps, -⟩ := constants_keep_first_keys [.integer 7, .nil, .integer 7] []
  have hfirst : repeated.FirstAt (.integer 7) 1 := ⟨rfl, by decide⟩
  have hkey : (repeated.add (.integer 7)).1 = some 1 := congrArg Prod.fst (add_of_index ((hindex _ _).2 hfirst))
  exact ⟨hkey, (hkeeps _ _ hkey _).1⟩

end ShellVM.ConstantTable
