import ShellVM.Proofs.Container.Place

/-!
# Stores into containers

A store that succeeds changes one place of one container. Every index of that place reads the value from then on, all
other indices read what they read before, all other containers stay as they are, and so do the length of a list and
the fields of a struct; a dictionary keeps its keys in their order, and gets a new one at the end if none equals the
index. A store that fails changes nothing. So a dictionary shows, under each key, what was stored last
(`Value.stored_values_are_read_back`). As a container is the address of its storage, this holds for all who have the
address, also where containers contain themselves.
-/

namespace ShellVM

namespace World

variable {w : World} {a b : Addr} {n : Nat} {k : Key} {x : Value} {name : String}

/-! ## Writes to storage -/

theorem list_setListItem : (w.setListItem a n x).list b = if b = a then (w.list a).setIfInBounds n x else w.list b := by
  unfold setListItem list
  simp only [Array.getD_eq_getD_getElem?, Array.getElem?_modify]
  by_cases h : b = a
  · subst h
    cases w.lists[b]? <;> simp
  · simp [h, Ne.symm h]

theorem dictionary_insertEntry_self (ha : a < w.dictionaries.size) :
    (w.insertEntry a k x).dictionary a = (w.dictionary a).insert k x := by
  unfold insertEntry dictionary
  simp only [Array.getD_eq_getD_getElem?, Array.getElem?_modify]
  simp [ha]

theorem dictionary_insertEntry_ne (h : b ≠ a) : (w.insertEntry a k x).dictionary b = w.dictionary b := by
  unfold insertEntry dictionary
  simp only [Array.getD_eq_getD_getElem?, Array.getElem?_modify, if_neg h.symm]

theorem record_setField_self (ha : a < w.records.size) :
    (w.setField a name x).record a = { w.record a with fields := (w.record a).fields.insert name x } := by
  unfold setField record
  simp only [Array.getD_eq_getD_getElem?, Array.getElem?_modify]
  simp [ha]

theorem record_setField_ne (h : b ≠ a) : (w.setField a name x).record b = w.record b := by
  unfold setField record
  simp only [Array.getD_eq_getD_getElem?, Array.getElem?_modify, if_neg h.symm]

theorem list_eq_empty (h : w.lists.size ≤ a) : w.list a = #[] := by
  unfold list
  rw [Array.getD_eq_getD_getElem?, Array.getElem?_eq_none h, Option.getD_none]

/-- A new list stands behind the others. -/
theorem list_push {items : Array Value} (h : w.lists.size ≤ b) :
    ({ w with lists := w.lists.push items } : World).list b = if b = w.lists.size then items else #[] := by
  unfold list
  rw [Array.getD_eq_getD_getElem?, Array.getElem?_push]
  split
  · rfl
  · rw [Array.getElem?_eq_none h, Option.getD_none]

/-- The container has its storage here. -/
def Holds (w : World) : Value → Prop
  | .list a => a < w.lists.size
  | .dictionary a => a < w.dictionaries.size
  | .struct a => a < w.records.size
  | _ => False

/-- The keys of a dictionary as values, in their order. -/
def keysOf (w : World) (a : Addr) : List Value := (w.dictionary a).keys.map .ofKey

end World

namespace Value

variable {w w' u u' : World} {c i j x y : Value} {a b : Addr} {n : Nat} {k : Key} {p q : Place}

/-! ## What a store changes -/

/-- The worlds differ in the storage of one container at most. -/
structure DiffersIn (c : Value) (w w' : World) : Prop where
  lists : w'.lists.size = w.lists.size ∧ ∀ b, c ≠ list b → w'.list b = w.list b
  dictionaries : w'.dictionaries.size = w.dictionaries.size ∧ ∀ b, c ≠ dictionary b → w'.dictionary b = w.dictionary b
  sets : w'.sets = w.sets
  records : w'.records.size = w.records.size ∧ ∀ b, c ≠ struct b → w'.record b = w.record b
  cells : w'.cells = w.cells
  environments : w'.environments = w.environments
  streams : w'.streams = w.streams
  files : w'.files = w.files
  system : w'.system = w.system
  written : w'.terminal = w.terminal ∧ w'.errors = w.errors

/-- A list keeps its length and a struct its fields; a dictionary keeps its keys in their order and gets the index as
its last key, unless it has one that equals it. -/
def KeepsPlaces (w w' : World) (i : Value) : Value → Prop
  | list a => (w'.list a).size = (w.list a).size
  | dictionary a => w'.keysOf a = if (w.keysOf a).any (same w · i) then w.keysOf a else w.keysOf a ++ [i]
  | struct a => (w'.record a).name = (w.record a).name ∧ (w'.record a).fields.keys = (w.record a).fields.keys
  | _ => False

theorem differsIn_refl (c : Value) (w : World) : DiffersIn c w w :=
  ⟨⟨rfl, fun _ _ => rfl⟩, ⟨rfl, fun _ _ => rfl⟩, rfl, ⟨rfl, fun _ _ => rfl⟩, rfl, rfl, rfl, rfl, rfl, rfl, rfl⟩

theorem differsIn_put (w : World) (x : Value) (h : Denotes w c i p) : DiffersIn c w (put w x c p) := by
  have hrefl := differsIn_refl c w
  cases h with
  | item =>
    refine { hrefl with lists := ⟨Array.size_modify, fun b hb => ?_⟩ }
    exact World.list_setListItem.trans (if_neg fun hba => hb (congrArg list hba.symm))
  | entry =>
    refine { hrefl with dictionaries := ⟨Array.size_modify, fun b hb => ?_⟩ }
    exact World.dictionary_insertEntry_ne fun hba => hb (congrArg dictionary hba.symm)
  | field =>
    refine { hrefl with records := ⟨Array.size_modify, fun b hb => ?_⟩ }
    exact World.record_setField_ne fun hba => hb (congrArg struct hba.symm)

theorem any_keysOf : (w.keysOf a).any (same w · (ofKey k)) = true ↔ k ∈ (w.dictionary a).keys := by
  rw [World.keysOf, List.any_map, List.any_eq_true]
  exact ⟨fun ⟨l, hl, h⟩ => same_ofKey.1 h ▸ hl, fun h => ⟨k, h, same_ofKey.2 rfl⟩⟩

theorem keepsPlaces_put (x : Value) (hc : w.Holds c) (h : Denotes w c i p) : KeepsPlaces w (put w x c p) i c := by
  cases h with
  | @item a i n =>
    show ((w.setListItem a n x).list a).size = _
    rw [World.list_setListItem, if_pos rfl, Array.size_setIfInBounds]
  | entry a k =>
    show ((w.insertEntry a k x).dictionary a).keys.map ofKey = _
    rw [World.dictionary_insertEntry_self hc, OrderedMap.keys_insert]
    by_cases hk : k ∈ (w.dictionary a).keys
    · rw [if_pos hk, if_pos (any_keysOf.2 hk)]
      rfl
    · rw [if_neg hk, if_neg (mt any_keysOf.1 hk), List.map_append]
      rfl
  | @field a name known =>
    show ((w.setField a name x).record a).name = _ ∧ ((w.setField a name x).record a).fields.keys = _
    rw [World.record_setField_self hc]
    exact ⟨rfl, (OrderedMap.keys_insert _ _ _).trans (if_pos known)⟩

/-- After a store indices denote the places that they denoted before. -/
theorem denotes_put (x : Value) (hc : w.Holds c) (h : Denotes w c i p) (hj : Denotes w c j q) :
    Denotes (put w x c p) c j q := by
  have hkeeps := keepsPlaces_put x hc h
  cases hj with
  | item names inside counts =>
    have hsize : ((put w x (list _) p).list _).size = _ := hkeeps
    exact .item (hsize ▸ names) (hsize ▸ inside) (hsize ▸ counts)
  | entry a k => exact .entry a k
  | field known => exact .field (hkeeps.2 ▸ known)

/-! ## Reading after a store -/

theorem got_put_self (x : Value) (hc : w.Holds c) (h : Denotes w c i p) : got (put w x c p) c p = x := by
  cases h with
  | @item a i n names inside counts =>
    show ((w.setListItem a n x).list a).getD n nil = x
    rw [World.list_setListItem, if_pos rfl]
    simp [inside]
  | entry a k =>
    show (((w.insertEntry a k x).dictionary a).get? k).getD nil = x
    rw [World.dictionary_insertEntry_self hc, OrderedMap.get?_insert, if_pos (beq_self_eq_true k), Option.getD_some]
  | @field a name known =>
    show (((w.setField a name x).record a).fields.get? name).getD nil = x
    rw [World.record_setField_self hc, OrderedMap.get?_insert, if_pos (beq_self_eq_true name), Option.getD_some]

theorem got_put_of_ne (x : Value) (hc : w.Holds c) (h : Denotes w c i p) (hj : Denotes w c j q) (hne : q ≠ p) :
    got (put w x c p) c q = got w c q := by
  cases h with
  | @item a i n =>
    cases hj with
    | @item _ _ m =>
      have hmn : n ≠ m := fun h => hne (h ▸ rfl)
      show ((w.setListItem a n x).list a).getD m nil = (w.list a).getD m nil
      rw [World.list_setListItem, if_pos rfl]
      simp [hmn]
  | entry a k =>
    cases hj with
    | entry _ l =>
      have hkl : ¬(k == l) = true := fun h => hne (eq_of_beq h ▸ rfl)
      show (((w.insertEntry a k x).dictionary a).get? l).getD nil = _
      rw [World.dictionary_insertEntry_self hc, OrderedMap.get?_insert, if_neg hkl]
      rfl
  | @field a name =>
    cases hj with
    | @field _ name' =>
      have hname : ¬(name == name') = true := fun h => hne (eq_of_beq h ▸ rfl)
      show (((w.setField a name x).record a).fields.get? name').getD nil = _
      rw [World.record_setField_self hc, OrderedMap.get?_insert, if_neg hname]
      rfl

/-- Reading the index reads the place: it denotes it, or it is a slice that takes it. -/
inductive Touches (w : World) : Value → Value → Place → Prop where
  | denotes {c i : Value} {p : Place} (h : Denotes w c i p) : Touches w c i p
  | slices {a : Addr} {r : Range} {places : List Nat} {n : Nat} (slice : r.slice (w.list a).size = .ok places)
      (mem : n ∈ places) : Touches w (list a) (range r) (.item n)

/-- Reading the index gives the same in both worlds: the same failure, or the same value and, if a slice makes it, the
same items. -/
def ReadsAlike (w w' : World) (c i : Value) : Prop :=
  match index c i w, index c i w' with
  | .ok y u, .ok y' u' => y' = y ∧ ∀ b, w.lists.size ≤ b → u'.list b = u.list b
  | .error fault _, .error fault' _ => fault' = fault
  | _, _ => False

theorem ReadsAlike.of_ok (h : index c i w = .ok y u) (h' : index c i w' = .ok y u')
    (hlists : ∀ b, w.lists.size ≤ b → u'.list b = u.list b) : ReadsAlike w w' c i := by
  unfold ReadsAlike
  rw [h, h']
  exact ⟨rfl, hlists⟩

theorem ReadsAlike.of_error {fault : Fault} (h : index c i w = .error fault u) (h' : index c i w' = .error fault u') :
    ReadsAlike w w' c i := by
  unfold ReadsAlike
  rw [h, h']

theorem index_slice (r : Range) : index (list a) (range r) w = (match r.slice (w.list a).size with
    | .ok places => .ok (list w.lists.size) { w with lists := w.lists.push (pick (w.list a) places).toArray }
    | .error cause => .error (.ofCause cause) w) := by
  show (Effect.ofExcept _ >>= fun places => Effect.newList (pick (w.list a) places).toArray : Effect Value) w = _
  cases r.slice (w.list a).size <;> rfl

/-- A slice that does not take a position does not see what is stored there. -/
theorem readsAlike_slice {r : Range} (x : Value) (hn : ∀ places, r.slice (w.list a).size = .ok places → n ∉ places) :
    ReadsAlike w (w.setListItem a n x) (list a) (range r) := by
  have hitems : (w.setListItem a n x).list a = (w.list a).setIfInBounds n x := World.list_setListItem.trans (if_pos rfl)
  have hsize : (w.setListItem a n x).lists.size = w.lists.size := Array.size_modify
  have hbefore := index_slice (w := w) (a := a) r
  have hafter := index_slice (w := w.setListItem a n x) (a := a) r
  rw [hitems, Array.size_setIfInBounds, hsize] at hafter
  cases hslice : r.slice (w.list a).size with
  | error cause =>
    rw [hslice] at hbefore hafter
    exact .of_error hbefore hafter
  | ok places =>
    rw [hslice] at hbefore hafter
    refine .of_ok hbefore hafter fun b hb => ?_
    have hpick : pick ((w.list a).setIfInBounds n x) places = pick (w.list a) places := by
      refine List.filterMap_congr fun m hm => ?_
      have hmn : n ≠ m := fun h => hn places hslice (h ▸ hm)
      simp [hmn]
    rw [World.list_push hb, World.list_push (hsize ▸ hb), hsize, hpick]

/-- An index that does not read a place reads the same when something was stored there. -/
theorem readsAlike_put (x : Value) (hc : w.Holds c) (h : Denotes w c i p) (hj : ¬Touches w c j p) :
    ReadsAlike w (put w x c p) c j := by
  by_cases hdenotes : ∃ q, Denotes w c j q
  · obtain ⟨q, hq⟩ := hdenotes
    have hne : q ≠ p := fun h => hj (h ▸ .denotes hq)
    refine .of_ok (index_of_denotes hq) (got_put_of_ne x hc h hq hne ▸ index_of_denotes (denotes_put x hc h hq))
      fun b hb => ?_
    rw [World.list_eq_empty hb, World.list_eq_empty ((differsIn_put w x h).lists.1 ▸ hb)]
  · have hkeeps := keepsPlaces_put x hc h
    cases h with
    | @item a i n =>
      cases j with
      | integer m =>
        obtain ⟨cause, hcause⟩ : ∃ cause, resolveIndex m (w.list a).size = .error cause := by
          cases hplace : resolveIndex m (w.list a).size with
          | ok place => exact absurd ⟨_, (denotes_list m).2 hplace⟩ hdenotes
          | error cause => exact ⟨cause, rfl⟩
        have hfails {u : World} (hsize : (u.list a).size = (w.list a).size) :
            index (list a) (integer m) u = .error (.ofCause cause) u := by
          rw [index_list, hsize, hcause]
        exact .of_error (hfails rfl) (hfails hkeeps)
      | range r => exact readsAlike_slice x fun places hslice hmem => hj (.slices hslice hmem)
      | _ => exact .of_error rfl rfl
    | entry a k =>
      obtain ⟨cause, hcause⟩ : ∃ cause, Effect.key j = .error cause := by
        cases hkey : Effect.key j with
        | ok l => exact absurd ⟨_, (denotes_dictionary w a).2 hkey⟩ hdenotes
        | error cause => exact ⟨cause, rfl⟩
      have hfails (w : World) : index (dictionary a) j w = .error (.ofCause cause) w := by rw [index_dictionary, hcause]
      exact .of_error (hfails w) (hfails _)
    | @field a name =>
      cases j with
      | string name' =>
        have hunknown : name' ∉ (w.record a).fields.keys := fun known => hdenotes ⟨_, .field known⟩
        have hbefore := (index_struct (w := w) (a := a) name').trans (if_neg hunknown)
        have hafter := index_struct (w := put w x (struct a) (.field name)) (a := a) name'
        rw [hkeeps.2, if_neg hunknown, hkeeps.1] at hafter
        exact .of_error hbefore hafter
      | _ => exact .of_error rfl rfl

/-! ## Rows of stores -/

/-- A request to store a value at an index of a container. -/
structure Assignment where
  container : Value
  index : Value
  value : Value

/-- The world after a store, whether it succeeds or fails. -/
def Assignment.after (s : Assignment) (w : World) : World :=
  match store s.container s.index s.value w with
  | .ok _ w' | .error _ w' => w'

/-- The world after a row of stores. -/
def afterAll (w : World) (stores : List Assignment) : World := stores.foldl (fun w s => s.after w) w

/-- The store goes to the dictionary, and succeeds under a key that equals the index. -/
def Assignment.Hits (w : World) (a : Addr) (j : Value) (s : Assignment) : Bool :=
  match s.container with
  | dictionary b => b == a && s.index.key?.isSome && same w s.index j
  | _ => false

variable {s : Assignment}

theorem after_of_denotes (h : Denotes w s.container s.index p) : s.after w = put w s.value s.container p := by
  unfold Assignment.after
  rw [store_of_denotes h]

theorem after_of_not_denotes (h : ∀ p, ¬Denotes w s.container s.index p) : s.after w = w := by
  unfold Assignment.after
  obtain ⟨cause, hcause⟩ := store_of_not_denotes (x := s.value) h
  rw [hcause]

/-- A store leaves the storage of all other containers alone. -/
theorem differsIn_after (w : World) (s : Assignment) : DiffersIn s.container w (s.after w) := by
  by_cases h : ∃ p, Denotes w s.container s.index p
  · obtain ⟨p, hp⟩ := h
    exact after_of_denotes hp ▸ differsIn_put w s.value hp
  · exact (after_of_not_denotes fun p hp => h ⟨p, hp⟩).symm ▸ differsIn_refl _ w

/-- What a dictionary has under a key after one store. -/
theorem get?_after (v : World) (s : Assignment) (ha : a < w.dictionaries.size) :
    ((s.after w).dictionary a).get? k = if s.Hits v a (ofKey k) then some s.value else (w.dictionary a).get? k := by
  have hdiffers := differsIn_after w s
  obtain ⟨c, i, x⟩ := s
  by_cases hc : c = dictionary a
  · subst hc
    cases hkey : i.key? with
    | none =>
      have hnot : ∀ p, ¬Denotes w (dictionary a) i p := fun p hp => by
        cases hp with
        | entry a l => rw [key?_ofKey] at hkey; cases hkey
      rw [after_of_not_denotes (s := ⟨dictionary a, i, x⟩) hnot]
      simp [Assignment.Hits, hkey]
    | some l =>
      obtain rfl := eq_ofKey hkey
      rw [after_of_denotes (s := ⟨dictionary a, ofKey l, x⟩) (.entry a l)]
      show ((w.insertEntry a l x).dictionary a).get? k = _
      rw [World.dictionary_insertEntry_self ha, OrderedMap.get?_insert]
      have hhits : (Assignment.mk (dictionary a) (ofKey l) x).Hits v a (ofKey k) = (l == k) := by
        rw [Bool.eq_iff_iff, beq_iff_eq, ← same_ofKey (w := v)]
        simp [Assignment.Hits, hkey]
      rw [hhits]
  · have hhits : (Assignment.mk c i x).Hits v a (ofKey k) = false := by
      cases c with
      | dictionary b =>
        have hb : (b == a) = false := by simpa using fun h : b = a => hc (h ▸ rfl)
        simp [Assignment.Hits, hb]
      | _ => rfl
    rw [hhits, hdiffers.dictionaries.2 a hc]
    rfl

/-- What a dictionary has under a key after a row of stores is what was stored last under it, and what it had if
nothing was. -/
theorem get?_afterAll (v : World) (stores : List Assignment) (ha : a < w.dictionaries.size) :
    ((afterAll w stores).dictionary a).get? k =
      (((stores.filter (·.Hits v a (ofKey k))).getLast?.map Assignment.value).or ((w.dictionary a).get? k)) := by
  induction stores generalizing w with
  | nil => rfl
  | cons s stores ih =>
    have hsize := (differsIn_after w s).dictionaries.1
    have hrest : afterAll w (s :: stores) = afterAll (s.after w) stores := rfl
    rw [hrest, ih (hsize ▸ ha), get?_after v s ha, List.filter_cons]
    by_cases hhits : s.Hits v a (ofKey k) = true
    · rw [if_pos hhits, if_pos hhits, List.getLast?_cons]
      cases (stores.filter (·.Hits v a (ofKey k))).getLast? <;> rfl
    · rw [if_neg hhits, if_neg hhits]

/-- **What was stored is read back, and nothing else changes.** A store succeeds just if its index denotes a place of
the container. Then every index of that place reads the value, and every index that does not read the place what it
read before; other containers are as they were, and so are the length of a list, the fields of a struct, and the keys
of a dictionary, which has the index as a new last key just if no key equalled it. A store that fails changes nothing,
and on texts, tuples and ranges all fail. After any row of stores, into whatever containers, a dictionary shows under
a key what was stored last under an equal one, and what it showed before if nothing was. -/
theorem stored_values_are_read_back (w : World) :
    (∀ c i x, w.Holds c →
      ((∃ w', store c i x w = .ok () w') ↔ ∃ p, Denotes w c i p) ∧
      ∀ p w', Denotes w c i p → store c i x w = .ok () w' →
        (∀ j, Denotes w c j p → index c j w' = .ok x w') ∧ (∀ j, ¬Touches w c j p → ReadsAlike w w' c j) ∧
        DiffersIn c w w' ∧ KeepsPlaces w w' i c) ∧
    (∀ c i x fault w', store c i x w = .error fault w' → w' = w) ∧
    (∀ c i x, c.kind ∈ [.string, .tuple, .range] → store c i x w = .error (.ofCause (.immutable c.kind)) w) ∧
    ∀ a j k stores, w.Holds (dictionary a) → Effect.key j = .ok k →
      index (dictionary a) j (afterAll w stores) =
      .ok (((stores.filter (·.Hits w a j)).getLast?.map Assignment.value).getD
        (((w.dictionary a).get? k).getD nil)) (afterAll w stores) := by
  refine ⟨fun c i x hc => ⟨⟨fun ⟨w', h⟩ => ?_, fun ⟨p, hp⟩ => ⟨_, store_of_denotes hp⟩⟩, fun p w' hp h => ?_⟩,
    fun c i x fault w' h => ?_, fun c i x hkind => ?_, fun a j k stores ha hj => ?_⟩
  · refine Classical.byContradiction fun hnot => ?_
    obtain ⟨cause, hcause⟩ := store_of_not_denotes (x := x) fun p hp => hnot ⟨p, hp⟩
    cases hcause.symm.trans h
  · cases (store_of_denotes hp).symm.trans h
    refine ⟨fun j hj => ?_, fun j hj => readsAlike_put x hc hp hj, differsIn_put w x hp, keepsPlaces_put x hc hp⟩
    rw [index_of_denotes (denotes_put x hc hp hj), got_put_self x hc hp]
  · by_cases hdenotes : ∃ p, Denotes w c i p
    · obtain ⟨p, hp⟩ := hdenotes
      cases (store_of_denotes hp).symm.trans h
    · obtain ⟨cause, hcause⟩ := store_of_not_denotes (x := x) fun p hp => hdenotes ⟨p, hp⟩
      cases hcause.symm.trans h
      rfl
  · cases c with
    | string | tuple | range => rfl
    | _ => simp [kind] at hkind
  · obtain rfl := key_ok_iff.1 hj
    rw [index_of_denotes (.entry a k)]
    show EStateM.Result.ok ((((afterAll w stores).dictionary a).get? k).getD nil) _ = _
    rw [get?_afterAll w stores ha]
    cases (stores.filter (·.Hits w a (ofKey k))).getLast? <;> rfl

/-- A list that contains itself, of which the last item is replaced, and a dictionary with two stores, of which only
the first is under a key. -/
theorem stored_values_are_read_back_in_cycle :
    let w : World := { lists := #[#[list 0, integer 1]], dictionaries := #[.empty] }
    let w' := w.setListItem 0 1 (string "x")
    let stores := [⟨dictionary 0, integer 1, string "a"⟩, ⟨dictionary 0, float 1, string "b"⟩]
    store (list 0) (integer (-1)) (string "x") w = .ok () w' ∧ index (list 0) (integer 1) w' = .ok (string "x") w' ∧
      ReadsAlike w w' (list 0) (integer 0) ∧
      index (dictionary 0) (integer 1) (afterAll w stores) = .ok (string "a") (afterAll w stores) := by
  intro w w' stores
  have hlist : w.Holds (list 0) := Nat.zero_lt_one
  have hlast : Denotes w (list 0) (integer (-1)) (.item 1) := (denotes_list _).2 rfl
  have hfirst : ¬Touches w (list 0) (integer 0) (.item 1) := by
    rintro ⟨h⟩
    cases (denotes_list _).1 h
  have hstore : store (list 0) (integer (-1)) (string "x") w = .ok () w' := rfl
  obtain ⟨hone, -, -, hrow⟩ := stored_values_are_read_back w
  obtain ⟨hread, hothers, -⟩ := (hone _ _ (string "x") hlist).2 _ _ hlast hstore
  exact ⟨hstore, hread _ ((denotes_list _).2 rfl), hothers _ hfirst,
    hrow 0 (integer 1) (.integer 1) stores Nat.zero_lt_one rfl⟩

end Value

end ShellVM
