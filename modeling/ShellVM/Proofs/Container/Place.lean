import ShellVM.Proofs.Container.Keys
import ShellVM.Proofs.Keys
import ShellVM.Proofs.Range.Access

/-!
# Places of containers

An index denotes a place of a container: a position in a list, counted from the end if it is negative, a key of a
dictionary, or a field of a struct (`Value.Denotes`). Reading such an index gives what is there
(`Value.index_of_denotes`), and a store puts a value there (`Value.store_of_denotes`). All other stores fail, and have
changed nothing (`Value.store_of_not_denotes`).
-/

namespace ShellVM.Value

/-! ## Places -/

/-- A place in a container: a position, a key, or a field. -/
inductive Place where
  | item (n : Nat)
  | entry (k : Key)
  | field (name : String)

variable {w : World} {c i x : Value} {a : Addr} {n : Nat} {k : Key} {p : Place}

/-- The index denotes the place of the container. -/
inductive Denotes (w : World) : Value → Value → Place → Prop where
  | item {a : Addr} {i : Int64} {n : Nat} (names : Range.Names (w.list a).size i n) (inside : n < (w.list a).size)
      (counts : Range.Counts (w.list a).size i) : Denotes w (list a) (integer i) (.item n)
  | entry (a : Addr) (k : Key) : Denotes w (dictionary a) (ofKey k) (.entry k)
  | field {a : Addr} {name : String} (known : name ∈ (w.record a).fields.keys) :
      Denotes w (struct a) (string name) (.field name)

/-- The world with a value at a place of a container. -/
def put (w : World) (x : Value) : Value → Place → World
  | list a, .item n => w.setListItem a n x
  | dictionary a, .entry k => w.insertEntry a k x
  | struct a, .field name => w.setField a name x
  | _, _ => w

/-- The value at a place of a container. -/
def got (w : World) : Value → Place → Value
  | list a, .item n => (w.list a).getD n nil
  | dictionary a, .entry k => ((w.dictionary a).get? k).getD nil
  | struct a, .field name => ((w.record a).fields.get? name).getD nil
  | _, _ => nil

/-! ## Single operations -/

theorem store_list (i : Int64) : store (list a) (integer i) x w = (match resolveIndex i (w.list a).size with
    | .ok n => .ok () (w.setListItem a n x)
    | .error cause => .error (.ofCause cause) w) := by
  show (Effect.ofExcept _ >>= fun n => modify (·.setListItem a n x) : Effect Unit) w = _
  cases resolveIndex i (w.list a).size <;> rfl

theorem store_dictionary : store (dictionary a) i x w = (match Effect.key i with
    | .ok k => .ok () (w.insertEntry a k x)
    | .error cause => .error (.ofCause cause) w) := by
  show (Effect.ofExcept _ >>= fun k => modify (·.insertEntry a k x) : Effect Unit) w = _
  cases Effect.key i <;> rfl

theorem store_struct (name : String) : store (struct a) (string name) x w = if name ∈ (w.record a).fields.keys
    then .ok () (w.setField a name x) else .error (.ofCause (.fieldNotFound (w.record a).name name)) w := by
  show (if (w.record a).fields.contains name then _ else _ : Effect Unit) w = _
  by_cases h : name ∈ (w.record a).fields.keys
  · rw [if_pos h, if_pos (OrderedMap.contains_iff.2 h)]
    rfl
  · rw [if_neg h, if_neg (mt OrderedMap.contains_iff.1 h)]
    rfl

theorem index_list (i : Int64) : index (list a) (integer i) w = (match resolveIndex i (w.list a).size with
    | .ok n => .ok ((w.list a).getD n nil) w
    | .error cause => .error (.ofCause cause) w) := by
  show (Effect.ofExcept _ >>= fun n => pure ((w.list a).getD n nil) : Effect Value) w = _
  cases resolveIndex i (w.list a).size <;> rfl

theorem index_dictionary : index (dictionary a) i w = (match Effect.key i with
    | .ok k => .ok (((w.dictionary a).get? k).getD nil) w
    | .error cause => .error (.ofCause cause) w) := by
  show (Effect.ofExcept _ >>= fun k => pure (((w.dictionary a).get? k).getD nil) : Effect Value) w = _
  cases Effect.key i <;> rfl

theorem index_field (name : String) : index (struct a) (string name) w = (match (w.record a).fields.get? name with
    | some v => .ok v w
    | none => .error (.ofCause (.fieldNotFound (w.record a).name name)) w) := by
  show (match (w.record a).fields.get? name with
    | some v => pure v
    | none => Effect.fail (.fieldNotFound (w.record a).name name) : Effect Value) w = _
  cases (w.record a).fields.get? name <;> rfl

theorem index_struct (name : String) : index (struct a) (string name) w = if name ∈ (w.record a).fields.keys
    then .ok (((w.record a).fields.get? name).getD nil) w
    else .error (.ofCause (.fieldNotFound (w.record a).name name)) w := by
  rw [index_field]
  cases hget : (w.record a).fields.get? name with
  | none => exact (if_neg (OrderedMap.get?_eq_none_iff.1 hget)).symm
  | some v =>
    have hknown : name ∈ (w.record a).fields.keys :=
      Classical.byContradiction fun h => by cases hget.symm.trans (OrderedMap.get?_eq_none_iff.2 h)
    exact (if_pos hknown).symm

/-! ## Stores -/

theorem denotes_list (i : Int64) : Denotes w (list a) (integer i) (.item n) ↔
    resolveIndex i (w.list a).size = .ok n := by
  rw [Range.resolveIndex_ok_iff]
  constructor
  · rintro ⟨names, inside, counts⟩
    exact ⟨names, inside, counts⟩
  · rintro ⟨names, inside, counts⟩
    exact .item names inside counts

theorem denotes_dictionary (w : World) (a : Addr) : Denotes w (dictionary a) i (.entry k) ↔ Effect.key i = .ok k := by
  rw [key_ok_iff]
  constructor
  · rintro ⟨⟩
    rfl
  · rintro rfl
    exact .entry a k

/-- A store whose index denotes a place puts the value there. -/
theorem store_of_denotes (h : Denotes w c i p) : store c i x w = .ok () (put w x c p) := by
  cases h with
  | item names inside counts => rw [store_list, (denotes_list _).1 (.item names inside counts)]; rfl
  | entry a k => rw [store_dictionary, (denotes_dictionary w a).1 (.entry a k)]; rfl
  | field known => rw [store_struct, if_pos known]; rfl

/-- Every other store fails, and nothing has changed. -/
theorem store_of_not_denotes (h : ∀ p, ¬Denotes w c i p) : ∃ cause, store c i x w = .error (.ofCause cause) w := by
  cases c with
  | list a =>
    cases i with
    | integer n =>
      rw [store_list]
      cases hplace : resolveIndex n (w.list a).size with
      | ok place => exact absurd ((denotes_list n).2 hplace) (h _)
      | error cause => exact ⟨cause, rfl⟩
    | _ => exact ⟨_, rfl⟩
  | dictionary a =>
    rw [store_dictionary]
    cases hkey : Effect.key i with
    | ok k => exact absurd ((denotes_dictionary w a).2 hkey) (h _)
    | error cause => exact ⟨cause, rfl⟩
  | struct a =>
    cases i with
    | string name =>
      rw [store_struct, if_neg fun known => h _ (.field known)]
      exact ⟨_, rfl⟩
    | _ => exact ⟨_, rfl⟩
  | _ => exact ⟨_, rfl⟩

/-- An index that denotes a place reads it. -/
theorem index_of_denotes (h : Denotes w c i p) : index c i w = .ok (got w c p) w := by
  cases h with
  | item names inside counts => rw [index_list, (denotes_list _).1 (.item names inside counts)]; rfl
  | entry a k => rw [index_dictionary, (denotes_dictionary w a).1 (.entry a k)]; rfl
  | field known => rw [index_struct, if_pos known]; rfl

end ShellVM.Value
