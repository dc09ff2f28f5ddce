import ShellVM.Value.Cast

/-!
# Reading and writing by index

Negative indices count from the end, and a range as an index cuts out a slice. Only lists,
dictionaries and structs can be written to; the storage is shared, so every holder sees the write.
-/

namespace ShellVM

/-- The position that an index names in a sequence of the given length. -/
def resolveIndex (i : Int64) (length : Nat) : Except Cause Nat :=
  let fail : Except Cause Nat := .error (.indexOutOfRange i length)
  if i < 0 then
    if (9223372036854775807 : Nat) < length then fail
    else
      let place := (length : Int) + i.toInt
      if 0 ≤ place && place < length then .ok place.toNat else fail
  else if i.toInt.toNat < length then .ok i.toInt.toNat
  else fail

namespace Range

/-- The position that a bound of a slice names, before it is clamped. -/
def resolveBound (length : Nat) (bound : Int64) : Int :=
  if bound < 0 then (length : Int) + bound.toInt else bound.toInt

def clamp (length : Nat) (n : Int) : Int := max 0 (min n length)

/-- The positions that a range cuts out of a sequence. An inclusive end is resolved before it is
moved on by one. -/
def slice (r : Range) (length : Nat) : Except Cause (List Nat) :=
  let first := clamp length (resolveBound length (r.first?.getD 0))
  let last := clamp length (match r.last? with
    | some last => resolveBound length last + if r.inclusive then 1 else 0
    | none => length)
  let step := r.step?.getD 1
  if step ≤ 0 then
    .error (.custom ("slice step must be positive, got " ++ Word.render step))
  else
    let range : Range :=
      ⟨some (Int64.ofInt first), some (Int64.ofInt (max last first)), some step, false⟩
    .ok ((range.items?.getD []).map fun n => n.toInt.toNat)

end Range

namespace Value

def pick {α : Type} (items : Array α) (positions : List Nat) : List α :=
  positions.filterMap (items[·]?)

/-- The item of a range at an index. -/
def rangeItem (r : Range) (i : Int64) : Except Cause Int64 := do
  let found ← match r.length? with
    | some length => do
      let place ← resolveIndex i length
      pure (r.get? place)
    | none => pure (if i < 0 then none else r.get? i.toInt.toNat)
  match found with
  | some n => .ok n
  | none => .error (.indexOutOfRange i (r.length?.getD Range.maxCount))

/-- Reads `v[i]`. A key that is not in a dictionary reads as nil. -/
def index (v i : Value) : Effect Value := do
  let w ← get
  match v, i with
  | list a, integer i =>
    let items := w.list a
    let place ← Effect.ofExcept (resolveIndex i items.size)
    return items.getD place nil
  | list a, range r =>
    let items := w.list a
    let positions ← Effect.ofExcept (r.slice items.size)
    Effect.newList (pick items positions).toArray
  | tuple vs, integer i =>
    let place ← Effect.ofExcept (resolveIndex i vs.length)
    return vs.getD place nil
  | tuple vs, range r =>
    let positions ← Effect.ofExcept (r.slice vs.length)
    return tuple (pick vs.toArray positions)
  | string s, integer i =>
    let cs := s.toList
    let place ← Effect.ofExcept (resolveIndex i cs.length)
    return string (String.ofList (cs.drop place |>.take 1))
  | string s, range r =>
    let cs := s.toList
    let positions ← Effect.ofExcept (r.slice cs.length)
    return string (String.ofList (pick cs.toArray positions))
  | range r, integer i => return integer (← Effect.ofExcept (rangeItem r i))
  | dictionary a, i =>
    let k ← Effect.ofExcept (Effect.key i)
    return ((w.dictionary a).get? k).getD nil
  | struct a, string field =>
    match (w.record a).fields.get? field with
    | some v => return v
    | none => Effect.fail (.fieldNotFound (w.record a).name field)
  | stream a, integer i =>
    let lines ← Job.lines a
    let place ← Effect.ofExcept (resolveIndex i lines.length)
    return string (lines.getD place "")
  | list _, i | tuple _, i | string _, i | range _, i | struct _, i | stream _, i =>
    Effect.fail (.cast i.kind "index")
  | v, _ => Effect.fail (.notIndexable v.kind)

/-- Writes `v[i] = x`. -/
def store (v i x : Value) : Effect Unit := do
  let w ← get
  match v, i with
  | list a, integer i =>
    let place ← Effect.ofExcept (resolveIndex i (w.list a).size)
    modify (·.setListItem a place x)
  | dictionary a, i =>
    let k ← Effect.ofExcept (Effect.key i)
    modify (·.insertEntry a k x)
  | struct a, string field =>
    if (w.record a).fields.contains field then modify (·.setField a field x)
    else Effect.fail (.fieldNotFound (w.record a).name field)
  | string _, _ | tuple _, _ | range _, _ => Effect.fail (.immutable v.kind)
  | list _, i | struct _, i => Effect.fail (.cast i.kind "index")
  | v, _ => Effect.fail (.notIndexable v.kind)

end Value

end ShellVM
