import ShellVM.Library
import ShellVM.Proofs.Direct.Access

/-!
# Values and library functions with direct accesses

Indexing reads items at positions that were resolved before (`readIndex_eq`, `writeIndex_eq`). Library functions split
their arguments and read the first ones; the arguments of a standard function are there, because their number is
checked before (`callFunction_eq`).
-/

namespace ShellVM.Direct

/-! ## Indexing -/

/-- Reads `v[i]`: the items of lists, tuples, texts and streams directly. -/
def readIndex (v i : Value) : Direct World Value := do
  let w ← get
  match v, i with
  | .list a, .integer i =>
    let items := w.list a
    let place ← ofExcept (resolveIndex i items.size)
    there items[place]?
  | .list a, .range r =>
    let items := w.list a
    let places ← ofExcept (r.slice items.size)
    let picked ← places.mapM fun place => there items[place]?
    guarded (Effect.newList picked.toArray)
  | .tuple vs, .integer i =>
    let place ← ofExcept (resolveIndex i vs.length)
    there vs[place]?
  | .tuple vs, .range r =>
    let places ← ofExcept (r.slice vs.length)
    return .tuple (← places.mapM fun place => there vs.toArray[place]?)
  | .string s, .integer i =>
    let cs := s.toList
    let place ← ofExcept (resolveIndex i cs.length)
    return .string (String.ofList [← there cs[place]?])
  | .string s, .range r =>
    let cs := s.toList
    let places ← ofExcept (r.slice cs.length)
    return .string (String.ofList (← places.mapM fun place => there cs.toArray[place]?))
  | .stream a, .integer i =>
    let lines ← guarded (Job.lines a)
    let place ← ofExcept (resolveIndex i lines.length)
    return .string (← there lines[place]?)
  | v, i => guarded (v.index i)

/-- Writes `v[i] = x`: the item of a list directly. -/
def writeIndex (v i x : Value) : Direct World Unit := do
  let w ← get
  match v, i with
  | .list a, .integer i =>
    let items := w.list a
    let place ← ofExcept (resolveIndex i items.size)
    let _ ← there items[place]?
    modify (·.setListItem a place x)
  | v, i => guarded (v.store i x)

section Indexing

variable {β : Type}

theorem guarded_get_bind {σ : Type} (f : σ → EStateM Fault σ β) :
    guarded (get >>= f) = get >>= fun s => guarded (f s) := guarded_bind get f

theorem guarded_ofExcept_bind {α : Type} {e : Except Cause α} {f : α → Direct World β} {g : α → Effect β}
    (h : ∀ a, e = .ok a → f a = guarded (g a)) : (ofExcept e >>= f) = guarded (Effect.ofExcept e >>= g) := by
  cases e with
  | ok a => exact h a rfl
  | error cause => rfl

/-- What is done at a position that an index names. -/
theorem resolved {i : Int64} {length : Nat} {f : Nat → Direct World β} {g : Nat → Effect β}
    (h : ∀ place, place < length → f place = guarded (g place)) :
    (ofExcept (resolveIndex i length) >>= f) = guarded (Effect.ofExcept (resolveIndex i length) >>= g) :=
  guarded_ofExcept_bind fun place hplace => h place (resolveIndex_lt hplace)

/-- What is done at the positions of a slice. -/
theorem sliced {r : Range} {length : Nat} {f : List Nat → Direct World β} {g : List Nat → Effect β}
    (h : ∀ places, (∀ place ∈ places, place < length) → f places = guarded (g places)) :
    (ofExcept (r.slice length) >>= f) = guarded (Effect.ofExcept (r.slice length) >>= g) :=
  guarded_ofExcept_bind fun places hplaces => h places fun _ hplace => lt_of_mem_slice hplaces hplace

end Indexing

/-- **Indexing never breaks off.** -/
theorem readIndex_eq (v i : Value) : readIndex v i = guarded (v.index i) := by
  cases v with
  | list a =>
    cases i with
    | integer i =>
      refine Eq.trans ?_ (guarded_get_bind _).symm
      refine bind_congr fun w => resolved fun place hplace => ?_
      exact there_getElem?_array hplace _
    | range r =>
      refine Eq.trans ?_ (guarded_get_bind _).symm
      refine bind_congr fun w => sliced fun places hplaces => ?_
      rw [mapM_there hplaces, pure_bind]
    | _ => rfl
  | tuple vs =>
    cases i with
    | integer i =>
      refine Eq.trans ?_ (guarded_get_bind _).symm
      refine bind_congr fun w => resolved fun place hplace => ?_
      exact there_getElem? hplace _
    | range r =>
      refine Eq.trans ?_ (guarded_get_bind _).symm
      refine bind_congr fun w => sliced fun places hplaces => ?_
      rw [mapM_there (by simpa using hplaces), pure_bind]
      rfl
    | _ => rfl
  | string s =>
    cases i with
    | integer i =>
      refine Eq.trans ?_ (guarded_get_bind _).symm
      refine bind_congr fun w => resolved fun place hplace => ?_
      have hone : (s.toList.drop place).take 1 = [s.toList[place]] := by
        rw [List.drop_eq_getElem_cons hplace]
        rfl
      rw [there_of_eq (List.getElem?_eq_getElem hplace), pure_bind, hone]
      rfl
    | range r =>
      refine Eq.trans ?_ (guarded_get_bind _).symm
      refine bind_congr fun w => sliced fun places hplaces => ?_
      rw [mapM_there (by simpa using hplaces), pure_bind]
      rfl
    | _ => rfl
  | stream a =>
    cases i with
    | integer i =>
      refine Eq.trans ?_ (guarded_get_bind _).symm
      refine bind_congr fun w => ?_
      refine Eq.trans ?_ (guarded_bind _ _).symm
      refine bind_congr fun lines => resolved fun place hplace => ?_
      rw [there_getElem? hplace "", pure_bind]
      rfl
    | _ => rfl
  | _ => rfl

theorem writeIndex_eq (v i x : Value) : writeIndex v i x = guarded (v.store i x) := by
  cases v with
  | list a =>
    cases i with
    | integer i =>
      refine Eq.trans ?_ (guarded_get_bind _).symm
      refine bind_congr fun w => resolved fun place hplace => ?_
      rw [there_of_eq (Array.getElem?_eq_getElem hplace), pure_bind]
      rfl
    | _ => rfl
  | _ => rfl

/-! ## Library functions -/

/-- The two parts of a row at a place, which may be its end. -/
def splitAt? {α : Type} (xs : List α) (place : Nat) : Option (List α × List α) :=
  if place ≤ xs.length then some (xs.take place, xs.drop place) else none

/-- The arguments that finally reach a function: those from a position on are split off. -/
def prepare (f : LibraryFunction) (arguments : List Value) : Direct World (List Value) := do
  let got := arguments.length
  if got < f.minArguments || f.maxArguments?.any (· < got) then
    fail (.argumentCount f.name f.expected got)
  let packed ← match f.packFrom? with
    | some start => do
      let (kept, rest) ← there (splitAt? arguments (min start got))
      let rest ← guarded (Effect.newList rest.toArray)
      pure (kept ++ [rest])
    | none => pure arguments
  guarded (LibraryFunction.coerce f.parameters packed)

/-- Carries out a function: all but `collect` read the first argument directly, and `push` the second one. -/
def carryOut (b : Builtin) (arguments : List Value) : Direct World Value := do
  match b with
  | .collect => guarded (Builtin.collect.run arguments)
  | .push =>
    let first ← there arguments[0]?
    match first with
    | .list a =>
      let item ← there arguments[1]?
      modify (·.pushListItem a item)
      return first
    | v => fail (.cast v.kind "List")
  | b =>
    let first ← there arguments[0]?
    guarded (b.run [first])

/-- Calls a library function. -/
def callFunction (f : LibraryFunction) (arguments : List Value) : Direct World Value := do
  carryOut f.body (← prepare f arguments)

theorem prepare_eq (f : LibraryFunction) (arguments : List Value) :
    prepare f arguments = guarded (f.prepare arguments) := by
  unfold prepare LibraryFunction.prepare
  dsimp only
  split
  · rfl
  · cases f.packFrom? with
    | none => rfl
    | some start =>
      have hsplit : splitAt? arguments (min start arguments.length) =
          some (arguments.take start, arguments.drop start) := by
        unfold splitAt?
        rw [if_pos (Nat.min_le_right ..), ← List.take_eq_take_min, ← List.drop_eq_drop_min]
      dsimp only
      rw [there_of_eq hsplit, guarded_bind]
      rfl

/-- The number of arguments that a function reads. -/
def reads : Builtin → Nat
  | .collect => 0
  | .push => 2
  | _ => 1

theorem carryOut_eq {b : Builtin} {arguments : List Value} (h : reads b ≤ arguments.length) :
    carryOut b arguments = guarded (b.run arguments) := by
  cases b with
  | collect => rfl
  | push =>
    obtain ⟨first, item, rest, rfl⟩ : ∃ first item rest, arguments = first :: item :: rest := by
      match arguments, h with
      | first :: item :: rest, _ => exact ⟨first, item, rest, rfl⟩
    cases first <;> rfl
  | _ =>
    obtain ⟨first, rest, rfl⟩ := List.exists_cons_of_length_pos h
    rfl

theorem length_coerce {parameters : List (Option Kind)} {arguments coerced : List Value} {w w' : World}
    (h : LibraryFunction.coerce parameters arguments w = .ok coerced w') : coerced.length = arguments.length := by
  induction arguments generalizing parameters coerced w with
  | nil =>
    cases parameters with
    | nil => cases h; rfl
    | cons k? ks => cases k? <;> cases h <;> rfl
  | cons v vs ih =>
    cases parameters with
    | nil => cases h; rfl
    | cons k? ks =>
      cases k? with
      | none =>
        obtain ⟨rest, w₁, hrest, h⟩ := bind_ok.1 h
        cases h
        rw [List.length_cons, List.length_cons, ih hrest]
      | some k =>
        obtain ⟨u, w₁, -, h⟩ := bind_ok.1 h
        obtain ⟨rest, w₂, hrest, h⟩ := bind_ok.1 h
        cases h
        rw [List.length_cons, List.length_cons, ih hrest]

/-- The number of arguments that reach a function. -/
def packedCount (f : LibraryFunction) (count : Nat) : Nat :=
  match f.packFrom? with
  | some start => min start count + 1
  | none => count

theorem length_prepare {f : LibraryFunction} {arguments prepared : List Value} {w w' : World}
    (h : f.prepare arguments w = .ok prepared w') :
    f.minArguments ≤ arguments.length ∧ prepared.length = packedCount f arguments.length := by
  unfold LibraryFunction.prepare at h
  obtain ⟨hcount, h⟩ := check_ok h
  simp only [Bool.or_eq_true, decide_eq_true_eq, not_or, Nat.not_lt] at hcount
  refine ⟨hcount.1, ?_⟩
  unfold packedCount
  dsimp only at h
  cases hpack : f.packFrom? with
  | none =>
    rw [hpack] at h
    exact length_coerce h
  | some start =>
    rw [hpack] at h
    obtain ⟨rest, w₁, -, h⟩ := bind_ok.1 h
    rw [length_coerce h, List.length_append, List.length_take]
    rfl

/-- The arguments that a standard function reads reach it. -/
theorem reads_standard {f : LibraryFunction} (hf : f ∈ Library.standard.functions) {count : Nat}
    (h : f.minArguments ≤ count) : reads f.body ≤ packedCount f count := by
  simp only [Library.standard, List.mem_cons, List.not_mem_nil, or_false] at hf
  rcases hf with rfl | rfl | rfl | rfl | rfl | rfl <;> simp [packedCount, reads] <;> exact h

/-- **A standard function never breaks off**, whatever its arguments. -/
theorem callFunction_eq {f : LibraryFunction} (hf : f ∈ Library.standard.functions) (arguments : List Value) :
    callFunction f arguments = guarded (f.call arguments) := by
  funext w
  unfold callFunction LibraryFunction.call LibraryFunction.callWith
  rw [prepare_eq, guarded_bind]
  show EStateM.bind _ _ w = EStateM.bind _ _ w
  unfold EStateM.bind guarded
  dsimp only
  cases hprepare : f.prepare arguments w with
  | ok prepared w' =>
    obtain ⟨hcount, hlength⟩ := length_prepare hprepare
    exact congrFun (carryOut_eq (hlength ▸ reads_standard hf hcount)) w'
  | error e w' => rfl

end ShellVM.Direct
