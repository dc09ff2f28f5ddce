import ShellVM.Proofs.Alike.Observe
import ShellVM.Proofs.Lockstep

/-!
# Effects that agree

Two effects agree if they run in lockstep on worlds that are alike: both succeed with related results, or both fail for
the same cause, and the worlds stay alike. The cause is never a broken rule of the machine, nor a limit of the run.
-/

namespace ShellVM

/-- Causes that the code of a program can give rise to, whatever the limits of the run. -/
def Cause.isPlain : Cause → Bool
  | .internal _ => false
  | .limitExceeded limit _ => limit = .repeatedLength
  | _ => true

/-- A computation whose failures are plain. -/
def Plainly {α : Type} (x : Except Cause α) : Prop := ∀ cause, x = .error cause → cause.isPlain

namespace Plainly

variable {α β : Type}

theorem ok (a : α) : Plainly (.ok a) := fun _ h => by cases h

theorem error {cause : Cause} (h : cause.isPlain) : Plainly (.error cause : Except Cause α) := fun _ h' => by
  cases h'
  exact h

theorem bind {x : Except Cause α} {f : α → Except Cause β} (h : Plainly x) (h' : ∀ a, Plainly (f a)) :
    Plainly (x >>= f) := by
  cases x with
  | ok a => exact h' a
  | error cause => exact error (h cause rfl)

end Plainly

/-- Both succeed with related results, or both fail for the same plain cause; the worlds stay alike. -/
def Agrees {α β : Type} (V : View) (R : α → β → Prop) (x : Effect α) (y : Effect β) : Prop :=
  Lockstep (World.Alike V) x y (fun a b w w' => R a b ∧ w.Alike V w')
    fun e f w w' => (f = e ∧ e.cause.isPlain) ∧ w.Alike V w'

namespace Agrees

variable {V : View} {α β α' β' : Type} {R : α → β → Prop} {R' : α' → β' → Prop} {x : Effect α} {y : Effect β}

theorem pure {a : α} {b : β} (h : R a b) : Agrees V R (Pure.pure a) (Pure.pure b) :=
  Lockstep.pure fun _ _ hw => ⟨h, hw⟩

theorem fail {cause : Cause} (h : cause.isPlain) : Agrees V R (Effect.fail cause) (Effect.fail cause) :=
  Lockstep.throw fun _ _ hw => ⟨⟨rfl, h⟩, hw⟩

theorem bind {f : α → Effect α'} {g : β → Effect β'} (h : Agrees V R x y)
    (h' : ∀ a b, R a b → Agrees V R' (f a) (g b)) : Agrees V R' (x >>= f) (y >>= g) :=
  Lockstep.bind h fun a b => Lockstep.assume fun hab => h' a b hab

theorem map {f : α → α'} {g : β → β'} (h : Agrees V R x y) (h' : ∀ a b, R a b → R' (f a) (g b)) :
    Agrees V R' (f <$> x) (g <$> y) := by
  rw [map_eq_pure_bind, map_eq_pure_bind]
  exact h.bind fun a b hab => pure (h' a b hab)

/-- The same check in front of both. -/
theorem check {p : Prop} [Decidable p] {cause : Cause} {f : Unit → Effect α} {g : Unit → Effect β}
    (hcause : cause.isPlain) (h : Agrees V R (f ()) (g ())) : Agrees V R (if p then Effect.fail cause >>= f else f ())
      (if p then Effect.fail cause >>= g else g ()) := by
  split
  · exact (fail (R := Eq) hcause).bind fun _ _ _ => h
  · exact h

/-- A look at the world. -/
theorem get {f : World → Effect α} {g : World → Effect β} (h : ∀ w w', w.Alike V w' → Agrees V R (f w) (g w')) :
    Agrees V R (get >>= f) (get >>= g) :=
  Lockstep.bind (Q := fun w w' s t => w.Alike V w' ∧ s.Alike V t) (Lockstep.get fun _ _ hw => ⟨hw, hw⟩) fun w w' =>
    Lockstep.assume fun hw => h w w' hw

theorem modify {f g : World → World} (h : ∀ w w', w.Alike V w' → (f w).Alike V (g w')) :
    Agrees V Eq (modify f : Effect PUnit) (modify g : Effect PUnit) :=
  Lockstep.modify fun w w' hw => ⟨rfl, h w w' hw⟩

theorem ofExcept {e : Except Cause α} (h : Plainly e) : Agrees V Eq (Effect.ofExcept e) (Effect.ofExcept e) := by
  cases e with
  | ok a => exact pure rfl
  | error cause => exact fail (h cause rfl)

/-! ## Fresh storage -/

theorem newList {xs ys : Array Value} (h : ItemsAlike V xs ys) :
    Agrees V (Value.Alike V) (Effect.newList xs) (Effect.newList ys) := by
  refine Lockstep.modifyGet fun w w' hw => ⟨⟨?_, hw.lists.floor_le⟩, { hw with lists := hw.lists.push h }⟩
  rw [hw.lists.size]

theorem newDictionary {m m' : OrderedMap Key Value} (h : m.Alike V m') :
    Agrees V (Value.Alike V) (Effect.newDictionary m) (Effect.newDictionary m') := by
  refine Lockstep.modifyGet fun w w' hw =>
    ⟨⟨?_, hw.dictionaries.floor_le⟩, { hw with dictionaries := hw.dictionaries.push h }⟩
  rw [hw.dictionaries.size]

theorem newSet (m : OrderedMap Key Unit) : Agrees V (Value.Alike V) (Effect.newSet m) (Effect.newSet m) := by
  refine Lockstep.modifyGet fun w w' hw => ⟨?_, { hw with sets := by simp only [hw.sets] }⟩
  show Value.set _ = Value.set _
  rw [hw.sets]

theorem newRecord {r r' : Record} (h : r.Alike V r') :
    Agrees V (Value.Alike V) (Effect.newRecord r) (Effect.newRecord r') := by
  refine Lockstep.modifyGet fun w w' hw => ⟨⟨?_, hw.records.floor_le⟩, { hw with records := hw.records.push h }⟩
  rw [hw.records.size]

theorem newCell {u v : Value} (h : u.Alike V v) :
    Agrees V (fun a b => b = a ∧ V.cells ≤ a) (Effect.newCell u) (Effect.newCell v) := by
  refine Lockstep.modifyGet fun w w' hw => ⟨⟨?_, hw.cells.floor_le⟩, { hw with cells := hw.cells.push h }⟩
  rw [hw.cells.size]

theorem newStream (s : Stream) : Agrees V Eq (Effect.newStream s) (Effect.newStream s) := by
  refine Lockstep.modifyGet fun w w' hw => ⟨?_, { hw with streams := by simp only [hw.streams] }⟩
  rw [hw.streams]

end Agrees

end ShellVM
