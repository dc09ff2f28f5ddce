import ShellVM.Machine.Perform
import ShellVM.Proofs.Alike.Library
import ShellVM.Proofs.Alike.Closure
import ShellVM.Proofs.Job.Operands

/-!
# Operations on the world

The operations on values, the library and other programs know nothing of the machine that runs them, for all values
and all worlds. However they end, the cells of variables and the environments of closures are as they were
(`Effect.Spares`); and when they fail, their fault has no trace yet, and what has gone wrong is not that operands are
missing (`Effect.FailsFresh`). Both are proved of each operation at once (`Effect.Contained`).
-/

namespace ShellVM

/-- The cells of variables and the environments of closures. -/
def World.variables (w : World) : Array Value × Array (List Addr) := (w.cells, w.environments)

theorem World.variables_apart : World.Apart World.variables := ⟨fun _ _ => rfl, fun _ _ => rfl, fun _ _ _ => rfl⟩

/-- The fault has no trace yet, and does not say that operands are missing. -/
structure Fault.Fresh (fault : Fault) : Prop where
  trace : fault.trace = []
  cause : fault.cause ≠ .internal .stackUnderflow

theorem Fault.Fresh.ofPlain {cause : Cause} (h : cause.isPlain) : (Fault.ofCause cause).Fresh := by
  refine ⟨rfl, ?_⟩
  rintro rfl
  cases h

namespace Effect

/-- The effect leaves the cells and the environments as they were. -/
def Spares {α : Type} (e : Effect α) : Prop := Preserves World.variables e

/-- Whenever the effect fails, its fault is fresh. -/
def FailsFresh {α : Type} (e : Effect α) : Prop := ∀ w fault w', e w = .error fault w' → fault.Fresh

namespace FailsFresh

variable {α β : Type} {e : Effect α} {f : α → Effect β}

theorem pure (a : α) : (Pure.pure a : Effect α).FailsFresh := by
  intro w fault w' h
  cases h

theorem fail {cause : Cause} (h : cause.isPlain) : (Effect.fail cause : Effect α).FailsFresh := by
  intro w fault w' h'
  cases h'
  exact .ofPlain h

theorem bind (h : e.FailsFresh) (h' : ∀ a, (f a).FailsFresh) : (e >>= f).FailsFresh := by
  intro w fault w' hrun
  cases he : e w with
  | ok a u =>
    rw [bind_run_ok he] at hrun
    exact h' a u fault w' hrun
  | error fault' u =>
    rw [bind_run_error he] at hrun
    cases hrun
    exact h w fault w' he

theorem map {g : α → β} (h : e.FailsFresh) : (g <$> e).FailsFresh := by
  rw [map_eq_pure_bind]
  exact h.bind fun a => pure (g a)

theorem get {f : World → Effect β} (h : ∀ w, (f w).FailsFresh) : (get >>= f).FailsFresh := by
  intro w
  exact h w w

theorem modify (g : World → World) : (modify g : Effect PUnit).FailsFresh := by
  intro w fault w' h
  cases h

theorem modifyGet (g : World → α × World) : (modifyGet g : Effect α).FailsFresh := by
  intro w fault w' h
  cases h

theorem ite {p : Prop} [Decidable p] {e' : Effect α} (h : e.FailsFresh) (h' : e'.FailsFresh) :
    (if p then e else e').FailsFresh := by
  split
  · exact h
  · exact h'

/-- What happens before a failure that is caught has no bearing. -/
theorem tryCatch {f : Fault → Effect α} (h : ∀ fault, (f fault).FailsFresh) : (tryCatch e f).FailsFresh := by
  intro w fault w' hrun
  change EStateM.tryCatch e f w = _ at hrun
  unfold EStateM.tryCatch at hrun
  cases he : e w with
  | ok a u =>
    rw [he] at hrun
    cases hrun
  | error fault' u =>
    rw [he] at hrun
    exact h fault' _ fault w' hrun

theorem ofExcept {x : Except Cause α} (h : Plainly x) : (Effect.ofExcept x).FailsFresh := by
  cases x with
  | ok a => exact pure a
  | error cause => exact fail (h cause rfl)

end FailsFresh

/-- The effect reaches no variables, and its faults are fresh. -/
structure Contained {α : Type} (e : Effect α) : Prop where
  spares : e.Spares
  fresh : e.FailsFresh

namespace Contained

variable {α β : Type} {e : Effect α} {f : α → Effect β}

theorem pure (a : α) : (Pure.pure a : Effect α).Contained := ⟨.pure a, .pure a⟩

theorem fail {cause : Cause} (h : cause.isPlain) : (Effect.fail cause : Effect α).Contained := ⟨.throw _, .fail h⟩

theorem ofExcept {x : Except Cause α} (h : Plainly x) : (Effect.ofExcept x).Contained :=
  ⟨ofExcept_preserves x, .ofExcept h⟩

theorem bind (h : e.Contained) (h' : ∀ a, (f a).Contained) : (e >>= f).Contained :=
  ⟨h.spares.bind fun a => (h' a).spares, h.fresh.bind fun a => (h' a).fresh⟩

theorem map {g : α → β} (h : e.Contained) : (g <$> e).Contained := ⟨h.spares.map, h.fresh.map⟩

theorem get {f : World → Effect β} (h : ∀ w, (f w).Contained) : (get >>= f).Contained :=
  ⟨.get fun w => (h w).spares, .get fun w => (h w).fresh⟩

theorem modify {g : World → World} (h : ∀ w, (g w).variables = w.variables) : (modify g : Effect PUnit).Contained :=
  ⟨.modify h, .modify g⟩

theorem ite {p : Prop} [Decidable p] {e' : Effect α} (h : e.Contained) (h' : e'.Contained) :
    (if p then e else e').Contained :=
  ⟨.ite h.spares h'.spares, .ite h.fresh h'.fresh⟩

/-- A check in front of an effect. -/
theorem check {p : Prop} [Decidable p] {cause : Cause} {f : Unit → Effect α} (hcause : cause.isPlain)
    (h : ∀ u, (f u).Contained) : (if p then (Effect.fail cause : Effect Unit) >>= f else f ()).Contained :=
  .ite ((fail hcause).bind h) (h ())

end Contained

theorem newList_contained (items : Array Value) : (newList items).Contained := ⟨.modifyGet fun _ => rfl, .modifyGet _⟩

theorem newDictionary_contained (entries : OrderedMap Key Value) : (newDictionary entries).Contained :=
  ⟨.modifyGet fun _ => rfl, .modifyGet _⟩

theorem newSet_contained (items : OrderedMap Key Unit) :
    (newSet items).Contained := ⟨.modifyGet fun _ => rfl, .modifyGet _⟩

theorem newRecord_contained (r : Record) : (newRecord r).Contained := ⟨.modifyGet fun _ => rfl, .modifyGet _⟩

end Effect

open Effect

/-! ## Processes -/

namespace Stream

variable {s : Stream} {fault : Fault}

theorem advance_fresh (h : s.advance.1 = .error fault) : fault.Fresh := by
  have hplain := advance_plain h
  have htrace : fault.trace = [] := by
    unfold advance at h
    split at h
    · split at h
      · cases h
      · dsimp only at h
        split at h
        · cases h
          rfl
        · cases h
    · cases h
  refine ⟨htrace, ?_⟩
  intro hcause
  rw [hcause] at hplain
  cases hplain

theorem readTo_fresh (index fuel : Nat) (h : (readTo index fuel s).1 = .error fault) : fault.Fresh := by
  induction fuel generalizing s with
  | zero => cases h
  | succ fuel ih =>
    unfold readTo at h
    split at h
    · cases h
    · split at h
      · exact ih h
      · cases h
      · next hadvance =>
        cases h
        exact advance_fresh (by rw [hadvance])

theorem readAll_fresh (fuel : Nat) (h : (readAll fuel s).1 = .error fault) : fault.Fresh := by
  induction fuel generalizing s with
  | zero => cases h
  | succ fuel ih =>
    unfold readAll at h
    split at h
    · exact ih h
    · cases h
    · next hadvance =>
      cases h
      exact advance_fresh (by rw [hadvance])

theorem pull_fresh (index : Nat) (h : (s.pull index).1 = .error fault) : fault.Fresh := by
  unfold pull at h
  split at h
  · cases h
  · next hread =>
    cases h
    exact readTo_fresh index s.remaining (by rw [hread])

theorem drain_fresh (h : s.drain.1 = .error fault) : fault.Fresh := by
  unfold drain at h
  split at h
  · cases h
  · next hread =>
    cases h
    exact readAll_fresh s.remaining (by rw [hread])

end Stream

namespace Job

variable {feed : Addr → Effect (List String)}

theorem onStream_fresh {α : Type} (a : Addr) {f : Stream → Except Fault α × Stream}
    (hf : ∀ s fault, (f s).1 = .error fault → fault.Fresh) : (onStream a f).FailsFresh := by
  refine .get fun w => ?_
  have hs := hf (w.stream a)
  cases hfs : f (w.stream a) with
  | mk result s =>
    rw [hfs] at hs
    dsimp only
    refine FailsFresh.bind (.modify _) fun _ => ?_
    cases result with
    | ok v => exact .pure v
    | error fault =>
      intro u fault' u' h
      cases h
      exact hs fault rfl

theorem behaviour_fresh (hfeed : ∀ a, (feed a).FailsFresh) (call : ProgramCall) : (behaviour feed call).FailsFresh := by
  refine .get fun w => (FailsFresh.ofExcept (programFor_plain _ _ call)).bind fun program => ?_
  have hrun (input : String) : FailsFresh (show Effect Shell.Behaviour from do
      let w ← get
      let b := w.system.behaviour w.files program (Raw.ofText call.program) (call.arguments.map Raw.ofText)
        (settings call) (Raw.ofText input).toList
      modify fun w => { w with files := b.files }
      return b) := .get fun _ => FailsFresh.bind (.modify _) fun _ => .pure _
  dsimp only
  split
  · exact (FailsFresh.pure _).bind hrun
  · exact (FailsFresh.pure _).bind hrun
  · exact (FailsFresh.pure _).bind hrun
  · exact (hfeed _).map.bind hrun

theorem startWith_fresh (hfeed : ∀ a, (feed a).FailsFresh) (call : ProgramCall) (withErrors : Bool) :
    (startWith feed call withErrors).FailsFresh := by
  refine (behaviour_fresh hfeed call).bind fun b => ?_
  split
  · exact .pure _
  · exact FailsFresh.bind (.modify _) fun _ => .pure _

theorem wakeWith_fresh (hfeed : ∀ a, (feed a).FailsFresh) (a : Addr) : (wakeWith feed a).FailsFresh := by
  refine .get fun w => ?_
  dsimp only
  split
  · exact (startWith_fresh hfeed _ _).bind fun _ => .modify _
  · exact .pure _

/-- Feeding a program never fails. -/
theorem feed_fresh (depth : Nat) (a : Addr) : (Job.feed depth a).FailsFresh := by
  cases depth with
  | zero => exact .pure _
  | succ depth =>
    exact FailsFresh.bind (.tryCatch fun _ => .pure ()) fun _ => .get fun _ => .pure _

theorem feeder_fresh (a : Addr) : (feeder a).FailsFresh := .get fun _ => feed_fresh _ a

theorem wake_fresh (a : Addr) : (wake a).FailsFresh := wakeWith_fresh feeder_fresh a

theorem pull_fresh (a : Addr) (index : Nat) : (pull a index).FailsFresh := by
  refine .get fun w => ?_
  split
  · exact .pure _
  · exact (wake_fresh a).bind fun _ => onStream_fresh a fun _ _ h => Stream.pull_fresh index h

theorem lines_fresh (a : Addr) : (lines a).FailsFresh :=
  (wake_fresh a).bind fun _ => onStream_fresh a fun _ _ h => Stream.drain_fresh h

/-- Asking whether a process has succeeded never fails. -/
theorem succeeded_fresh (a : Addr) : (succeeded a).FailsFresh := by
  intro w fault w' h
  rw [succeeded_eq] at h
  split at h
  · cases h
  · cases h

theorem run_fresh (call : ProgramCall) (flags : CallFlags) (root : Bool) : (run call flags root).FailsFresh := by
  unfold run
  dsimp only
  split
  · refine (behaviour_fresh feeder_fresh call).bind fun b => FailsFresh.bind (.modify _) fun _ => ?_
    split
    · exact .pure _
    · split
      · next hfailure => exact .fail (Stream.failure?_plain hfailure)
      · exact .pure _
  · split
    · exact (FailsFresh.modifyGet _).bind fun _ => .pure _
    · refine (startWith_fresh feeder_fresh call _).bind fun child => (FailsFresh.modifyGet _).bind fun a => ?_
      split
      · exact (lines_fresh a).bind fun _ => .pure _
      · exact .pure _

theorem pull_contained (a : Addr) (index : Nat) : (pull a index).Contained :=
  ⟨pull_preserves World.variables_apart a index, pull_fresh a index⟩

theorem lines_contained (a : Addr) : (lines a).Contained := ⟨lines_preserves World.variables_apart a, lines_fresh a⟩

theorem succeeded_contained (a : Addr) : (succeeded a).Contained :=
  ⟨succeeded_preserves World.variables_apart a, succeeded_fresh a⟩

theorem run_contained (call : ProgramCall) (flags : CallFlags) (root : Bool) : (run call flags root).Contained :=
  ⟨run_preserves World.variables_apart (fun _ _ => rfl) fun _ _ _ => rfl, run_fresh call flags root⟩

end Job

/-! ## Values -/

namespace Value

theorem truth_contained (v : Value) : v.truth.Contained := by
  refine .get fun w => ?_
  cases v with
  | stream a => exact Job.succeeded_contained a
  | _ => exact .pure _

theorem text_contained (v : Value) : v.text.Contained := by
  cases v with
  | stream a => exact (Job.lines_contained a).bind fun _ => .pure _
  | _ => exact .get fun _ => .pure _

theorem items_contained (v : Value) : v.items.Contained := by
  refine .get fun w => ?_
  cases v with
  | range r =>
    dsimp only
    split
    · exact .pure _
    · exact .fail rfl
  | stream a => exact (Job.lines_contained a).bind fun _ => .pure _
  | nil | boolean _ | integer _ | float _ | struct _ | function _ | error _ _ => exact .fail rfl
  | _ => exact .pure _

theorem convert?_contained (v : Value) (target : Kind) : (v.convert? target).Contained := by
  unfold convert?
  split
  · exact (text_contained _).bind fun _ => .pure _
  · exact (truth_contained _).bind fun _ => .pure _
  · exact .pure _
  · exact .pure _
  · exact .pure _
  · exact .pure _
  · exact .pure _
  · exact (text_contained _).bind fun _ => .pure _
  · exact (text_contained _).bind fun _ => .pure _
  all_goals first
    | exact (items_contained _).bind fun _ => (newList_contained _).bind fun _ => .pure _
    | exact (items_contained _).bind fun _ => .pure _
    | exact (items_contained _).bind fun _ => (Contained.ofExcept (keys_plain _)).bind fun _ =>
        (newSet_contained _).bind fun _ => .pure _
    | exact .get fun _ => (newDictionary_contained _).bind fun _ => .pure _
    | exact .pure _

theorem cast_contained (v : Value) (target : Kind) : (v.cast target).Contained := by
  unfold cast
  split
  · exact .pure v
  · refine (convert?_contained v target).bind fun r? => ?_
    cases r? with
    | some r => exact .pure r
    | none => exact .fail rfl

theorem Outcome.plain {V : View} {x : Except Cause Value} (h : Outcome V x) : Plainly x := by
  intro cause hcause
  rwa [hcause] at h

theorem mixedArithmetic_plain {V : View} {op : BinaryOp} (hop : op.isArithmetic) (a b : Value) :
    Plainly (mixedArithmetic op a b) := by
  unfold mixedArithmetic
  split
  · exact (floatArithmetic_outcome (V := V) hop _ _).plain
  · exact .error rfl

theorem arithmetic_contained {op : BinaryOp} (hop : op.isArithmetic) (a b : Value) : (arithmetic op a b).Contained := by
  let V : View := ⟨0, 0, 0, 0, #[], fun _ _ => False, fun _ => False⟩
  unfold arithmetic
  split
  · exact .ofExcept ((integerArithmetic_outcome (V := V) hop _ _).plain)
  · exact (text_contained _).bind fun _ => .pure _
  · exact (Contained.ofExcept (repeatCount_plain _ _)).bind fun _ => .pure _
  · exact .get fun _ => newList_contained _
  · exact .get fun _ => (Contained.ofExcept (repeatCount_plain _ _)).bind fun _ => newList_contained _
  · exact .pure _
  · exact .get fun _ => newSet_contained _
  · exact .get fun _ => newSet_contained _
  · exact .ofExcept (mixedArithmetic_plain (V := V) hop _ _)

theorem contains_contained (v needle : Value) : (v.contains needle).Contained := by
  refine .get fun w => ?_
  cases v with
  | list _ | tuple _ | set _ | dictionary _ | range _ => exact .pure _
  | string s =>
    cases needle with
    | string n => exact .pure _
    | _ => exact .fail rfl
  | stream a => exact (text_contained needle).bind fun _ => (Job.lines_contained a).bind fun _ => .pure _
  | _ => exact .fail rfl

theorem binary_contained (op : BinaryOp) (a b : Value) : (binary op a b).Contained := by
  cases op with
  | equal | notEqual => exact .get fun _ => .pure _
  | and =>
    refine (truth_contained a).bind fun t => .ite ?_ ?_
    · exact (truth_contained b).bind fun _ => .pure _
    · exact .pure _
  | or =>
    refine (truth_contained a).bind fun t => .ite ?_ ?_
    · exact .pure _
    · exact (truth_contained b).bind fun _ => .pure _
  | member => exact (contains_contained b a).bind fun _ => .pure _
  | less | greater => exact .get fun _ => (Contained.ofExcept (less_plain _ _ _ _)).bind fun _ => .pure _
  | lessEqual | greaterEqual =>
    refine .get fun w => .ite ?_ ?_
    · exact .pure _
    · exact (Contained.ofExcept (less_plain _ _ _ _)).bind fun _ => .pure _
  | add | subtract | multiply | divide | modulo | power => exact arithmetic_contained rfl a b

theorem unary_contained (op : UnaryOp) (v : Value) : (unary op v).Contained := by
  unfold unary
  split
  · exact (truth_contained v).bind fun _ => .pure _
  · split
    · exact .pure _
    · exact .fail rfl
  · exact .pure _
  · exact .fail rfl

theorem index_contained (v i : Value) : (v.index i).Contained := by
  refine .get fun w => ?_
  dsimp only
  split
  · exact (Contained.ofExcept (resolveIndex_plain _ _)).bind fun _ => .pure _
  · exact (Contained.ofExcept (slice_plain _ _)).bind fun _ => newList_contained _
  · exact (Contained.ofExcept (resolveIndex_plain _ _)).bind fun _ => .pure _
  · exact (Contained.ofExcept (slice_plain _ _)).bind fun _ => .pure _
  · exact (Contained.ofExcept (resolveIndex_plain _ _)).bind fun _ => .pure _
  · exact (Contained.ofExcept (slice_plain _ _)).bind fun _ => .pure _
  · exact (Contained.ofExcept (rangeItem_plain _ _)).bind fun _ => .pure _
  · exact (Contained.ofExcept (key_plain _)).bind fun _ => .pure _
  · split
    · exact .pure _
    · exact .fail rfl
  · exact (Job.lines_contained _).bind fun _ => (Contained.ofExcept (resolveIndex_plain _ _)).bind fun _ => .pure _
  all_goals exact .fail rfl

theorem store_contained (v i x : Value) : (v.store i x).Contained := by
  refine .get fun w => ?_
  split
  · exact (Contained.ofExcept (resolveIndex_plain _ _)).bind fun _ => .modify fun _ => rfl
  · exact (Contained.ofExcept (key_plain _)).bind fun _ => .modify fun _ => rfl
  · exact .ite (.modify fun _ => rfl) (.fail rfl)
  all_goals exact .fail rfl

theorem textAll_contained (vs : List Value) : (textAll vs).Contained := by
  induction vs with
  | nil => exact .pure _
  | cons v vs ih => exact (text_contained v).bind fun _ => ih.bind fun _ => .pure _

theorem length_contained (v : Value) : v.length.Contained := by
  unfold length
  split
  · exact .pure _
  · split
    · exact .pure _
    · exact .fail rfl
  · exact (items_contained _).bind fun _ => .pure _

theorem flatMapEffect_contained {f : Value → Effect (List String)} (hf : ∀ v, (f v).Contained) (vs : List Value) :
    (flatMapEffect f vs).Contained := by
  induction vs with
  | nil => exact .pure _
  | cons v vs ih => exact (hf v).bind fun _ => ih.bind fun _ => .pure _

mutual

theorem argumentsWith_contained {deep : Value → Effect (List String)} (hdeep : ∀ v, (deep v).Contained) :
    ∀ v : Value, (argumentsWith deep v).Contained
  | .list _ => .get fun _ => flatMapEffect_contained hdeep _
  | .tuple vs => argumentsAllWith_contained hdeep vs
  | .nil | .boolean _ | .integer _ | .float _ | .string _ | .dictionary _ | .set _ | .range _ | .struct _ | .function _
  | .error .. | .stream _ => (text_contained _).bind fun _ => .pure _

theorem argumentsAllWith_contained {deep : Value → Effect (List String)} (hdeep : ∀ v, (deep v).Contained) :
    ∀ vs : List Value, (argumentsAllWith deep vs).Contained
  | [] => .pure _
  | v :: vs =>
    (argumentsWith_contained hdeep v).bind fun _ => (argumentsAllWith_contained hdeep vs).bind fun _ => .pure _

end

theorem arguments_contained (v : Value) : v.arguments.Contained := by
  have hto (depth : Nat) : ∀ v, (argumentsTo depth v).Contained := by
    induction depth with
    | zero => exact argumentsWith_contained fun _ => .pure _
    | succ depth ih => exact argumentsWith_contained ih
  exact .get fun _ => hto _ v

theorem pipedInput_contained (v : Value) : v.pipedInput.Contained := by
  unfold pipedInput
  split
  · exact .pure _
  all_goals first
    | exact (items_contained _).bind fun _ => (textAll_contained _).bind fun _ => .pure _
    | exact (text_contained _).bind fun _ => .pure _

end Value

/-! ## The library, iteration and program calls -/

theorem LibraryFunction.coerce_contained (parameters : List (Option Kind)) (vs : List Value) :
    (coerce parameters vs).Contained := by
  induction parameters generalizing vs with
  | nil => exact .pure vs
  | cons k? ks ih =>
    cases vs with
    | nil => cases k? <;> exact .pure _
    | cons v vs =>
      cases k? with
      | none => exact (ih vs).bind fun _ => .pure _
      | some k => exact (v.cast_contained k).bind fun _ => (ih vs).bind fun _ => .pure _

theorem LibraryFunction.prepare_contained (f : LibraryFunction) (arguments : List Value) :
    (f.prepare arguments).Contained := by
  unfold prepare
  refine .check rfl fun _ => ?_
  cases f.packFrom? with
  | some start => exact (newList_contained _).bind fun _ => coerce_contained _ _
  | none => exact coerce_contained _ _

theorem Builtin.run_contained (b : Builtin) (arguments : List Value) : (b.run arguments).Contained := by
  cases b with
  | print =>
    exact (Value.items_contained _).bind fun _ => (Value.textAll_contained _).bind fun _ =>
      Contained.bind (.modify fun _ => rfl) fun _ => .pure _
  | length =>
    refine (Value.length_contained _).bind fun n => ?_
    cases Word.ofInt? n with
    | some k => exact .pure _
    | none => exact .fail rfl
  | kindName | text => exact .pure _
  | push =>
    unfold run
    dsimp only
    split
    · exact Contained.bind (.modify fun _ => rfl) fun _ => .pure _
    · exact .fail rfl
  | raise => exact (Value.text_contained _).bind fun _ => .fail rfl
  | collect => exact newList_contained _

/-- What code relies on when it calls the functions of a library. -/
class Host.Lawful (host : Host) : Prop where
  /-- On arguments that are alike a function does the same, in worlds that are alike, -/
  agrees : ∀ (f : LibraryFunction) {V : View} {us vs : List Value}, List.Forall₂ (Value.Alike V) us vs →
    Agrees V (Value.Alike V) (host.carryOut f us) (host.carryOut f vs)
  /-- and it has no hand in the variables of the code that calls it. -/
  contained : ∀ (f : LibraryFunction) (arguments : List Value), (host.carryOut f arguments).Contained

/-- The functions that are built in keep to this. -/
instance (limits : Limits) : Host.Lawful limits where
  agrees := fun f _ _ _ h => f.body.run_agrees h
  contained := fun f arguments => f.body.run_contained arguments

instance (host : Host) [h : host.Lawful] (limits : Limits) : (host.under limits).Lawful where
  agrees := h.agrees
  contained := h.contained

section

variable {host : Host} [host.Lawful] (f : LibraryFunction)

theorem LibraryFunction.callWith_agrees {V : View} {us vs : List Value} (h : List.Forall₂ (Value.Alike V) us vs) :
    Agrees V (Value.Alike V) (f.callWith host.carryOut us) (f.callWith host.carryOut vs) :=
  (f.prepare_agrees h).bind fun _ _ h => Host.Lawful.agrees f h

theorem LibraryFunction.callWith_contained (arguments : List Value) : (f.callWith host.carryOut arguments).Contained :=
  (f.prepare_contained arguments).bind fun _ => Host.Lawful.contained f _

end

namespace Iter

theorem ofValue_contained (v : Value) : (ofValue v).Contained := by
  unfold ofValue
  split
  · exact .pure _
  · exact .pure _
  · exact .pure _
  · exact .pure _
  all_goals first
    | exact (Value.items_contained _).bind fun _ => .pure _
    | exact .fail rfl

theorem next_contained (it : Iter) : it.next.Contained := by
  unfold next
  split
  · refine .get fun w => ?_
    split
    · exact .pure _
    · exact .pure _
  · exact .pure _
  · exact .pure _
  · exact .pure _
  · exact .pure _
  · exact .pure _
  · refine (Job.pull_contained _ _).bind fun line? => ?_
    cases line? with
    | some line => exact .pure _
    | none => exact .pure _

end Iter

namespace Act

theorem textPairs_contained : ∀ vs : List Value, (textPairs vs).Contained
  | [] | [_] => .pure _
  | k :: v :: rest =>
    k.text_contained.bind fun _ => v.text_contained.bind fun _ => (textPairs_contained rest).bind fun _ => .pure _

theorem programCall_contained (o : ProgramOperands) : (programCall o).Contained := by
  refine o.name.text_contained.bind fun name =>
    (Value.flatMapEffect_contained Value.arguments_contained _).bind fun arguments =>
      (textPairs_contained _).bind fun environment => ?_
  cases o.piped? with
  | none => exact .pure _
  | some v => exact v.pipedInput_contained.map.bind fun _ => .pure _

end Act

end ShellVM
