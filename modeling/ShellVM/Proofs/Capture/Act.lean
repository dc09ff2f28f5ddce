import ShellVM.Proofs.Capture.Hold
import ShellVM.Proofs.Contained

/-!
# Acts and cells

Of all instructions only those about variables in cells, regions, jumps and calls change what such variables depend
on: the calls, the handlers, the cells put aside, and the stores of cells and environments (`Machine.tracked`). One
that fails changes none of it.
-/

namespace ShellVM

variable {host : Host} {program : Program} {page : Page} {i : Instruction} {m s : Machine} {f : Frame}
  {rest : List Frame}

/-- What variables in cells depend on. -/
def Machine.tracked (m : Machine) : List Frame × List Handler × List Addr × Array Value × Array (List Addr) :=
  (m.frames, m.handlers, m.pending, m.world.variables)

namespace Act

/-- However the act ends, what variables in cells depend on is as it was. -/
def Spares {α : Type} (x : Act α) : Prop := Preserves Machine.tracked x

variable {α : Type}

theorem fail_spares (cause : Cause) : (fail cause : Act α).Spares := .throw _

theorem breach_spares (b : Breach) : (breach b : Act α).Spares := .throw _

theorem effect_spares {e : Effect α} (h : e.Contained) : (effect e).Spares := by
  intro m
  have hw := h.spares m.world
  unfold effect
  cases he : e m.world with
  | ok a w =>
    rw [he] at hw
    exact congrArg (fun v => (m.frames, m.handlers, m.pending, v)) (show w.variables = _ from hw)
  | error fault w =>
    rw [he] at hw
    exact congrArg (fun v => (m.frames, m.handlers, m.pending, v)) (show w.variables = _ from hw)

/-! ## The stack and variables -/

theorem tracked_offStack : OffStack Machine.tracked := fun _ _ => rfl

theorem push_spares (v : Value) : (push v).Spares := push_preserves tracked_offStack v

theorem pushAll_spares (vs : List Value) : (pushAll vs).Spares := .modify fun _ => rfl

theorem peek_spares : peek.Spares := by
  intro m
  unfold peek
  cases m.stack.back? <;> rfl

theorem pop_spares : pop.Spares := pop_preserves tracked_offStack

theorem popMany_spares (count : Nat) : (popMany count).Spares := popMany_preserves tracked_offStack count

theorem takeCallee_spares (count : Nat) : (takeCallee count).Spares := by
  intro m
  unfold takeCallee
  split <;> rfl

theorem frame_spares : frame.Spares := by
  intro m
  unfold frame
  cases m.frames <;> rfl

theorem root_spares (r : Rootness) : (root r).Spares := by
  cases r with
  | fixed b => exact .pure b
  | inherited => exact frame_spares.bind fun _ => .pure _

theorem load_spares (s : UInt8) : (load s).Spares := by
  intro m
  unfold load
  cases m.slot s <;> rfl

theorem store_spares (s : UInt8) : (store s).Spares := by
  intro m
  unfold store
  cases m.slot s with
  | ok place =>
    dsimp only
    cases m.stack.back? <;> rfl
  | error b => rfl

theorem constant_spares (program : Program) (page : Page) (key : UInt16) : (constant program page key).Spares :=
  constant_cases .pure (fun _ cause _ => fail_spares cause) fun b _ => breach_spares b

/-! ## Operations -/

theorem onValue_spares {f : Value → Effect Value} (hf : ∀ v, (f v).Contained) :
    Spares (do push (← effect (f (← pop)))) :=
  pop_spares.bind fun v => (effect_spares (hf v)).bind fun _ => push_spares _

theorem onValues_spares (count : Nat) {f : Array Value → Effect Value} (hf : ∀ vs, (f vs).Contained) :
    Spares (do push (← effect (f (← popMany count)))) :=
  (popMany_spares count).bind fun vs => (effect_spares (hf vs)).bind fun _ => push_spares _

theorem binary_spares (o : BinaryOp) : (binary o).Spares :=
  pop_spares.bind fun right => pop_spares.bind fun left =>
    (effect_spares (Value.binary_contained o left right)).bind fun _ => push_spares _

theorem unary_spares (o : UnaryOp) : (unary o).Spares := onValue_spares (Value.unary_contained o)

theorem cast_spares (tag : UInt8) : (cast tag).Spares := by
  unfold cast
  cases Kind.ofTag? tag with
  | none => exact breach_spares _
  | some kind => exact onValue_spares (Value.cast_contained · kind)

theorem index_spares : index.Spares :=
  pop_spares.bind fun i => pop_spares.bind fun target =>
    (effect_spares (target.index_contained i)).bind fun _ => push_spares _

theorem indexStore_spares : indexStore.Spares :=
  pop_spares.bind fun i => pop_spares.bind fun target => pop_spares.bind fun v =>
    (effect_spares (target.store_contained i v)).bind fun _ => push_spares v

theorem buildList_spares (count : Nat) : (buildList count).Spares := onValues_spares count Effect.newList_contained

theorem buildTuple_spares (count : Nat) : (buildTuple count).Spares :=
  (popMany_spares count).bind fun _ => push_spares _

theorem buildSet_spares (count : Nat) : (buildSet count).Spares :=
  onValues_spares count fun _ => (Effect.Contained.ofExcept (Value.keys_plain _)).bind fun _ =>
    Effect.newSet_contained _

theorem buildDictionary_spares (count : Nat) : (buildDictionary count).Spares :=
  onValues_spares (count * 2) fun _ =>
    (Effect.Contained.ofExcept (entries_plain _)).bind fun _ => Effect.newDictionary_contained _

theorem buildString_spares (count : Nat) : (buildString count).Spares :=
  onValues_spares count fun _ => (Value.textAll_contained _).bind fun _ => .pure _

theorem bound_spares : bound.Spares := by
  refine pop_spares.bind fun v => ?_
  cases v.asInteger? with
  | some n => exact .pure n
  | none => exact fail_spares _

theorem buildRange_spares (flags : UInt8) : (buildRange flags).Spares := by
  have hmaybe {f : Option Int64 → Act Unit} (flag : Bool) (hf : ∀ n?, (f n?).Spares) :
      Spares (if flag then (some <$> bound) >>= f else Pure.pure none >>= f) :=
    .ite (bound_spares.map.bind hf) ((Preserves.pure none).bind hf)
  exact hmaybe _ fun last? => hmaybe _ fun first? => push_spares _

theorem buildStruct_spares (page : Page) (key : UInt16) : (buildStruct page key).Spares := by
  unfold buildStruct
  cases page.constants.get? key with
  | none => exact breach_spares _
  | some c =>
    cases c with
    | shape name fields => exact onValues_spares fields.length fun _ => Effect.newRecord_contained _
    | _ => exact breach_spares _

theorem unpack_spares (count : Nat) : (unpack count).Spares := by
  refine pop_spares.bind fun v => (effect_spares v.items_contained).bind fun items => .ite ?_ (pushAll_spares items)
  exact (fail_spares (α := PUnit) _).bind fun _ => pushAll_spares items

theorem startIteration_spares : startIteration.Spares :=
  pop_spares.bind fun v => (effect_spares (Iter.ofValue_contained v)).bind fun _ => .modify fun _ => rfl

theorem endIteration_spares : endIteration.Spares := by
  refine .get fun m => ?_
  cases m.iterators with
  | nil => exact breach_spares _
  | cons it its => exact .modify fun _ => rfl

/-! ## Calls of other code -/

theorem callLibrary_spares [host.Lawful] (f : LibraryFunction) (count : Nat) : (callLibrary host f count).Spares :=
  onValues_spares count fun _ => f.callWith_contained _

theorem callStandard_spares [host.Lawful] (program : Program) (page : Page) (key : UInt16) (count : Nat) :
    (callStandard host program page key count).Spares :=
  callStandard_cases (fun _ f _ => callLibrary_spares f count) (fun _ cause _ => fail_spares cause) (breach_spares _)

theorem programOperands_spares (count pairs : Nat) (flags : CallFlags) : (programOperands count pairs flags).Spares :=
  programOperands_preserves tracked_offStack count pairs flags

theorem callProgram_spares (r : Rootness) (i : Instruction) : (callProgram r i).Spares :=
  (root_spares r).bind fun _ => (programOperands_spares _ _ _).bind fun operands =>
    (effect_spares ((programCall_contained operands).bind fun _ => Job.run_contained _ _ _)).bind fun _ => push_spares _

end Act

end ShellVM
