import ShellVM.Proofs.Contained
import ShellVM.Proofs.Window.Advance

/-!
# What acts do to the stack

Most acts swap some values on top of the stack for others (`Act.Swaps`): what lies below stays, and so do the calls, the
handlers, the iterators and the count of steps. An act that fails has put nothing on the stack; its fault has no trace
yet, and is a lack of operands only where fewer values lie there than it takes. This is so for all programs, also for
those that no compiler has made, and for an instruction the values are as many as its effect says
(`Act.perform_swaps`).
-/

namespace ShellVM

variable {host : Host} {program : Program} {page : Page} {i : Instruction} {m s t : Machine}

/-- Which call a frame belongs to: what instructions do not change in it. -/
def Frame.call (f : Frame) : Frame := { f with ip := 0, cells := [] }

/-- The active calls, innermost first. -/
def Machine.calls (m : Machine) : List Frame := m.frames.map Frame.call

@[simp] theorem Machine.length_calls (m : Machine) : m.calls.length = m.frames.length := List.length_map ..

/-- The machine `m` has become `s`, with the same calls, handlers, iterators and count of steps. -/
structure Still (m s : Machine) : Prop where
  calls : s.calls = m.calls
  handlers : s.handlers = m.handlers
  iterators : s.iterators = m.iterators
  steps : s.steps = m.steps

namespace Still

theorem refl (m : Machine) : Still m m := ⟨rfl, rfl, rfl, rfl⟩

theorem trans (h : Still m s) (h' : Still s t) : Still m t :=
  ⟨h'.calls.trans h.calls, h'.handlers.trans h.handlers, h'.iterators.trans h.iterators, h'.steps.trans h.steps⟩

theorem depth (h : Still m s) : s.frames.length = m.frames.length := by
  rw [← Machine.length_calls, h.calls, Machine.length_calls]

end Still

/-- In place of `taken` values on top of the stack lie `left` others. -/
structure Swapped (taken left : Nat) (m s : Machine) : Prop extends Still m s where
  size : s.stack.size + taken = m.stack.size + left
  below : ∀ k, k < m.stack.size - taken → s.stack[k]? = m.stack[k]?

/-- An act that takes `taken` values has failed. -/
structure Dropped (taken : Nat) (m : Machine) (fault : Fault) (s : Machine) : Prop extends Still m s where
  trace : fault.trace = []
  cause : taken ≤ m.stack.size → fault.cause ≠ .internal .stackUnderflow
  le : s.stack.size ≤ m.stack.size
  size : m.stack.size ≤ s.stack.size + taken
  below : ∀ k, k < m.stack.size - taken → s.stack[k]? = m.stack[k]?

namespace Swapped

variable {a b c : Nat}

theorem refl (m : Machine) : Swapped 0 0 m m := ⟨.refl m, rfl, fun _ _ => rfl⟩

theorem of_still (h : Still m s) (hstack : s.stack = m.stack) : Swapped 0 0 m s :=
  ⟨h, by rw [hstack], fun _ _ => by rw [hstack]⟩

theorem trans (h : Swapped a 0 m s) (h' : Swapped c b s t) : Swapped (a + c) b m t where
  toStill := h.toStill.trans h'.toStill
  size := by
    have := h.size
    have := h'.size
    omega
  below := fun k hk => by
    have := h.size
    exact (h'.below k (by omega)).trans (h.below k (by omega))

end Swapped

namespace Dropped

variable {a c : Nat} {fault : Fault}

theorem refl (a : Nat) (m : Machine) (h : fault.Fresh) : Dropped a m fault m :=
  ⟨.refl m, h.trace, fun _ => h.cause, Nat.le_refl _, Nat.le_add_right .., fun _ _ => rfl⟩

theorem mono (h : Dropped a m fault s) (hc : a ≤ c) : Dropped c m fault s where
  toStill := h.toStill
  trace := h.trace
  cause := fun hm => h.cause (Nat.le_trans hc hm)
  le := h.le
  size := by
    have := h.size
    omega
  below := fun k hk => h.below k (by omega)

theorem after (h : Swapped a 0 m s) (h' : Dropped c s fault t) : Dropped (a + c) m fault t where
  toStill := h.toStill.trans h'.toStill
  trace := h'.trace
  cause := fun hm => h'.cause (by have := h.size; omega)
  le := by
    have := h.size
    have := h'.le
    omega
  size := by
    have := h.size
    have := h'.size
    omega
  below := fun k hk => by
    have := h.size
    exact (h'.below k (by omega)).trans (h.below k (by omega))

/-- Where the stack was too short. -/
theorem short (m : Machine) {taken : Nat} (h : m.stack.size < taken) : Dropped taken m (.ofBreach .stackUnderflow) m :=
  ⟨.refl m, rfl, fun hm => absurd hm (Nat.not_le.2 h), Nat.le_refl _, Nat.le_add_right .., fun _ _ => rfl⟩

end Dropped

namespace Act

/-- The act swaps so many values on top of the stack for so many others. -/
def Swaps {α : Type} (taken left : Nat) (x : Act α) : Prop := ∀ m,
  match x m with
  | .ok _ s => Swapped taken left m s
  | .error fault s => Dropped taken m fault s

namespace Swaps

variable {α β : Type} {a b c n : Nat} {x y : Act α} {f : α → Act β}

theorem pure (v : α) : Swaps 0 0 (Pure.pure v : Act α) := fun m => .refl m

theorem throw (a b : Nat) {fault : Fault} (h : fault.Fresh) : Swaps a b (throw fault : Act α) := fun m => .refl a m h

theorem fail (a b : Nat) {cause : Cause} (h : cause ≠ .internal .stackUnderflow) : Swaps a b (Act.fail cause : Act α) :=
  throw a b ⟨rfl, h⟩

theorem breach (a b : Nat) {why : Breach} (h : why ≠ .stackUnderflow) : Swaps a b (Act.breach why : Act α) := by
  refine throw a b ⟨rfl, ?_⟩
  rintro ⟨⟩
  exact h rfl

/-- Values are taken first. -/
theorem bind (h : Swaps a 0 x) (h' : ∀ v, Swaps c b (f v)) : Swaps (a + c) b (x >>= f) := by
  intro m
  have hx := h m
  cases hxm : x m with
  | ok v s =>
    rw [hxm] at hx
    have hf := h' v s
    rw [bind_run_ok hxm]
    cases hfs : f v s with
    | ok w t =>
      rw [hfs] at hf
      exact hx.trans hf
    | error fault t =>
      rw [hfs] at hf
      exact .after hx hf
  | error fault s =>
    rw [hxm] at hx
    rw [bind_run_error hxm]
    exact hx.mono (Nat.le_add_right ..)

/-- Nothing is taken first. -/
theorem after (h : Swaps 0 0 x) (h' : ∀ v, Swaps a b (f v)) : Swaps a b (x >>= f) := by
  have := h.bind h'
  rwa [Nat.zero_add] at this

/-- The values on top may count as taken and left again. -/
theorem beside (h : Swaps a b x) (n : Nat) : Swaps (a + n) (b + n) x := by
  intro m
  have hx := h m
  cases hxm : x m with
  | ok v s =>
    rw [hxm] at hx
    refine { hx with size := ?_, below := fun k hk => hx.below k (by omega) }
    have := hx.size
    omega
  | error fault s =>
    rw [hxm] at hx
    exact hx.mono (Nat.le_add_right ..)

theorem map {g : α → β} (h : Swaps a 0 x) : Swaps a 0 (g <$> x) := by
  rw [map_eq_pure_bind]
  exact h.bind fun v => pure (g v)

theorem get {f : Machine → Act β} (h : ∀ m, Swaps a b (f m)) : Swaps a b (get >>= f) := fun m => h m m

theorem ite {p : Prop} [Decidable p] (hx : Swaps a b x) (hy : Swaps a b y) : Swaps a b (if p then x else y) := by
  split
  · exact hx
  · exact hy

theorem effect {e : Effect α} (he : e.FailsFresh) : Swaps 0 0 (Act.effect e) := by
  intro m
  unfold Act.effect
  cases hw : e m.world with
  | ok v w => exact .of_still ⟨rfl, rfl, rfl, rfl⟩ rfl
  | error fault w =>
    have hfresh := he _ _ _ hw
    exact { Dropped.refl 0 m hfresh with }

/-- A change that is none of the calls, handlers, iterators, steps and values. -/
theorem change {g : Machine → Machine} (hstill : ∀ m, Still m (g m)) (hstack : ∀ m, (g m).stack = m.stack) :
    Swaps 0 0 (modify g : Act Unit) := fun m => .of_still (hstill m) (hstack m)

/-! ## The stack -/

theorem push (v : Value) : Swaps 0 1 (Act.push v) := by
  intro m
  refine ⟨⟨rfl, rfl, rfl, rfl⟩, Array.size_push .., fun k hk => ?_⟩
  show (m.stack.push v)[k]? = _
  rw [Array.getElem?_push_lt (by omega), Array.getElem?_eq_getElem (by omega)]

theorem pushAll (vs : List Value) : Swaps 0 vs.length (Act.pushAll vs) := by
  intro m
  have hpush : vs.foldl Array.push m.stack = m.stack ++ vs.toArray := by simp
  refine ⟨⟨rfl, rfl, rfl, rfl⟩, ?_, fun k hk => ?_⟩
  · show (vs.foldl Array.push m.stack).size + 0 = _
    rw [hpush, Array.size_append]
    rfl
  · show (vs.foldl Array.push m.stack)[k]? = _
    rw [hpush, Array.getElem?_append_left (by omega)]

theorem pop : Swaps 1 0 Act.pop := by
  intro m
  unfold Act.pop
  cases hback : m.stack.back? with
  | some v =>
    have hpos : 0 < m.stack.size := by
      rw [Array.back?_eq_getElem?] at hback
      have := (Array.getElem?_eq_some_iff.1 hback).1
      omega
    refine ⟨⟨rfl, rfl, rfl, rfl⟩, ?_, fun k hk => ?_⟩
    · show m.stack.pop.size + 1 = m.stack.size + 0
      rw [Array.size_pop]
      omega
    · show m.stack.pop[k]? = _
      rw [Array.getElem?_pop, if_pos (by omega)]
  | none =>
    rw [Array.back?_eq_getElem?, Array.getElem?_eq_none_iff] at hback
    exact .short m (by omega)

theorem popMany (count : Nat) : Swaps count 0 (Act.popMany count) := by
  intro m
  have hrun : Act.popMany count m = if m.stack.size < count then .error (.ofBreach .stackUnderflow) m else
      .ok (m.stack.extract (m.stack.size - count) m.stack.size)
          { m with stack := m.stack.shrink (m.stack.size - count) } :=
    rfl
  by_cases h : m.stack.size < count
  · rw [hrun, if_pos h]
    exact .short m h
  · rw [hrun, if_neg h]
    refine ⟨⟨rfl, rfl, rfl, rfl⟩, ?_, fun k hk => ?_⟩
    · show (m.stack.shrink (m.stack.size - count)).size + count = m.stack.size + 0
      rw [Array.size_shrink]
      omega
    · show (m.stack.shrink (m.stack.size - count))[k]? = _
      rw [← Array.getElem?_toList, ← Array.getElem?_toList, Array.toList_shrink, List.getElem?_take_of_lt (by omega)]

/-- The callee is taken out from under its arguments. -/
theorem takeCallee (count : Nat) : Swaps (count + 1) count (Act.takeCallee count) := by
  intro m
  unfold Act.takeCallee
  by_cases h : count < m.stack.size
  · rw [dif_pos h]
    refine ⟨⟨rfl, rfl, rfl, rfl⟩, ?_, fun k hk => ?_⟩
    · show (m.stack.eraseIdx (m.stack.size - (count + 1)) _).size + (count + 1) = m.stack.size + count
      rw [Array.size_eraseIdx]
      omega
    · show (m.stack.eraseIdx (m.stack.size - (count + 1)) _)[k]? = _
      rw [Array.getElem?_eraseIdx, if_pos (by omega)]
  · rw [dif_neg h]
    exact .short m (by omega)

/-- A value that is looked at may count as taken and left again. -/
theorem peeking {f : Value → Act β} (h : ∀ v, Swaps 0 b (f v)) : Swaps 1 (b + 1) (Act.peek >>= f) := by
  intro m
  cases hback : m.stack.back? with
  | none =>
    have hpeek : Act.peek m = .error (.ofBreach .stackUnderflow) m := by
      unfold Act.peek
      rw [hback]
    rw [bind_run_error hpeek]
    rw [Array.back?_eq_getElem?, Array.getElem?_eq_none_iff] at hback
    exact .short m (by omega)
  | some v =>
    have hpeek : Act.peek m = .ok v m := by
      unfold Act.peek
      rw [hback]
    rw [bind_run_ok hpeek]
    have hf : Swaps (0 + 1) (b + 1) (f v) := (h v).beside 1
    exact hf m

/-! ## Frames and variables -/

theorem noFrame (m : Machine) : Dropped 0 m (.ofBreach .noFrame) m := .refl 0 m ⟨rfl, nofun⟩

theorem frame : Swaps 0 0 Act.frame := by
  intro m
  unfold Act.frame
  cases m.frames with
  | nil => exact noFrame m
  | cons f rest => exact .refl m

theorem modifyFrame {g : Frame → Frame} (hg : ∀ f, (g f).call = f.call) : Swaps 0 0 (Act.modifyFrame g) := by
  intro m
  unfold Act.modifyFrame
  cases hframes : m.frames with
  | nil => exact noFrame m
  | cons f rest =>
    refine .of_still ⟨?_, rfl, rfl, rfl⟩ rfl
    unfold Machine.calls
    rw [hframes, List.map_cons, List.map_cons, hg]

theorem jump (t : Nat) : Swaps 0 0 (Act.jump t) := modifyFrame fun _ => rfl

theorem jumpTo (i : Instruction) : Swaps 0 0 (Act.jumpTo i) := by
  unfold Act.jumpTo
  cases i.target? with
  | some t => exact jump t
  | none => exact breach 0 0 nofun

theorem root (r : Rootness) : Swaps 0 0 (Act.root r) := by
  cases r with
  | fixed b => exact pure b
  | inherited => exact frame.bind fun f => pure f.isRoot

/-- A place of a local is there, or it is not for want of operands that it is not. -/
theorem slot_cause {u : UInt8} {why : Breach} (h : m.slot u = .error why) : why ≠ .stackUnderflow := by
  unfold Machine.slot at h
  split at h
  · cases h
    nofun
  · split at h
    · cases h
    · cases h
      nofun

theorem load (u : UInt8) : Swaps 0 0 (Act.load u) := by
  intro m
  unfold Act.load
  cases hslot : m.slot u with
  | ok i => exact .refl m
  | error why => exact (breach 0 0 (slot_cause hslot) : Swaps 0 0 (Act.breach why : Act Value)) m

theorem capture (u : UInt8) : Swaps 0 0 (Act.capture u) := by
  refine frame.after fun f => ?_
  cases f.environment? with
  | none => exact breach 0 0 nofun
  | some e =>
    refine get fun m => ?_
    cases (m.world.environment e)[u.toNat]? with
    | some a => exact pure a
    | none => exact breach 0 0 nofun

theorem cell (u : UInt8) : Swaps 0 0 (Act.cell u) := by
  refine frame.after fun f => ?_
  cases f.cell? u with
  | some a => exact pure a
  | none => exact breach 0 0 nofun

theorem readCell (a : Addr) : Swaps 0 0 (Act.readCell a) := get fun m => pure (m.world.cell a)

theorem writeCell (a : Addr) (v : Value) : Swaps 0 0 (Act.writeCell a v) := effect (.modify _)

theorem makeCell (u : UInt8) : Swaps 0 0 (Act.makeCell u) :=
  (load u).after fun _ => (effect (.modifyGet _)).after fun _ => modifyFrame fun _ => rfl

theorem await (a : Addr) : Swaps 0 0 (Act.await a) := change (fun _ => ⟨rfl, rfl, rfl, rfl⟩) fun _ => rfl

/-- The value of a cell is pushed. -/
theorem readOnto {x : Act Addr} (h : Swaps 0 0 x) : Swaps 0 1 (do Act.push (← Act.readCell (← x))) :=
  h.after fun a => (readCell a).after fun v => push v

/-- The value on top is written to a cell. -/
theorem writeFrom {x : Act Addr} (h : Swaps 0 0 x) : Swaps 1 1 (do let v ← Act.peek; Act.writeCell (← x) v) :=
  peeking fun v => h.after fun a => writeCell a v

theorem libraryFunction_cause {index : UInt16} {cause : Cause} (h : program.libraryFunction index = .error cause) :
    cause ≠ .internal .stackUnderflow := by
  unfold Program.libraryFunction at h
  split at h
  · cases h
    nofun
  · cases h
    nofun
  · cases h

theorem constant (program : Program) (page : Page) (key : UInt16) : Swaps 0 0 (Act.constant program page key) :=
  constant_cases pure (fun _ _ hf => fail 0 0 (libraryFunction_cause hf)) fun _ hb => breach 0 0 hb

theorem makeClosure (page : Page) (key : UInt16) (count : Nat) : Swaps 0 1 (Act.makeClosure page key count) := by
  unfold Act.makeClosure
  have hbreach : Swaps 0 1 (Act.breach .closureWithoutPage : Act Unit) := breach 0 1 nofun
  cases page.constants.get? key with
  | none => exact hbreach
  | some c =>
    cases c with
    | page index =>
      have htake (rest cells : List Addr) : Swaps 0 1 (do
          modify fun m => { m with pending := rest }
          Act.push (.function (.closure index (← Act.effect (Effect.newEnvironment cells)))) : Act Unit) :=
        (change (g := fun m => { m with pending := rest }) (fun _ => ⟨rfl, rfl, rfl, rfl⟩) fun _ => rfl).after fun _ =>
          (effect (.modifyGet _)).after fun _ => push _
      have hnone : Swaps 0 0 (Act.breach .closureWithoutCaptures : Act PUnit) := breach 0 0 nofun
      exact get fun m => ite (hnone.after fun _ => htake _ _) (htake _ _)
    | _ => exact hbreach

/-! ## Operations -/

theorem onValue {f : Value → Effect Value} (hf : ∀ v, (f v).Contained) :
    Swaps 1 1 (do Act.push (← Act.effect (f (← Act.pop)))) :=
  pop.bind fun v => (effect (hf v).fresh).bind fun u => push u

theorem onValues (count : Nat) {f : Array Value → Effect Value} (hf : ∀ vs, (f vs).Contained) :
    Swaps count 1 (do Act.push (← Act.effect (f (← Act.popMany count)))) :=
  (popMany count).bind fun vs => (effect (hf vs).fresh).bind fun u => push u

/-- Two values are taken. -/
theorem onTwo {f : Value → Value → Effect Value} (hf : ∀ u v, (f u v).Contained) :
    Swaps 2 1 (do
      let u ← Act.pop
      let v ← Act.pop
      Act.push (← Act.effect (f u v))) :=
  pop.bind fun u => pop.bind fun v => (effect (hf u v).fresh).bind fun w => push w

theorem binary (o : BinaryOp) : Swaps 2 1 (Act.binary o) := onTwo fun u v => Value.binary_contained o v u

theorem unary (o : UnaryOp) : Swaps 1 1 (Act.unary o) := onValue (Value.unary_contained o)

theorem cast (tag : UInt8) : Swaps 1 1 (Act.cast tag) := by
  unfold Act.cast
  cases Kind.ofTag? tag with
  | none => exact breach 1 1 nofun
  | some kind => exact onValue fun v => v.cast_contained kind

theorem index : Swaps 2 1 Act.index := onTwo fun u v => v.index_contained u

theorem indexStore : Swaps 3 1 Act.indexStore :=
  pop.bind fun i => pop.bind fun target => pop.bind fun v =>
    (effect (target.store_contained i v).fresh).bind fun _ => push v

theorem buildList (count : Nat) : Swaps count 1 (Act.buildList count) := onValues count Effect.newList_contained

theorem buildTuple (count : Nat) : Swaps count 1 (Act.buildTuple count) := (popMany count).bind fun _ => push _

theorem buildSet (count : Nat) : Swaps count 1 (Act.buildSet count) :=
  onValues count fun _ => (Effect.Contained.ofExcept (Value.keys_plain _)).bind fun _ => Effect.newSet_contained _

theorem buildDictionary (count : Nat) : Swaps (count * 2) 1 (Act.buildDictionary count) :=
  onValues (count * 2) fun _ => (Effect.Contained.ofExcept (entries_plain _)).bind fun _ =>
    Effect.newDictionary_contained _

theorem buildString (count : Nat) : Swaps count 1 (Act.buildString count) :=
  onValues count fun _ => (Value.textAll_contained _).bind fun _ => .pure _

theorem bound : Swaps 1 0 Act.bound := by
  refine pop.bind (c := 0) fun v => ?_
  cases v.asInteger? with
  | some k => exact pure k
  | none => exact fail 0 0 nofun

/-- A value that is taken only if there is one. -/
theorem maybe {f : Option α → Act β} (flag : Bool) (h : Swaps 1 0 x) (h' : ∀ v?, Swaps a b (f v?)) :
    Swaps (flag.toNat + a) b (if flag then (some <$> x) >>= f else Pure.pure none >>= f) := by
  cases flag with
  | true => exact h.map.bind h'
  | false => exact (pure none).bind h'

theorem buildRange (flags : UInt8) : Swaps ((flags &&& RangeFlag.hasLast != 0).toNat +
    ((flags &&& RangeFlag.hasFirst != 0).toNat + 0)) 1 (Act.buildRange flags) :=
  maybe _ bound fun _ => maybe _ bound fun _ => push _

theorem buildStruct {key : UInt16} {name : String} {fields : List String}
    (h : page.constants.get? key = some (.shape name fields)) : Swaps fields.length 1 (Act.buildStruct page key) := by
  unfold Act.buildStruct
  rw [h]
  exact onValues fields.length fun _ => Effect.newRecord_contained _

theorem unpack (count : Nat) : Swaps 1 count (Act.unpack count) := by
  refine pop.bind (c := 0) fun v => (effect v.items_contained.fresh).after fun items => ?_
  by_cases h : items.length = count
  · rw [if_neg (Decidable.not_not.2 h)]
    exact h ▸ pushAll items
  · rw [if_pos h]
    exact (fail 0 count nofun : Swaps 0 count (Act.fail (.unpack count items.length) : Act Unit))

/-! ## Calls and jumps -/

theorem callLibrary [host.Lawful] (f : LibraryFunction) (count : Nat) : Swaps count 1 (Act.callLibrary host f count) :=
  onValues count fun _ => f.callWith_contained _

theorem callStandard [host.Lawful] (program : Program) (page : Page) (key : UInt16) (count : Nat) :
    Swaps count 1 (Act.callStandard host program page key count) :=
  callStandard_cases (fun _ f _ => callLibrary f count) (fun _ _ hf => fail count 1 (libraryFunction_cause hf))
    (breach count 1 nofun)

theorem programOperands (count pairs : Nat) (flags : CallFlags) :
    Swaps (pairs * 2 + ((flags.contains .piped).toNat + (count + 1))) 0 (Act.programOperands count pairs flags) :=
  (popMany (pairs * 2)).bind fun _ => maybe _ pop fun _ => (popMany count).bind fun _ => pop.bind fun _ => pure _

theorem callProgram (r : Rootness) (i : Instruction) : Swaps
    ((i.byte 3).toNat * 2 + ((CallFlags.contains ⟨i.word 1⟩ .piped).toNat + ((i.byte 0).toNat + 1))) 1
    (Act.callProgram r i) := by
  refine (root r).after fun isRoot => (programOperands _ _ _).bind (c := 0) fun o => ?_
  have hrun : (do Job.run (← programCall o) ⟨i.word 1⟩ isRoot : Effect Value).Contained :=
    (programCall_contained o).bind fun call => Job.run_contained call _ isRoot
  exact (effect hrun.fresh).bind fun v => push v

theorem jumpIf (b : Bool) (v : Value) (i : Instruction) : Swaps 0 0 (Act.jumpIf b v i) :=
  (effect v.truth_contained.fresh).bind fun _ => ite (jumpTo i) (pure _)

end Swaps

end Act

/-! ## Instructions -/

/-- The instruction does nothing but swap values on the stack. The others assign to locals, only look at the stack, or
have to do with iterators, handlers and calls. -/
def Op.swaps : Op → Bool
  | store | jumpIf | jumpIfNot | getIter | forIter | endFor | call | rootCall | maybeRootCall | enterTry | endTry =>
    false
  | _ => true

/-- Where an instruction says what its effect is, that is so on every sheet. -/
theorem Sheet.effect?_of_stackEffect? {S : Sheet} {effect : Nat × Nat}
    (h : i.op.stackEffect? i.operands = some effect) : S.effect? i = some effect := by
  unfold Sheet.effect?
  split
  · next hop => rw [hop] at h; cases h
  · next hop => rw [hop] at h; cases h
  · exact h

/-- The instruction swaps as many values as its effect says, wherever that is known, and leaves a byte's worth at
most. -/
structure Instruction.Swaps (page : Page) (i : Instruction) (taken left : Nat) (x : Act Unit) : Prop where
  swaps : x.Swaps taken left
  le : left ≤ taken + 254
  effect : ∀ S : Sheet, S.page = page → ∀ pops pushes, S.effect? i = some (pops, pushes) → pops = taken ∧ pushes = left

namespace Act

/-- What an instruction of any page swaps. -/
theorem perform_swaps (host : Host) [host.Lawful] (program : Program) (page : Page) (hop : i.op.swaps = true) :
    ∃ taken left, i.Swaps page taken left (perform host program page i) := by
  obtain ⟨p, op, operands⟩ := i
  have hplain {x : Act Unit} {taken left : Nat} (h : Swaps taken left x) (hle : left ≤ taken + 254)
      (heffect : ∀ S : Sheet, ∀ pops pushes, S.effect? ⟨p, op, operands⟩ = some (pops, pushes) →
        pops = taken ∧ pushes = left) :
      ∃ taken left, Instruction.Swaps page ⟨p, op, operands⟩ taken left x :=
    ⟨taken, left, h, hle, fun S _ => heffect S⟩
  have hfixed {x : Act Unit} {taken left : Nat} (h : Swaps taken left x) (hle : left ≤ taken + 254)
      (heffect : ∀ S : Sheet, S.effect? ⟨p, op, operands⟩ = some (taken, left)) :
      ∃ taken left, Instruction.Swaps page ⟨p, op, operands⟩ taken left x :=
    hplain h hle fun S _ _ h => by
      cases (heffect S).symm.trans h
      exact ⟨rfl, rfl⟩
  have hdrop {α : Type} {x : Act α} {taken : Nat} (h : Swaps taken 0 x) : Swaps taken 0 (do let _ ← x; pure ()) :=
    h.bind fun _ => .pure ()
  cases op with
  | nop => exact hfixed (.pure ()) (by omega) fun _ => rfl
  | pop => exact hfixed (hdrop .pop) (by omega) fun _ => rfl
  | popN => exact hplain (hdrop (.popMany _)) (by omega) fun _ _ _ h => by cases of_byte? h; exact ⟨rfl, rfl⟩
  | unwind =>
    exact hplain (Swaps.pop.bind fun v => (Swaps.popMany _).bind fun _ => .push v) (by omega) fun _ _ _ h => by
      cases of_byte? h
      exact ⟨Nat.add_comm .., rfl⟩
  | const =>
    exact hfixed ((Swaps.constant program page _).after fun v => .push v) (by omega) fun _ => rfl
  | load => exact hfixed ((Swaps.load _).after fun v => .push v) (by omega) fun _ => rfl
  | loadCapture => exact hfixed (Swaps.capture _).readOnto (by omega) fun _ => rfl
  | storeCapture => exact hfixed (Swaps.capture _).writeFrom (by omega) fun _ => rfl
  | makeCell => exact hfixed (.makeCell _) (by omega) fun _ => rfl
  | loadCell => exact hfixed (Swaps.cell _).readOnto (by omega) fun _ => rfl
  | storeCell => exact hfixed (Swaps.cell _).writeFrom (by omega) fun _ => rfl
  | captureLocal =>
    exact hfixed ((Swaps.cell _).after fun a => .await a) (by omega) fun _ => rfl
  | captureOuter =>
    exact hfixed ((Swaps.capture _).after fun a => .await a) (by omega) fun _ => rfl
  | index => exact hfixed .index (by omega) fun _ => rfl
  | indexStore => exact hfixed .indexStore (by omega) fun _ => rfl
  | add | sub | mul | div | mod | pow | equal | notEqual | less | lessEqual | greater | greaterEqual
  | and | or | contains =>
    exact hfixed (.binary _) (by omega) fun _ => rfl
  | negate | not => exact hfixed (.unary _) (by omega) fun _ => rfl
  | cast => exact hfixed (.cast _) (by omega) fun _ => rfl
  | buildList => exact hplain (.buildList _) (by omega) fun _ _ _ h => by cases of_word? h; exact ⟨rfl, rfl⟩
  | buildTuple => exact hplain (.buildTuple _) (by omega) fun _ _ _ h => by cases of_word? h; exact ⟨rfl, rfl⟩
  | buildDict => exact hplain (.buildDictionary _) (by omega) fun _ _ _ h => by cases of_word? h; exact ⟨rfl, rfl⟩
  | buildSet => exact hplain (.buildSet _) (by omega) fun _ _ _ h => by cases of_word? h; exact ⟨rfl, rfl⟩
  | buildRange => exact hplain (.buildRange _) (by omega) fun _ _ _ h => by cases buildRange_effect h; exact ⟨rfl, rfl⟩
  | buildString => exact hplain (.buildString _) (by omega) fun _ _ _ h => by cases of_word? h; exact ⟨rfl, rfl⟩
  | buildStruct =>
    show ∃ taken left, Instruction.Swaps page _ taken left (buildStruct page _)
    cases hkey : page.constants.get? ((Instruction.mk p .buildStruct operands).word 0) with
    | none =>
      unfold buildStruct
      rw [hkey]
      refine ⟨0, 0, .breach 0 0 nofun, by omega, fun S hS pops pushes h => ?_⟩
      simp only [Sheet.effect?, hS, hkey] at h
      cases h
    | some c =>
      cases c with
      | shape name fields =>
        refine ⟨fields.length, 1, .buildStruct hkey, by omega, fun S hS pops pushes h => ?_⟩
        simp only [Sheet.effect?, hS, hkey, Option.some.injEq, Prod.mk.injEq] at h
        exact ⟨h.1.symm, h.2.symm⟩
      | _ =>
        unfold buildStruct
        rw [hkey]
        refine ⟨0, 0, .breach 0 0 nofun, by omega, fun S hS pops pushes h => ?_⟩
        simp only [Sheet.effect?, hS, hkey] at h
        cases h
  | unpack =>
    have hcount := ((Instruction.mk p .unpack operands).byte 0).toNat_lt
    exact hplain (.unpack _) (by omega) fun _ _ _ h => by cases of_byte? h; exact ⟨rfl, rfl⟩
  | makeClosure => exact hfixed (.makeClosure page _ _) (by omega) fun _ => rfl
  | jump => exact hfixed (.jumpTo ⟨p, .jump, operands⟩) (by omega) fun _ => rfl
  | jumpBackward =>
    exact hfixed (.jumpTo ⟨p, .jumpBackward, operands⟩) (by omega) fun _ => rfl
  | popJumpIf | popJumpIfNot =>
    exact hfixed (Swaps.pop.bind fun v => .jumpIf _ v _) (by omega) fun _ => rfl
  | callStd =>
    exact hplain (.callStandard program page _ _) (by omega) fun _ _ _ h => by cases of_byte? h; exact ⟨rfl, rfl⟩
  | callProgram | rootCallProgram | maybeRootCallProgram =>
    exact hplain (.callProgram _ _) (by omega) fun _ _ _ h => by cases callProgram_effect h; exact ⟨rfl, rfl⟩
  | ret => exact hfixed (.jump _) (by omega) fun _ => rfl
  | _ => cases hop

end Act

end ShellVM
