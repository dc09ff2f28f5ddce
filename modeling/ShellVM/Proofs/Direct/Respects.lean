import ShellVM.Proofs.Region.Performs
import ShellVM.Proofs.Safety

/-!
# Machines that respect a view

The values in a machine respect a view if each is alike to itself: their functions can be called, and what they refer to
was made by the machine. Nothing is asked of the code: every act keeps that, whether it fails or not (`Act.Keeps`),
and a new closure brings a view that knows its environment (`Act.perform_known`).
-/

namespace ShellVM

/-- What a frame refers to. -/
structure Frame.Respects (V : View) (f : Frame) : Prop where
  environment : ∀ e, f.environment? = some e → ∃ known, V.environments[e]? = some known ∧ ∀ a ∈ known, V.cells ≤ a
  cells : ∀ c ∈ f.cells, V.cells ≤ c.2

structure Machine.Respects (V : View) (m : Machine) : Prop where
  stack : ItemsAlike V m.stack m.stack
  frames : ∀ f ∈ m.frames, f.Respects V
  iterators : ∀ it ∈ m.iterators, it.Alike V it
  pending : ∀ a ∈ m.pending, V.cells ≤ a
  world : m.world.Alike V m.world

/-- The functions that values may be: those with these pages, and these library functions. -/
structure Kinds where
  pages : UInt16 → Prop
  library : LibraryFunction → Prop

/-- The view trusts the functions of these kinds. -/
structure View.Follows (V : View) (kinds : Kinds) : Prop where
  hosts : ∀ index count, V.hosts index count ↔ kinds.pages index
  library : ∀ f, V.library f ↔ kinds.library f

/-- The page refers to pages of functions of these kinds. -/
def Page.Names (kinds : Kinds) (page : Page) : Prop :=
  ∀ key index, page.constants.get? key = some (.page index) → kinds.pages index

/-- The program has functions of these kinds only. -/
structure Program.Names (kinds : Kinds) (program : Program) : Prop where
  pages : ∀ index page, program.page? index = some page → page.Names kinds
  library : ∀ index f, program.libraryFunction index = .ok f → kinds.library f

variable {V : View} {kinds : Kinds} {m s : Machine} {host : Host} {program : Program}

namespace Act

/-- The act keeps what respects the view, and gives what does. -/
def Keeps {α : Type} (V : View) (x : Act α) (R : α → Prop) : Prop := ∀ m : Machine, m.Respects V →
  Outcome (fun a s => R a ∧ s.Respects V) (Machine.Respects V) (x m)

namespace Keeps

variable {α β : Type} {x : Act α} {f : α → Act β} {R : α → Prop} {S : β → Prop}

theorem pure {a : α} (h : R a) : Keeps V (Pure.pure a) R := fun _ hm => ⟨h, hm⟩

theorem throw (e : Fault) : Keeps V (throw e : Act α) R := fun _ hm => hm

theorem fail (cause : Cause) : Keeps V (Act.fail cause) R := throw _

theorem breach (b : Breach) : Keeps V (Act.breach b) R := throw _

theorem bind (h : Keeps V x R) (h' : ∀ a, R a → Keeps V (f a) S) : Keeps V (x >>= f) S := fun m hm =>
  (h m hm).bind fun a s _ ha => h' a ha.1 s ha.2

theorem map {g : α → β} (h : Keeps V x R) (h' : ∀ a, R a → S (g a)) : Keeps V (g <$> x) S := by
  rw [map_eq_pure_bind]
  exact h.bind fun a ha => pure (h' a ha)

/-- A look at the machine. -/
theorem get {f : Machine → Act β} (h : ∀ m : Machine, m.Respects V → Keeps V (f m) S) : Keeps V (get >>= f) S :=
  fun m hm => h m hm m hm

theorem modify {g : Machine → Machine} (h : ∀ m : Machine, m.Respects V → (g m).Respects V) :
    Keeps V (modify g : Act Unit) fun _ => True := fun m hm => ⟨trivial, h m hm⟩

/-- An effect that agrees with itself. -/
theorem effect {e : Effect α} {R : α → α → Prop} (h : Agrees V R e e) : Keeps V (Act.effect e) fun a => R a a := by
  intro m hm
  unfold Act.effect
  rcases h.cases hm.world with ⟨a, b, w, w', h₁, h₂, hab, hw⟩ | ⟨c, d, w, w', h₁, h₂, -, hw⟩
  · rw [h₁] at h₂ ⊢
    cases h₂
    exact ⟨hab, { hm with world := hw }⟩
  · rw [h₁] at h₂ ⊢
    cases h₂
    exact { hm with world := hw }

/-! ## The stack -/

theorem push {v : Value} (h : v.Alike V v) : Keeps V (Act.push v) fun _ => True :=
  modify fun _ hm => { hm with stack := hm.stack.push h }

theorem pushAll {vs : List Value} (h : List.Forall₂ (Value.Alike V) vs vs) :
    Keeps V (Act.pushAll vs) fun _ => True := by
  refine modify fun m hm => { hm with stack := ?_ }
  have hvs : ItemsAlike V vs.toArray vs.toArray := h
  rw [show vs.foldl Array.push m.stack = m.stack ++ vs.toArray by simp]
  exact hm.stack.append hvs

theorem back {v : Value} (hm : m.Respects V) (h : m.stack.back? = some v) : v.Alike V v :=
  List.forall₂_same.1 hm.stack v (Array.mem_toList_iff.2 (Array.mem_of_back? h))

theorem peek : Keeps V Act.peek fun v => v.Alike V v := by
  intro m hm
  unfold Act.peek
  cases h : m.stack.back? with
  | some v => exact ⟨back hm h, hm⟩
  | none => exact hm

theorem pop : Keeps V Act.pop fun v => v.Alike V v := by
  intro m hm
  unfold Act.pop
  cases h : m.stack.back? with
  | some v => exact ⟨back hm h, { hm with stack := hm.stack.pop }⟩
  | none => exact hm

theorem popMany (count : Nat) : Keeps V (Act.popMany count) fun vs => ItemsAlike V vs vs := by
  intro m hm
  unfold Act.popMany
  dsimp only
  split
  · exact hm
  · exact ⟨hm.stack.extract _ _, { hm with stack := hm.stack.take _ }⟩

theorem takeCallee (count : Nat) : Keeps V (Act.takeCallee count) fun v => v.Alike V v := by
  intro m hm
  unfold Act.takeCallee
  split
  · exact ⟨hm.stack.getElem _ _ _, { hm with stack := hm.stack.eraseIdx _ _ _ }⟩
  · exact hm

/-! ## Frames and variables -/

theorem frame : Keeps V Act.frame (Frame.Respects V) := by
  intro m hm
  unfold Act.frame
  cases h : m.frames with
  | nil => exact hm
  | cons f rest => exact ⟨hm.frames f (by rw [h]; exact List.mem_cons_self), hm⟩

theorem modifyFrame {g : Frame → Frame} (h : ∀ f : Frame, f.Respects V → (g f).Respects V) :
    Keeps V (Act.modifyFrame g) fun _ => True := by
  intro m hm
  unfold Act.modifyFrame
  cases hframes : m.frames with
  | nil => exact hm
  | cons f rest =>
    have hall := hm.frames
    rw [hframes] at hall
    refine ⟨trivial, { hm with frames := fun f' hf' => ?_ }⟩
    rcases List.mem_cons.1 hf' with rfl | hf'
    · exact h f (hall f List.mem_cons_self)
    · exact hall f' (List.mem_cons_of_mem f hf')

theorem jump (target : Nat) : Keeps V (Act.jump target) fun _ => True := modifyFrame fun _ hf =>
    ⟨hf.environment, hf.cells⟩

theorem jumpTo (i : Instruction) : Keeps V (Act.jumpTo i) fun _ => True := by
  unfold Act.jumpTo
  split
  · exact jump _
  · exact breach _

theorem root (r : Rootness) : Keeps V (Act.root r) fun _ => True := by
  cases r with
  | fixed b => exact pure trivial
  | inherited => exact frame.bind fun _ _ => pure trivial

theorem load (s : UInt8) : Keeps V (Act.load s) fun v => v.Alike V v := by
  intro m hm
  unfold Act.load
  cases m.slot s with
  | ok place => exact ⟨hm.stack.getElem _ _ _, hm⟩
  | error b => exact hm

theorem store (s : UInt8) : Keeps V (Act.store s) fun _ => True := by
  intro m hm
  unfold Act.store
  cases m.slot s with
  | ok place =>
    dsimp only
    cases h : m.stack.back? with
    | some v => exact ⟨trivial, { hm with stack := hm.stack.set (back hm h) _ place.isLt place.isLt }⟩
    | none => exact hm
  | error b => exact hm

theorem capture (i : UInt8) : Keeps V (Act.capture i) fun a => V.cells ≤ a := by
  refine frame.bind fun f hf => ?_
  cases he : f.environment? with
  | none => exact breach _
  | some e =>
    obtain ⟨known, hknown, hcells⟩ := hf.environment e he
    refine get fun m hm => ?_
    have hw : m.world.environment e = known := by
      unfold World.environment
      rw [hm.world.environments, Array.getD_eq_getD_getElem?, hknown]
      rfl
    rw [hw]
    cases ha : known[i.toNat]? with
    | none => exact breach _
    | some a => exact pure (hcells a (List.mem_of_getElem? ha))

theorem cell (s : UInt8) : Keeps V (Act.cell s) fun a => V.cells ≤ a := by
  refine frame.bind fun f hf => ?_
  cases hs : f.cell? s with
  | none => exact breach _
  | some a =>
    obtain ⟨before, after, hcells, -⟩ := List.lookup_eq_some_iff.1 hs
    exact pure (hf.cells (s, a) (by rw [hcells]; exact List.mem_append_right _ List.mem_cons_self))

theorem readCell {a : Addr} (ha : V.cells ≤ a) : Keeps V (Act.readCell a) fun v => v.Alike V v :=
  get fun _ hm => pure (hm.world.cell ha)

theorem writeCell {a : Addr} {v : Value} (ha : V.cells ≤ a) (h : v.Alike V v) :
    Keeps V (Act.writeCell a v) fun _ => True :=
  (effect (Agrees.modify fun _ _ hw => hw.setCell ha h)).bind fun _ _ => pure trivial

/-! ## Values -/

/-- An effect on one value. -/
theorem onValue {f : Value → Effect Value} (h : ∀ v, v.Alike V v → Agrees V (Value.Alike V) (f v) (f v)) :
    Keeps V (do Act.push (← Act.effect (f (← Act.pop)))) fun _ => True :=
  pop.bind fun v hv => (effect (h v hv)).bind fun _ hu => push hu

/-- An effect on a row of values. -/
theorem onValues {f : Array Value → Effect Value} (count : Nat)
    (h : ∀ vs, ItemsAlike V vs vs → Agrees V (Value.Alike V) (f vs) (f vs)) :
    Keeps V (do Act.push (← Act.effect (f (← Act.popMany count)))) fun _ => True :=
  (popMany count).bind fun vs hvs => (effect (h vs hvs)).bind fun _ hu => push hu

theorem cast (tag : UInt8) : Keeps V (Act.cast tag) fun _ => True := by
  unfold Act.cast
  split
  · exact breach _
  · next kind _ => exact onValue fun _ hv => Value.cast_agrees hv kind

theorem binary (o : BinaryOp) : Keeps V (Act.binary o) fun _ => True :=
  pop.bind fun _ hr => pop.bind fun _ hl => (effect (Value.binary_agrees o hl hr)).bind fun _ hv => push hv

theorem index : Keeps V Act.index fun _ => True :=
  pop.bind fun _ hi => pop.bind fun _ ht => (effect (Value.index_agrees ht hi)).bind fun _ hv => push hv

theorem indexStore : Keeps V Act.indexStore fun _ => True :=
  pop.bind fun _ hi => pop.bind fun _ ht => pop.bind fun _ hv =>
    (effect (Value.store_agrees ht hi hv)).bind fun _ _ => push hv

theorem constant (hV : V.Follows kinds) (hprogram : program.Names kinds) {page : Page} (hpage : page.Names kinds)
    (key : UInt16) : Keeps V (Act.constant program page key) fun v => v.Alike V v := by
  unfold Act.constant
  cases hkey : page.constants.get? key with
  | none => exact breach _
  | some c =>
    cases c with
    | page index => exact pure ⟨rfl, (hV.hosts index 0).2 (hpage key index hkey)⟩
    | libraryFunction index =>
      dsimp only
      cases hf : program.libraryFunction index with
      | ok f => exact pure ⟨rfl, (hV.library f).2 (hprogram.library index f hf)⟩
      | error cause => exact fail cause
    | shape name fields => exact breach _
    | _ => exact pure rfl

/-! ## Containers -/

theorem buildList (count : Nat) :
    Keeps V (Act.buildList count) fun _ => True := onValues count fun _ h => Agrees.newList h

theorem buildTuple (count : Nat) : Keeps V (Act.buildTuple count) fun _ => True :=
  (popMany count).bind fun _ h => push (Value.Alike.tuple h)

theorem buildSet (count : Nat) : Keeps V (Act.buildSet count) fun _ => True :=
  onValues count fun vs _ => (Agrees.ofExcept (Value.keys_plain _)).bind fun ks _ hks => by
    subst hks
    exact Agrees.newSet _

theorem buildDictionary (count : Nat) : Keeps V (Act.buildDictionary count) fun _ => True :=
  onValues (count * 2) fun _ h => (Act.entries_agrees h).bind fun _ _ hes => Agrees.newDictionary (.ofList hes)

theorem buildString (count : Nat) : Keeps V (Act.buildString count) fun _ => True :=
  onValues count fun _ h => (Value.textAll_agrees h).bind fun _ _ hs => by
    subst hs
    exact .pure rfl

theorem bound : Keeps V Act.bound fun _ => True := by
  refine pop.bind fun v _ => ?_
  cases v.asInteger? with
  | some n => exact pure trivial
  | none => exact fail _

/-- Something that is done only in one case, and then another act. -/
theorem maybe {α β : Type} {x : Act α} {f : Option α → Act β} {R : α → Prop} {S : β → Prop} (b : Bool) (h : Keeps V x R)
    (h' : ∀ a?, (∀ a, a? = some a → R a) → Keeps V (f a?) S) :
    Keeps V (if b then (some <$> x) >>= f else Pure.pure none >>= f) S := by
  cases b with
  | false => exact (pure (R := fun a? => ∀ a, a? = some a → R a) fun _ h => by cases h).bind h'
  | true => exact (h.map fun a ha a' ha' => by cases ha'; exact ha).bind h'

theorem buildRange (flags : UInt8) : Keeps V (Act.buildRange flags) fun _ => True :=
  maybe _ bound fun _ _ => maybe _ bound fun _ _ => push rfl

theorem buildStruct (page : Page) (key : UInt16) : Keeps V (Act.buildStruct page key) fun _ => True := by
  unfold Act.buildStruct
  split
  · next name fields _ =>
    exact onValues _ fun _ h => Agrees.newRecord ⟨rfl, .ofList (Acts.zip_alike h fields)⟩
  · exact breach _

theorem unpack (count : Nat) : Keeps V (Act.unpack count) fun _ => True := by
  refine pop.bind fun v hv => (effect (Value.items_agrees hv)).bind fun vs hvs => ?_
  split
  · exact (fail (R := fun _ => False) _).bind fun _ h => h.elim
  · exact pushAll hvs

/-! ## Cells, iterators and regions -/

theorem makeCell (s : UInt8) : Keeps V (Act.makeCell s) fun _ => True := by
  refine (load s).bind fun v hv => (effect (Agrees.newCell hv)).bind fun a ha => ?_
  refine modifyFrame fun f hf => ⟨hf.environment, fun c hc => ?_⟩
  rcases List.mem_cons.1 hc with rfl | hc
  · exact ha.2
  · exact hf.cells c (List.mem_of_mem_filter hc)

theorem await {a : Addr} (ha : V.cells ≤ a) : Keeps V (Act.await a) fun _ => True := by
  refine modify fun m hm => { hm with pending := fun a' ha' => ?_ }
  rcases List.mem_cons.1 ha' with rfl | ha'
  · exact ha
  · exact hm.pending a' ha'

theorem startIteration : Keeps V Act.startIteration fun _ => True := by
  refine pop.bind fun v hv => (effect (Iter.ofValue_agrees hv)).bind fun it hit => ?_
  refine modify fun m hm => { hm with iterators := fun it' h => ?_ }
  rcases List.mem_cons.1 h with rfl | h
  · exact hit
  · exact hm.iterators it' h

theorem iterate (i : Instruction) : Keeps V (Act.iterate i) fun _ => True := by
  refine get fun m hm => ?_
  cases h : m.iterators with
  | nil => exact breach _
  | cons it rest =>
    have hits := hm.iterators
    rw [h] at hits
    refine (effect (Iter.next_agrees (hits it List.mem_cons_self))).bind fun next hnext => ?_
    obtain ⟨item?, it'⟩ := next
    refine (modify (g := fun m => { m with iterators := it' :: rest }) fun m' hm' =>
      { hm' with iterators := fun it'' h'' => ?_ }).bind fun _ _ => ?_
    · rcases List.mem_cons.1 h'' with rfl | h''
      · exact hnext.2
      · exact hits it'' (List.mem_cons_of_mem it h'')
    · cases item? with
      | some v =>
        cases hnext.1 with
        | some hv => exact push hv
      | none => exact jumpTo i

theorem endIteration : Keeps V Act.endIteration fun _ => True := by
  refine get fun m hm => ?_
  cases h : m.iterators with
  | nil => exact breach _
  | cons it rest =>
    refine modify fun m' hm' => { hm' with iterators := fun it' h' => hm.iterators it' ?_ }
    rw [h]
    exact List.mem_cons_of_mem it h'

theorem openTry (i : Instruction) : Keeps V (Act.openTry i) fun _ => True := by
  unfold Act.openTry
  split
  · exact breach _
  · exact modify fun m hm => { hm with }

theorem closeTry : Keeps V Act.closeTry fun _ => True := by
  refine get fun m hm => ?_
  split
  · exact breach _
  · exact modify fun m hm => { hm with }

theorem jumpIf (expected : Bool) {v : Value} (hv : v.Alike V v) (i : Instruction) :
    Keeps V (Act.jumpIf expected v i) fun _ => True := by
  refine (effect (Value.truth_agrees hv)).bind fun b _ => ?_
  split
  · exact jumpTo i
  · exact pure trivial

/-! ## Calls -/

theorem enter (index : UInt16) {environment? : Option Addr} (count : Nat) (isRoot : Bool)
    (h : ∀ e, environment? = some e → ∃ known, V.environments[e]? = some known ∧ ∀ a ∈ known, V.cells ≤ a) :
    Keeps V (Act.enter host program index environment? count isRoot) fun _ => True := by
  unfold Act.enter
  split
  · exact breach _
  · refine get fun m hm => ?_
    split
    · exact fail _
    · split
      · exact fail _
      · split
        · exact breach _
        · refine modify fun m hm => { hm with frames := fun f hf => ?_ }
          rcases List.mem_cons.1 hf with rfl | hf
          · exact ⟨h, nofun⟩
          · exact hm.frames f hf

theorem callLibrary [host.Lawful] (f : LibraryFunction) (count : Nat) :
    Keeps V (Act.callLibrary host f count) fun _ => True :=
  onValues count fun _ h => f.callWith_agrees h

theorem call [host.Lawful] {callee : Value} (hcallee : callee.Alike V callee) (count : Nat) (isRoot : Bool) :
    Keeps V (Act.call host program callee count isRoot) fun _ => True := by
  unfold Act.call
  split
  · exact enter _ _ _ nofun
  · next index environment =>
    obtain ⟨known, hknown, -, hcells⟩ := hcallee.2
    exact enter _ _ _ fun e he => by cases he; exact ⟨known, hknown, hcells⟩
  · exact callLibrary _ _
  · exact fail _

theorem callValue [host.Lawful] (r : Rootness) (count : Nat) :
    Keeps V (Act.callValue host program r count) fun _ => True :=
  (root r).bind fun isRoot _ => (takeCallee count).bind fun _ hcallee => call hcallee count isRoot

theorem callStandard [host.Lawful] (page : Page) (key : UInt16) (count : Nat) :
    Keeps V (Act.callStandard host program page key count) fun _ => True := by
  unfold Act.callStandard
  split
  · split
    · exact callLibrary _ _
    · exact fail _
  · exact breach _

theorem programOperands (count pairs : Nat) (flags : CallFlags) :
    Keeps V (Act.programOperands count pairs flags) fun o => o.Alike V o := by
  refine (popMany _).bind fun es hes => ?_
  refine maybe _ pop fun p? hp => ?_
  refine (popMany _).bind fun us hus => pop.bind fun n hn => pure ⟨hn, hus, ?_, hes⟩
  cases p? with
  | none => exact .none
  | some p => exact .some (hp p rfl)

theorem callProgram (r : Rootness) (i : Instruction) : Keeps V (Act.callProgram r i) fun _ => True := by
  refine (root r).bind fun isRoot _ => (programOperands _ _ _).bind fun o ho => ?_
  refine (effect ((Act.programCall_agrees ho).bind fun c _ hc => ?_)).bind fun v hv => push hv
  subst hc
  exact Job.run_agrees c _ isRoot

end Keeps

end Act

/-! ## Machines that know functions of some kinds -/

/-- The functions that the machine has come across are of these kinds. Other values, which are kept for later, know no
others either. -/
def Machine.Knows (kinds : Kinds) (aside : List Value) (m : Machine) : Prop :=
  ∃ V : View, V.Follows kinds ∧ m.Respects V ∧ ∀ v ∈ aside, v.Alike V v

/-- The machine goes on knowing functions of these kinds, whether the act fails or not. -/
def Act.KeepsKnown (kinds : Kinds) (aside : List Value) {α : Type} (x : Act α) (m : Machine) : Prop :=
  Outcome (fun _ => Machine.Knows kinds aside) (Machine.Knows kinds aside) (x m)

variable {aside : List Value} {page : Page} {i : Instruction}

theorem Machine.Respects.learn (cells : List Addr) (hm : m.Respects V) :
    ({ m with world := { m.world with environments := m.world.environments.push cells } } : Machine).Respects
      (V.learn cells) where
  stack := hm.stack.learn cells
  frames := fun f hf => ⟨fun e he => by
    obtain ⟨known, hknown, hcells⟩ := (hm.frames f hf).environment e he
    exact ⟨known, V.learn_environment cells hknown, hcells⟩, (hm.frames f hf).cells⟩
  iterators := fun it hit => (hm.iterators it hit).learn cells
  pending := hm.pending
  world := hm.world.learn cells

namespace Act

theorem Keeps.known {α : Type} {x : Act α} {R : α → Prop} (hV : V.Follows kinds) (haside : ∀ v ∈ aside, v.Alike V v)
    (h : Keeps V x R) (hm : m.Respects V) : KeepsKnown kinds aside x m := by
  have hx := h m hm
  unfold KeepsKnown
  cases hxm : x m with
  | ok u s =>
    rw [hxm] at hx
    exact ⟨V, hV, hx.2, haside⟩
  | error e s =>
    rw [hxm] at hx
    exact ⟨V, hV, hx, haside⟩

/-- A new closure brings its environment. -/
theorem makeClosure_known (hV : V.Follows kinds) (haside : ∀ v ∈ aside, v.Alike V v) (hm : m.Respects V)
    (hpage : page.Names kinds) (key : UInt16) (count : Nat) :
    KeepsKnown kinds aside (Act.makeClosure page key count) m := by
  have hbreach : ∀ b, KeepsKnown kinds aside (Act.breach b : Act Unit) m := fun _ => ⟨V, hV, hm, haside⟩
  by_cases hkey : ∃ index, page.constants.get? key = some (.page index)
  · obtain ⟨index, hkey⟩ := hkey
    by_cases hcount : m.pending.length < count
    · have hfails : Act.makeClosure page key count m = Act.breach .closureWithoutCaptures m := by
        unfold Act.makeClosure
        rw [hkey]
        show (if m.pending.length < count then _ else _ : Act Unit) m = _
        rw [if_pos hcount]
        rfl
      unfold KeepsKnown
      rw [hfails]
      exact hbreach _
    · unfold KeepsKnown
      rw [makeClosure_eq hkey (Nat.le_of_not_lt hcount)]
      have hlearned := hm.learn (m.pending.take count).reverse
      have hclosure : (V.learn (m.pending.take count).reverse).Trusts (.closure index m.world.environments.size) := by
        refine ⟨(m.pending.take count).reverse, ?_, (hV.hosts _ _).2 (hpage key index hkey), fun a ha => ?_⟩
        · rw [hm.world.environments]
          exact Array.getElem?_push_size
        · exact hm.pending a (List.mem_of_mem_take (List.mem_reverse.1 ha))
      have hvalue : (Value.function (.closure index m.world.environments.size)).Alike
          (V.learn (m.pending.take count).reverse)
          (Value.function (.closure index m.world.environments.size)) := ⟨rfl, hclosure⟩
      refine ⟨V.learn (m.pending.take count).reverse, ⟨hV.hosts, hV.library⟩, { hlearned with
        stack := hlearned.stack.push hvalue
        pending := fun a ha => hm.pending a (List.mem_of_mem_drop ha) }, fun v hv => (haside v hv).learn _⟩
  · have hfails : Act.makeClosure page key count = Act.breach .closureWithoutPage := by
      unfold Act.makeClosure
      split
      · next index h => exact absurd ⟨index, h⟩ hkey
      · rfl
    rw [hfails]
    exact hbreach _

/-- **What an instruction keeps**, whatever the code is. -/
theorem perform_known [host.Lawful] (hprogram : program.Names kinds) (hpage : page.Names kinds)
    (h : m.Knows kinds aside) (i : Instruction) : KeepsKnown kinds aside (perform host program page i) m := by
  obtain ⟨V, hV, hm, haside⟩ := h
  obtain ⟨offset, op, operands⟩ := i
  have known : ∀ {x : Act Unit} {R : Unit → Prop}, Keeps V x R → KeepsKnown kinds aside x m :=
    fun hx => hx.known hV haside hm
  cases op with
  | nop => exact known (R := fun _ => True) (.pure trivial)
  | pop => exact known (R := fun _ => True) (Keeps.pop.bind fun _ _ => .pure trivial)
  | popN => exact known (R := fun _ => True) ((Keeps.popMany _).bind fun _ _ => .pure trivial)
  | unwind => exact known (Keeps.pop.bind fun _ hv => (Keeps.popMany _).bind fun _ _ => .push hv)
  | const => exact known ((Keeps.constant hV hprogram hpage _).bind fun _ hv => .push hv)
  | load => exact known ((Keeps.load _).bind fun _ hv => .push hv)
  | store => exact known (.store _)
  | loadCapture => exact known ((Keeps.capture _).bind fun _ ha => (Keeps.readCell ha).bind fun _ hv => .push hv)
  | storeCapture => exact known (Keeps.peek.bind fun _ hv => (Keeps.capture _).bind fun _ ha => .writeCell ha hv)
  | makeCell => exact known (.makeCell _)
  | loadCell => exact known ((Keeps.cell _).bind fun _ ha => (Keeps.readCell ha).bind fun _ hv => .push hv)
  | storeCell => exact known (Keeps.peek.bind fun _ hv => (Keeps.cell _).bind fun _ ha => .writeCell ha hv)
  | captureLocal => exact known ((Keeps.cell _).bind fun _ ha => .await ha)
  | captureOuter => exact known ((Keeps.capture _).bind fun _ ha => .await ha)
  | index => exact known .index
  | indexStore => exact known .indexStore
  | negate | not => exact known (.onValue fun _ hv => Value.unary_agrees _ hv)
  | cast => exact known (.cast _)
  | buildList => exact known (.buildList _)
  | buildTuple => exact known (.buildTuple _)
  | buildDict => exact known (.buildDictionary _)
  | buildSet => exact known (.buildSet _)
  | buildRange => exact known (.buildRange _)
  | buildString => exact known (.buildString _)
  | buildStruct => exact known (.buildStruct page _)
  | unpack => exact known (.unpack _)
  | makeClosure => exact makeClosure_known hV haside hm hpage _ _
  | jump => exact known (.jumpTo ⟨offset, .jump, operands⟩)
  | jumpBackward => exact known (.jumpTo ⟨offset, .jumpBackward, operands⟩)
  | jumpIf | jumpIfNot => exact known (Keeps.peek.bind fun _ hv => .jumpIf _ hv _)
  | popJumpIf | popJumpIfNot => exact known (Keeps.pop.bind fun _ hv => .jumpIf _ hv _)
  | getIter => exact known .startIteration
  | forIter => exact known (.iterate _)
  | endFor => exact known .endIteration
  | call | rootCall | maybeRootCall => exact known (.callValue _ _)
  | callStd => exact known (.callStandard page _ _)
  | callProgram | rootCallProgram | maybeRootCallProgram => exact known (.callProgram _ _)
  | ret => exact known (.jump _)
  | enterTry => exact known (.openTry ⟨offset, .enterTry, operands⟩)
  | endTry => exact known .closeTry
  | _ => exact known (.binary _)

/-! ## Steps and turns -/

theorem step_known [host.Lawful] (hprogram : program.Names kinds) (h : m.Knows kinds aside) :
    KeepsKnown kinds aside (step host program) m := by
  unfold KeepsKnown
  rcases step_reads host program m with
    ⟨-, ⟨f, rest, page, i, hframes, hpage, -, hstep⟩ | ⟨-, -, hleave⟩⟩ | ⟨e, hfail⟩
  · rw [hstep]
    obtain ⟨V, hV, hm, haside⟩ := h
    have hall := hm.frames
    rw [hframes] at hall
    refine perform_known (m := m.fetched f rest i) hprogram (hprogram.pages _ _ hpage)
      ⟨V, hV, { hm with frames := fun f' hf' => ?_ }, haside⟩ i
    rcases List.mem_cons.1 hf' with rfl | hf'
    · exact ⟨(hall f List.mem_cons_self).environment, (hall f List.mem_cons_self).cells⟩
    · exact hall f' (List.mem_cons_of_mem f hf')
  · rw [hleave]
    obtain ⟨V, hV, hm, haside⟩ := h
    exact ⟨V, hV, { hm with frames := fun f hf => hm.frames f (List.mem_of_mem_tail hf) }, haside⟩
  · rw [hfail]
    obtain ⟨V, hV, hm, haside⟩ := h
    exact ⟨V, hV, { hm with }, haside⟩

theorem Keeps.unwind (h : Handler) : Keeps V (unwind h) fun _ => True := by
  exact modify fun m hm => { hm with
    stack := hm.stack.take _
    frames := fun f hf => hm.frames f (List.mem_of_mem_drop hf)
    iterators := fun it hit => hm.iterators it (List.mem_of_mem_drop hit) }

theorem Keeps.recover (program : Program) (fault : Fault) : Keeps V (recover program fault) fun _ => True := by
  refine get fun m hm => ?_
  dsimp only
  split
  · exact (throw (R := fun _ => False) _).bind fun _ h => h.elim
  · have hpush (f : Fault) : Keeps V (Act.push (.error (.string f.cause.message) (some f.trace))) fun _ => True :=
      Keeps.push (show Value.Alike V (.error _ _) (.error _ _) from ⟨_, _, rfl, rfl⟩)
    cases m.handlers with
    | nil => exact throw _
    | cons h rest =>
      have hclose := Keeps.modify (V := V) (g := fun m => { m with handlers := rest }) fun m hm => { hm with }
      exact hclose.bind fun _ _ => (Keeps.unwind h).bind fun _ _ => (Keeps.jump _).bind fun _ _ => hpush _

theorem turn_known [host.Lawful] (hprogram : program.Names kinds) (h : m.Knows kinds aside) :
    KeepsKnown kinds aside (turn host program) m := by
  have hstep : Outcome _ _ (step host program m) := step_known hprogram h
  unfold KeepsKnown turn
  cases hs : step host program m with
  | ok u s =>
    rw [hs] at hstep
    exact hstep
  | error fault s =>
    rw [hs] at hstep
    obtain ⟨V, hV, hm, haside⟩ := hstep
    show KeepsKnown kinds aside (recover program fault) s
    exact (Keeps.recover program fault).known hV haside hm

end Act

/-! ## Runs -/

/-- The functions in the world, and among the values, are of these kinds. -/
def World.Knows (kinds : Kinds) (values : List Value) (w : World) : Prop :=
  ∃ V : View, V.Follows kinds ∧ w.Alike V w ∧ ∀ v ∈ values, v.Alike V v

variable {values : List Value} {w : World}

/-- Nothing needs to be known of what is in a world when it comes into use. -/
theorem World.knows_nothing (kinds : Kinds) (w : World) : w.Knows kinds [] :=
  ⟨w.view (fun index _ => kinds.pages index) kinds.library, ⟨fun _ _ => .rfl, fun _ => .rfl⟩, w.alike_self _ _, nofun⟩

theorem Machine.Knows.world (h : m.Knows kinds aside) : m.world.Knows kinds aside := by
  obtain ⟨V, hV, hm, haside⟩ := h
  exact ⟨V, hV, hm.world, haside⟩

/-- What a run leaves on top of the stack. -/
theorem Machine.Knows.back {v : Value} (h : m.Knows kinds aside) (hv : m.stack.back? = some v) :
    m.world.Knows kinds (v :: aside) := by
  obtain ⟨V, hV, hm, haside⟩ := h
  exact ⟨V, hV, hm.world, List.forall_mem_cons.2 ⟨Act.Keeps.back hm hv, haside⟩⟩

namespace World.Knows

/-- A machine that does not run yet knows what there was before. -/
theorem idle {arguments : Array Value} (h : w.Knows kinds values) (harguments : ∀ a ∈ arguments, a ∈ values) :
    (Machine.idle arguments w).Knows kinds values := by
  obtain ⟨V, hV, hw, hvalues⟩ := h
  exact ⟨V, hV, {
    stack := List.forall₂_same.2 fun v hv => hvalues v (harguments v (Array.mem_toList_iff.1 hv))
    frames := nofun
    iterators := nofun
    pending := nofun
    world := hw }, hvalues⟩

theorem start (h : w.Knows kinds values) (entry : UInt16) : (Machine.start entry w).Knows kinds values := by
  have hidle : (Machine.idle #[] w).Knows kinds values := h.idle nofun
  obtain ⟨V, hV, hm, hvalues⟩ := hidle
  refine ⟨V, hV, { hm with frames := fun f hf => ?_ }, hvalues⟩
  obtain rfl := List.mem_singleton.1 hf
  exact ⟨nofun, nofun⟩

end World.Knows

/-- A machine that starts knows nothing. -/
theorem Machine.start_knows (kinds : Kinds) (entry : UInt16) (w : World) : (Machine.start entry w).Knows kinds [] :=
  (w.knows_nothing kinds).start entry

namespace Act

theorem run_known [host.Lawful] (hprogram : program.Names kinds) (h : m.Knows kinds aside) (fuel : Nat) :
    KeepsKnown kinds aside (run host program fuel) m := by
  induction fuel generalizing m with
  | zero => exact h
  | succ fuel ih =>
    have hturn : KeepsKnown kinds aside (turn host program) m := turn_known hprogram h
    unfold KeepsKnown at hturn ⊢
    unfold run
    split
    · exact h
    · cases hs : turn host program m with
      | ok _ s =>
        rw [hs] at hturn
        exact ih hturn
      | error fault s =>
        rw [hs] at hturn
        exact hturn

end Act

end ShellVM
