import ShellVM.Proofs.Meaning.Step

/-!
# Instructions side by side with the evaluator

What the instructions that read and write variables, operate on values, jump, iterate and open regions make of a
machine that stands for a scene, next to what the evaluator does there.
-/

namespace ShellVM

variable {E : Stage} {Γ Γ' : Scope} {G G' : Ground} {p p' q target : Nat} {s s' : Scene} {m m' : Machine} {op : Op}
  {operands : List UInt8} {u v : Value} {us vs : List Value} {locals : List Local} {below : Array Value}

/-! ## Acts -/

namespace Act

/-- What an operation comes to: its result lies where its operands lay. -/
def settled (m : Machine) (below : Array Value) :
    EStateM.Result Fault World Value → EStateM.Result Fault Machine Unit :=
  ended (fun u w => { m with stack := below.push u, world := w }) fun w => { m with stack := below, world := w }

theorem effect_bind {α : Type} {f : Effect α} {g : α → Act Unit} {next : α → World → Machine} {fallen : World → Machine}
    (hnext : ∀ a w, g a { m with world := w } = .ok () (next a w)) (hfallen : ∀ w, fallen w = { m with world := w }) :
    (Act.effect f >>= g) m = ended next fallen (f m.world) := by
  show EStateM.bind (Act.effect f) g m = _
  unfold EStateM.bind Act.effect
  cases f m.world with
  | ok a w => exact hnext a w
  | error e w => exact congrArg _ (hfallen w).symm

theorem push_effect (f : Effect Value) (h : m.stack = below) :
    (do Act.push (← Act.effect f) : Act Unit) m = settled m below (f m.world) := by
  subst h
  exact effect_bind (fun _ _ => rfl) fun _ => rfl

theorem unary_eq (o : UnaryOp) (h : m.stack = below.push u) :
    Act.unary o m = settled m below (Value.unary o u m.world) :=
  (bind_run_ok (pop_eq h)).trans (push_effect _ rfl)

theorem binary_eq (o : BinaryOp) (h : m.stack = (below.push u).push v) :
    Act.binary o m = settled m below (Value.binary o u v m.world) :=
  (bind_run_ok (pop_eq h)).trans ((bind_run_ok (pop_eq rfl)).trans (push_effect (m := { m with stack := below }) _ rfl))

theorem cast_eq (kind : Kind) (h : m.stack = below.push u) :
    Act.cast kind.tag m = settled m below (u.cast kind m.world) := by
  unfold Act.cast
  rw [Kind.ofTag?_tag]
  exact (bind_run_ok (pop_eq h)).trans (push_effect _ rfl)

theorem index_eq (h : m.stack = (below.push u).push v) : Act.index m = settled m below (u.index v m.world) :=
  (bind_run_ok (pop_eq h)).trans ((bind_run_ok (pop_eq rfl)).trans (push_effect (m := { m with stack := below }) _ rfl))

theorem indexStore_eq {x : Value} (h : m.stack = ((below.push x).push u).push v) :
    Act.indexStore m = settled m below ((do u.store v x; return x : Effect Value) m.world) := by
  refine (bind_run_ok (pop_eq h)).trans ((bind_run_ok (pop_eq rfl)).trans ((bind_run_ok (pop_eq rfl)).trans ?_))
  show EStateM.bind (Act.effect (u.store v x)) (fun _ => Act.push x) { m with stack := below } =
    settled m below (EStateM.bind (u.store v x) (fun _ => EStateM.pure x) m.world)
  unfold EStateM.bind Act.effect
  cases u.store v x m.world <;> rfl

theorem buildTuple_eq (h : m.stack = below ++ us.toArray) :
    Act.buildTuple us.length m = settled m below ((pure (.tuple us) : Effect Value) m.world) :=
  bind_run_ok (popMany_eq h)

theorem buildList_eq (h : m.stack = below ++ us.toArray) :
    Act.buildList us.length m = settled m below (Effect.newList us.toArray m.world) :=
  (bind_run_ok (popMany_eq h)).trans (push_effect _ rfl)

theorem jumpTo_eq {i : Instruction} {entry : UInt16} {ip : Nat} (h : i.target? = some target)
    (hframes : m.frames = [entryFrame entry ip]) :
    jumpTo i m = .ok () { m with frames := [entryFrame entry target] } := by
  unfold jumpTo jump modifyFrame
  rw [h]
  simp only [hframes]
  rfl

/-- A jump that depends on the truth of a value. -/
theorem jumpIf_eq (expected : Bool) {i : Instruction} {entry : UInt16} {ip : Nat} (h : i.target? = some target)
    (hframes : m.frames = [entryFrame entry ip]) : jumpIf expected u i m =
      ended (fun b w => { m with frames := [entryFrame entry (if b == expected then target else ip)], world := w })
        (fun w => { m with world := w }) (u.truth m.world) := by
  refine effect_bind (fun b w => ?_) fun _ => rfl
  by_cases hb : (b == expected) = true
  · rw [if_pos hb, if_pos hb]
    exact @jumpTo_eq target { m with world := w } i entry ip h hframes
  · rw [if_neg hb, if_neg hb, ← hframes]
    rfl

end Act

/-! ## Variables -/

theorem Eval.lookup_eq {name : String} (h : s.bindings.lookup name = some v) : Eval.lookup name s = .ok v s := by
  unfold Eval.lookup
  rw [get_bind_run, h]
  rfl

theorem Eval.assign_eq {name : String} {bindings : List (String × Value)}
    (h : Eval.assigned name v s.bindings = some bindings) : Eval.assign name v s = .ok () { s with bindings } := by
  unfold Eval.assign
  rw [get_bind_run, h]
  rfl

namespace Sits

/-- The frames of the machine have no room for other places of variables than the stack. -/
theorem findPlace (hE : E.Bare) (hover : Over Γ G) {name : String} {place : Emit.Place}
    (h : E.sheet.place? Γ name = some place) :
    ∃ l, Γ.locals.find? (·.name == name) = some l ∧ place = .slot l.slot ∧ l ∈ Γ.locals := by
  unfold Sheet.place? at h
  cases hl : Γ.locals.find? (·.name == name) with
  | some l =>
    have hmem := List.mem_of_find?_eq_some hl
    rw [hl] at h
    simp only [hover.plain l hmem] at h
    cases h
    exact ⟨l, rfl, rfl, hmem⟩
  | none =>
    rw [hl, hE.captures] at h
    cases h

theorem slot (hm : m.frames = [entryFrame E.entry p]) {i : UInt8} (hi : i.toNat < m.stack.size) :
    m.slot i = .ok ⟨i.toNat, hi⟩ := Machine.slot_ok hm (Nat.zero_add _) hi

/-- A variable is read. -/
theorem load (hE : E.Bare) (hover : Over Γ G) (hm : Sits E Γ.locals G p s m) {name : String} {place : Emit.Place}
    (hplace : E.sheet.place? Γ name = some place) (h : E.sheet.Has p place.loadOp [place.operand]) :
    Comes E Γ G m (Yields E Γ.locals G (p + 2)) (Eval.lookup name s) := by
  obtain ⟨l, hl, rfl, hmem⟩ := findPlace hE hover hplace
  have hslot := hover.slot_lt hmem
  obtain ⟨u, v, hv, hu, huv⟩ := hm.bears.lookup hl hslot
  rw [Eval.lookup_eq hv]
  have hload : Act.load l.slot (m.onward E.entry (p + 2)) = .ok u (m.onward E.entry (p + 2)) :=
    Act.load_ok rfl (Nat.zero_add _) hu
  obtain ⟨m', hstep, hsits⟩ := hm.pushes hE (fun l hl => hover.slot_lt hl) h rfl (bind_run_ok hload)
  exact ⟨m', .single hm.active (Act.turn_of_ok hstep), u, huv, hsits⟩

/-- A variable is written; the value stays. -/
theorem store (hE : E.Bare) (hover : Over Γ G) (hm : Sits E Γ.locals (G.push u) p s m) (huv : u.Alike E.view v)
    {name : String} {place : Emit.Place} (hplace : E.sheet.place? Γ name = some place)
    (h : E.sheet.Has p place.storeOp [place.operand]) :
    Comes E Γ G m (Yields E Γ.locals G (p + 2)) ((do Eval.assign name v; return v : Eval Value) s) := by
  obtain ⟨l, hl, rfl, hmem⟩ := findPlace hE hover hplace
  obtain ⟨below, hstack, hsize, hbears⟩ := hm.top
  have hslot : l.slot.toNat < below.size := by
    rw [hsize]
    exact hover.slot_lt hmem
  obtain ⟨bindings, hassigned, hbears⟩ := hbears.assign hl hover.places hover.distinct huv hslot
  have hassign : (do Eval.assign name v; return v : Eval Value) s = .ok v { s with bindings } := by
    rw [bind_run_ok (Eval.assign_eq hassigned)]
    rfl
  rw [hassign]
  have hplace : l.slot.toNat < m.stack.size := by
    rw [hstack, Array.size_push]
    omega
  have hset : m.stack.set l.slot.toNat u hplace = (below.set l.slot.toNat u hslot).push u := by
    simp only [hstack]
    rw [Array.set_push, dif_pos hslot]
  obtain ⟨hleads, hcalm⟩ := hm.leads hE h
    { m.onward E.entry (p + 2) with stack := (below.set l.slot.toNat u hslot).push u } (by
    show Act.store l.slot (m.onward E.entry (p + 2)) = _
    unfold Act.store
    rw [slot (m := m.onward E.entry (p + 2)) rfl hplace]
    dsimp only
    rw [show (m.onward E.entry (p + 2)).stack.back? = some u from hstack ▸ Array.back?_push ..]
    show EStateM.Result.ok () _ = EStateM.Result.ok () _
    congr 1
    show Machine.mk (m.stack.set l.slot.toNat u hplace) _ _ _ _ _ _ = _
    rw [hset])
  exact ⟨_, hleads, u, huv, pushed hbears (by rw [Array.size_set, hsize]) (fun l hl => hover.slot_lt hl) rfl hm.handlers
    hm.iterators rfl hm.world hcalm⟩

/-! ## Operations -/

/-- An instruction that puts the result of an operation in the place of its operands. -/
theorem operates (hE : E.Bare) (hover : Over Γ G) (hm : Sits E Γ.locals (G.pushAll us) p s m)
    (h : E.sheet.Has p op operands)
    (hp : p' = p + 1 + operands.length) {f g : Effect Value} (hfg : Agrees E.view (Value.Alike E.view) f g)
    (hperform : ∀ (t : Machine) (below : Array Value), t.stack = below ++ us.toArray →
      Act.perform E.host E.program E.sheet.page ⟨p, op, operands⟩ t = Act.settled t below (f t.world)) :
    Comes E Γ G m (Yields E Γ.locals G p') (Eval.effect g s) := by
  subst hp
  obtain ⟨below, hstack, hsize, hbears⟩ := hm.bears.split (by rw [hm.size, Ground.length_pushAll])
  refine (hm.effects (G := G) hE h hfg (hperform (m.onward E.entry (p + 1 + operands.length)) below hstack)
    fun w => ⟨⟨⟨_, rfl⟩, hm.handlers, ⟨[], hm.iterators⟩, hbears⟩, rfl⟩).imp ?_
  rintro v s' m' ⟨u, w, huv, hw, hbindings, rfl, hcalm⟩
  refine ⟨u, huv, pushed ?_ hsize (fun l hl => hover.slot_lt hl) rfl hm.handlers hm.iterators rfl hw hcalm⟩
  rw [hbindings]
  exact hbears

/-! ## Jumps -/

theorem width_of_jump {op : Op} (h : Instruction.target? ⟨p, op, operands⟩ = some target)
    (hhas : E.sheet.Has p op operands) : p + 1 + operands.length = p + 3 := by
  have hwidth := hhas.length
  have hjump : op.width = 2 := by
    unfold Instruction.target? at h
    cases op <;> first | rfl | cases h
  omega

/-- A jump. -/
theorem jump (hE : E.Bare) (hm : Sits E locals G p s m) (hop : op = .jump ∨ op = .jumpBackward)
    (h : E.sheet.Jumps p op target) : ∃ m', E.Leads m m' ∧ Sits E locals G target s m' := by
  obtain ⟨operands, hhas, htarget⟩ := h
  obtain ⟨hleads, hcalm⟩ := hm.leads hE hhas { m.onward E.entry target with steps := m.steps + 1 } (by
    rcases hop with rfl | rfl <;>
    exact Act.jumpTo_eq htarget rfl)
  exact ⟨_, hleads, ⟨rfl, hm.handlers, hm.iterators, hm.size, hm.bears, hm.world, hcalm⟩⟩

/-- A jump that depends on the truth of the value on top, which is taken off. -/
theorem popJump (hE : E.Bare) (hm : Sits E Γ.locals (G.push u) p s m) (huv : u.Alike E.view v)
    (h : E.sheet.Jumps p .popJumpIfNot target) :
    Comes E Γ G m (fun b s' m' => Sits E Γ.locals G (if b then p + 3 else target) s' m') (Eval.effect v.truth s) := by
  obtain ⟨operands, hhas, htarget⟩ := h
  obtain ⟨below, hstack, hsize, hbears⟩ := hm.top
  have hnext : Act.perform E.host E.program E.sheet.page ⟨p, .popJumpIfNot, operands⟩
      (m.onward E.entry (p + 1 + operands.length)) =
      Act.ended (fun b w => { m.onward E.entry (if b == false then target else p + 3) with stack := below, world := w })
        (fun w => { m.onward E.entry (p + 3) with stack := below, world := w }) (u.truth m.world) := by
    rw [width_of_jump htarget hhas]
    refine (bind_run_ok (@Act.pop_eq (m.onward E.entry (p + 3)) u below hstack)).trans ?_
    exact Act.jumpIf_eq false htarget rfl
  refine (hm.effects (G := G) hE hhas (Value.truth_agrees huv) hnext
    fun w => ⟨⟨⟨_, rfl⟩, hm.handlers, ⟨[], hm.iterators⟩, hbears⟩, rfl⟩).imp ?_
  rintro b s' m' ⟨b', w, rfl, hw, hbindings, rfl, hcalm⟩
  refine ⟨?_, hm.handlers, hm.iterators, hsize, by rw [hbindings]; exact hbears, hw, hcalm⟩
  cases b' <;> rfl

/-- A jump that depends on the truth of the value on top, which stays. -/
theorem peekJump (hE : E.Bare) (hm : Sits E Γ.locals (G.push u) p s m) (huv : u.Alike E.view v)
    {expected : Bool} (hop : op = if expected then .jumpIf else .jumpIfNot) (h : E.sheet.Jumps p op target) :
    Comes E Γ G m (fun b s' m' => Sits E Γ.locals (G.push u) (if b == expected then target else p + 3) s' m')
      (Eval.effect v.truth s) := by
  obtain ⟨operands, hhas, htarget⟩ := h
  obtain ⟨below, hstack, hsize, hbears⟩ := hm.top
  have hnext :
      Act.perform E.host E.program E.sheet.page ⟨p, op, operands⟩ (m.onward E.entry (p + 1 + operands.length)) =
      Act.ended (fun b w => { m.onward E.entry (if b == expected then target else p + 3) with world := w })
        (fun w => { m.onward E.entry (p + 3) with world := w }) (u.truth m.world) := by
    have hpeek : Act.peek (m.onward E.entry (p + 3)) = .ok u (m.onward E.entry (p + 3)) := Act.peek_eq hstack
    rw [width_of_jump htarget hhas]
    subst hop
    cases expected <;> exact (bind_run_ok hpeek).trans (Act.jumpIf_eq _ htarget rfl)
  refine (hm.effects (G := G) hE hhas (Value.truth_agrees huv) hnext fun w =>
    ⟨⟨⟨_, rfl⟩, hm.handlers, ⟨[], hm.iterators⟩, ?_⟩, rfl⟩).imp ?_
  · exact hm.bears.of_take (List.prefix_append _ _) (by rw [← hsize]; simp [Machine.onward, hstack]) fun _ _ => rfl
  · rintro b s' m' ⟨b', w, rfl, hw, hbindings, rfl, hcalm⟩
    exact ⟨rfl, hm.handlers, hm.iterators, hm.size, by rw [hbindings]; exact hm.bears, hw, hcalm⟩

/-- A page is left with the value on top. -/
theorem ret (hE : E.Bare) (hm : Sits E locals (G.push u) p s m) (hG : G.slots = []) (h : E.sheet.Has p .ret []) :
    ∃ m', E.Leads m m' ∧ m'.frames = [entryFrame E.entry E.sheet.page.code.size] ∧ m'.stack = #[u] ∧
    m'.world = m.world := by
  obtain ⟨below, hstack, hsize, -⟩ := hm.top
  obtain rfl : below = #[] := Array.eq_empty_of_size_eq_zero (by rw [hsize, hG]; rfl)
  obtain ⟨hleads, -⟩ := hm.leads hE h { m.onward E.entry E.sheet.page.code.size with steps := m.steps + 1 } rfl
  exact ⟨_, hleads, rfl, hstack, rfl⟩

/-! ## Iteration -/

/-- A loop over items starts. -/
theorem getIter (hE : E.Bare) (hm : Sits E Γ.locals (G.push u) p s m) (huv : u.Alike E.view v)
    (h : E.sheet.Has p .getIter []) :
    Comes E Γ G m (fun it s' m' => ∃ it', it'.Alike E.view it ∧
      Sits E Γ.locals { G with iterators := it' :: G.iterators } (p + 1) s' m') (Eval.effect (Iter.ofValue v) s) := by
  obtain ⟨below, hstack, hsize, hbears⟩ := hm.top
  have hnext : Act.perform E.host E.program E.sheet.page ⟨p, .getIter, []⟩ (m.onward E.entry (p + 1)) =
      Act.ended (fun it w =>
          { m.onward E.entry (p + 1) with stack := below, iterators := it :: m.iterators, world := w })
        (fun w => { m.onward E.entry (p + 1) with stack := below, world := w }) (Iter.ofValue u m.world) := by
    refine (bind_run_ok (@Act.pop_eq (m.onward E.entry (p + 1)) u below hstack)).trans ?_
    exact Act.effect_bind (m := { m.onward E.entry (p + 1) with stack := below }) (fun _ _ => rfl) fun _ => rfl
  refine (hm.effects (G := G) hE h (Iter.ofValue_agrees huv) hnext
    fun w => ⟨⟨⟨_, rfl⟩, hm.handlers, ⟨[], hm.iterators⟩, hbears⟩, rfl⟩).imp ?_
  rintro it s' m' ⟨it', w, hit, hw, hbindings, rfl, hcalm⟩
  refine ⟨it', hit, rfl, hm.handlers, ?_, hsize, ?_, hw, hcalm⟩
  · show it' :: m.iterators = it' :: G.iterators
    rw [hm.iterators]
    rfl
  · rw [hbindings]
    exact { hbears with }

/-- The next item, or the end of the loop. -/
def Advances (E : Stage) (locals : List Local) (G : Ground) (p target : Nat) (item? : Option Value) (it : Iter)
    (s : Scene) (m : Machine) : Prop :=
  match item? with
  | some v => ∃ u, u.Alike E.view v ∧ Sits E locals (Ground.push { G with iterators := it :: G.iterators } u) p s m
  | none => Sits E locals { G with iterators := it :: G.iterators } target s m

theorem forIter (hE : E.Bare) (hover : Over Γ G) {it it' : Iter}
    (hm : Sits E Γ.locals { G with iterators := it' :: G.iterators } p s m) (hit : it'.Alike E.view it)
    (h : E.sheet.Jumps p .forIter target) :
    Comes E Γ G m (fun next s' m' => ∃ it', it'.Alike E.view next.2 ∧
      Advances E Γ.locals G (p + 3) target next.1 it' s' m') (Eval.effect it.next s) := by
  obtain ⟨operands, hhas, htarget⟩ := h
  have hiterators : m.iterators = it' :: G.iterators := hm.iterators
  have hnext : Act.perform E.host E.program E.sheet.page ⟨p, .forIter, operands⟩
      (m.onward E.entry (p + 1 + operands.length)) =
      Act.ended (fun next w => match next.1 with
        | some u => { m.onward E.entry (p + 3) with
          iterators := next.2 :: G.iterators, stack := m.stack.push u, world := w }
        | none => { m.onward E.entry target with iterators := next.2 :: G.iterators, world := w })
        (fun w => { m.onward E.entry (p + 3) with world := w }) (it'.next m.world) := by
    rw [width_of_jump htarget hhas]
    show Act.iterate _ (m.onward E.entry (p + 3)) = _
    unfold Act.iterate
    rw [get_bind_run, show (m.onward E.entry (p + 3)).iterators = _ from hiterators]
    refine Act.effect_bind (m := m.onward E.entry (p + 3)) (fun next w => ?_) fun _ => rfl
    obtain ⟨item?, it''⟩ := next
    cases item? with
    | some u => rfl
    | none =>
      show Act.jumpTo ⟨p, .forIter, operands⟩
        { m.onward E.entry (p + 3) with iterators := it'' :: G.iterators, world := w } = _
      exact Act.jumpTo_eq htarget rfl
  refine (hm.effects (G := G) hE hhas (Iter.next_agrees hit) hnext
    fun w => ⟨⟨⟨_, rfl⟩, hm.handlers, ⟨[it'], hiterators⟩, { hm.bears with }⟩, rfl⟩).imp ?_
  rintro ⟨item?, it₂⟩ s' m' ⟨⟨item'?, it₂'⟩, w, ⟨hitem, hit₂⟩, hw, hbindings, rfl, hcalm⟩
  refine ⟨it₂', hit₂, ?_⟩
  have hbears : Bears E.view Γ.locals { G with iterators := it₂' :: G.iterators } s'.bindings m.stack := by
    rw [hbindings]
    exact { hm.bears with }
  cases hitem with
  | none => exact ⟨rfl, hm.handlers, rfl, hm.size, hbears, hw, hcalm⟩
  | some huv => exact ⟨_, huv, pushed hbears hm.size (fun l hl => hover.slot_lt hl) rfl hm.handlers rfl rfl hw hcalm⟩

/-- A loop over items is over. -/
theorem endFor (hE : E.Bare) {it : Iter} (hm : Sits E locals { G with iterators := it :: G.iterators } p s m)
    (h : E.sheet.Has p .endFor []) : ∃ m', E.Leads m m' ∧ Sits E locals G (p + 1) s m' := by
  have hiterators : m.iterators = it :: G.iterators := hm.iterators
  obtain ⟨hleads, hcalm⟩ := hm.leads hE h { m.onward E.entry (p + 1) with iterators := G.iterators } (by
    show Act.endIteration (m.onward E.entry (p + 1)) = _
    unfold Act.endIteration
    rw [get_bind_run, show (m.onward E.entry (p + 1)).iterators = _ from hiterators]
    rfl)
  exact ⟨_, hleads, ⟨rfl, hm.handlers, rfl, hm.size, { hm.bears with }, hm.world, hcalm⟩⟩

/-! ## Regions -/

/-- The handler of a region that is opened on a ground. -/
def handler (G : Ground) (target : Nat) : Handler := ⟨1, G.slots.length, G.iterators.length, target⟩

/-- A region is opened. -/
theorem enterTry (hE : E.Bare) (hm : Sits E locals G p s m) (h : E.sheet.Jumps p .enterTry target) :
    ∃ m', E.Leads m m' ∧ Sits E locals { G with handlers := handler G target :: G.handlers } (p + 3) s m' := by
  obtain ⟨operands, hhas, htarget⟩ := h
  have hwidth := width_of_jump htarget hhas
  obtain ⟨hleads, hcalm⟩ := hm.leads hE hhas
    { m.onward E.entry (p + 3) with handlers := handler G target :: G.handlers } (by
    rw [hwidth]
    show Act.openTry ⟨p, .enterTry, operands⟩ (m.onward E.entry (p + 3)) = _
    unfold Act.openTry
    rw [htarget]
    show EStateM.Result.ok () { m.onward E.entry (p + 3) with
      handlers := ⟨1, m.stack.size, m.iterators.length, target⟩ :: m.handlers } = _
    rw [hm.size, hm.iterators, hm.handlers]
    rfl)
  exact ⟨_, hleads, ⟨rfl, rfl, hm.iterators, hm.size, { hm.bears with }, hm.world, hcalm⟩⟩

/-- A region is closed. -/
theorem endTry (hE : E.Bare) {h : Handler} (hm : Sits E locals { G with handlers := h :: G.handlers } p s m)
    (hhas : E.sheet.Has p .endTry []) : ∃ m', E.Leads m m' ∧ Sits E locals G (p + 1) s m' := by
  have hhandlers : m.handlers = h :: G.handlers := hm.handlers
  obtain ⟨hleads, hcalm⟩ := hm.leads hE hhas { m.onward E.entry (p + 1) with handlers := G.handlers } (by
    show Act.closeTry (m.onward E.entry (p + 1)) = _
    unfold Act.closeTry
    rw [get_bind_run, show (m.onward E.entry (p + 1)).handlers = _ from hhandlers]
    rfl)
  exact ⟨_, hleads, ⟨rfl, rfl, hm.iterators, hm.size, { hm.bears with }, hm.world, hcalm⟩⟩

end Sits

/-- A step that fails inside a region leads to its handler, with the error on top of the ground. -/
theorem Fallen.caught {cause : Cause} {e : Fault} {t : Machine} (hover : Over Γ G) (hactive : m.Active)
    (hcalm : m.Calm E.host E.program) (hstep : Act.step E.host E.program m = .error e t) (hcause : e.cause = cause)
    (hcatch : cause.isCatchable)
    (h : Fallen E Γ.locals { G with handlers := Sits.handler G target :: G.handlers } s.bindings t)
    (hw : t.world.Alike E.view s.world) :
    ∃ m', E.Leads m m' ∧ Yields E Γ.locals G target (.error (.string cause.message) none) s m' := by
  obtain ⟨ip, hframes⟩ := h.frames
  obtain ⟨its, hiterators⟩ := h.iterators
  subst hcause
  have hkeep : keepLast (Sits.handler G target).frameDepth t.frames = [entryFrame E.entry ip] := by
    rw [hframes]
    rfl
  obtain ⟨trace, hrecover⟩ : ∃ trace, Act.recover E.program e t = .ok () _ := Act.recover_eq hcatch h.handlers hkeep
  have hturn := Turns.single hactive ((Act.turn_of_error hstep).trans hrecover)
  refine ⟨_, hturn, .error (.string e.cause.message) (some trace), ⟨_, _, rfl, rfl⟩, ?_⟩
  have hheight : G.slots.length ≤ t.stack.size := h.bears.height
  have hsize : (t.stack.shrink G.slots.length).size = G.slots.length := by
    rw [Array.size_shrink]
    omega
  refine Sits.pushed (h.bears.of_take (List.prefix_refl _) (Nat.le_of_eq hsize.symm) fun j hj => ?_) hsize
    (fun l hl => hover.slot_lt hl) rfl rfl ?_ rfl hw (hcalm.after hturn)
  · rw [← Array.getElem?_toList, Array.toList_shrink, List.getElem?_take_of_lt hj, Array.getElem?_toList]
  · show keepLast G.iterators.length t.iterators = G.iterators
    rw [hiterators]
    unfold keepLast
    simp

end ShellVM
