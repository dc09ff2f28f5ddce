import ShellVM.Proofs.Meaning.Ground

/-!
# Code that stands for evaluations

`Comes` says what becomes of a machine that stands for a scene when the evaluator comes to a result: turns lead to a
machine that stands for the scene at the end. If the evaluation is left before its end, they lead to where a loop goes
on or is left, to the end of the page, or to a step that fails (`Escapes`). Evaluations one after the other are put
together by `Comes.bind`.
-/

namespace ShellVM

/-- The ground belongs to the scope. -/
structure Over (Γ : Scope) (G : Ground) : Prop where
  height : G.slots.length = Γ.height
  places : ∀ l ∈ Γ.locals, G.slots[l.slot.toNat]? = some none
  distinct : Γ.locals.Pairwise fun l l' => l.slot ≠ l'.slot
  plain : ∀ l ∈ Γ.locals, l.boxed = false
  handlers : Zone.attempts Γ.zones ≤ G.handlers.length
  iterators : Zone.eaches Γ.zones ≤ G.iterators.length
  loop : ∀ l, Γ.loop? = some l → l.shape.height ≤ Γ.height ∧ Zone.attempts l.shape.zones ≤ Zone.attempts Γ.zones ∧
    Zone.eaches l.shape.zones ≤ Zone.eaches Γ.zones

/-- What is left of a ground where a loop goes on or is left. -/
def Ground.leave (G : Ground) (Γ : Scope) (l : Loop) : Ground :=
  ⟨G.slots.take l.shape.height, G.handlers.drop (Zone.attempts Γ.zones - Zone.attempts l.shape.zones),
    G.iterators.drop (Zone.eaches Γ.zones - Zone.eaches l.shape.zones)⟩

/-- The frame of an entry page at an offset. -/
def entryFrame (entry : UInt16) (ip : Nat) : Frame := { Frame.new entry 0 true none with ip }

/-- A run of an entry page. -/
structure Stage where
  view : View
  host : Host
  program : Program
  entry : UInt16
  sheet : Sheet

/-- The entry page runs code that knows no variables but its own, and keeps them on the stack. -/
structure Stage.Bare (E : Stage) : Prop where
  page : E.program.page? E.entry = some E.sheet.page
  captures : E.sheet.captures = []
  captured : E.sheet.captured = []

/-- Turns of the run lead from one machine to another. -/
abbrev Stage.Leads (E : Stage) : Machine → Machine → Prop := Turns E.host E.program Machine.Active

section

variable {E : Stage} {Γ Γ' : Scope} {G G' : Ground} {p : Nat} {s s' : Scene} {m m' : Machine} {locals new : List Local}

theorem Machine.Calm.after (h : m.Calm E.host E.program) (hm : E.Leads m m') :
    m'.Calm E.host E.program := fun s hs => h s (hm.trans hs)

/-- The machine stands for the scene, at an offset of the entry page and on top of a ground. -/
structure Sits (E : Stage) (locals : List Local) (G : Ground) (p : Nat) (s : Scene) (m : Machine) : Prop where
  frames : m.frames = [entryFrame E.entry p]
  handlers : m.handlers = G.handlers
  iterators : m.iterators = G.iterators
  size : m.stack.size = G.slots.length
  bears : Bears E.view locals G s.bindings m.stack
  world : m.world.Alike E.view s.world
  calm : m.Calm E.host E.program

/-- What a failed step leaves of a machine that stands for a scene with these variables: there may be more on its
stacks. -/
structure Fallen (E : Stage) (locals : List Local) (G : Ground) (bindings : List (String × Value))
    (m : Machine) : Prop where
  frames : ∃ ip, m.frames = [entryFrame E.entry ip]
  handlers : m.handlers = G.handlers
  iterators : ∃ its, m.iterators = its ++ G.iterators
  bears : Bears E.view locals G bindings m.stack

/-- The machine stands for the scene with a value on top of the ground. -/
def Yields (E : Stage) (locals : List Local) (G : Ground) (p : Nat) (v : Value) (s : Scene) (m : Machine) : Prop :=
  ∃ u, u.Alike E.view v ∧ Sits E locals (G.push u) p s m

/-- What becomes of the machine `m` if an evaluation in the scope `Γ` is left before its end. -/
def Escapes (E : Stage) (Γ : Scope) (G : Ground) (m : Machine) : Escape → Scene → Prop
  | .break, s => ∃ l m', Γ.loop? = some l ∧ E.Leads m m' ∧ Sits E Γ.locals (G.leave Γ l) l.exit s m'
  | .continue, s => ∃ l m', Γ.loop? = some l ∧ E.Leads m m' ∧ Sits E Γ.locals (G.leave Γ l) l.start s m'
  | .return v, s => ∃ u m', u.Alike E.view v ∧ E.Leads m m' ∧
      m'.frames = [entryFrame E.entry E.sheet.page.code.size] ∧ m'.stack = #[u] ∧ m'.world.Alike E.view s.world
  | .fail cause, s => cause.isCatchable ∧ ∃ m' e t, E.Leads m m' ∧ m'.Active ∧
      Act.step E.host E.program m' = .error e t ∧ e.cause = cause ∧ Fallen E Γ.locals G s.bindings t ∧
      t.world.Alike E.view s.world
  | .stuck, _ => True

/-- What becomes of the machine `m` if an evaluation in the scope `Γ` comes to a result. -/
def Comes {α : Type} (E : Stage) (Γ : Scope) (G : Ground) (m : Machine) (Q : α → Scene → Machine → Prop) :
    EStateM.Result Escape Scene α → Prop
  | .ok a s => ∃ m', E.Leads m m' ∧ Q a s m'
  | .error escape s => Escapes E Γ G m escape (s.keep Γ.locals.length)

/-! ## Scenes -/

@[simp] theorem Scene.keep_bindings (s : Scene) (n : Nat) :
    (s.keep n).bindings = s.bindings.drop (s.bindings.length - n) := rfl

theorem Scene.keep_eq_self {n : Nat} (h : s.bindings.length ≤ n) : s.keep n = s := by
  unfold Scene.keep
  rw [Nat.sub_eq_zero_of_le h, List.drop_zero]

theorem Scene.keep_keep {n k : Nat} (h : n ≤ k) : (s.keep k).keep n = s.keep n := by
  unfold Scene.keep
  simp only [List.length_drop, List.drop_drop, Scene.mk.injEq, and_true]
  congr 1
  omega

theorem Bears.length {V : View} {bindings : List (String × Value)} {stack : Array Value}
    (h : Bears V locals G bindings stack) : bindings.length = locals.length := h.bindings.length_eq.symm

theorem Sits.length (h : Sits E locals G p s m) : s.bindings.length = locals.length := h.bears.length

/-! ## Results -/

/-- Turns before an escape. -/
theorem Escapes.before {escape : Escape} (hm : E.Leads m m')
    (h : Escapes E Γ G m' escape s) : Escapes E Γ G m escape s := by
  cases escape with
  | «break» =>
    obtain ⟨l, m'', hl, hturns, hsits⟩ := h
    exact ⟨l, m'', hl, hm.trans hturns, hsits⟩
  | «continue» =>
    obtain ⟨l, m'', hl, hturns, hsits⟩ := h
    exact ⟨l, m'', hl, hm.trans hturns, hsits⟩
  | «return» v =>
    obtain ⟨u, m'', huv, hturns, h⟩ := h
    exact ⟨u, m'', huv, hm.trans hturns, h⟩
  | fail cause =>
    obtain ⟨hcatch, m'', e, t, hturns, h⟩ := h
    exact ⟨hcatch, m'', e, t, hm.trans hturns, h⟩
  | stuck => trivial

namespace Comes

variable {α β : Type} {Q : α → Scene → Machine → Prop} {R : β → Scene → Machine → Prop} {x : Eval α} {f : α → Eval β}

theorem before {r : EStateM.Result Escape Scene α} (hm : E.Leads m m')
    (h : Comes E Γ G m' Q r) : Comes E Γ G m Q r := by
  cases r with
  | ok a s =>
    obtain ⟨m'', hturns, hQ⟩ := h
    exact ⟨m'', hm.trans hturns, hQ⟩
  | error escape s => exact Escapes.before hm h

theorem ok {a : α} (h : Q a s m) : Comes E Γ G m Q (.ok a s) := ⟨m, .refl, h⟩

/-- One evaluation after the other. -/
theorem bind (h : Comes E Γ G m Q (x s)) (h' : ∀ a s' m', Q a s' m' → Comes E Γ G m' R (f a s')) :
    Comes E Γ G m R ((x >>= f) s) := by
  refine bind_run_cases (fun a s' hx => ?_) fun escape s' hx => ?_
  · rw [hx] at h
    obtain ⟨m', hturns, hQ⟩ := h
    exact (h' a s' m' hQ).before hturns
  · rw [hx] at h
    exact h

/-- Turns after an evaluation. -/
theorem after {Q' : α → Scene → Machine → Prop} {r : EStateM.Result Escape Scene α}
    (h : Comes E Γ G m Q r) (hQ : ∀ a s m, Q a s m → ∃ m', E.Leads m m' ∧ Q' a s m') : Comes E Γ G m Q' r := by
  cases r with
  | ok a s =>
    obtain ⟨m', hturns, h⟩ := h
    obtain ⟨m'', hturns', h'⟩ := hQ a s m' h
    exact ⟨m'', hturns.trans hturns', h'⟩
  | error escape s => exact h

theorem imp {Q' : α → Scene → Machine → Prop} {r : EStateM.Result Escape Scene α}
    (h : Comes E Γ G m Q r) (hQ : ∀ a s m, Q a s m → Q' a s m) : Comes E Γ G m Q' r := by
  cases r with
  | ok a s =>
    obtain ⟨m', hturns, h⟩ := h
    exact ⟨m', hturns, hQ a s m' h⟩
  | error escape s => exact h

/-- The end of a scope. -/
theorem enclosed (hs : s.bindings.length = Γ.locals.length) (h : Comes E Γ G m Q (x s)) :
    Comes E Γ G m (fun a t m' => ∃ s', t = s'.keep Γ.locals.length ∧ Q a s' m') (Eval.enclosed x s) := by
  unfold Eval.enclosed
  rw [hs]
  cases hx : x s with
  | ok a s' =>
    rw [hx] at h
    obtain ⟨m', hturns, hQ⟩ := h
    exact ⟨m', hturns, s', rfl, hQ⟩
  | error escape s' =>
    rw [hx] at h
    show Escapes E Γ G m escape ((s'.keep _).keep _)
    rw [Scene.keep_keep (Nat.le_refl _)]
    exact h

end Comes

/-! ## Inner scopes -/

/-- The ground `G'` of a scope inside another one: some values and variables more, and some more regions and loops
over items. -/
structure Within (Γ : Scope) (G : Ground) (Γ' : Scope) (G' : Ground) : Prop where
  locals : ∃ new, Γ'.locals = new ++ Γ.locals
  slots : G.slots <+: G'.slots
  handlers : ∃ hs, G'.handlers = hs ++ G.handlers ∧ Zone.attempts Γ'.zones = hs.length + Zone.attempts Γ.zones
  iterators : ∃ its, G'.iterators = its ++ G.iterators ∧ Zone.eaches Γ'.zones = its.length + Zone.eaches Γ.zones

/-- A loop around both leaves the same of the grounds. -/
theorem Within.leave {l : Loop} (hw : Within Γ G Γ' G') (hover : Over Γ G) (hl : Γ.loop? = some l) :
    G'.leave Γ' l = G.leave Γ l := by
  obtain ⟨hheight, hattempts, heaches⟩ := hover.loop l hl
  obtain ⟨more, hmore⟩ := hw.slots
  obtain ⟨hs, hhandlers, hcount⟩ := hw.handlers
  obtain ⟨its, hiterators, hcount'⟩ := hw.iterators
  unfold Ground.leave
  rw [← hmore, List.take_append_of_le_length (by rw [hover.height]; exact hheight), hhandlers, hcount,
    Nat.add_sub_assoc hattempts, List.drop_length_add_append, hiterators, hcount', Nat.add_sub_assoc heaches,
    List.drop_length_add_append]

theorem Bears.keep {V : View} {s : Scene} {stack : Array Value}
    (h : Bears V (new ++ locals) G (s.keep (new ++ locals).length).bindings stack) :
    Bears V locals G (s.keep locals.length).bindings stack := by
  have hlength := h.length
  have hdrop := h.drop
  rw [Scene.keep_bindings] at hlength hdrop
  rw [Scene.keep_bindings]
  simp only [List.length_drop, List.length_append] at hlength
  rw [List.drop_drop, List.length_append] at hdrop
  have heq : s.bindings.length - (new.length + locals.length) + new.length = s.bindings.length - locals.length := by
    omega
  rwa [heq] at hdrop

/-- The machine stands for the scene without the variables of an inner scope. -/
theorem Sits.outward (hw : Within Γ G Γ' G') {H : Ground} (h : Sits E Γ'.locals H p (s.keep Γ'.locals.length) m) :
    Sits E Γ.locals H p (s.keep Γ.locals.length) m := by
  obtain ⟨new, hlocals⟩ := hw.locals
  rw [hlocals] at h
  exact { h with bears := h.bears.keep }

/-- What a failed step in an inner scope leaves, if no region lies between. -/
theorem Fallen.outward (hw : Within Γ G Γ' G') (hhandlers : G'.handlers = G.handlers)
    (h : Fallen E Γ'.locals G' (s.keep Γ'.locals.length).bindings m) :
    Fallen E Γ.locals G (s.keep Γ.locals.length).bindings m := by
  obtain ⟨new, hlocals⟩ := hw.locals
  obtain ⟨its, hiterators, -⟩ := hw.iterators
  obtain ⟨its', hits⟩ := h.iterators
  have hbears := h.bears
  rw [hlocals] at hbears
  exact {
    frames := h.frames
    handlers := h.handlers.trans hhandlers
    iterators := ⟨its' ++ its, by rw [hits, hiterators, List.append_assoc]⟩
    bears := hbears.keep.of_take hw.slots (Nat.le_trans hw.slots.length_le hbears.height) fun _ _ => rfl }

/-- To leave an evaluation in an inner scope is to leave one in the outer scope, unless a loop or a region lies
between. -/
theorem Escapes.outward {escape : Escape} (hw : Within Γ G Γ' G') (hhandlers : G'.handlers = G.handlers)
    (hover : Over Γ G) (hloop : Γ'.loop? = Γ.loop?) (h : Escapes E Γ' G' m escape (s.keep Γ'.locals.length)) :
    Escapes E Γ G m escape (s.keep Γ.locals.length) := by
  cases escape with
  | «break» =>
    obtain ⟨l, m', hl, hturns, hsits⟩ := h
    rw [hloop] at hl
    rw [hw.leave hover hl] at hsits
    exact ⟨l, m', hl, hturns, hsits.outward hw⟩
  | «continue» =>
    obtain ⟨l, m', hl, hturns, hsits⟩ := h
    rw [hloop] at hl
    rw [hw.leave hover hl] at hsits
    exact ⟨l, m', hl, hturns, hsits.outward hw⟩
  | «return» v => exact h
  | fail cause =>
    obtain ⟨hcatch, m', e, t, hturns, hactive, hstep, hcause, hfallen, h⟩ := h
    exact ⟨hcatch, m', e, t, hturns, hactive, hstep, hcause, hfallen.outward hw hhandlers, h⟩
  | stuck => trivial

theorem Comes.outward {α : Type} {Q : α → Scene → Machine → Prop} {r : EStateM.Result Escape Scene α}
    (hw : Within Γ G Γ' G') (hhandlers : G'.handlers = G.handlers) (hover : Over Γ G) (hloop : Γ'.loop? = Γ.loop?)
    (h : Comes E Γ' G' m Q r) : Comes E Γ G m Q r := by
  cases r with
  | ok a s => exact h
  | error escape s => exact Escapes.outward hw hhandlers hover hloop h

end

end ShellVM
