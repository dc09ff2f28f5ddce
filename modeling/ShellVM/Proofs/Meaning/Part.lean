import ShellVM.Proofs.Emission.Expression
import ShellVM.Proofs.Meaning.Instruction

/-!
# Code for parts

Code that leaves a value does what an evaluation does (`Stage.Runs`); code that leaves none may bring new variables
into scope (`Stage.Walks`), and the items of a block do both (`Stage.Delivers`). Here are operands and operations on
them, scopes and blocks, branches, and `and` and `or`.
-/

namespace ShellVM

variable {E : Stage} {Γ Γ' : Scope} {G G' : Ground} {p p' : Nat} {s s' : Scene} {m m' : Machine} {u v : Value}
  {us vs : List Value} {locals new : List Local}

/-! ## Grounds of inner scopes -/

theorem Over.raise (h : Over Γ G) (us : List Value) : Over (Γ.raise us.length) (G.pushAll us) where
  height := by rw [Ground.length_pushAll, h.height]; rfl
  places := fun l hl => by
    show (G.slots ++ us.map some)[l.slot.toNat]? = some none
    rw [List.getElem?_append_left (h.slot_lt hl)]
    exact h.places l hl
  distinct := h.distinct
  plain := h.plain
  handlers := h.handlers
  iterators := h.iterators
  loop := fun l hl => ⟨Nat.le_add_right_of_le (h.loop l hl).1, (h.loop l hl).2⟩

theorem Over.inner (h : Over Γ G) : Over Γ.inner G := { h with }

/-- A local on top of the stack. -/
theorem Over.grow (h : Over Γ G) {l : Local} (hslot : l.slot.toNat = Γ.height) (hplain : l.boxed = false) :
    Over (Γ.grow [l]) (G.grow 1) where
  height := by rw [Ground.length_grow, h.height]; rfl
  places := fun l' hl' => by
    show (G.slots ++ [none])[l'.slot.toNat]? = some none
    rcases List.mem_cons.1 hl' with rfl | hl'
    · rw [hslot, ← h.height, List.getElem?_append_right (Nat.le_refl _), Nat.sub_self]
      rfl
    · rw [List.getElem?_append_left (h.slot_lt hl')]
      exact h.places l' hl'
  distinct := by
    refine List.pairwise_cons.2 ⟨fun l' hl' heq => ?_, h.distinct⟩
    have hlt := h.slot_lt hl'
    rw [← heq, hslot, h.height] at hlt
    exact Nat.lt_irrefl _ hlt
  plain := fun l' hl' => by
    rcases List.mem_cons.1 hl' with rfl | hl'
    · exact hplain
    · exact h.plain l' hl'
  handlers := h.handlers
  iterators := h.iterators
  loop := fun l hl => ⟨Nat.le_add_right_of_le (h.loop l hl).1, (h.loop l hl).2⟩

theorem Within.raise (Γ : Scope) (G : Ground) (us : List Value) : Within Γ G (Γ.raise us.length) (G.pushAll us) where
  locals := ⟨[], rfl⟩
  slots := List.prefix_append _ _
  handlers := ⟨[], rfl, (Nat.zero_add _).symm⟩
  iterators := ⟨[], rfl, (Nat.zero_add _).symm⟩

theorem Within.grow (Γ : Scope) (G : Ground) (new : List Local) : Within Γ G (Γ.grow new) (G.grow new.length) where
  locals := ⟨new, rfl⟩
  slots := List.prefix_append _ _
  handlers := ⟨[], rfl, (Nat.zero_add _).symm⟩
  iterators := ⟨[], rfl, (Nat.zero_add _).symm⟩

theorem Within.inner (Γ : Scope) (G : Ground) : Within Γ G Γ.inner G where
  locals := ⟨[], rfl⟩
  slots := List.prefix_refl _
  handlers := ⟨[], rfl, (Nat.zero_add _).symm⟩
  iterators := ⟨[], rfl, (Nat.zero_add _).symm⟩

/-! ## Code and evaluations -/

/-- The code of a part leaves the value of an evaluation. -/
def Stage.Runs (E : Stage) (part : Part) (x : Eval Value) : Prop :=
  ∀ ⦃Γ : Scope⦄ ⦃G : Ground⦄ ⦃p p' : Nat⦄ ⦃s : Scene⦄ ⦃m : Machine⦄, part Γ p p' → Over Γ G → Sits E Γ.locals G p s m →
    Comes E Γ G m (Yields E Γ.locals G p') (x s)

/-- There are new variables, and nothing else is left. -/
def Widens (E : Stage) (Γ : Scope) (G : Ground) (Γ' : Scope) (p : Nat) (s : Scene) (m : Machine) : Prop :=
  ∃ new, Γ' = Γ.grow new ∧ Over Γ' (G.grow new.length) ∧ Sits E Γ'.locals (G.grow new.length) p s m

/-- The code leaves no value, and the evaluation gives nil. -/
def Stage.Walks (E : Stage) (code : Layout) (x : Eval Value) : Prop :=
  ∀ ⦃Γ : Scope⦄ ⦃G : Ground⦄ ⦃p : Nat⦄ ⦃Γ' : Scope⦄ ⦃p' : Nat⦄ ⦃s : Scene⦄ ⦃m : Machine⦄, code Γ p Γ' p' → Over Γ G →
    Sits E Γ.locals G p s m → Comes E Γ G m (fun v s' m' => v = .nil ∧ Widens E Γ G Γ' p' s' m') (x s)

/-- The code leaves the value of an evaluation on top of new variables. -/
def Stage.Delivers (E : Stage) (code : Layout) (x : Eval Value) : Prop :=
  ∀ ⦃Γ : Scope⦄ ⦃G : Ground⦄ ⦃p : Nat⦄ ⦃Γ' : Scope⦄ ⦃p' : Nat⦄ ⦃s : Scene⦄ ⦃m : Machine⦄, code Γ p Γ' p' → Over Γ G →
    Sits E Γ.locals G p s m → Comes E Γ G m (fun v s' m' => ∃ new, Γ' = (Γ.grow new).push ∧
      Yields E (new ++ Γ.locals) (G.grow new.length) p' v s' m') (x s)

/-- What the code of an expression does. -/
def Stage.Does (E : Stage) (e : Expr) (x : Eval Value) : Prop :=
  if e.producesValue then E.Runs (fun Γ p p' => e.Lies E.sheet Γ p Γ.push p') x else E.Walks (e.Lies E.sheet) x

/-! ## Operands -/

section Operands

variable {α : Type} {R : α → Scene → Machine → Prop} {part : Part} {x : Eval Value} {f : Value → Eval α}

/-- An operand, which comes to lie on top of others. -/
theorem Stage.Runs.operand (hx : E.Runs part x) (hover : Over Γ G) (hm : Sits E Γ.locals (G.pushAll us) p s m)
    (h : part (Γ.raise us.length) p p')
    (hrest : ∀ v s' m' u, u.Alike E.view v → Sits E Γ.locals (G.pushAll (us ++ [u])) p' s' m' →
      Comes E Γ G m' R (f v s')) : Comes E Γ G m R ((x >>= f) s) := by
  refine ((hx h (hover.raise us) hm).outward (Within.raise Γ G us) rfl hover rfl).bind fun v s' m' hv => ?_
  obtain ⟨u, huv, hsits⟩ := hv
  rw [Ground.pushAll_push] at hsits
  exact hrest v s' m' u huv hsits

/-- The first operand. -/
theorem Stage.Runs.first (hx : E.Runs part x) (hover : Over Γ G) (hm : Sits E Γ.locals G p s m) (h : part Γ p p')
    (hrest : ∀ v s' m' u, u.Alike E.view v → Sits E Γ.locals (G.pushAll [u]) p' s' m' → Comes E Γ G m' R (f v s')) :
    Comes E Γ G m R ((x >>= f) s) := by
  have hnone : Sits E Γ.locals (G.pushAll []) p s m := by rwa [Ground.pushAll_nil]
  exact hx.operand hover hnone h hrest

/-- A row of operands. -/
theorem values_run {S : Sheet} (hS : S = E.sheet) {run : Expr → Eval Value} {items : List Expr}
    (h : ∀ e ∈ items, E.Runs (E.sheet.valued e.producesValue (e.Lies E.sheet)) (Eval.enclosed (run e)))
    {g : List Value → Eval α} (hover : Over Γ G) (hm : Sits E Γ.locals (G.pushAll us) p s m)
    (hlies : ValuesLie items S (Γ.raise us.length) p p')
    (hrest : ∀ vs s' m' us', List.Forall₂ (Value.Alike E.view) us' vs → us'.length = items.length →
      Sits E Γ.locals (G.pushAll (us ++ us')) p' s' m' → Comes E Γ G m' R (g vs s')) :
    Comes E Γ G m R ((evaluateAll run items >>= g) s) := by
  induction items generalizing us p s m g with
  | nil =>
    rw [ValuesLie] at hlies
    subst hlies
    exact hrest [] s m [] .nil rfl (by rwa [List.append_nil])
  | cons e rest ih =>
    rw [ValuesLie] at hlies
    subst hS
    obtain ⟨p₁, hfirst, hothers⟩ := hlies
    unfold evaluateAll
    rw [bind_assoc]
    refine (h e List.mem_cons_self).operand hover hm hfirst fun v s₁ m₁ u huv hsits => ?_
    rw [bind_assoc]
    refine ih (fun e' he' => h e' (List.mem_cons_of_mem e he')) hsits ?_ fun vs s' m' us' hvs hlength hsits => ?_
    · rwa [List.length_append, List.length_singleton, ← Scope.raise_raise]
    · rw [List.append_assoc] at hsits
      exact hrest (v :: vs) s' m' (u :: us') (.cons huv hvs) (by simp [hlength]) hsits

end Operands

/-! ## Scopes -/

/-- The value on top becomes a variable. -/
theorem Yields.declare (hE : E.Bare) {depth : Nat} {name : String} {l : Local} (hover : Over Γ G)
    (hm : Yields E Γ.locals G p v s m) (h : E.sheet.declares depth name Γ.height p l p') :
    p' = p ∧ Over (Γ.grow [l]) (G.grow 1) ∧
      Sits E (l :: Γ.locals) (G.grow 1) p { s with bindings := (name, v) :: s.bindings } m := by
  obtain ⟨u, huv, hsits⟩ := hm
  obtain ⟨hslot, rfl, hp⟩ := h
  rw [hE.captured] at hp ⊢
  have hplace : Γ.height.toUInt8.toNat = Γ.height := by
    rw [UInt8.toNat_ofNat', Nat.mod_eq_of_lt (by omega)]
  refine ⟨hp, hover.grow hplace rfl, ?_⟩
  exact {
    frames := hsits.frames
    handlers := hsits.handlers
    iterators := hsits.iterators
    size := by rw [hsits.size, Ground.length_push, Ground.length_grow]
    bears := hsits.bears.declare huv (hplace.trans hover.height.symm)
    world := hsits.world
    calm := hsits.calm }

/-- The end of a scope: its variables are dropped from under the value. -/
theorem Yields.endScope (hE : E.Bare) (hover : Over Γ G) (hm : Yields E (new ++ Γ.locals) (G.grow new.length) p v s m)
    (h : E.sheet.drops .unwind new.length p p') :
    ∃ m', E.Leads m m' ∧ Yields E Γ.locals G p' v (s.keep Γ.locals.length) m' := by
  obtain ⟨u, huv, hsits⟩ := hm
  have hdrops : E.sheet.drops .unwind ((G.grow new.length).slots.length - G.slots.length) p p' := by
    rwa [Ground.length_grow, Nat.add_sub_cancel_left]
  have hle : G.slots.length ≤ (G.grow new.length).slots.length := by
    rw [Ground.length_grow]
    exact Nat.le_add_right _ _
  obtain ⟨m', hleads, hsits⟩ := hsits.drop.unwind hE hle (fun l hl => hover.slot_lt hl) hdrops
  rw [Ground.cut_grow] at hsits
  exact ⟨m', hleads, u, huv, hsits⟩

/-- A block is a scope. -/
theorem block_runs (hE : E.Bare) {items : Layout} {x : Eval Value} (h : E.Delivers items x) :
    E.Runs (E.sheet.block items) (Eval.enclosed x) := by
  rintro Γ G p p' s m ⟨new, p₁, -, hitems, hdrops⟩ hover hm
  have hx := (h hitems hover.inner hm).outward (Within.inner Γ G) rfl hover rfl
  refine (Comes.enclosed hm.length hx).after ?_
  rintro v _ m' ⟨s', rfl, new', hscope, hyields⟩
  obtain rfl : new = new' := List.append_cancel_right (congrArg Scope.locals hscope)
  exact hyields.endScope hE hover hdrops

/-- Code that leaves no value, followed by nil. -/
theorem thenNil_delivers (hE : E.Bare) {code : Layout} {x : Eval Value} (h : E.Walks code x) :
    E.Delivers (E.sheet.thenNil code) x := by
  rintro Γ G p Γ' p' s m ⟨Γ₁, p₁, hcode, hnil, rfl⟩ hover hm
  refine (h hcode hover hm).after ?_
  rintro v s' m' ⟨rfl, new, rfl, hover', hsits⟩
  obtain ⟨m'', hleads, hyields⟩ := hsits.nil (Γ := Γ.grow new) hE (fun l hl => hover'.slot_lt hl) hnil
  exact ⟨m'', hleads, new, rfl, hyields⟩

/-- An expression in the place of a value is a scope of its own. -/
theorem Stage.Does.runs (hE : E.Bare) {e : Expr} {x : Eval Value} (h : E.Does e x) :
    E.Runs (E.sheet.valued e.producesValue (e.Lies E.sheet)) (Eval.enclosed x) := by
  unfold Stage.Does at h
  unfold Sheet.valued
  cases hproduces : e.producesValue with
  | false =>
    rw [hproduces] at h
    exact block_runs hE (thenNil_delivers hE h)
  | true =>
    rw [hproduces] at h
    intro Γ G p p' s m hcode hover hm
    refine (Comes.enclosed hm.length (h hcode hover hm)).imp ?_
    rintro v _ m' ⟨s', rfl, u, huv, hsits⟩
    rw [Scene.keep_eq_self (Nat.le_of_eq hsits.length)]
    exact ⟨u, huv, hsits⟩

/-- A declaration. -/
theorem declaration_walks (hE : E.Bare) {name : String} {value : Part} {x : Eval Value} (h : E.Runs value x) :
    E.Walks (E.sheet.declaration [name] value) (do Eval.declare name (← x); return .nil) := by
  rintro Γ G p Γ' p' s m ⟨p₁, new, hvalue, ⟨l, hdeclares, rfl⟩, rfl⟩ hover hm
  refine Comes.bind (h hvalue hover hm) fun v s' m' hyields => ?_
  obtain ⟨rfl, hover', hsits⟩ := hyields.declare hE hover hdeclares
  exact .ok ⟨rfl, [l], rfl, hover', hsits⟩

/-- One after the other, the second in the scope that the first leaves. -/
theorem Widens.delivers {Γ₁ : Scope} {x : Eval Value} {code : Layout} (h : Widens E Γ G Γ₁ p s m) (hover : Over Γ G)
    (hcode : code Γ₁ p Γ' p') (hx : E.Delivers code x) :
    Comes E Γ G m (fun v s' m' => ∃ new, Γ' = (Γ.grow new).push ∧
      Yields E (new ++ Γ.locals) (G.grow new.length) p' v s' m') (x s) := by
  obtain ⟨new, rfl, hover', hsits⟩ := h
  refine ((hx hcode hover' hsits).outward (Within.grow Γ G new) rfl hover rfl).imp ?_
  rintro v s' m' ⟨new', rfl, hyields⟩
  refine ⟨new' ++ new, ?_, ?_⟩
  · simp only [Scope.grow, Scope.push, Scope.raise, List.append_assoc, List.length_append,
      Scope.mk.injEq, true_and, and_true]
    omega
  · rw [Ground.grow_grow, Nat.add_comm, ← List.length_append] at hyields
    rwa [List.append_assoc]

/-- The items of a block. -/
theorem items_deliver (hE : E.Bare) {S : Sheet} (hS : S = E.sheet) {run : Expr → Eval Value} {items : List Expr}
    (h : ∀ e ∈ items, E.Does e (run e)) : E.Delivers (ItemsLie items S) (evaluateItems run items) := by
  subst hS
  match items with
  | [] =>
    rintro Γ G p Γ' p' s m ⟨hnil, rfl⟩ hover hm
    obtain ⟨m', hleads, hyields⟩ := hm.nil (Γ := Γ) hE (fun l hl => hover.slot_lt hl) hnil
    exact ⟨m', hleads, [], rfl, by rwa [List.length_nil, Ground.grow_zero]⟩
  | [e] =>
    have he := h e List.mem_cons_self
    have hleaves := e.lies_leaves E.sheet
    unfold Stage.Does at he
    unfold ItemsLie
    cases hproduces : e.producesValue with
    | true =>
      rw [hproduces] at he hleaves
      intro Γ G p Γ' p' s m hcode hover hm
      obtain rfl : Γ' = Γ.push := hleaves hcode
      refine (he hcode hover hm).imp fun v s' m' hyields => ⟨[], rfl, ?_⟩
      rwa [List.length_nil, Ground.grow_zero]
    | false =>
      rw [hproduces] at he
      exact thenNil_delivers hE he
  | e :: e' :: rest =>
    have he := h e List.mem_cons_self
    have hleaves := e.lies_leaves E.sheet
    have hrest := items_deliver hE rfl fun e'' he'' => h e'' (List.mem_cons_of_mem e he'')
    unfold Stage.Does at he
    unfold ItemsLie
    intro Γ G p Γ' p' s m hcode hover hm
    refine Comes.bind (Q := fun _ s' m' => ∃ Γ₁ p₁, Widens E Γ G Γ₁ p₁ s' m' ∧
      ItemsLie (e' :: rest) E.sheet Γ₁ p₁ Γ' p') ?_
      fun v s' m' ⟨Γ₁, p₁, hwidens, hothers⟩ => hwidens.delivers hover hothers hrest
    cases hproduces : e.producesValue with
    | true =>
      rw [hproduces] at he hcode
      obtain ⟨p₁, hfirst, hpop, hothers⟩ := hcode
      refine (he hfirst hover hm).after ?_
      rintro v s' m' ⟨u, -, hsits⟩
      obtain ⟨m'', hleads, hsits⟩ := hsits.pop hE hpop
      refine ⟨m'', hleads, Γ, p₁ + 1, ⟨[], rfl, ?_, ?_⟩, hothers⟩
      · rwa [List.length_nil, Ground.grow_zero]
      · rwa [List.length_nil, Ground.grow_zero]
    | false =>
      rw [hproduces] at he hcode
      obtain ⟨Γ₁, p₁, hfirst, hothers⟩ := hcode
      exact (he hfirst hover hm).imp fun v s' m' h => ⟨Γ₁, p₁, h.2, hothers⟩

end ShellVM
