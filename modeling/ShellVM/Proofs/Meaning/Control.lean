import ShellVM.Proofs.Meaning.Part

/-!
# Code for loops and regions

Loops go round as the evaluator does (`loop_walks`, `each_walks`); what leaves a loop or the page closes the regions
between and drops the values on top first (`leaveLoop_walks`, `nextRound_walks`, `leavePage_walks`). A region catches
what a step in its body fails with, in the scope in which it was opened (`attempt_runs`).
-/

namespace ShellVM

variable {E : Stage} {Γ Γ' Δ : Scope} {G G' : Ground} {p p' target : Nat} {s s' : Scene} {m m' : Machine} {u v : Value}
  {locals : List Local} {declared : Local} {l : Loop} {part : Part} {x y z : Eval Value}

/-! ## Exits -/

/-- Zones are closed, innermost first. -/
theorem Sits.closes (hE : E.Bare) : ∀ {zones : List Zone} {G : Ground} {p : Nat} {m : Machine}, Sits E locals G p s m →
    Zone.attempts zones ≤ G.handlers.length → Zone.eaches zones ≤ G.iterators.length → E.sheet.closes zones p p' →
    ∃ m', E.Leads m m' ∧ Sits E locals
      ⟨G.slots, G.handlers.drop (Zone.attempts zones), G.iterators.drop (Zone.eaches zones)⟩ p' s m'
  | [], _, _, m, hm, _, _, h => by
    subst h
    exact ⟨m, .refl, hm⟩
  | .attempt _ :: zones, ⟨slots, handlers, iterators⟩, _, m, hm, hhandlers, hiterators, ⟨hhas, hrest⟩ => by
    cases handlers with
    | nil => cases hhandlers
    | cons h handlers =>
      obtain ⟨m₁, hleads, hsits⟩ := Sits.endTry (G := ⟨slots, handlers, iterators⟩) hE hm hhas
      obtain ⟨m₂, hleads', hsits⟩ := hsits.closes hE (Nat.le_of_succ_le_succ hhandlers) hiterators hrest
      exact ⟨m₂, hleads.trans hleads', hsits⟩
  | .each :: zones, ⟨slots, handlers, iterators⟩, _, m, hm, hhandlers, hiterators, ⟨hhas, hrest⟩ => by
    cases iterators with
    | nil => cases hiterators
    | cons it iterators =>
      obtain ⟨m₁, hleads, hsits⟩ := Sits.endFor (G := ⟨slots, handlers, iterators⟩) hE hm hhas
      have hattempts : Zone.attempts zones ≤ handlers.length := hhandlers
      obtain ⟨m₂, hleads', hsits⟩ := hsits.closes hE hattempts (Nat.le_of_succ_le_succ hiterators) hrest
      exact ⟨m₂, hleads.trans hleads', hsits⟩

/-- What lies above the body of a loop is left. -/
theorem Sits.unwinds (hE : E.Bare) (hover : Over Γ G) (hl : Γ.loop? = some l) (hm : Sits E Γ.locals G p s m)
    (h : E.sheet.unwinds Γ l p p') : ∃ m', E.Leads m m' ∧ Sits E Γ.locals (G.leave Γ l) p' s m' := by
  obtain ⟨inner, p₁, hzones, hcloses, hdrops⟩ := h
  obtain ⟨hheight, -, -⟩ := hover.loop l hl
  have hattempts : Zone.attempts Γ.zones - Zone.attempts l.shape.zones = Zone.attempts inner := by
    rw [hzones, Zone.attempts_append, Nat.add_sub_cancel]
  have heaches : Zone.eaches Γ.zones - Zone.eaches l.shape.zones = Zone.eaches inner := by
    rw [hzones, Zone.eaches_append, Nat.add_sub_cancel]
  have hhandlers := hover.handlers
  have hiterators := hover.iterators
  obtain ⟨m₁, hleads, hsits⟩ := hm.closes hE (by omega) (by omega) hcloses
  rw [← hover.height] at hheight hdrops
  obtain ⟨m₂, hleads', hsits⟩ := hsits.popN hE hheight hdrops
  refine ⟨m₂, hleads.trans hleads', ?_⟩
  unfold Ground.leave
  rwa [hattempts, heaches]

theorem leaveLoop_walks (hE : E.Bare) : E.Walks E.sheet.leaveLoop (throw .break) := by
  rintro Γ G p Γ' p' s m ⟨l, p₁, hl, hunwinds, hjump, -, -⟩ hover hm
  obtain ⟨m₁, hleads, hsits⟩ := hm.unwinds hE hover hl hunwinds
  obtain ⟨m₂, hleads', hsits⟩ := hsits.jump hE (.inl rfl) hjump
  refine ⟨l, m₂, hl, hleads.trans hleads', ?_⟩
  rwa [Scene.keep_eq_self (Nat.le_of_eq hm.length)]

theorem nextRound_walks (hE : E.Bare) : E.Walks E.sheet.nextRound (throw .continue) := by
  rintro Γ G p Γ' p' s m ⟨l, p₁, hl, hunwinds, hjump, -, -⟩ hover hm
  obtain ⟨m₁, hleads, hsits⟩ := hm.unwinds hE hover hl hunwinds
  obtain ⟨m₂, hleads', hsits⟩ := hsits.jump hE (.inr rfl) hjump
  refine ⟨l, m₂, hl, hleads.trans hleads', ?_⟩
  rwa [Scene.keep_eq_self (Nat.le_of_eq hm.length)]

/-- The page is left with a value. -/
theorem leavePage_walks (hE : E.Bare) (hx : E.Runs part x) :
    E.Walks (E.sheet.leavePage part) (do throw (.return (← x))) := by
  rintro Γ G p Γ' p' s m ⟨p₁, p₂, p₃, hpart, hcloses, hdrops, hret, -, -⟩ hover hm
  refine Comes.bind (hx hpart hover hm) fun v s' m₁ hyields => ?_
  obtain ⟨u, huv, hsits⟩ := hyields
  obtain ⟨m₂, hleads, hsits⟩ := hsits.closes hE hover.handlers hover.iterators hcloses
  -- no variable is below the value any more
  have hbare : Sits E [] (Ground.push ⟨G.slots, G.handlers.drop (Zone.attempts Γ.zones),
      G.iterators.drop (Zone.eaches Γ.zones)⟩ u) p₂ (s'.keep 0) m₂ := by
    rw [← List.append_nil Γ.locals] at hsits
    exact hsits.drop
  obtain ⟨m₃, hleads', hsits⟩ := hbare.unwind hE (Nat.zero_le _) nofun (by
    rw [Nat.sub_zero]
    show E.sheet.drops .unwind G.slots.length p₂ p₃
    rwa [hover.height])
  obtain ⟨m₄, hleads'', hframes, hstack, hworld⟩ := hsits.ret hE rfl hret
  refine ⟨u, m₄, huv, hleads.trans (hleads'.trans hleads''), hframes, hstack, ?_⟩
  rw [hworld]
  exact hsits.world

/-! ## Loops -/

/-- A round of a loop: it goes on behind its body or at its start, or the loop is left. -/
theorem Comes.round {Q : Value → Scene → Machine → Prop} (hw : Within Γ G Δ G') (hhandlers : G'.handlers = G.handlers)
    (hlocals : Δ.locals = Γ.locals) (hl : Δ.loop? = some l) (hs : s.bindings.length = Γ.locals.length)
    (h : Comes E Δ G' m Q (Eval.enclosed x s)) :
    Comes E Γ G m (fun goes t m' => if goes then (∃ a, Q a t m') ∨ Sits E Γ.locals (G'.leave Δ l) l.start t m'
      else Sits E Γ.locals (G'.leave Δ l) l.exit t m') (Eval.round (Eval.enclosed x) s) := by
  unfold Eval.round
  unfold Eval.enclosed at h ⊢
  rw [hs] at h ⊢
  cases hx : x s with
  | ok a s' =>
    rw [hx] at h
    obtain ⟨m', hleads, hQ⟩ := h
    exact ⟨m', hleads, .inl ⟨a, hQ⟩⟩
  | error escape s' =>
    rw [hx] at h
    have h : Escapes E Δ G' m escape ((s'.keep Γ.locals.length).keep Δ.locals.length) := h
    have hkept : (s'.keep Γ.locals.length).keep Δ.locals.length = s'.keep Γ.locals.length := by
      rw [hlocals, Scene.keep_keep (Nat.le_refl _)]
    cases escape with
    | «break» =>
      obtain ⟨l', m', hl', hleads, hsits⟩ := h
      obtain rfl : l = l' := Option.some.inj (hl.symm.trans hl')
      rw [hkept, hlocals] at hsits
      exact ⟨m', hleads, hsits⟩
    | «continue» =>
      obtain ⟨l', m', hl', hleads, hsits⟩ := h
      obtain rfl : l = l' := Option.some.inj (hl.symm.trans hl')
      rw [hkept, hlocals] at hsits
      exact ⟨m', hleads, .inr hsits⟩
    | «return» v => exact h
    | fail cause =>
      obtain ⟨hcatch, m', e, t, hturns, hactive, hstep, hcause, hfallen, h⟩ := h
      exact ⟨hcatch, m', e, t, hturns, hactive, hstep, hcause, hfallen.outward hw hhandlers, h⟩
    | stuck => trivial

theorem Over.within (h : Over Γ G) (start exit : Nat) : Over (Γ.within ⟨start, exit, Γ.shape⟩) G where
  height := h.height
  places := h.places
  distinct := h.distinct
  plain := h.plain
  handlers := h.handlers
  iterators := h.iterators
  loop := by
    rintro l ⟨⟩
    exact ⟨Nat.le_refl _, Nat.le_refl _, Nat.le_refl _⟩

theorem Within.within (Γ : Scope) (G : Ground) (l : Loop) : Within Γ G (Γ.within l) G where
  locals := ⟨[], rfl⟩
  slots := List.prefix_refl _
  handlers := ⟨[], rfl, (Nat.zero_add _).symm⟩
  iterators := ⟨[], rfl, (Nat.zero_add _).symm⟩

/-- A loop leaves the ground as it is where nothing but its body lies between. -/
theorem Ground.leave_self (G : Ground) {Δ : Scope} {l : Loop} (hheight : l.shape.height = G.slots.length)
    (hzones : l.shape.zones = Δ.zones) : G.leave Δ l = G := by
  unfold Ground.leave
  rw [hheight, hzones, Nat.sub_self, Nat.sub_self, List.take_length]
  rfl

/-- The rounds of a loop with a condition. -/
theorem loop_rounds (hE : E.Bare) {condition body : Part} {p₁ p₂ : Nat} (hx : E.Runs condition x)
    (hy : E.Runs body (Eval.enclosed y)) (hover : Over Γ G) (hcondition : condition Γ p p₁)
    (hexit : E.sheet.Jumps p₁ .popJumpIfNot p') (hbody : body (Γ.within ⟨p, p', Γ.shape⟩) (p₁ + 3) p₂)
    (hpop : E.sheet.Has p₂ .pop []) (hback : E.sheet.Jumps (p₂ + 1) .jumpBackward p) (fuel : Nat) :
    ∀ {s m}, Sits E Γ.locals G p s m →
      Comes E Γ G m (fun _ s' m' => Sits E Γ.locals G p' s' m') (Eval.loop x (Eval.enclosed y) fuel s) := by
  have hself : G.leave (Γ.within ⟨p, p', Γ.shape⟩) ⟨p, p', Γ.shape⟩ = G := G.leave_self hover.height.symm rfl
  induction fuel with
  | zero => exact fun _ => trivial
  | succ fuel ih =>
    intro s m hm
    unfold Eval.loop
    refine Comes.bind (hx hcondition hover hm) fun v s₁ m₁ hyields => ?_
    obtain ⟨u, huv, hsits⟩ := hyields
    refine (hsits.popJump hE huv hexit).bind fun b s₂ m₂ hsits => ?_
    cases b with
    | false => exact .ok hsits
    | true =>
      have hround := hy hbody (hover.within p p') hsits
      refine (Comes.round (Within.within Γ G _) rfl rfl rfl hsits.length hround).bind fun goes s₃ m₃ h => ?_
      rw [hself] at h
      cases goes with
      | false => exact .ok h
      | true =>
        rcases h with ⟨w, u', -, hsits⟩ | hsits
        · obtain ⟨m₄, hleads, hsits⟩ := hsits.pop hE hpop
          obtain ⟨m₅, hleads', hsits⟩ := hsits.jump hE (.inr rfl) hback
          exact Comes.before (hleads.trans hleads') (ih hsits)
        · exact ih hsits

/-- Nothing is left, and there are no new variables. -/
theorem Sits.widens (hover : Over Γ G) (hm : Sits E Γ.locals G p s m) : Widens E Γ G Γ p s m := by
  refine ⟨[], rfl, ?_, ?_⟩
  · rwa [List.length_nil, Ground.grow_zero]
  · rwa [List.length_nil, Ground.grow_zero]

/-- A loop with a condition. -/
theorem loop_walks (hE : E.Bare) {condition body : Part} (hx : E.Runs condition x) (hy : E.Runs body (Eval.enclosed y))
    (fuel : Nat) : E.Walks (E.sheet.loop condition body) (do Eval.loop x (Eval.enclosed y) fuel; return .nil) := by
  rintro Γ G p Γ' p' s m ⟨p₁, p₂, hcondition, hexit, hbody, hpop, hback, rfl, hscope⟩ hover hm
  subst Γ'
  exact (loop_rounds hE hx hy hover hcondition hexit hbody hpop hback fuel hm).bind fun _ _ _ hsits =>
    .ok ⟨rfl, hsits.widens hover⟩

/-! ## Loops over items -/

theorem Over.each (h : Over Γ G) (start exit : Nat) (it : Iter) :
    Over (Sheet.eachScope Γ start exit) { G with iterators := it :: G.iterators } where
  height := h.height
  places := h.places
  distinct := h.distinct
  plain := h.plain
  handlers := h.handlers
  iterators := Nat.succ_le_succ h.iterators
  loop := by
    rintro l ⟨⟩
    exact ⟨Nat.le_refl _, Nat.le_refl _, Nat.le_refl _⟩

theorem Within.each (Γ : Scope) (G : Ground) (start exit : Nat) (it : Iter) :
    Within Γ G (Sheet.eachScope Γ start exit) { G with iterators := it :: G.iterators } where
  locals := ⟨[], rfl⟩
  slots := List.prefix_refl _
  handlers := ⟨[], rfl, (Nat.zero_add _).symm⟩
  iterators := ⟨[it], rfl, Nat.add_comm _ _⟩

/-- The end of a round: the value of the body and the variable are dropped. -/
theorem Yields.endRound (hE : E.Bare) {q : Nat} (hm : Yields E (declared :: Γ.locals) (G.grow 1) p v s m)
    (hpop : E.sheet.Has p .pop []) (hdrops : E.sheet.drops .popN 1 (p + 1) q)
    (hback : E.sheet.Jumps q .jumpBackward target) :
    ∃ m', E.Leads m m' ∧ Sits E Γ.locals G target (s.keep Γ.locals.length) m' := by
  obtain ⟨u, -, hsits⟩ := hm
  obtain ⟨m₁, hleads₁, hsits⟩ := hsits.pop hE hpop
  have hdrops : E.sheet.drops .popN ((G.grow 1).slots.length - G.slots.length) (p + 1) q := by
    rwa [Ground.length_grow, Nat.add_sub_cancel_left]
  have hle : G.slots.length ≤ (G.grow 1).slots.length := by
    rw [Ground.length_grow]
    exact Nat.le_add_right _ _
  obtain ⟨m₂, hleads₂, hsits⟩ := hsits.popN hE hle hdrops
  rw [Ground.cut_grow] at hsits
  obtain ⟨m₃, hleads₃, hsits⟩ := hsits.jump hE (.inr rfl) hback
  have hsits : Sits E ([declared] ++ Γ.locals) G target s m₃ := hsits
  exact ⟨m₃, hleads₁.trans (hleads₂.trans hleads₃), hsits.drop⟩

/-- The rounds of a loop over items. -/
theorem each_rounds (hE : E.Bare) {name : String} {body : Part} {start p₂ p₃ p₄ : Nat} (hy : E.Runs body y)
    (hover : Over Γ G) (hnext : E.sheet.Jumps start .forIter (p₄ + 3))
    (hdeclares : E.sheet.declares (Γ.depth + 1) name Γ.height (start + 3) declared p₂)
    (hbody : body ((Sheet.eachScope Γ start (p₄ + 3)).grow [declared]) p₂ p₃) (hpop : E.sheet.Has p₃ .pop [])
    (hdrops : E.sheet.drops .popN 1 (p₃ + 1) p₄) (hback : E.sheet.Jumps p₄ .jumpBackward start)
    (hend : E.sheet.Has (p₄ + 3) .endFor []) (fuel : Nat) :
    ∀ {it it' s m}, it'.Alike E.view it → Sits E Γ.locals { G with iterators := it' :: G.iterators } start s m →
      Comes E Γ G m (fun _ s' m' => Sits E Γ.locals G (p₄ + 4) s' m') (Eval.each (fun item => Eval.enclosed do
        Eval.declare name item
        y) fuel it s) := by
  induction fuel with
  | zero => exact fun _ _ => trivial
  | succ fuel ih =>
    intro it it' s m hit hm
    unfold Eval.each
    refine (hm.forIter hE hover hit hnext).bind fun next s₁ m₁ ⟨it₁, hit₁, hadvances⟩ => ?_
    obtain ⟨item?, itNext⟩ := next
    cases item? with
    | none =>
      obtain ⟨m₂, hleads, hsits⟩ := Sits.endFor hE hadvances hend
      exact ⟨m₂, hleads, hsits⟩
    | some item =>
      have hover' := hover.each start (p₄ + 3) it₁
      have hlength : s₁.bindings.length = Γ.locals.length := by
        obtain ⟨u, -, hsits⟩ := hadvances
        exact hsits.length
      obtain ⟨rfl, hover'', hsits⟩ := Yields.declare hE hover' hadvances hdeclares
      have hround : Comes E (Sheet.eachScope Γ start (p₄ + 3)) { G with iterators := it₁ :: G.iterators } m₁
          (Yields E (declared :: Γ.locals) (Ground.grow { G with iterators := it₁ :: G.iterators } 1) p₃) ((do
            Eval.declare name item
            y : Eval Value) s₁) :=
        (hy hbody hover'' hsits).outward (Within.grow _ _ [declared]) rfl hover' rfl
      have hself : Ground.leave { G with iterators := it₁ :: G.iterators } (Sheet.eachScope Γ start (p₄ + 3))
          ⟨start, p₄ + 3, (Γ.enter .each).shape⟩ = { G with iterators := it₁ :: G.iterators } :=
        Ground.leave_self _ hover.height.symm rfl
      refine (Comes.round (Within.each Γ G start (p₄ + 3) it₁) rfl rfl rfl hlength
        (Comes.enclosed hlength hround)).bind fun goes s₂ m₂ h => ?_
      rw [hself] at h
      cases goes with
      | false =>
        obtain ⟨m₃, hleads, hsits⟩ := Sits.endFor hE h hend
        exact ⟨m₃, hleads, hsits⟩
      | true =>
        rcases h with ⟨w, s₃, rfl, hyields⟩ | hsits
        · obtain ⟨m₃, hleads, hsits⟩ := hyields.endRound hE hpop hdrops hback
          exact Comes.before hleads (ih hit₁ hsits)
        · exact ih hit₁ hsits

/-- A loop over items with a variable. -/
theorem each_walks (hE : E.Bare) {name : String} {iterable body : Part} (hx : E.Runs iterable x) (hy : E.Runs body y)
    (fuel : Nat) : E.Walks (E.sheet.each [name] iterable body) (do
      let v ← x
      Eval.each (fun item => Eval.enclosed do
        Eval.declare name item
        y) fuel (← Eval.effect (Iter.ofValue v))
      return .nil) := by
  rintro Γ G p Γ' p' s m
    ⟨p₁, new, p₂, p₃, p₄, hiterable, hiter, hnext, ⟨declared, hdeclares, rfl⟩, hbody, hpop, hdrops, hback,
      hend, rfl, hscope⟩ hover hm
  subst Γ'
  refine Comes.bind (hx hiterable hover hm) fun v s₁ m₁ hyields => ?_
  obtain ⟨u, huv, hsits⟩ := hyields
  refine (hsits.getIter hE huv hiter).bind fun it s₂ m₂ ⟨it', hit, hsits⟩ => ?_
  exact (each_rounds hE hy hover hnext hdeclares hbody hpop hdrops hback hend fuel hit hsits).bind fun _ _ _ hsits =>
    .ok ⟨rfl, hsits.widens hover⟩

/-! ## Regions -/

theorem Over.attempt (h : Over Γ G) (handler : Handler) :
    Over (Γ.enter (.attempt Γ.height)) { G with handlers := handler :: G.handlers } where
  height := h.height
  places := h.places
  distinct := h.distinct
  plain := h.plain
  handlers := Nat.succ_le_succ h.handlers
  iterators := h.iterators
  loop := fun l hl => by
    obtain ⟨hheight, hattempts, heaches⟩ := h.loop l hl
    exact ⟨hheight, Nat.le_succ_of_le hattempts, heaches⟩

theorem Within.attempt (Γ : Scope) (G : Ground) (handler : Handler) :
    Within Γ G (Γ.enter (.attempt Γ.height)) { G with handlers := handler :: G.handlers } where
  locals := ⟨[], rfl⟩
  slots := List.prefix_refl _
  handlers := ⟨[handler], rfl, Nat.add_comm _ _⟩
  iterators := ⟨[], rfl, (Nat.zero_add _).symm⟩

/-- The code of a handler, which finds the error on top. -/
theorem handles_runs (hE : E.Bare) {binding? : Option String} (hx : E.Runs part x)
    (h : E.sheet.handles binding? part Γ p p') (hover : Over Γ G) (hm : Yields E Γ.locals G p v s m) :
    Comes E Γ G m (Yields E Γ.locals G p') ((match binding? with
      | some name => Eval.enclosed do
        Eval.declare name v
        x
      | none => x) s) := by
  have hlength : s.bindings.length = Γ.locals.length := by
    obtain ⟨u, -, hsits⟩ := hm
    exact hsits.length
  cases binding? with
  | none =>
    obtain ⟨hpop, hpart⟩ := h
    obtain ⟨u, -, hsits⟩ := hm
    obtain ⟨m₁, hleads, hsits⟩ := hsits.pop hE hpop
    exact Comes.before hleads (hx hpart hover hsits)
  | some name =>
    obtain ⟨declared, p₁, p₂, hdeclares, hpart, hdrops⟩ := h
    obtain ⟨rfl, hover', hsits⟩ := hm.declare hE hover hdeclares
    have hbody : Comes E Γ G m (Yields E (declared :: Γ.locals) (G.grow 1) p₂)
        ((do Eval.declare name v; x : Eval Value) s) :=
      ((hx hpart hover'.inner hsits).outward (Within.inner _ _) rfl hover' rfl).outward
        (Within.grow Γ G [declared]) rfl hover rfl
    refine (Comes.enclosed hlength hbody).after ?_
    rintro w _ m₁ ⟨s₁, rfl, hyields⟩
    have hyields : Yields E ([declared] ++ Γ.locals) (G.grow [declared].length) p₂ w s₁ m₁ := hyields
    exact hyields.endScope hE hover hdrops

/-- The scene in which an enclosed evaluation is left is the one that counts. -/
theorem Eval.enclosed_error {escape : Escape} {t : Scene} (h : Eval.enclosed x s = .error escape t) :
    t.keep s.bindings.length = t := by
  unfold Eval.enclosed at h
  cases hx : x s with
  | ok a s' =>
    rw [hx] at h
    cases h
  | error escape' s' =>
    rw [hx] at h
    cases h
    exact Scene.keep_keep (Nat.le_refl _)

/-- A region, and the handler for what its body fails with. -/
theorem attempt_runs (hE : E.Bare) {body handler : Part} {binding? : Option String} (hx : E.Runs body (Eval.enclosed x))
    (hy : E.Runs handler y) :
    E.Runs (E.sheet.attempt body binding? handler) (Eval.attempt (Eval.enclosed x) fun cause =>
      match binding? with
      | some name => Eval.enclosed do
        Eval.declare name (.error (.string cause.message) none)
        y
      | none => y) := by
  rintro Γ G p p' s m ⟨p₁, hopen, hbody, hclose, hend, hhandler⟩ hover hm
  obtain ⟨m₁, hleads, hsits⟩ := hm.enterTry hE hopen
  refine Comes.before hleads ?_
  have hcomes := hx hbody (hover.attempt _) hsits
  unfold Eval.attempt
  cases hresult : Eval.enclosed x s with
  | ok v s' =>
    rw [hresult] at hcomes
    obtain ⟨m₂, hleads₂, u, huv, hsits⟩ := hcomes
    obtain ⟨m₃, hleads₃, hsits⟩ := Sits.endTry (G := G.push u) hE hsits hclose
    obtain ⟨m₄, hleads₄, hsits⟩ := hsits.jump hE (.inl rfl) hend
    exact ⟨m₄, hleads₂.trans (hleads₃.trans hleads₄), u, huv, hsits⟩
  | error escape t =>
    have hkept : t.keep Γ.locals.length = t := by
      rw [← hm.length]
      exact Eval.enclosed_error hresult
    rw [hresult] at hcomes
    have hcomes : Escapes E (Γ.enter (.attempt Γ.height)) _ m₁ escape (t.keep Γ.locals.length) := hcomes
    cases escape with
    | «break» =>
      obtain ⟨l, m₂, hl, hleads₂, hsits⟩ := hcomes
      rw [(Within.attempt Γ G _).leave hover hl] at hsits
      exact ⟨l, m₂, hl, hleads₂, hsits⟩
    | «continue» =>
      obtain ⟨l, m₂, hl, hleads₂, hsits⟩ := hcomes
      rw [(Within.attempt Γ G _).leave hover hl] at hsits
      exact ⟨l, m₂, hl, hleads₂, hsits⟩
    | «return» v => exact hcomes
    | stuck => trivial
    | fail cause =>
      rw [hkept] at hcomes
      obtain ⟨hcatch, m₂, e, t', hleads₂, hactive, hstep, hcause, hfallen, hworld⟩ := hcomes
      obtain ⟨m₃, hleads₃, hyields⟩ := hfallen.caught hover hactive (hsits.calm.after hleads₂)
        hstep hcause hcatch hworld
      show Comes E Γ G m₁ _ (if cause.isCatchable = true then _ else _)
      rw [if_pos hcatch]
      exact Comes.before (hleads₂.trans hleads₃) (handles_runs hE hy hhandler hover hyields)

end ShellVM
