import ShellVM.Proofs.Meaning.Part

/-!
# Code for operations and branches

Operations take the values of their operands off the ground and leave their results. Branches, and `and` and `or`,
choose the code that goes on by the truth of a value.
-/

namespace ShellVM

variable {E : Stage} {Γ Γ' : Scope} {G G' : Ground} {p p' q : Nat} {s s' : Scene} {m m' : Machine} {u v : Value}
  {us vs : List Value} {op : Op} {operands : List UInt8} {part left right : Part} {x y z : Eval Value}

/-! ## Operations -/

/-- An operation on one value. -/
theorem after_one (hE : E.Bare) (hx : E.Runs part x) {f : Value → Effect Value}
    (hf : ∀ u v, u.Alike E.view v → Agrees E.view (Value.Alike E.view) (f u) (f v))
    (hperform : ∀ t below q u, t.stack = below.push u →
      Act.perform E.host E.program E.sheet.page ⟨q, op, operands⟩ t = Act.settled t below (f u t.world)) :
    E.Runs (E.sheet.after part op operands) (do Eval.effect (f (← x))) := by
  rintro Γ G p p' s m ⟨p₁, hpart, hhas, rfl⟩ hover hm
  refine hx.first hover hm hpart fun v s' m' u huv hsits => ?_
  exact hsits.operates hE hover hhas rfl (hf u v huv) fun t below ht =>
    hperform t below _ u (ht.trans (Array.ext' (by simp)))

/-- An operation on two values. -/
theorem after_two (hE : E.Bare) (hx : E.Runs left x) (hy : E.Runs right y) {f : Value → Value → Effect Value}
    (hf : ∀ u₁ v₁ u₂ v₂, u₁.Alike E.view v₁ → u₂.Alike E.view v₂ →
      Agrees E.view (Value.Alike E.view) (f u₁ u₂) (f v₁ v₂))
    (hperform : ∀ t below q u₁ u₂, t.stack = (below.push u₁).push u₂ →
      Act.perform E.host E.program E.sheet.page ⟨q, op, operands⟩ t = Act.settled t below (f u₁ u₂ t.world)) :
    E.Runs (E.sheet.after (Part.both left right) op operands) (do
      let l ← x
      let r ← y
      Eval.effect (f l r)) := by
  rintro Γ G p p' s m ⟨p₂, ⟨p₁, hleft, hright⟩, hhas, rfl⟩ hover hm
  refine hx.first hover hm hleft fun v₁ s₁ m₁ u₁ h₁ hsits => ?_
  refine hy.operand hover hsits hright fun v₂ s₂ m₂ u₂ h₂ hsits => ?_
  exact hsits.operates hE hover hhas rfl (hf u₁ v₁ u₂ v₂ h₁ h₂) fun t below ht =>
    hperform t below _ u₁ u₂ (ht.trans (Array.ext' (by simp)))

theorem Eval.effect_return (f : Effect Unit) (v : Value) :
    (do Eval.effect f; return v : Eval Value) = Eval.effect (do f; return v) := by
  funext s
  show EStateM.bind (Eval.effect f) (fun _ => EStateM.pure v) s = Eval.effect (EStateM.bind f fun _ => EStateM.pure v) s
  unfold Eval.effect EStateM.bind
  dsimp only
  cases f s.world <;> rfl

/-- An assignment to an item of a container. -/
theorem indexStore_runs (hE : E.Bare) {value container index : Part} (hx : E.Runs value x) (hy : E.Runs container y)
    (hz : E.Runs index z) :
    E.Runs (E.sheet.after (Part.both (Part.both value container) fun Γ => index Γ.push) .indexStore []) (do
      let v ← x
      let c ← y
      let i ← z
      Eval.effect (c.store i v)
      return v) := by
  rintro Γ G p p' s m ⟨p₃, ⟨p₂, ⟨p₁, hvalue, hcontainer⟩, hindex⟩, hhas, rfl⟩ hover hm
  refine hx.first hover hm hvalue fun v₁ s₁ m₁ u₁ h₁ hsits => ?_
  refine hy.operand hover hsits hcontainer fun v₂ s₂ m₂ u₂ h₂ hsits => ?_
  refine hz.operand hover hsits hindex fun v₃ s₃ m₃ u₃ h₃ hsits => ?_
  rw [Eval.effect_return]
  exact hsits.operates hE hover hhas rfl ((Value.store_agrees h₂ h₃ h₁).bind fun _ _ _ => .pure h₁) fun t below ht =>
    Act.indexStore_eq (ht.trans (Array.ext' (by simp)))

theorem unary_runs (hE : E.Bare) (hx : E.Runs part x) (o : UnaryOp) :
    E.Runs (E.sheet.after part o.opcode []) (do Eval.effect (Value.unary o (← x))) :=
  after_one hE hx (fun _ _ h => Value.unary_agrees o h) fun t below q u ht => by
    cases o <;> exact Act.unary_eq _ ht

theorem binary_runs (hE : E.Bare) (hx : E.Runs left x) (hy : E.Runs right y) (o : BinaryOp) :
    E.Runs (E.sheet.after (Part.both left right) o.opcode []) (do
      let l ← x
      let r ← y
      Eval.effect (Value.binary o l r)) :=
  after_two hE hx hy (fun _ _ _ _ h₁ h₂ => Value.binary_agrees o h₁ h₂) fun t below q u₁ u₂ ht => by
    cases o <;> exact Act.binary_eq _ ht

theorem cast_runs (hE : E.Bare) (hx : E.Runs part x) (target : Kind) :
    E.Runs (E.sheet.after part .cast [target.tag]) (do Eval.effect ((← x).cast target)) :=
  after_one hE hx (fun _ _ h => Value.cast_agrees h target) fun _ _ _ _ ht => Act.cast_eq target ht

theorem index_runs (hE : E.Bare) (hx : E.Runs left x) (hy : E.Runs right y) :
    E.Runs (E.sheet.after (Part.both left right) .index []) (do
      let t ← x
      let i ← y
      Eval.effect (t.index i)) :=
  after_two hE hx hy (fun _ _ _ _ h₁ h₂ => Value.index_agrees h₁ h₂) fun _ _ _ _ _ ht => Act.index_eq ht

section Rows

variable {run : Expr → Eval Value} {items : List Expr} {S : Sheet}

/-- An operation on a row of values. -/
theorem counted_runs (hE : E.Bare) (hS : S = E.sheet)
    (h : ∀ e ∈ items, E.Runs (E.sheet.valued e.producesValue (e.Lies E.sheet)) (Eval.enclosed (run e)))
    {f : List Value → Effect Value}
    (hf : ∀ us vs, List.Forall₂ (Value.Alike E.view) us vs → Agrees E.view (Value.Alike E.view) (f us) (f vs))
    (hperform : ∀ (t : Machine) (below : Array Value) (q : Nat) (us : List Value), us.length = items.length →
      us.length ≤ 65535 → t.stack = below ++ us.toArray →
      Act.perform E.host E.program E.sheet.page ⟨q, op, wordBytes us.length.toUInt16⟩ t =
        Act.settled t below (f us t.world)) :
    E.Runs (S.counted (ValuesLie items S) op items.length) (do Eval.effect (f (← evaluateAll run items))) := by
  subst hS
  rintro Γ G p p' s m ⟨hcount, p₁, hlies, hhas, rfl⟩ hover hm
  have hnone : Sits E Γ.locals (G.pushAll []) p s m := by rwa [Ground.pushAll_nil]
  refine values_run rfl h hover hnone hlies fun vs s' m' us hvs hlength hsits => ?_
  rw [← hlength] at hhas hcount
  exact hsits.operates hE hover hhas (by rw [hlength]) (hf us vs hvs) fun t below ht =>
    hperform t below _ us hlength hcount ht

theorem toNat_count {n : Nat} (h : n ≤ 65535) : n.toUInt16.toNat = n := by
  rw [UInt16.toNat_ofNat', Nat.mod_eq_of_lt (by omega)]

theorem tuple_runs (hE : E.Bare) (hS : S = E.sheet)
    (h : ∀ e ∈ items, E.Runs (E.sheet.valued e.producesValue (e.Lies E.sheet)) (Eval.enclosed (run e))) :
    E.Runs (S.counted (ValuesLie items S) .buildTuple items.length) (do return .tuple (← evaluateAll run items)) := by
  refine counted_runs hE hS h (f := fun vs => pure (.tuple vs)) (fun us vs hvs => .pure (Value.Alike.tuple hvs)) ?_
  intro t below q us hlength hcount ht
  show Act.buildTuple (Instruction.word ⟨q, .buildTuple, wordBytes us.length.toUInt16⟩ 0).toNat t = _
  have hword := Instruction.word_wordBytes q .buildTuple us.length.toUInt16 []
  rw [List.append_nil] at hword
  rw [hword, toNat_count hcount]
  exact Act.buildTuple_eq ht

theorem list_runs (hE : E.Bare) (hS : S = E.sheet)
    (h : ∀ e ∈ items, E.Runs (E.sheet.valued e.producesValue (e.Lies E.sheet)) (Eval.enclosed (run e))) :
    E.Runs (S.counted (ValuesLie items S) .buildList items.length)
      (do Eval.effect (Effect.newList (← evaluateAll run items).toArray)) := by
  refine counted_runs hE hS h (f := fun vs => Effect.newList vs.toArray) (fun us vs hvs => Agrees.newList hvs) ?_
  intro t below q us hlength hcount ht
  show Act.buildList (Instruction.word ⟨q, .buildList, wordBytes us.length.toUInt16⟩ 0).toNat t = _
  have hword := Instruction.word_wordBytes q .buildList us.length.toUInt16 []
  rw [List.append_nil] at hword
  rw [hword, toNat_count hcount]
  exact Act.buildList_eq ht

end Rows

/-! ## Variables and literals -/

theorem literal_runs (hE : E.Bare) (l : Literal) : E.Runs (E.sheet.constant l.constant) (do return l.value) :=
  fun _ _ _ _ _ _ h hover hm => hm.constant hE (fun _ hl => hover.slot_lt hl) l h

theorem nil_runs (hE : E.Bare) : E.Runs E.sheet.nil (pure .nil) :=
  fun Γ _ _ _ _ _ h hover hm => hm.nil (Γ := Γ) hE (fun _ hl => hover.slot_lt hl) h

theorem variable_runs (hE : E.Bare) (name : String) :
    E.Runs (fun Γ p p' => ∃ place, E.sheet.place? Γ name = some place ∧
      E.sheet.Has p place.loadOp [place.operand] ∧ p' = p + 2) (Eval.lookup name) := by
  rintro Γ G p p' s m ⟨place, hplace, hhas, rfl⟩ hover hm
  exact hm.load hE hover hplace hhas

theorem assign_runs (hE : E.Bare) (name : String) (hx : E.Runs part x) :
    E.Runs (fun Γ p p' => ∃ place, E.sheet.place? Γ name = some place ∧
      E.sheet.after part place.storeOp [place.operand] Γ p p') (do
        let v ← x
        Eval.assign name v
        return v) := by
  rintro Γ G p p' s m ⟨place, hplace, p₁, hpart, hhas, rfl⟩ hover hm
  refine Comes.bind (hx hpart hover hm) fun v s' m' hyields => ?_
  obtain ⟨u, huv, hsits⟩ := hyields
  exact hsits.store hE hover huv hplace hhas

/-! ## Branches -/

/-- The value of a branch. -/
theorem branch_runs (hE : E.Bare) {condition yes no : Part} (hx : E.Runs condition x) (hy : E.Runs yes y)
    (hz : E.Runs no z) :
    E.Runs (E.sheet.branch condition yes no) (do if ← Eval.effect (← x).truth then y else z) := by
  rintro Γ G p p' s m ⟨p₁, p₂, hcondition, helse, hyes, hend, hno⟩ hover hm
  refine Comes.bind (hx hcondition hover hm) fun v s₁ m₁ hyields => ?_
  obtain ⟨u, huv, hsits⟩ := hyields
  refine (hsits.popJump hE huv helse).bind fun b s₂ m₂ hsits => ?_
  cases b with
  | false => exact hz hno hover hsits
  | true =>
    refine (hy hyes hover hsits).after fun w s₃ m₃ hyields => ?_
    obtain ⟨u', huw, hsits⟩ := hyields
    obtain ⟨m₄, hleads, hsits⟩ := hsits.jump hE (.inl rfl) hend
    exact ⟨m₄, hleads, u', huw, hsits⟩

/-- `and` and `or`. -/
theorem short_runs (hE : E.Bare) (hx : E.Runs left x) (hy : E.Runs right y) (settles : Bool)
    (hop : op = if settles then .jumpIf else .jumpIfNot) :
    E.Runs (E.sheet.shortCircuit op left right) (evaluateShort settles x y) := by
  rintro Γ G p p' s m ⟨p₁, p₂, hleft, hjump, hpop, hright, hcast, rfl⟩ hover hm
  unfold evaluateShort
  refine Comes.bind (hx hleft hover hm) fun l s₁ m₁ hyields => ?_
  obtain ⟨u, hul, hsits⟩ := hyields
  refine (hsits.peekJump hE hul hop hjump).bind fun b s₂ m₂ hsits => ?_
  have hlast : ∀ {v s₃ m₃}, Yields E Γ.locals G p₂ v s₃ m₃ →
      Comes E Γ G m₃ (Yields E Γ.locals G (p₂ + 2)) (Eval.effect (v.cast .boolean) s₃) := by
    rintro v s₃ m₃ ⟨u', huv, hsits⟩
    have hone : Sits E Γ.locals (G.pushAll [u']) p₂ s₃ m₃ := hsits
    exact hone.operates hE hover hcast rfl (Value.cast_agrees huv .boolean) fun t below ht =>
      Act.cast_eq .boolean (ht.trans (Array.ext' (by simp)))
  by_cases hb : (b == settles) = true
  · rw [if_pos hb] at hsits ⊢
    exact hlast ⟨u, hul, hsits⟩
  · rw [if_neg hb] at hsits ⊢
    obtain ⟨m₃, hleads, hsits⟩ := hsits.pop hE hpop
    refine Comes.before hleads ?_
    exact (hy hright hover hsits).bind fun v s₃ m₄ hyields => hlast hyields

end ShellVM
