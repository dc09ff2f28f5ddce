import ShellVM.Machine.Perform
import ShellVM.Proofs.Alike.Operation

/-!
# Library functions and program calls on values that are alike

What leaves the machine, into the library or into other programs, is the same for values that are alike.
-/

namespace ShellVM

variable {V : View} {us vs : List Value}

/-! ## Texts -/

namespace Value

theorem textAll_agrees (h : List.Forall₂ (Alike V) us vs) : Agrees V Eq (textAll us) (textAll vs) := by
  induction h with
  | nil => exact .pure rfl
  | cons hv _ ih =>
    refine (text_agrees hv).bind ?_
    rintro s _ rfl
    exact ih.bind fun _ _ hs => .pure (by rw [hs])

theorem flatMapEffect_agrees {f g : Value → Effect (List String)} (hfg : ∀ u v, u.Alike V v → Agrees V Eq (f u) (g v))
    (h : List.Forall₂ (Alike V) us vs) : Agrees V Eq (flatMapEffect f us) (flatMapEffect g vs) := by
  induction h with
  | nil => exact .pure rfl
  | cons hv _ ih =>
    refine (hfg _ _ hv).bind ?_
    rintro first _ rfl
    exact ih.bind fun _ _ hs => .pure (by rw [hs])

section Arguments

variable {deep : Value → Effect (List String)}

mutual

theorem argumentsWith_agrees (hdeep : ∀ u v, u.Alike V v → Agrees V Eq (deep u) (deep v)) : ∀ {u v : Value},
    u.Alike V v → Agrees V Eq (argumentsWith deep u) (argumentsWith deep v)
  | .list a, v, h => by
    rw [h.1]
    exact .get fun w w' hw => flatMapEffect_agrees hdeep (hw.list h.2)
  | .tuple us, v, h => by
    obtain ⟨vs, rfl, h⟩ := h
    exact argumentsAllWith_agrees hdeep h
  | .error u t, v, h => by
    have htext := text_agrees h
    obtain ⟨v', t', rfl, -⟩ := h
    exact htext.bind fun _ _ hs => .pure (by rw [hs])
  | .dictionary _, v, h | .struct _, v, h | .function _, v, h => by
    have htext := text_agrees h
    rw [h.1] at htext ⊢
    exact htext.bind fun _ _ hs => .pure (by rw [hs])
  | .nil, v, h | .boolean _, v, h | .integer _, v, h | .float _, v, h | .string _, v, h | .set _, v, h
  | .range _, v, h | .stream _, v, h => by
    have htext := text_agrees h
    rw [show v = _ from h] at htext ⊢
    exact htext.bind fun _ _ hs => .pure (by rw [hs])

theorem argumentsAllWith_agrees (hdeep : ∀ u v, u.Alike V v → Agrees V Eq (deep u) (deep v)) : ∀ {us vs : List Value},
    AllAlike V us vs → Agrees V Eq (argumentsAllWith deep us) (argumentsAllWith deep vs)
  | [], _, h => by
    rw [show _ = _ from h]
    exact .pure rfl
  | u :: us, _, ⟨v, vs, hvs, hv, h⟩ => by
    rw [hvs]
    refine (argumentsWith_agrees hdeep hv).bind ?_
    rintro first _ rfl
    exact (argumentsAllWith_agrees hdeep h).bind fun _ _ hs => .pure (by rw [hs])

end

end Arguments

theorem argumentsTo_agrees : ∀ (depth : Nat) (u v : Value), u.Alike V v →
    Agrees V Eq (argumentsTo depth u) (argumentsTo depth v)
  | 0, _, _, h => argumentsWith_agrees (fun _ _ _ => .pure rfl) h
  | depth + 1, _, _, h => argumentsWith_agrees (argumentsTo_agrees depth) h

theorem arguments_agrees (u v : Value) (h : u.Alike V v) : Agrees V Eq u.arguments v.arguments := by
  unfold arguments
  refine .get fun w w' hw => ?_
  rw [hw.containers]
  exact argumentsTo_agrees _ u v h

theorem pipedInput_agrees {u v : Value} (h : u.Alike V v) : Agrees V Eq u.pipedInput v.pipedInput := by
  have hlines : Agrees V Eq (do return PipedInput.lines (← textAll (← u.items)))
      (do return PipedInput.lines (← textAll (← v.items))) :=
    (items_agrees h).bind fun _ _ hvs => (textAll_agrees hvs).bind fun _ _ hs => .pure (by rw [hs])
  have htext : Agrees V Eq (do return PipedInput.text (← u.text)) (do return PipedInput.text (← v.text)) :=
    (text_agrees h).bind fun _ _ hs => .pure (by rw [hs])
  unfold pipedInput
  rcases h.cases with ⟨rfl, -⟩ | ⟨us, vs, rfl, rfl, -⟩ | ⟨_, _, _, _, rfl, rfl, -⟩
  · cases v with
    | stream a => exact .pure rfl
    | list _ | tuple _ | set _ | range _ => exact hlines
    | _ => exact htext
  · exact hlines
  · exact htext

theorem length_agrees {u v : Value} (h : u.Alike V v) : Agrees V Eq u.length v.length := by
  have hitems : Agrees V Eq (do return (← u.items).length) (do return (← v.items).length) :=
    (items_agrees h).bind fun _ _ hvs => .pure hvs.length_eq
  unfold length
  rcases h.cases with ⟨rfl, -⟩ | ⟨us, vs, rfl, rfl, -⟩ | ⟨_, _, _, _, rfl, rfl, -⟩
  · cases v with
    | string s => exact .pure rfl
    | range r =>
      dsimp only
      split
      · exact .pure rfl
      · exact .fail rfl
    | _ => exact hitems
  · exact hitems
  · exact hitems

end Value

/-! ## The library -/

namespace LibraryFunction

theorem coerce_agrees (h : List.Forall₂ (Value.Alike V) us vs) : ∀ parameters : List (Option Kind),
    Agrees V (List.Forall₂ (Value.Alike V)) (coerce parameters us) (coerce parameters vs) := by
  induction h with
  | nil =>
    intro parameters
    rcases parameters with _ | ⟨_ | k, ks⟩ <;> exact .pure .nil
  | cons hv hvs ih =>
    intro parameters
    rcases parameters with _ | ⟨_ | k, ks⟩
    · exact .pure (.cons hv hvs)
    · exact (ih ks).bind fun _ _ h => .pure (.cons hv h)
    · exact (Value.cast_agrees hv k).bind fun _ _ hv => (ih ks).bind fun _ _ h => .pure (.cons hv h)

theorem prepare_agrees (f : LibraryFunction) (h : List.Forall₂ (Value.Alike V) us vs) :
    Agrees V (List.Forall₂ (Value.Alike V)) (f.prepare us) (f.prepare vs) := by
  unfold prepare
  dsimp only
  rw [h.length_eq]
  refine .check rfl ?_
  cases f.packFrom? with
  | some start =>
    refine (Agrees.newList (List.forall₂_drop start h)).bind fun _ _ hv => ?_
    exact coerce_agrees (List.rel_append (List.forall₂_take start h) (.cons hv .nil)) _
  | none => exact coerce_agrees h _

end LibraryFunction

theorem Builtin.run_agrees (b : Builtin) (h : List.Forall₂ (Value.Alike V) us vs) :
    Agrees V (Value.Alike V) (b.run us) (b.run vs) := by
  have hfirst : (us.headD .nil).Alike V (vs.headD .nil) := by
    cases h with
    | nil => exact rfl
    | cons hv _ => exact hv
  have hsecond : (us.getD 1 .nil).Alike V (vs.getD 1 .nil) := by
    cases h with
    | nil => exact rfl
    | cons _ h =>
      cases h with
      | nil => exact rfl
      | cons hv _ => exact hv
  unfold run
  cases b with
  | print =>
    refine (Value.items_agrees hfirst).bind fun _ _ hvs => (Value.textAll_agrees hvs).bind ?_
    rintro parts _ rfl
    exact (Agrees.modify fun w w' hw => hw.write _).bind fun _ _ _ => .pure rfl
  | length =>
    refine (Value.length_agrees hfirst).bind ?_
    rintro n _ rfl
    split
    · exact .pure rfl
    · exact .fail rfl
  | kindName =>
    refine .pure ?_
    rw [hfirst.kind]
    exact rfl
  | text => exact .pure hfirst
  | push =>
    dsimp only
    generalize us.headD .nil = u at hfirst
    generalize vs.headD .nil = v at hfirst
    rcases hfirst.cases with ⟨rfl, -⟩ | ⟨_, _, rfl, rfl, -⟩ | ⟨_, _, _, _, rfl, rfl, -⟩
    · cases v with
      | list a =>
        exact (Agrees.modify fun w w' hw => hw.pushListItem hfirst.2 hsecond).bind fun _ _ _ => .pure hfirst
      | _ => exact .fail rfl
    · exact .fail rfl
    · exact .fail rfl
  | raise =>
    refine (Value.text_agrees hfirst).bind ?_
    rintro t _ rfl
    exact .fail rfl
  | collect => exact .newList h

/-! ## Program calls -/

namespace Act

theorem textPairs_agrees : ∀ {us vs : List Value}, List.Forall₂ (Value.Alike V) us vs →
    Agrees V Eq (textPairs us) (textPairs vs)
  | _, _, .nil => .pure rfl
  | _, _, .cons _ .nil => .pure rfl
  | _, _, .cons hk (.cons hv h) => by
    refine (Value.text_agrees hk).bind ?_
    rintro k _ rfl
    refine (Value.text_agrees hv).bind ?_
    rintro v _ rfl
    exact (textPairs_agrees h).bind fun _ _ hs => .pure (by rw [hs])

/-- Operands that are alike. -/
structure ProgramOperands.Alike (V : View) (o o' : ProgramOperands) : Prop where
  name : o.name.Alike V o'.name
  arguments : List.Forall₂ (Value.Alike V) o.arguments o'.arguments
  piped? : Option.Rel (Value.Alike V) o.piped? o'.piped?
  environment : List.Forall₂ (Value.Alike V) o.environment o'.environment

theorem programCall_agrees {o o' : ProgramOperands} (h : o.Alike V o') :
    Agrees V Eq (programCall o) (programCall o') := by
  unfold programCall
  refine (Value.text_agrees h.name).bind ?_
  rintro name _ rfl
  refine (Value.flatMapEffect_agrees Value.arguments_agrees h.arguments).bind ?_
  rintro arguments _ rfl
  refine (textPairs_agrees h.environment).bind ?_
  rintro environment _ rfl
  dsimp only
  obtain ⟨_, _, piped?, _⟩ := o
  obtain ⟨_, _, piped?', _⟩ := o'
  cases show Option.Rel (Value.Alike V) piped? piped?' from h.piped? with
  | none => exact .pure rfl
  | some hv =>
    have hpiped : Agrees V Eq (some <$> Value.pipedInput _) (some <$> Value.pipedInput _) :=
      (Value.pipedInput_agrees hv).map fun _ _ hs => congrArg some hs
    exact hpiped.bind fun _ _ hs => .pure (by rw [hs])

/-! ## Entries of dictionaries -/

theorem entries_plain : ∀ vs : List Value, Plainly (entries vs)
  | [] | [_] => .ok _
  | k :: _ :: rest => (Value.key_plain k).bind fun _ => (entries_plain rest).bind fun _ => .ok _

/-- The same keys with values that are alike, or the same failure. -/
theorem entries_alike : ∀ {us vs : List Value}, List.Forall₂ (Value.Alike V) us vs →
    (∃ cause, entries us = .error cause ∧ entries vs = .error cause) ∨ ∃ es es', entries us = .ok es ∧
      entries vs = .ok es' ∧ List.Forall₂ (fun e e' => e'.1 = e.1 ∧ e.2.Alike V e'.2) es es'
  | _, _, .nil => .inr ⟨[], [], rfl, rfl, .nil⟩
  | _, _, .cons _ .nil => .inr ⟨[], [], rfl, rfl, .nil⟩
  | .cons k (.cons v us), .cons k' (.cons v' vs), .cons hk (.cons hv h) => by
    unfold entries
    rw [Value.key_alike hk]
    cases Effect.key k with
    | error cause => exact .inl ⟨cause, rfl, rfl⟩
    | ok key =>
      rcases entries_alike h with ⟨cause, h₁, h₂⟩ | ⟨es, es', h₁, h₂, hes⟩
      · rw [h₁, h₂]
        exact .inl ⟨cause, rfl, rfl⟩
      · rw [h₁, h₂]
        exact .inr ⟨(key, v) :: es, (key, v') :: es', rfl, rfl, .cons ⟨rfl, hv⟩ hes⟩

theorem entries_agrees (h : List.Forall₂ (Value.Alike V) us vs) :
    Agrees V (List.Forall₂ fun e e' => e'.1 = e.1 ∧ e.2.Alike V e'.2) (Effect.ofExcept (entries us))
      (Effect.ofExcept (entries vs)) := by
  rcases entries_alike h with ⟨cause, h₁, h₂⟩ | ⟨es, es', h₁, h₂, hes⟩
  · rw [h₁, h₂]
    exact .fail (entries_plain us cause h₁)
  · rw [h₁, h₂]
    exact .pure hes

end Act

end ShellVM
