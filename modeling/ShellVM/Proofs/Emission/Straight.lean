import ShellVM.Proofs.Emission.Emits

/-!
# Emitters without jumps

Constants, variables, scopes and declarations, and instructions behind their operands.
-/

namespace ShellVM

/-- A row of parts that leaves `n` values. -/
def Part.raising (part : Part) (n : Nat) : Layout := fun Γ p Γ' p' => part Γ p p' ∧ Γ' = Γ.raise n

/-- What code may leave behind: one value, or new locals of the innermost scope. -/
def Layout.Leaves (producesValue : Bool) (L : Layout) : Prop := ∀ ⦃Γ p Γ' p'⦄, L Γ p Γ' p' →
  if producesValue then Γ' = Γ.push else ∃ new, Γ' = Γ.grow new ∧ ∀ l ∈ new, l.depth = Γ.depth

namespace Emits

/-! ## Operands -/

/-- One part after the other. -/
theorem both {m m' : Emit Unit} {P P' : Sheet → Part} {n : Nat} (h : Emits m fun _ S => (P S).layout)
    (h' : Emits m' fun _ S => (P' S).raising n) :
    Emits (do m; m') fun _ S => (Part.both (P S) (P' S)).raising (n + 1) := by
  refine (h.bind fun _ => h').weaken ?_
  rintro _ S Γ p Γ' p' - ⟨_, Γ₁, p₁, ⟨hP, rfl⟩, hP', rfl⟩
  exact ⟨⟨p₁, hP, hP'⟩, by simp [Scope.push, Nat.add_comm]⟩

/-- An instruction behind its operands. -/
theorem after {m : Emit Unit} {P : Sheet → Part} {o : Op} {operands : List UInt8} {n : Nat}
    (h : Emits m fun _ S => (P S).raising n) (hw : operands.length = o.width)
    (he : o.stackEffect? operands = some (n, 1)) :
    Emits (do m; Emit.op o operands) fun _ S => (S.after (P S) o operands).layout := by
  refine (h.bind fun _ => op hw he).weaken ?_
  rintro _ S Γ p Γ' p' - ⟨_, Γ₁, p₁, ⟨hP, rfl⟩, ho, rfl, -, rfl⟩
  exact ⟨⟨p₁, hP, ho, rfl⟩, by simp [Scope.raise, Scope.push]⟩

theorem byte {o : Op} {n pops pushes : Nat} {what : String} (hw : o.width = 1)
    (he : n ≤ 255 → o.stackEffect? [n.toUInt8] = some (pops, pushes)) :
    Emits (Emit.byte o n what) fun _ S Γ p Γ' p' => n ≤ 255 ∧ S.Has p o [n.toUInt8] ∧ p' = p + 2 ∧ pops ≤ Γ.height ∧
      Γ' = { Γ with height := Γ.height - pops + pushes } := by
  intro s s' _ h
  obtain ⟨hn, h⟩ := Emit.byte_ok h
  exact (op (show [_].length = _ from hw.symm) (he hn) h).weaken fun _ _ _ _ _ _ hL => ⟨hn, hL⟩

/-- A value built from `n` operands. -/
theorem counted {m : Emit Unit} {P : Sheet → Part} {o : Op} {n k : Nat} {what : String}
    (h : Emits m fun _ S => (P S).raising k) (hw : o.width = 2)
    (he : n ≤ 65535 → o.stackEffect? (wordBytes n.toUInt16) = some (k, 1)) :
    Emits (do m; Emit.word o n what) fun _ S => (S.counted (P S) o n).layout := by
  intro s s' _ hm
  obtain ⟨_, s₁, h₁, h₂⟩ := bind_ok.1 hm
  obtain ⟨hn, h₂⟩ := Emit.word_ok h₂
  have ho : (do m; Emit.op o (wordBytes n.toUInt16)) s = .ok () s' := bind_ok.2 ⟨_, s₁, h₁, h₂⟩
  exact (after h (show (wordBytes _).length = _ from hw.symm) (he hn) ho).weaken fun _ _ _ _ _ _ hL =>
    ⟨⟨hn, hL.1⟩, hL.2⟩

/-- An instruction that drops values, from under the one that stays if there is one. -/
theorem drops (keep : Bool) (count : Nat) (what : String) :
    Emits (if 0 < count then Emit.byte (if keep then .unwind else .popN) count what else pure ()) fun _ S Γ p Γ' p' =>
      S.drops (if keep then .unwind else .popN) count p p' ∧ (0 < count → count + keep.toNat ≤ Γ.height) ∧
        Γ' = { Γ with height := Γ.height - count } := by
  by_cases hc : 0 < count
  · rw [if_pos hc]
    have he : count ≤ 255 → (if keep then Op.unwind else Op.popN).stackEffect? [count.toUInt8] =
        some (count + keep.toNat, keep.toNat) := fun hle => by
      have hb : count.toUInt8.toNat = count := by
        rw [UInt8.toNat_ofNat', Nat.mod_eq_of_lt (by omega)]
      cases keep with
      | true => exact congrArg (fun n => some (n + 1, 1)) hb
      | false => exact congrArg (fun n => some (n, 0)) hb
    refine (byte (by cases keep <;> rfl) he).weaken ?_
    rintro _ S Γ p Γ' p' - ⟨hle, ho, rfl, hpop, rfl⟩
    unfold Sheet.drops
    rw [if_neg (by omega)]
    refine ⟨⟨hle, ho, rfl⟩, fun _ => hpop, ?_⟩
    rw [show Γ.height - (count + keep.toNat) + keep.toNat = Γ.height - count by omega]
  · rw [if_neg hc]
    obtain rfl : count = 0 := by omega
    refine (skip ()).weaken ?_
    rintro _ S Γ p Γ' p' - ⟨-, rfl, rfl⟩
    unfold Sheet.drops
    exact ⟨by rw [if_pos rfl], fun h => absurd h hc, rfl⟩

/-! ## Constants -/

theorem constantKey (c : Constant) : Emits (Emit.constantKey c) fun key S Γ p Γ' p' =>
    S.page.constants.get? key = some c ∧ p' = p ∧ Γ' = Γ := by
  intro s s' key h
  obtain ⟨hk, rfl⟩ := Emit.constantKey_ok h
  refine ⟨.of_draft ⟨Nat.le_refl _, fun _ _ => rfl, fun _ _ h => ConstantTable.get?_add h, rfl, rfl, rfl, rfl, [],
    (addBreaks_nil _).symm, by simp, .nil⟩ rfl rfl rfl, fun {S Γ} _ hd hs => ?_⟩
  exact ⟨Γ, { hd with constants := hd.constants.add c }, rfl, hs.constants _ _ (hd.constants.get?_key hk), rfl, rfl⟩

theorem constant (c : Constant) : Emits (Emit.constant c) fun _ S => (S.constant c).layout := by
  refine ((constantKey c).bind fun key => op rfl rfl).weaken ?_
  rintro _ S Γ p Γ' p' - ⟨key, _, _, ⟨hk, rfl, rfl⟩, ho, rfl, -, rfl⟩
  exact ⟨⟨key, hk, ho, rfl⟩, rfl⟩

theorem nil : Emits Emit.nil fun _ S => S.nil.layout := by
  intro s s' _ h
  have hop := op (o := .const) rfl rfl h
  refine ⟨hop.adds, fun hk hd hs => ?_⟩
  obtain ⟨Γ', hd', hl, ho, hp, -, rfl⟩ := hop.lies hk hd hs
  exact ⟨_, hd', hl, ⟨hs.constants _ _ hd'.constants.nil, ho, hp⟩, rfl⟩

/-! ## Variables -/

/-- Where the compiler finds a variable is where the sheet has it. -/
theorem resolve (name : String) : Emits (Emit.resolve name) fun place S Γ p Γ' p' =>
    S.place? Γ name = some place ∧ p' = p ∧ Γ' = Γ := by
  intro s s' place h
  have hplace : s' = s ∧ ∀ (S : Sheet) (Γ : Scope), Γ.locals = s.draft.locals → S.captures = s.draft.captures →
      S.place? Γ name = some place := by
    obtain ⟨_, _, h₁, h⟩ := bind_ok.1 h
    cases h₁
    unfold Sheet.place?
    cases hl : s.draft.locals.find? (·.name == name) with
    | some l =>
      rw [hl] at h
      cases h
      refine ⟨rfl, fun S Γ hΓ _ => ?_⟩
      rw [hΓ, hl]
    | none =>
      rw [hl] at h
      cases hc : s.draft.captures.findIdx? (· == name) with
      | some i =>
        rw [hc] at h
        obtain ⟨hi, h⟩ := check_ok h
        cases h
        refine ⟨rfl, fun S Γ hΓ hS => ?_⟩
        rw [hΓ, hl, hS, hc]
        exact if_pos (by omega)
      | none => rw [hc] at h; cases h
  obtain ⟨rfl, hplace⟩ := hplace
  exact ⟨.of_draft (.refl _) rfl rfl rfl,
    fun _ hd hs => ⟨_, hd, rfl, hplace _ _ hd.locals.symm hs.captures, rfl, rfl⟩⟩

theorem load (name : String) : Emits (Emit.load name) fun _ S => Part.layout fun Γ p p' =>
    ∃ place, S.place? Γ name = some place ∧ S.Has p place.loadOp [place.operand] ∧ p' = p + 2 := by
  have hop (place : Emit.Place) : Emits (Emit.op place.loadOp [place.operand]) fun _ S Γ p Γ' p' =>
      S.Has p place.loadOp [place.operand] ∧ p' = p + 2 ∧ Γ' = Γ.push := by
    have (place : Emit.Place) : place.loadOp.width = 1 ∧ place.loadOp.stackEffect? [place.operand] = some (0, 1) := by
      cases place <;> exact ⟨rfl, rfl⟩
    exact (op (show [_].length = _ from (this place).1.symm) (this place).2).weaken fun _ _ _ _ _ _ _ h =>
      ⟨h.1, h.2.1, h.2.2.2⟩
  have hload : Emit.load name = Emit.resolve name >>= fun place => Emit.op place.loadOp [place.operand] := by
    unfold Emit.load
    congr 1
    funext place
    cases place <;> rfl
  rw [hload]
  refine ((resolve name).bind hop).weaken ?_
  rintro _ S Γ p Γ' p' - ⟨place, _, _, ⟨hk, rfl, rfl⟩, ho, rfl, rfl⟩
  exact ⟨⟨place, hk, ho, rfl⟩, rfl⟩

/-- A value is copied to where a variable lives. -/
theorem store {m : Emit Unit} {P : Sheet → Part} (name : String) (h : Emits m fun _ S => (P S).layout) :
    Emits (do let place ← Emit.resolve name; m; Emit.store place) fun _ S => Part.layout fun Γ p p' =>
      ∃ place, S.place? Γ name = some place ∧ S.after (P S) place.storeOp [place.operand] Γ p p' := by
  have hop (place : Emit.Place) : Emits (do m; Emit.store place) fun _ S =>
      (S.after (P S) place.storeOp [place.operand]).layout := by
    cases place <;> exact after (n := 1) h rfl rfl
  refine ((resolve name).bind hop).weaken ?_
  rintro _ S Γ p Γ' p' - ⟨place, _, _, ⟨hk, rfl, rfl⟩, ho, rfl⟩
  exact ⟨⟨place, hk, ho⟩, rfl⟩

end Emits

/-! ## Scopes -/

section Scopes

variable {S : Sheet} {Γ : Scope} {new : List Local} {n k : Nat} {keep : Bool} {s s' : Workbench}

/-- The locals of the innermost scope are the new ones. -/
theorem Scope.Describes.scopeCount (hd : ((Γ.inner.grow new).raise n).Describes s.draft) (hΓ : Γ.Deep)
    (hnew : ∀ l ∈ new, l.depth = Γ.inner.depth) : Emit.scopeCount s.draft = new.length := by
  have hold : (Γ.locals.takeWhile fun l => l.depth == Γ.depth + 1) = [] := by
    cases hl : Γ.locals with
    | nil => rfl
    | cons l ls =>
      have := hΓ l (by rw [hl]; exact List.mem_cons_self ..)
      have hne : (l.depth == Γ.depth + 1) = false := by simp; omega
      simp [List.takeWhile, hne]
  have hall : ∀ l ∈ new, (l.depth == Γ.depth + 1) = true := fun l hl => by simpa [Scope.inner] using hnew l hl
  unfold Emit.scopeCount
  rw [hd.locals, hd.depth]
  show ((new ++ Γ.locals).takeWhile fun l => l.depth == Γ.depth + 1).length = new.length
  rw [List.takeWhile_append_of_pos hall, hold, List.append_nil]

/-- The scope around, before its values are taken off the stack. -/
theorem Scope.Describes.outer (hd : ((Γ.inner.grow new).raise n).Describes s.draft) (hΓ : Γ.Deep) :
    (Γ.raise (new.length + n)).Describes
      { s.draft with locals := s.draft.locals.drop new.length, depth := s.draft.depth - 1 } := by
  have hlocals : s.draft.locals.drop new.length = Γ.locals := by
    rw [hd.locals]
    exact List.drop_left
  refine { hd with locals := hlocals, depth := ?_, height := ?_, depths := ?_ }
  · show s.draft.depth - 1 = Γ.depth
    rw [hd.depth]
    rfl
  · show s.draft.height = Γ.height + (new.length + n)
    rw [hd.height]
    simp only [Scope.raise, Scope.grow, Scope.inner]
    omega
  · show ∀ l ∈ s.draft.locals.drop new.length, l.depth ≤ s.draft.depth - 1
    rw [hlocals, hd.depth]
    exact hΓ

theorem endScope_extends (h : Emit.endScope keep s = .ok () s') : Extends s s' := by
  refine .trans ?_ (Emits.drops keep _ _ (Emit.endScope_ok h)).adds
  exact .of_draft { Draft.Grows.refl s.draft with } rfl rfl rfl

/-- The end of a scope drops its locals, from under the value that stays if there is one. -/
theorem Settled.endScope (hk : s.Known)
    (hs : Settled S (s'.draft.holes Γ.loop?) s.draft.size s'.draft.size s.program.pages.size s')
    (h : Emit.endScope keep s = .ok () s') (hd : ((Γ.inner.grow new).raise keep.toNat).Describes s.draft)
    (hΓ : Γ.Deep) (hnew : ∀ l ∈ new, l.depth = Γ.inner.depth) : (Γ.raise keep.toNat).Describes s'.draft ∧
      S.drops (if keep then .unwind else .popN) new.length s.draft.size s'.draft.size := by
  have h := Emit.endScope_ok h
  rw [hd.scopeCount hΓ hnew] at h
  obtain ⟨Γ', hd', -, hdrops, -, rfl⟩ := (Emits.drops keep _ _ h).lies hk (hd.outer hΓ) hs
  refine ⟨?_, hdrops⟩
  rwa [show Γ.raise keep.toNat = { Γ.raise (new.length + keep.toNat) with
    height := (Γ.raise (new.length + keep.toNat)).height - new.length } by simp [Scope.raise]; omega]

end Scopes

namespace Emits

/-- Code in a scope of its own, which may start at another height. -/
theorem inScopeAt {m : Emit Unit} {L : Sheet → Layout} (keep : Bool) (f : Nat → Nat) (h : Emits m fun _ S => L S)
    (hL : ∀ S Γ p Γ' p', L S Γ p Γ' p' → ∃ new,
      Γ' = (({ Γ with height := f Γ.height } : Scope).grow new).raise keep.toNat ∧ ∀ l ∈ new, l.depth = Γ.depth) :
    Emits (do Emit.beginScope; m; Emit.endScope keep) fun _ S Γ p Γ' p' => ∃ new p₁,
      (∀ l ∈ new, l.depth = Γ.inner.depth) ∧
        L S Γ.inner p ((({ Γ with height := f Γ.height } : Scope).inner.grow new).raise keep.toNat) p₁ ∧
        S.drops (if keep then .unwind else .popN) new.length p₁ p' ∧
        Γ' = ({ Γ with height := f Γ.height } : Scope).raise keep.toNat := by
  intro s s' _ hm
  obtain ⟨_, s₁, h₁, hm⟩ := bind_ok.1 hm
  obtain ⟨_, s₂, h₂, h₃⟩ := bind_ok.1 hm
  have hb := (beginScope h₁).trans (h h₂)
  have he := endScope_extends h₃
  refine ⟨hb.adds.trans he, fun {S Γ} hk hd hs => ?_⟩
  obtain ⟨Γ₂, hd₂, hl₂, _, _, ⟨rfl, rfl⟩, hlies⟩ := hb.lies hk hd (Settled.back (H := []) hs he (Nat.le_refl _))
  obtain ⟨new, rfl, hnew⟩ := hL _ _ _ _ _ hlies
  have hΓ : Γ.Deep := by unfold Scope.Deep; rw [← hd.locals, ← hd.depth]; exact hd.depths
  have hs' := hs.part hb.adds.draft.size (Nat.le_refl _) hb.adds.program.count (fun _ h => h) fun _ h => .inl h
  obtain ⟨hd₃, hdrops⟩ := hs'.endScope (hb.adds.program.known hk) (Γ := { Γ with height := f Γ.height }) h₃ hd₂ hΓ hnew
  exact ⟨_, hd₃, rfl, new, _, hnew, hlies, hdrops, rfl⟩

/-- Code in a scope of its own. -/
theorem inScope {m : Emit Unit} {L : Sheet → Layout} (keep : Bool) (h : Emits m fun _ S => L S)
    (hL : ∀ S Γ p Γ' p', L S Γ p Γ' p' → ∃ new, Γ' = (Γ.grow new).raise keep.toNat ∧ ∀ l ∈ new, l.depth = Γ.depth) :
    Emits (do Emit.beginScope; m; Emit.endScope keep) fun _ S Γ p Γ' p' => ∃ new p₁,
      (∀ l ∈ new, l.depth = Γ.inner.depth) ∧ L S Γ.inner p ((Γ.inner.grow new).raise keep.toNat) p₁ ∧
        S.drops (if keep then .unwind else .popN) new.length p₁ p' ∧ Γ' = Γ.raise keep.toNat :=
  inScopeAt keep id h hL

/-- The code of an expression as a value. -/
theorem valued {m : Emit Unit} {L : Sheet → Layout} {producesValue : Bool} (h : Emits m fun _ S => L S)
    (hL : ∀ S, (L S).Leaves producesValue) :
    Emits (Emit.valued producesValue m) fun _ S => (S.valued producesValue (L S)).layout := by
  unfold Emit.valued Sheet.valued
  cases producesValue with
  | true =>
    refine h.weaken ?_
    rintro _ S Γ p Γ' p' - hlies
    obtain rfl : Γ' = Γ.push := hL S hlies
    exact ⟨hlies, rfl⟩
  | false =>
    have hnil : Emits (do m; Emit.nil) fun _ S => S.thenNil (L S) := by
      refine (h.bind fun _ => nil).weaken ?_
      rintro _ S Γ p Γ' p' - ⟨_, Γ₁, p₁, hlies, hnil, rfl⟩
      exact ⟨Γ₁, p₁, hlies, hnil, rfl⟩
    have hscope := inScope true hnil fun S Γ p Γ' p' ⟨Γ₁, p₁, hlies, _, hΓ'⟩ => by
      obtain ⟨new, rfl, hnew⟩ := hL S hlies
      exact ⟨new, hΓ', hnew⟩
    intro s s' _ hm
    have hm : (do Emit.beginScope; (do m; Emit.nil); Emit.endScope true) s = .ok () s' := by
      rwa [bind_assoc]
    refine (hscope hm).weaken ?_
    rintro S Γ p Γ' p' - ⟨new, p₁, hnew, hlies, hdrops, rfl⟩
    exact ⟨⟨new, p₁, hnew, hlies, hdrops⟩, rfl⟩

/-! ## Locals -/

theorem declare (name : String) (slot : Nat) : Emits (Emit.declare name slot) fun _ S Γ p Γ' p' =>
    ∃ l, S.declares Γ.depth name slot p l p' ∧ Γ' = { Γ with locals := l :: Γ.locals } := by
  intro s s' _ h
  obtain ⟨hslot, s₁, h₁, rfl⟩ := Emit.declare_ok h
  have hgrow {Γ : Scope} {boxed : Bool} (hd : Γ.Describes s₁.draft) :
      ({ Γ with locals := ⟨name, Γ.depth, slot.toUInt8, boxed⟩ :: Γ.locals } : Scope).Describes
        { s₁.draft with locals := ⟨name, s₁.draft.depth, slot.toUInt8, boxed⟩ :: s₁.draft.locals } := by
    refine { hd with locals := by simp [hd.locals, hd.depth], depths := ?_ }
    intro l hl
    rcases List.mem_cons.1 hl with rfl | hl
    · exact Nat.le_refl _
    · exact hd.depths l hl
  have hadds : Extends s₁ { s₁ with draft := { s₁.draft with
      locals := ⟨name, s₁.draft.depth, slot.toUInt8, s.draft.captured.contains name⟩ :: s₁.draft.locals } } :=
    .of_draft { Draft.Grows.refl s₁.draft with } rfl rfl rfl
  unfold Sheet.declares
  split at h₁
  · next hb =>
    have hop := op (o := .makeCell) rfl rfl h₁
    refine ⟨hop.adds.trans hadds, fun {S Γ} hk hd hs => ?_⟩
    have hcaptured : S.captured = s.draft.captured := hs.captured.trans hop.adds.draft.captured
    obtain ⟨Γ', hd', hl, ho, hp, -, rfl⟩ := hop.lies hk hd (Settled.back (H := []) hs hadds (Nat.le_refl _))
    refine ⟨_, hgrow hd', rfl, _, ⟨hslot, rfl, ?_⟩, by rw [hcaptured]; rfl⟩
    rw [hcaptured, if_pos hb]
    exact ⟨ho, hp⟩
  · next hb =>
    subst h₁
    refine ⟨hadds, fun {S Γ} _ hd hs => ?_⟩
    have hcaptured : S.captured = s₁.draft.captured := hs.captured
    refine ⟨_, hgrow hd, rfl, _, ⟨hslot, rfl, ?_⟩, by rw [hcaptured]⟩
    rw [hcaptured, if_neg hb]
    rfl

theorem declareAll : ∀ (names : List String) (slot : Nat), Emits (Emit.declareAll names slot) fun _ S Γ p Γ' p' =>
    ∃ new, S.declaresAll Γ.depth names slot p new p' ∧ Γ' = { Γ with locals := new ++ Γ.locals }
  | [], slot => by
    refine (skip ()).weaken ?_
    rintro _ S Γ p Γ' p' - ⟨-, rfl, rfl⟩
    exact ⟨[], ⟨rfl, rfl⟩, rfl⟩
  | name :: names, slot => by
    refine ((declare name slot).bind fun _ => declareAll names (slot + 1)).weaken ?_
    rintro _ S Γ p Γ' p' - ⟨_, _, p₁, ⟨l, hl, rfl⟩, new, hnew, rfl⟩
    exact ⟨new ++ [l], ⟨l, p₁, new, hl, hnew, rfl⟩, by simp⟩

end Emits

namespace Sheet

variable {S : Sheet} {depth slot p p' : Nat} {new : List Local}

theorem declares_depth {name : String} {l : Local} (h : S.declares depth name slot p l p') : l.depth = depth := by
  obtain ⟨-, rfl, -⟩ := h
  rfl

theorem declaresAll_length : ∀ {names : List String} {slot p : Nat} {new : List Local},
    S.declaresAll depth names slot p new p' → new.length = names.length ∧ ∀ l ∈ new, l.depth = depth
  | [], _, _, _, ⟨rfl, _⟩ => ⟨rfl, by simp⟩
  | _ :: names, _, _, _, ⟨l, _, rest, hl, hrest, rfl⟩ => by
    obtain ⟨hlen, hdepth⟩ := declaresAll_length hrest
    refine ⟨by simp [hlen], fun l' hl' => ?_⟩
    rcases List.mem_append.1 hl' with hl' | hl'
    · exact hdepth l' hl'
    · rw [List.mem_singleton.1 hl']
      exact declares_depth hl

theorem unpacks_length {names : List String} (h : S.unpacks depth names slot p new p') :
    new.length = names.length ∧ ∀ l ∈ new, l.depth = depth := by
  unfold unpacks at h
  split at h
  · obtain ⟨l, hl, rfl⟩ := h
    exact ⟨rfl, by simpa using declares_depth hl⟩
  · exact declaresAll_length h.2.2

end Sheet

namespace Emits

/-- The items of the value on top of the stack become locals. -/
theorem unpackItems (names : List String) (slot : Nat) :
    Emits (do Emit.byte .unpack names.length "unpacked names"; Emit.declareAll names slot) fun _ S Γ p Γ' p' =>
      ∃ new, (names.length ≤ 255 ∧ S.Has p .unpack [names.length.toUInt8] ∧
        S.declaresAll Γ.depth names slot (p + 2) new p') ∧ ∀ Γ₀ : Scope, Γ = Γ₀.push → Γ' = Γ₀.grow new := by
  have he (h : names.length ≤ 255) : Op.stackEffect? .unpack [names.length.toUInt8] = some (1, names.length) := by
    show some (1, names.length.toUInt8.toNat) = _
    rw [UInt8.toNat_ofNat', Nat.mod_eq_of_lt (by omega)]
  refine ((byte rfl he).bind fun _ => declareAll names slot).weaken ?_
  rintro _ S Γ p Γ' p' - ⟨_, _, _, ⟨hle, ho, rfl, -, rfl⟩, new, hnew, rfl⟩
  refine ⟨new, ⟨hle, ho, hnew⟩, ?_⟩
  rintro Γ₀ rfl
  simp [Scope.push, Scope.raise, Scope.grow, (Sheet.declaresAll_length hnew).1]

/-- The value on top of the stack becomes a local, or its items become several. -/
theorem unpack : ∀ (names : List String) (slot : Nat), Emits (Emit.unpack names slot) fun _ S Γ p Γ' p' =>
    ∃ new, S.unpacks Γ.depth names slot p new p' ∧ ∀ Γ₀ : Scope, Γ = Γ₀.push → Γ' = Γ₀.grow new
  | [name], slot => by
    refine (declare name slot).weaken ?_
    rintro _ S Γ p Γ' p' - ⟨l, hl, rfl⟩
    refine ⟨[l], ⟨l, hl, rfl⟩, ?_⟩
    rintro Γ₀ rfl
    rfl
  | [], slot => unpackItems [] slot
  | a :: b :: names, slot => unpackItems (a :: b :: names) slot

theorem declaration {m : Emit Unit} {P : Sheet → Part} (names : List String) (h : Emits m fun _ S => (P S).layout) :
    Emits (Emit.declaration names m) fun _ S => S.declaration names (P S) := by
  refine (h.bind fun _ => height.bind fun h => unpack names (h - 1)).weaken ?_
  rintro _ S Γ p Γ' p' - ⟨_, _, p₁, ⟨hP, rfl⟩, _, _, _, ⟨rfl, rfl, rfl⟩, new, hnew, hΓ'⟩
  exact ⟨_, new, hP, hnew, hΓ' Γ rfl⟩

end Emits

end ShellVM
