import ShellVM.Proofs.Emission.Settled

/-!
# Emitters

`Scope.Describes` ties what the compiler knows while it writes to a scope of the finished page. An emitter `Emits` a
layout if all it does is add, and what it added lies in the finished page as the layout says; along the way every page
that it completes is laid out too (`Stocked`). Emitters of parts make emitters of constructs: one after the other is
`Drawn.trans`, and the single instructions are `Emits.op` and its kin.
-/

namespace ShellVM

/-- A loop of a page is what the compiler knows about it. -/
structure Loop.Describes (l : Loop) (zones : List Zone) (size : Nat) (c : LoopContext) : Prop where
  start : c.start = l.start
  height : c.height = l.shape.height
  regions : c.regions = l.shape.zones.length
  inner : ∃ inner, zones = inner ++ l.shape.zones
  le : l.start ≤ size

/-- The scope is what the draft knows. Open jumps lie in the code. -/
structure Scope.Describes (Γ : Scope) (d : Draft) : Prop where
  locals : d.locals = Γ.locals
  depth : d.depth = Γ.depth
  height : d.height = Γ.height
  regions : d.regions = Γ.zones.map Zone.region
  loops : ∀ c rest, d.loops = c :: rest → ∃ l, Γ.loop? = some l ∧ l.Describes Γ.zones d.size c
  inside : ∀ site ∈ d.breaks, site + 2 ≤ d.size
  depths : ∀ l ∈ d.locals, l.depth ≤ d.depth
  constants : d.page.constants.Sound

/-- What was written between two workbenches lies as the layout says. -/
structure Drawn (s s' : Workbench) (L : Sheet → Layout) : Prop where
  adds : Extends s s'
  lies : ∀ {S : Sheet} {Γ : Scope}, s.Known → Γ.Describes s.draft →
    Settled S (s'.draft.holes Γ.loop?) s.draft.size s'.draft.size s.program.pages.size s' →
    ∃ Γ', Γ'.Describes s'.draft ∧ Γ'.loop? = Γ.loop? ∧ L S Γ s.draft.size Γ' s'.draft.size

/-- All that the emitter does is write code that lies as the layout for its result says. -/
def Emits {α : Type} (m : Emit α) (L : α → Sheet → Layout) : Prop :=
  ∀ ⦃s s' : Workbench⦄ ⦃a : α⦄, m s = .ok a s' → Drawn s s' (L a)

/-- Locals belong to scopes that are open. -/
def Scope.Deep (Γ : Scope) : Prop := ∀ l ∈ Γ.locals, l.depth ≤ Γ.depth

/-! ## Instructions -/

section Instructions

variable {S : Sheet} {Γ : Scope} {H : List Hole} {p q n : Nat} {s s' : Workbench} {o : Op} {operands : List UInt8}

theorem Scope.Describes.holesIn {d : Draft} (h : Γ.Describes d) : d.HolesIn Γ.loop? := by
  intro x hx
  cases hl : Γ.loop? with
  | none => rw [hl] at hx; cases hx
  | some l =>
    rw [hl] at hx
    obtain ⟨site, hs, rfl⟩ := List.mem_map.1 hx
    exact h.inside site hs

/-- More code and another height. -/
theorem Scope.Describes.append {d : Draft} (h : Γ.Describes d) (bytes : List UInt8) (height : Nat) :
    ({ Γ with height } : Scope).Describes { d.append bytes with height } := by
  have hs := d.size_append bytes
  refine { h with height := rfl, loops := ?_, inside := ?_ }
  · intro c rest hc
    obtain ⟨l, hl, hd⟩ := h.loops c rest hc
    refine ⟨l, hl, { hd with le := ?_ }⟩
    have := hd.le
    show l.start ≤ (d.append bytes).size
    omega
  · intro site hsite
    have := h.inside site hsite
    show site + 2 ≤ (d.append bytes).size
    omega

theorem Scope.Describes.setHeight {d : Draft} (h : Γ.Describes d) (height : Nat) :
    ({ Γ with height } : Scope).Describes { d with height } :=
  { h with height := rfl }

theorem op_extends (h : Emit.op o operands s = .ok () s') : Extends s s' := by
  obtain ⟨height, rfl, -⟩ := Emit.op_ok h
  refine .of_draft ⟨?_, fun j hj => Draft.getElem?_append_of_lt hj, fun _ _ h => h, rfl, rfl, rfl, rfl, [],
    (addBreaks_nil _).symm, by simp, .nil⟩ rfl rfl rfl
  show s.draft.size ≤ (s.draft.append _).size
  rw [Draft.size_append]
  omega

theorem op_size (h : Emit.op o operands s = .ok () s') : s'.draft.size = s.draft.size + 1 + operands.length := by
  obtain ⟨height, rfl, -⟩ := Emit.op_ok h
  show (s.draft.append _).size = _
  rw [Draft.size_append, List.length_cons]
  omega

theorem op_bytes (h : Emit.op o operands s = .ok () s') :
    HasBytes s'.draft.page.code s.draft.size (o.toByte :: operands) := by
  obtain ⟨height, rfl, -⟩ := Emit.op_ok h
  exact fun k _ => Draft.getElem?_append_size_add (d := s.draft) k

/-- An instruction stands where it was written. -/
theorem Settled.has (h : Settled S H p q n s') (ho : Emit.op o operands s = .ok () s')
    (hw : operands.length = o.width) (hp : p ≤ s.draft.size) (hq : s'.draft.size ≤ q)
    (hH : ∀ x ∈ H, x.Off s.draft.size s'.draft.size) : S.Has s.draft.size o operands := by
  have hsize : s'.draft.size = s.draft.size + (o.toByte :: operands).length := by
    rw [op_size ho, List.length_cons]
    omega
  exact .of_bytes hw (h.bytes hp (by omega) (by rwa [← hsize]) (op_bytes ho))

/-- A jump goes to the target that its hole was filled in with. -/
theorem Settled.jumps {t : Nat} (h : Settled S H p q n s') (ho : Emit.op o [0, 0] s = .ok () s')
    (hw : o.width = 2) (hj : o.isJump = true) (hb : o ≠ .jumpBackward) (hp : p ≤ s.draft.size)
    (hq : s'.draft.size ≤ q) (ht : (⟨s.draft.size + 1, t⟩ : Hole) ∈ H)
    (hH : ∀ x ∈ H, x.Off s.draft.size (s.draft.size + 1)) : S.Jumps s.draft.size o t := by
  have hsize : s'.draft.size = s.draft.size + 3 := op_size ho
  obtain ⟨w, hword, hdist⟩ := h.filled _ ht
  have hop : HasBytes S.page.code s.draft.size [o.toByte] := by
    refine h.bytes hp (by rw [List.length_singleton]; omega) hH fun k hk => ?_
    obtain rfl : k = 0 := by simpa using hk
    exact op_bytes ho 0 (by simp)
  refine ⟨wordBytes w, .of_bytes hw.symm ?_, ?_⟩
  · intro k hk
    cases k with
    | zero => exact hop 0 (by simp)
    | succ k =>
      have := hword k (by simpa using hk)
      rwa [show s.draft.size + (k + 1) = s.draft.size + 1 + k by omega]
  · have hx : Instruction.word ⟨s.draft.size, o, wordBytes w⟩ 0 = w := Instruction.word_wordBytes _ _ w []
    have hn : Instruction.next ⟨s.draft.size, o, wordBytes w⟩ = s.draft.size + 3 := rfl
    simp only at hdist
    simp only [Instruction.target?, hj, hb, hx, hn, Bool.not_true, Bool.false_eq_true, if_false, Option.some.injEq]
    omega

/-- A jump back goes to its target. -/
theorem Settled.jumpsBack {t : Nat} (h : Settled S H p q n s') (ho : Emit.jumpBack t s = .ok () s')
    (ht : t ≤ s.draft.size) (hp : p ≤ s.draft.size) (hq : s'.draft.size ≤ q)
    (hH : ∀ x ∈ H, x.Off s.draft.size s'.draft.size) : S.Jumps s.draft.size .jumpBackward t := by
  obtain ⟨hd, ho⟩ := Emit.jumpBack_ok ho
  refine ⟨_, h.has ho rfl hp hq hH, ?_⟩
  have hn : ((s.draft.size + 3 - t).toUInt16).toNat = s.draft.size + 3 - t := by
    rw [UInt16.toNat_ofNat', Nat.mod_eq_of_lt (by omega)]
  generalize hw : (s.draft.size + 3 - t).toUInt16 = w at hn
  have hx : Instruction.word ⟨s.draft.size, .jumpBackward, wordBytes w⟩ 0 = w := Instruction.word_wordBytes _ _ w []
  have hnext : Instruction.next ⟨s.draft.size, .jumpBackward, wordBytes w⟩ = s.draft.size + 3 := rfl
  simp only [Instruction.target?, hx, hnext, hn, Op.isJump, Bool.not_true, Bool.false_eq_true, if_false, if_true]
  rw [if_pos (by omega)]
  congr 1
  omega

end Instructions

/-! ## One emitter after the other -/

section Drawn

variable {s s' s'' : Workbench} {L L' : Sheet → Layout}

theorem Drawn.weaken (h : Drawn s s' L) (hL : ∀ S Γ p Γ' p', Γ.Deep → L S Γ p Γ' p' → L' S Γ p Γ' p') :
    Drawn s s' L' where
  adds := h.adds
  lies := fun hk hd hs => by
    obtain ⟨Γ', hd', hl, h⟩ := h.lies hk hd hs
    exact ⟨Γ', hd', hl, hL _ _ _ _ _ (by unfold Scope.Deep; rw [← hd.locals, ← hd.depth]; exact hd.depths) h⟩

theorem Drawn.trans (h : Drawn s s' L) (h' : Drawn s' s'' L') :
    Drawn s s'' fun S Γ p Γ' p' => ∃ Γ₁ p₁, L S Γ p Γ₁ p₁ ∧ L' S Γ₁ p₁ Γ' p' where
  adds := h.adds.trans h'.adds
  lies := by
    intro S Γ hk hd hs
    obtain ⟨Γ₁, hd₁, hl₁, h₁⟩ := h.lies hk hd (Settled.back (H := []) hs h'.adds (Nat.le_refl _))
    obtain ⟨Γ₂, hd₂, hl₂, h₂⟩ := h'.lies (h.adds.program.known hk) hd₁ (by
      rw [hl₁]
      exact hs.part h.adds.draft.size (Nat.le_refl _) h.adds.program.count (fun _ h => h) fun _ h => .inl h)
    exact ⟨Γ₂, hd₂, hl₂.trans hl₁, Γ₁, _, h₁, h₂⟩

/-- What a step that writes nothing does to the scope. -/
theorem Drawn.of_scope {f : Scope → Scope} {d : Draft} (hs : s' = { s with draft := d })
    (hg : s.draft.Grows d) (hsize : d.size = s.draft.size) (hl : ∀ Γ, (f Γ).loop? = Γ.loop?)
    (hf : ∀ Γ : Scope, Γ.Describes s.draft → (f Γ).Describes d) :
    Drawn s s' fun _ Γ p Γ' p' => p' = p ∧ Γ' = f Γ := by
  subst hs
  exact ⟨.of_draft hg rfl rfl rfl, fun _ hd _ => ⟨_, hf _ hd, hl _, hsize, rfl⟩⟩

end Drawn

namespace Emits

variable {α β : Type} {m : Emit α} {f : α → Emit β} {L : α → Sheet → Layout} {L' : α → β → Sheet → Layout}

theorem weaken {K : α → Sheet → Layout} (h : Emits m L)
    (hL : ∀ a S Γ p Γ' p', Γ.Deep → L a S Γ p Γ' p' → K a S Γ p Γ' p') : Emits m K :=
  fun _ _ _ hm => (h hm).weaken (hL _)

theorem bind (h : Emits m L) (h' : ∀ a, Emits (f a) (L' a)) :
    Emits (m >>= f) fun b S Γ p Γ' p' => ∃ a Γ₁ p₁, L a S Γ p Γ₁ p₁ ∧ L' a b S Γ₁ p₁ Γ' p' := by
  intro s s' b hm
  obtain ⟨a, s₁, h₁, h₂⟩ := bind_ok.1 hm
  exact ((h h₁).trans (h' a h₂)).weaken fun S Γ p Γ' p' _ hL => ⟨a, hL⟩

theorem skip (a : α) : Emits (pure a) fun b _ Γ p Γ' p' => b = a ∧ p' = p ∧ Γ' = Γ := by
  intro s s' b h
  cases h
  exact (Drawn.of_scope (f := id) rfl (.refl _) rfl (fun _ => rfl) fun _ hd => hd).weaken
    fun _ _ _ _ _ _ h => ⟨rfl, h⟩

/-- An emitter that reads the draft. -/
theorem read (g : Draft → α) : Emits (do return g (← get).draft) fun a _ Γ p Γ' p' =>
    p' = p ∧ Γ' = Γ ∧ ∃ d : Draft, Γ.Describes d ∧ d.size = p ∧ a = g d := by
  intro s s' a h
  cases h
  exact ⟨.of_draft (.refl _) rfl rfl rfl, fun _ hd _ => ⟨_, hd, rfl, rfl, rfl, _, hd, rfl, rfl⟩⟩

theorem height : Emits Emit.height fun h _ Γ p Γ' p' => h = Γ.height ∧ p' = p ∧ Γ' = Γ := by
  refine (read Draft.height).weaken ?_
  rintro _ _ _ _ _ _ - ⟨rfl, rfl, d, hd, -, rfl⟩
  exact ⟨hd.height, rfl, rfl⟩

/-- A check that was passed. -/
theorem check {c : Prop} [Decidable c] {e : CompileError} {g : Unit → Emit α} (h : ¬c → Emits (g ()) L) :
    Emits (if c then (throw e : Emit Unit) >>= g else g ()) fun a S Γ p Γ' p' => ¬c ∧ L a S Γ p Γ' p' := by
  intro s s' a hm
  obtain ⟨hc, hm⟩ := check_ok hm
  exact (h hc hm).weaken fun _ _ _ _ _ _ hL => ⟨hc, hL⟩

/-- An instruction. The height follows its effect, if that is known. -/
theorem anyOp (o : Op) (operands : List UInt8) : Emits (Emit.op o operands) fun _ S Γ p Γ' p' =>
    (operands.length = o.width → S.Has p o operands) ∧ p' = p + 1 + operands.length ∧ ∃ height,
      Γ' = { Γ with height } ∧
        match o.stackEffect? operands with
        | some (pops, pushes) => pops ≤ Γ.height ∧ height = Γ.height - pops + pushes
        | none => height = Γ.height := by
  intro s s' _ h
  refine ⟨op_extends h, fun {S Γ} _ hd hs => ?_⟩
  obtain ⟨height, hs', hh⟩ := Emit.op_ok h
  rw [hd.height] at hh
  have hhas (hw : operands.length = o.width) : S.Has s.draft.size o operands :=
    hs.has h hw (Nat.le_refl _) (Nat.le_refl _) fun x hx => .inl (hd.holesIn x (by rw [hs'] at hx; exact hx))
  refine ⟨{ Γ with height }, ?_, rfl, hhas, op_size h, height, rfl, hh⟩
  rw [hs']
  exact hd.append _ _

/-- An instruction whose effect is known. -/
theorem op {o : Op} {operands : List UInt8} {pops pushes : Nat} (hw : operands.length = o.width)
    (he : o.stackEffect? operands = some (pops, pushes)) : Emits (Emit.op o operands) fun _ S Γ p Γ' p' =>
      S.Has p o operands ∧ p' = p + 1 + operands.length ∧ pops ≤ Γ.height ∧
        Γ' = { Γ with height := Γ.height - pops + pushes } := by
  refine (anyOp o operands).weaken ?_
  rintro _ S Γ p Γ' p' - ⟨ho, hp, height, rfl, hh⟩
  rw [he] at hh
  exact ⟨ho hw, hp, hh.1, by rw [hh.2]⟩

theorem setHeight (height : Nat) :
    Emits (Emit.setHeight height) fun _ _ Γ p Γ' p' => p' = p ∧ Γ' = { Γ with height } := by
  intro s s' _ h
  cases h
  exact .of_scope rfl { Draft.Grows.refl s.draft with } rfl (fun _ => rfl) fun _ hd => hd.setHeight height

theorem beginScope : Emits Emit.beginScope fun _ _ Γ p Γ' p' => p' = p ∧ Γ' = Γ.inner := by
  intro s s' _ h
  cases h
  refine .of_scope rfl { Draft.Grows.refl s.draft with } rfl (fun _ => rfl) fun Γ hd => ?_
  exact { hd with depth := by simp [hd.depth, Scope.inner], depths := fun l hl => Nat.le_succ_of_le (hd.depths l hl) }

theorem markLine (line : UInt32) : Emits (Emit.markLine line) fun _ _ Γ p Γ' p' => p' = p ∧ Γ' = Γ := by
  intro s s' _ h
  unfold Emit.markLine at h
  split at h
  · cases h
    obtain ⟨lines, hl⟩ := s.draft.page.markLine_eq line
    refine .of_scope (d := { s.draft with page := { s.draft.page with lines } }) (f := id) (by simp only [hl]) ?_ rfl
      (fun _ => rfl) fun Γ hd => { hd with }
    exact { Draft.Grows.refl s.draft with }
  · exact (skip () h).weaken fun _ _ _ _ _ _ h => h.2

end Emits

end ShellVM
