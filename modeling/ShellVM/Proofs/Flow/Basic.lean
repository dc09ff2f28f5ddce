import ShellVM.Proofs.Layout.Expression

/-!
# Flow of control through a page

Every offset of a finished page that starts an instruction has a `Shape`. `Sheet.Allows` says that an instruction may
stand at an offset of a given shape: what it needs is there, and it leads to offsets whose shapes are the right ones.
`Sheet.Flows` says that from one offset up to another all instructions are allowed, if the offsets outside to which
they jump have the shapes that are expected there. Stretches are put together by `Sheet.Flows.trans`, and a stretch
that jumps to its own ends relies on nothing outside (`Sheet.Flows.close`).
-/

namespace ShellVM

/-- A page that can be called with an environment of `n` cells. -/
def Program.Hosts (program : Program) (functions : List (Nat × UInt16)) (index : UInt16) (n : Nat) : Prop :=
  ∃ page, program.page? index = some page ∧ program.Laid functions page n

/-- Does an instruction go on to the next one? -/
def Op.falls : Op → Bool
  | .jump | .jumpBackward | .ret => false
  | _ => true

/-- Does an instruction do nothing but take and leave values? -/
def Op.isPlain : Op → Bool
  | .makeCell | .captureLocal | .captureOuter | .makeClosure | .getIter | .endFor | .endTry | .enterTry => false
  | op => op.falls && !op.isJump

namespace Shape

/-- There are `n` values to take without reaching below an open `try` region. -/
def Admits (σ : Shape) (n : Nat) : Prop := Zone.floor σ.zones + n ≤ σ.height

/-- The shape after values were taken and left. -/
def lift (σ : Shape) (pops pushes : Nat) : Shape := { σ with height := σ.height - pops + pushes }

/-- The shape behind an instruction. -/
def next (σ : Shape) (i : Instruction) (pops pushes : Nat) : Shape :=
  let τ := σ.lift pops pushes
  match i.op with
  | .makeCell => { τ with cells := i.byte 0 :: τ.cells }
  | .captureLocal | .captureOuter => { τ with pending := τ.pending + 1 }
  | .makeClosure => { τ with pending := τ.pending - (i.byte 2).toNat }
  | .getIter => { τ with zones := .each :: τ.zones }
  | .endFor | .endTry => { τ with zones := τ.zones.tail }
  | .enterTry => { τ with zones := .attempt τ.height :: τ.zones }
  | _ => τ

/-- The shape to which an instruction jumps: `forIter` pushes nothing then, and a handler finds an error. -/
def taken (σ : Shape) (i : Instruction) (pops pushes : Nat) : Shape :=
  match i.op with
  | .forIter => σ
  | .enterTry => σ.lift 0 1
  | _ => σ.lift pops pushes

end Shape

/-- The shape `τ` is like `σ`, but may ask for fewer cells. -/
def Shape.Within (τ σ : Shape) : Prop := ∃ cells, (∀ s ∈ cells, s ∈ σ.cells) ∧ τ = { σ with cells }

theorem Shape.Within.refl (σ : Shape) : σ.Within σ := ⟨σ.cells, fun _ h => h, rfl⟩

theorem Shape.Within.of_eq {σ τ : Shape} (h : τ = σ) : τ.Within σ := h ▸ .refl τ

/-- The offset has this shape, or one that asks for fewer cells. -/
def Reaches (Λ : Nat → Shape → Prop) (q : Nat) (σ : Shape) : Prop := ∃ τ, Λ q τ ∧ τ.Within σ

theorem Reaches.mono {Λ Λ' : Nat → Shape → Prop} {q : Nat} {σ : Shape} (h : Reaches Λ q σ)
    (hΛ : ∀ q σ, Λ q σ → Λ' q σ) : Reaches Λ' q σ := by
  obtain ⟨τ, h, hτ⟩ := h
  exact ⟨τ, hΛ _ _ h, hτ⟩

theorem Reaches.of {Λ : Nat → Shape → Prop} {q : Nat} {σ : Shape} (h : Λ q σ) : Reaches Λ q σ := ⟨σ, h, .refl σ⟩

namespace Sheet

variable (S : Sheet)

/-- The constant can be pushed. -/
def Offers : Constant → Prop
  | .page index => S.program.Hosts S.functions index 0
  | .libraryFunction _ | .shape .. => False
  | _ => True

/-- The values that an instruction takes and leaves; those of a struct are the fields of its shape. -/
def effect? (i : Instruction) : Option (Nat × Nat) :=
  match i.op with
  | .buildStruct =>
    match S.page.constants.get? (i.word 0) with
    | some (.shape _ fields) => some (fields.length, 1)
    | _ => none
  | .ret => some (0, 0)
  | op => op.stackEffect? i.operands

/-- What an instruction needs besides the values that it takes. -/
def Needs (i : Instruction) (σ : Shape) : Prop :=
  match i.op with
  | .const => ∃ c, S.page.constants.get? (i.word 0) = some c ∧ S.Offers c
  | .load | .store | .makeCell => (i.byte 0).toNat < σ.height
  | .loadCell | .storeCell | .captureLocal => (i.byte 0).toNat < σ.height ∧ i.byte 0 ∈ σ.cells
  | .loadCapture | .storeCapture | .captureOuter => (i.byte 0).toNat < S.captures.length
  | .cast => (Kind.ofTag? (i.byte 0)).isSome
  | .makeClosure => (i.byte 2).toNat ≤ σ.pending ∧ ∃ index, S.page.constants.get? (i.word 0) = some (.page index) ∧
      S.program.Hosts S.functions index (i.byte 2).toNat
  | .callStd => ∃ index entry f, S.page.constants.get? (i.word 0) = some (.libraryFunction index) ∧
      S.program.library[index.toNat]? = some entry ∧ entry.function? = some f
  | .call | .maybeRootCall => σ.pending = 0
  | .rootCall => σ.pending = 0 ∧ S.isEntry = true
  | .rootCallProgram => S.isEntry = true
  | .jumpIf | .jumpIfNot => σ.Admits 1
  | .forIter | .endFor => ∃ zones, σ.zones = .each :: zones
  | .endTry => ∃ h zones, σ.zones = .attempt h :: zones
  | .enterTry => σ.pending = 0
  | .ret => σ.height = 1 ∧ σ.zones = []
  | _ => True

/-- The instruction may stand where the shape is `σ`, if `Λ` tells the shapes of the page. -/
structure Allows (Λ : Nat → Shape → Prop) (i : Instruction) (σ : Shape) : Prop where
  needs : S.Needs i σ
  moves : ∃ pops pushes, S.effect? i = some (pops, pushes) ∧ σ.Admits pops ∧
    (i.op.falls = true → Reaches Λ i.next (σ.next i pops pushes)) ∧
    (i.op.isJump = true → ∃ t, i.target? = some t ∧ Reaches Λ t (σ.taken i pops pushes))

/-- An instruction stands at the offset and is allowed there. -/
def Goes (Λ : Nat → Shape → Prop) (p : Nat) (σ : Shape) : Prop :=
  ∃ op operands, S.Has p op operands ∧ S.Allows Λ ⟨p, op, operands⟩ σ

/-- A row of instructions with the shapes before them, from one offset up to another. -/
inductive Track : List (Nat × Shape) → Nat → Shape → Nat → Shape → Prop where
  | done (p : Nat) (σ : Shape) : Track [] p σ p σ
  | more {points : List (Nat × Shape)} {p p' : Nat} {σ τ σ' : Shape} {op : Op} {operands : List UInt8}
      (has : S.Has p op operands) (rest : Track points (p + 1 + operands.length) τ p' σ') :
      Track ((p, σ) :: points) p σ p' σ'

/-- From one offset up to another all instructions are allowed, as far as `outs` are the shapes outside. -/
def Flows (outs : Nat → Shape → Prop) (p : Nat) (σ : Shape) (p' : Nat) (σ' : Shape) : Prop :=
  ∃ points, S.Track points p σ p' σ' ∧ ∀ Λ : Nat → Shape → Prop, (∀ x ∈ points, Λ x.1 x.2) → Λ p' σ' →
    (∀ q τ, outs q τ → Λ q τ) → ∀ x ∈ points, S.Goes Λ x.1 x.2

variable {S} {outs : Nat → Shape → Prop} {p p₁ p' : Nat} {σ τ σ' : Shape}

/-- The instruction at an offset is the one that can be read there. -/
theorem Has.unique {p : Nat} {op op' : Op} {operands operands' : List UInt8} (h : S.Has p op operands)
    (h' : S.Has p op' operands') : op = op' ∧ operands = operands' := by
  obtain ⟨b, hb, hr⟩ := h
  obtain ⟨b', hb', hr'⟩ := h'
  obtain rfl : b = b' := Option.some.inj (hb.symm.trans hb')
  have := Except.ok.inj (hr.symm.trans hr')
  simp only [Instruction.mk.injEq, true_and] at this
  exact this

namespace Track

theorem append {points points' : List (Nat × Shape)} (h : S.Track points p σ p₁ τ) (h' : S.Track points' p₁ τ p' σ') :
    S.Track (points ++ points') p σ p' σ' := by
  induction h with
  | done => exact h'
  | more has _ ih => exact .more has (ih h')

/-- The first point of a row is its start. -/
theorem start {points : List (Nat × Shape)} (h : S.Track points p σ p' σ') {Λ : Nat → Shape → Prop}
    (hΛ : ∀ x ∈ points, Λ x.1 x.2) (hend : Λ p' σ') : Λ p σ := by
  cases h with
  | done => exact hend
  | more => exact hΛ _ (List.mem_cons_self ..)

end Track

namespace Flows

theorem refl (p : Nat) (σ : Shape) : S.Flows outs p σ p σ :=
  ⟨[], .done p σ, fun _ _ _ _ x hx => by cases hx⟩

theorem trans (h : S.Flows outs p σ p₁ τ) (h' : S.Flows outs p₁ τ p' σ') : S.Flows outs p σ p' σ' := by
  obtain ⟨points, track, goes⟩ := h
  obtain ⟨points', track', goes'⟩ := h'
  refine ⟨points ++ points', track.append track', fun Λ hΛ hend houts x hx => ?_⟩
  have hleft : ∀ x ∈ points, Λ x.1 x.2 := fun x hx => hΛ x (List.mem_append_left _ hx)
  have hright : ∀ x ∈ points', Λ x.1 x.2 := fun x hx => hΛ x (List.mem_append_right _ hx)
  rcases List.mem_append.1 hx with hx | hx
  · exact goes Λ hleft (track'.start hright hend) houts x hx
  · exact goes' Λ hright hend houts x hx

/-- A stretch may jump to its own start and end. -/
theorem close (h : S.Flows (fun q υ => outs q υ ∨ q = p ∧ υ = σ ∨ q = p' ∧ υ = σ') p σ p' σ') :
    S.Flows outs p σ p' σ' := by
  obtain ⟨points, track, goes⟩ := h
  refine ⟨points, track, fun Λ hΛ hend houts => goes Λ hΛ hend ?_⟩
  rintro q υ (h | ⟨rfl, rfl⟩ | ⟨rfl, rfl⟩)
  · exact houts q υ h
  · exact track.start hΛ hend
  · exact hend

theorem loosen {outs' : Nat → Shape → Prop} (h : S.Flows outs p σ p' σ') (ho : ∀ q υ, outs q υ → outs' q υ) :
    S.Flows outs' p σ p' σ' := by
  obtain ⟨points, track, goes⟩ := h
  exact ⟨points, track, fun Λ hΛ hend houts => goes Λ hΛ hend fun q υ hq => houts q υ (ho q υ hq)⟩

/-- A single instruction. -/
theorem single {op : Op} {operands : List UInt8} (has : S.Has p op operands) (hp : p' = p + 1 + operands.length)
    (h : ∀ Λ : Nat → Shape → Prop, Λ p σ → Λ p' σ' → (∀ q τ, outs q τ → Λ q τ) → S.Allows Λ ⟨p, op, operands⟩ σ) :
    S.Flows outs p σ p' σ' := by
  subst hp
  refine ⟨[(p, σ)], .more has (.done _ σ'), fun Λ hΛ hend houts x hx => ?_⟩
  obtain rfl := List.mem_singleton.1 hx
  exact ⟨op, operands, has, h Λ (hΛ _ (List.mem_singleton.2 rfl)) hend houts⟩

end Flows

end Sheet

end ShellVM
