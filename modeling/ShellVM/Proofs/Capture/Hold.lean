import ShellVM.Proofs.Capture.Source
import ShellVM.Proofs.Flow.Construct

/-!
# What calls hold

At every offset of a page it is known which slots have cells, which declarations made them, and what was put aside for a
closure (`Hold`). `Instruction.Follows` says that an instruction leads from what is held before it to what is held
where it goes on, and `Sheet.Shows` that it is the code for a use of the source. `Sheet.Tells` says both of all the
instructions from one offset up to another.
-/

namespace ShellVM

/-- What a call holds at an offset of its page. -/
structure Hold where
  /-- The slots of locals that live in cells, with the sites of their declarations. -/
  cells : List (UInt8 × Nat)
  /-- For each open `try` region, innermost first, the cells that its handler relies on. -/
  regions : List (List (UInt8 × Nat))
  /-- What was put aside for a closure, the latest first. -/
  put : List CellVariable

/-- The handlers rely on nothing that is not held. -/
def Hold.Sound (σ : Hold) : Prop := ∀ r ∈ σ.regions, r ⊆ σ.cells

/-- At the offset this is held, or fewer cells are. -/
def Leads (Λ : Nat → Hold → Prop) (q : Nat) (σ : Hold) : Prop := ∃ cells, cells ⊆ σ.cells ∧ Λ q { σ with cells }

theorem Leads.of {Λ : Nat → Hold → Prop} {q : Nat} {σ : Hold} (h : Λ q σ) : Leads Λ q σ := ⟨σ.cells, fun _ h => h, h⟩

theorem Leads.mono {Λ Λ' : Nat → Hold → Prop} {q : Nat} {σ : Hold} (h : Leads Λ q σ) (hΛ : ∀ q τ, Λ q τ → Λ' q τ) :
    Leads Λ' q σ := by
  obtain ⟨cells, hcells, h⟩ := h
  exact ⟨cells, hcells, hΛ _ _ h⟩

/-- Is the instruction about variables in cells? -/
def Op.usesCell : Op → Bool
  | .makeCell | .loadCell | .storeCell | .loadCapture | .storeCapture | .captureLocal | .captureOuter | .makeClosure =>
    true
  | _ => false

/-- Is the instruction about variables, in cells or not? -/
def Op.usesVariable : Op → Bool
  | .load | .store => true
  | op => op.usesCell

/-- Does the instruction do nothing with variables, regions and the order of the code? -/
def Op.isBare : Op → Bool
  | .endTry => false
  | op => op.falls && !op.isJump && !op.usesVariable

/-- Is the instruction a jump within a region? -/
def Op.isBranch : Op → Bool
  | .enterTry => false
  | op => op.isJump

/-- Does the instruction neither make nor take cells, nor open nor close regions, nor end the call? -/
def Op.isCommon : Op → Bool
  | .makeCell | .captureLocal | .captureOuter | .makeClosure | .enterTry | .endTry | .ret => false
  | _ => true

/-- What is held before the instruction is `σ`, and `Λ` tells what is held elsewhere. A cell takes the place of no
other one. -/
def Instruction.Follows (i : Instruction) (Λ : Nat → Hold → Prop) (σ : Hold) : Prop :=
  match i.op with
  | .makeCell => σ.put = [] ∧ (∀ c ∈ σ.cells, c.1 ≠ i.byte 0 ∧ c.2 ≠ i.offset) ∧
      Leads Λ i.next { σ with cells := (i.byte 0, i.offset) :: σ.cells }
  | .captureLocal => ∃ site, (i.byte 0, site) ∈ σ.cells ∧ Leads Λ i.next { σ with put := .own site :: σ.put }
  | .captureOuter => Leads Λ i.next { σ with put := .outer (i.byte 0).toNat :: σ.put }
  | .makeClosure => Leads Λ i.next { σ with put := [] }
  | .enterTry => σ.put = [] ∧ ∃ r t, r ⊆ σ.cells ∧ i.target? = some t ∧ Λ t ⟨r, σ.regions, []⟩ ∧
      Leads Λ i.next { σ with regions := r :: σ.regions }
  | .endTry => σ.put = [] ∧ ∃ r rest, σ.regions = r :: rest ∧ Leads Λ i.next { σ with regions := rest }
  | .ret => σ.put = [] ∧ σ.regions = []
  | op => σ.put = [] ∧ (op.falls = true → Leads Λ i.next σ) ∧ ∀ t, i.target? = some t → Leads Λ t σ

theorem Instruction.target?_eq_none {i : Instruction} (h : i.op.isJump = false) : i.target? = none := by
  unfold target?
  rw [h]
  rfl

section

variable {i : Instruction} {Λ : Nat → Hold → Prop} {σ : Hold}

theorem Instruction.follows_common (h : i.op.isCommon = true) : i.Follows Λ σ ↔
    σ.put = [] ∧ (i.op.falls = true → Leads Λ i.next σ) ∧ ∀ t, i.target? = some t → Leads Λ t σ := by
  obtain ⟨p, op, operands⟩ := i
  cases op <;> first | exact Iff.rfl | cases h

theorem Instruction.follows_bare (h : i.op.isBare = true) : i.Follows Λ σ ↔ σ.put = [] ∧ Leads Λ i.next σ := by
  have hop : i.op.isCommon = true ∧ i.op.falls = true ∧ i.op.isJump = false := by
    cases hi : i.op <;> rw [hi] at h <;> first | exact ⟨rfl, rfl, rfl⟩ | cases h
  rw [follows_common hop.1, target?_eq_none hop.2.2]
  exact ⟨fun ⟨hput, hnext, _⟩ => ⟨hput, hnext hop.2.1⟩, fun ⟨hput, hnext⟩ => ⟨hput, fun _ => hnext, nofun⟩⟩

theorem Op.isCommon_of_isBranch {op : Op} (h : op.isBranch = true) : op.isCommon = true := by
  cases op <;> first | rfl | cases h

end

/-- The instruction names the variable, as a cell of the call or as one that the page captures. -/
def Hold.Names (σ : Hold) (i : Instruction) (cell capture : Op) : CellVariable → Prop
  | .own site => i.op = cell ∧ (i.byte 0, site) ∈ σ.cells
  | .outer index => i.op = capture ∧ (i.byte 0).toNat = index

namespace Origin

/-- The page as the code of the source. -/
def sheet (origin : Origin) (program : Program) (functions : List (Nat × UInt16)) (page : Page) : Sheet :=
  ⟨program, functions, page, origin.captures, origin.captured, origin.isEntry⟩

/-- The source of a page. -/
def IsCodeOf (origin : Origin) (program : Program) (functions : List (Nat × UInt16)) (page : Page) : Prop :=
  (origin.sheet program functions page).Holds origin.parameters
    ((origin.sheet program functions page).valued origin.body.producesValue
      (origin.body.Lies (origin.sheet program functions page)))

end Origin

namespace Sheet

variable (S : Sheet)

/-- The instruction is the code for a use of the source. -/
def Shows (i : Instruction) (σ : Hold) : Use → Prop
  | .read => i.op = .load
  | .write => i.op = .store
  | .declare => i.op = .makeCell
  | .load x => σ.Names i .loadCell .loadCapture x
  | .store x => σ.Names i .storeCell .storeCapture x
  | .put x => σ.Names i .captureLocal .captureOuter x
  | .close parameters captures body xs => i.op = .makeClosure ∧ σ.put = xs.reverse ∧ (i.byte 2).toNat = xs.length ∧
      ∃ index page, S.page.constants.get? (i.word 0) = some (.page index) ∧ S.program.page? index = some page ∧
        Origin.IsCodeOf ⟨parameters, captures, body.captured, false, body⟩ S.program S.functions page

/-- A row of instructions with what is held before them, from one offset up to another, and the uses of the source
that they are the code for. -/
inductive Trace : List (Nat × Hold) → List (Nat × Use) → Nat → Hold → Nat → Hold → Prop where
  | done (p : Nat) (σ : Hold) : Trace [] [] p σ p σ
  | plain {points : List (Nat × Hold)} {uses : List (Nat × Use)} {p p' : Nat} {σ τ σ' : Hold} {op : Op}
      {operands : List UInt8} (has : S.Has p op operands) (hop : op.usesVariable = false)
      (rest : Trace points uses (p + 1 + operands.length) τ p' σ') : Trace ((p, σ) :: points) uses p σ p' σ'
  | use {points : List (Nat × Hold)} {uses : List (Nat × Use)} {p p' : Nat} {σ τ σ' : Hold} {op : Op}
      {operands : List UInt8} {u : Use} (has : S.Has p op operands) (shows : S.Shows ⟨p, op, operands⟩ σ u)
      (rest : Trace points uses (p + 1 + operands.length) τ p' σ') : Trace ((p, σ) :: points) ((p, u) :: uses) p σ p' σ'

/-- An instruction stands at the offset and leads on. -/
def Moves (Λ : Nat → Hold → Prop) (p : Nat) (σ : Hold) : Prop :=
  σ.Sound ∧ ∃ op operands, S.Has p op operands ∧ Instruction.Follows ⟨p, op, operands⟩ Λ σ

/-- From one offset up to another the code is that for the uses, and leads from what is held at one end to what is
held at the other, as far as `outs` tells what is held outside. -/
def Tells (outs : Nat → Hold → Prop) (uses : List (Nat × Use)) (p : Nat) (σ : Hold) (p' : Nat) (σ' : Hold) : Prop :=
  ∃ points, S.Trace points uses p σ p' σ' ∧ ∀ Λ : Nat → Hold → Prop, (∀ x ∈ points, Λ x.1 x.2) → Λ p' σ' →
    (∀ q τ, outs q τ → Λ q τ) → ∀ x ∈ points, S.Moves Λ x.1 x.2

variable {S} {outs outs' : Nat → Hold → Prop} {uses uses' : List (Nat × Use)} {p p₁ p' : Nat} {σ τ σ' : Hold} {op : Op}
  {operands : List UInt8}

namespace Trace

variable {points points' : List (Nat × Hold)}

theorem append (h : S.Trace points uses p σ p₁ τ) (h' : S.Trace points' uses' p₁ τ p' σ') :
    S.Trace (points ++ points') (uses ++ uses') p σ p' σ' := by
  induction h with
  | done => exact h'
  | plain has hop _ ih => exact .plain has hop (ih h')
  | use has shows _ ih => exact .use has shows (ih h')

theorem start (h : S.Trace points uses p σ p' σ') {Λ : Nat → Hold → Prop} (hΛ : ∀ x ∈ points, Λ x.1 x.2)
    (hend : Λ p' σ') : Λ p σ := by
  cases h with
  | done => exact hend
  | plain | use => exact hΛ _ List.mem_cons_self

theorem le (h : S.Trace points uses p σ p' σ') : p ≤ p' := by
  induction h with
  | done => exact Nat.le_refl _
  | plain _ _ _ ih | use _ _ _ ih => omega

/-- The points of a row lie between its ends. -/
theorem bounds (h : S.Trace points uses p σ p' σ') : ∀ x ∈ points, p ≤ x.1 ∧ x.1 < p' := by
  induction h with
  | done => exact nofun
  | plain _ _ rest ih | use _ _ rest ih =>
    have hle := rest.le
    intro x hx
    rcases List.mem_cons.1 hx with rfl | hx
    · exact ⟨Nat.le_refl _, by omega⟩
    · have := ih x hx
      exact ⟨by omega, this.2⟩

/-- Every use has a point, at which its code stands. -/
theorem shows (h : S.Trace points uses p σ p' σ') {x : Nat × Use} (hx : x ∈ uses) :
    ∃ τ op operands, (x.1, τ) ∈ points ∧ S.Has x.1 op operands ∧ S.Shows ⟨x.1, op, operands⟩ τ x.2 := by
  induction h with
  | done => cases hx
  | plain has hop rest ih =>
    obtain ⟨τ, op, operands, hτ, h⟩ := ih hx
    exact ⟨τ, op, operands, List.mem_cons_of_mem _ hτ, h⟩
  | use has shows rest ih =>
    rcases List.mem_cons.1 hx with rfl | hx
    · exact ⟨_, _, _, List.mem_cons_self, has, shows⟩
    · obtain ⟨τ, op, operands, hτ, h⟩ := ih hx
      exact ⟨τ, op, operands, List.mem_cons_of_mem _ hτ, h⟩

/-- Every instruction about variables is the code for a use. -/
theorem uses_of_has (h : S.Trace points uses p σ p' σ') {q : Nat} (hq : ∃ τ, (q, τ) ∈ points)
    (has : S.Has q op operands) (hop : op.usesVariable = true) : ∃ u, (q, u) ∈ uses := by
  induction h with
  | done =>
    obtain ⟨τ, hτ⟩ := hq
    cases hτ
  | plain has' hop' rest ih =>
    obtain ⟨τ, hτ⟩ := hq
    rcases List.mem_cons.1 hτ with heq | hτ
    · cases heq
      obtain ⟨rfl, -⟩ := has.unique has'
      rw [hop'] at hop
      cases hop
    · exact ih ⟨τ, hτ⟩
  | use has' shows rest ih =>
    obtain ⟨τ, hτ⟩ := hq
    rcases List.mem_cons.1 hτ with heq | hτ
    · cases heq
      exact ⟨_, List.mem_cons_self⟩
    · obtain ⟨u, hu⟩ := ih ⟨τ, hτ⟩
      exact ⟨u, List.mem_cons_of_mem _ hu⟩

/-- At every offset one thing is held. -/
theorem functional (h : S.Trace points uses p σ p' σ') {q : Nat} {τ υ : Hold} (hτ : (q, τ) ∈ points)
    (hυ : (q, υ) ∈ points) : τ = υ := by
  induction h with
  | done => cases hτ
  | plain _ _ rest ih | use _ _ rest ih =>
    rcases List.mem_cons.1 hτ with heq | hτ'
    · obtain ⟨rfl, rfl⟩ := Prod.mk.inj heq
      rcases List.mem_cons.1 hυ with heq' | hυ'
      · exact (Prod.mk.inj heq').2.symm
      · have := (rest.bounds _ hυ').1
        omega
    · rcases List.mem_cons.1 hυ with heq' | hυ'
      · obtain ⟨rfl, rfl⟩ := Prod.mk.inj heq'
        have := (rest.bounds _ hτ').1
        omega
      · exact ih hτ' hυ'

end Trace

namespace Tells

theorem refl (p : Nat) (σ : Hold) : S.Tells outs [] p σ p σ := ⟨[], .done p σ, fun _ _ _ _ => nofun⟩

theorem trans (h : S.Tells outs uses p σ p₁ τ) (h' : S.Tells outs uses' p₁ τ p' σ') :
    S.Tells outs (uses ++ uses') p σ p' σ' := by
  obtain ⟨points, trace, moves⟩ := h
  obtain ⟨points', trace', moves'⟩ := h'
  refine ⟨points ++ points', trace.append trace', fun Λ hΛ hend houts x hx => ?_⟩
  have hleft : ∀ x ∈ points, Λ x.1 x.2 := fun x hx => hΛ x (List.mem_append_left _ hx)
  have hright : ∀ x ∈ points', Λ x.1 x.2 := fun x hx => hΛ x (List.mem_append_right _ hx)
  rcases List.mem_append.1 hx with hx | hx
  · exact moves Λ hleft (trace'.start hright hend) houts x hx
  · exact moves' Λ hright hend houts x hx

/-- Code without uses in front. -/
theorem before (h : S.Tells outs [] p σ p₁ τ) (h' : S.Tells outs uses p₁ τ p' σ') :
    S.Tells outs uses p σ p' σ' := h.trans h'

/-- Code without uses behind. -/
theorem behind (h : S.Tells outs uses p σ p₁ τ) (h' : S.Tells outs [] p₁ τ p' σ') : S.Tells outs uses p σ p' σ' := by
  have := h.trans h'
  rwa [List.append_nil] at this

/-- A stretch may jump to its own start and end. -/
theorem close (h : S.Tells (fun q υ => outs q υ ∨ q = p ∧ υ = σ ∨ q = p' ∧ υ = σ') uses p σ p' σ') :
    S.Tells outs uses p σ p' σ' := by
  obtain ⟨points, trace, moves⟩ := h
  refine ⟨points, trace, fun Λ hΛ hend houts => moves Λ hΛ hend ?_⟩
  rintro q υ (h | ⟨rfl, rfl⟩ | ⟨rfl, rfl⟩)
  · exact houts q υ h
  · exact trace.start hΛ hend
  · exact hend

theorem loosen (h : S.Tells outs uses p σ p' σ') (ho : ∀ q υ, outs q υ → outs' q υ) : S.Tells outs' uses p σ p' σ' := by
  obtain ⟨points, trace, moves⟩ := h
  exact ⟨points, trace, fun Λ hΛ hend houts => moves Λ hΛ hend fun q υ hq => houts q υ (ho q υ hq)⟩

/-- Code in front of a jump may jump to the code behind it. -/
theorem across {r : Nat} (h : S.Tells (fun q υ => outs q υ ∨ q = r ∧ υ = τ) uses p σ r τ)
    (h' : S.Tells outs uses' r τ p' σ') : S.Tells outs (uses ++ uses') p σ p' σ' :=
  (close (h.loosen fun _ _ hq => hq.imp id .inr)).trans h'

theorem le (h : S.Tells outs uses p σ p' σ') : p ≤ p' := by
  obtain ⟨points, trace, -⟩ := h
  exact trace.le

/-- A single instruction that has nothing to do with variables. -/
theorem single (has : S.Has p op operands) (hop : op.usesVariable = false) (hp : p' = p + 1 + operands.length)
    (hσ : σ.Sound)
    (h : ∀ Λ : Nat → Hold → Prop, Λ p' σ' → (∀ q τ, outs q τ → Λ q τ) → Instruction.Follows ⟨p, op, operands⟩ Λ σ) :
    S.Tells outs [] p σ p' σ' := by
  subst hp
  refine ⟨[(p, σ)], .plain has hop (.done _ σ'), fun Λ _ hend houts x hx => ?_⟩
  obtain rfl := List.mem_singleton.1 hx
  exact ⟨hσ, op, operands, has, h Λ hend houts⟩

/-- A single instruction that is the code for a use. -/
theorem use {u : Use} (has : S.Has p op operands) (hu : S.Shows ⟨p, op, operands⟩ σ u)
    (hp : p' = p + 1 + operands.length) (hσ : σ.Sound)
    (h : ∀ Λ : Nat → Hold → Prop, Λ p' σ' → Instruction.Follows ⟨p, op, operands⟩ Λ σ) :
    S.Tells outs [(p, u)] p σ p' σ' := by
  subst hp
  refine ⟨[(p, σ)], .use has hu (.done _ σ'), fun Λ _ hend _ x hx => ?_⟩
  obtain rfl := List.mem_singleton.1 hx
  exact ⟨hσ, op, operands, has, h Λ hend⟩

end Tells

end Sheet

end ShellVM
