import Mathlib.Data.List.Forall2
import ShellVM.Proofs.Capture.Hold

/-!
# Code for captured variables

If the code of the parts of a construct is that for their uses of captured variables, so is the code of the construct.
What is known at a place besides its scope is a `Lore`: the sites of the locals in cells, and what the handlers of
open regions and the innermost loop rely on.
-/

namespace ShellVM

/-- The cells of locals whose declarations have these sites. -/
def heldCells (locals : List Local) (names : Names) : List (UInt8 × Nat) :=
  (locals.zip names).filterMap fun (l, x) => x.2.map (l.slot, ·)

/-- What is known at a place besides its scope. -/
structure Lore where
  names : Names
  regions : List (List (UInt8 × Nat))
  /-- What is held between two rounds of the innermost loop. -/
  loop? : Option Hold

namespace Lore

def rename (K : Lore) (names : Names) : Lore := { K with names }

def hold (K : Lore) (Γ : Scope) : Hold := ⟨heldCells Γ.locals K.names, K.regions, []⟩

/-- What is held at the offsets outside to which code may jump. -/
def outs (K : Lore) (Γ : Scope) (q : Nat) (τ : Hold) : Prop :=
  ∃ l, Γ.loop? = some l ∧ K.loop? = some τ ∧ (q = l.start ∨ q = l.exit)

end Lore

/-- The name and the site of a local, whose declaration lies before an offset. -/
structure Local.Named (p : Nat) (l : Local) (x : String × Option Nat) : Prop where
  name : x.1 = l.name
  boxed : x.2.isSome = l.boxed
  site : ∀ site, x.2 = some site → site < p

/-- What a loop around the scope relies on is held. -/
structure Lore.Around (K : Lore) (Γ : Scope) (l : Loop) (τ : Hold) : Prop where
  put : τ.put = []
  cells : τ.cells ⊆ heldCells Γ.locals K.names
  regions : ∃ inner, K.regions = inner ++ τ.regions
  count : τ.regions.length = Zone.attempts l.shape.zones
  sound : τ.Sound

/-- The lore belongs to the scope. -/
structure Lore.Fits (K : Lore) (Γ : Scope) (p : Nat) : Prop where
  sound : Γ.Sound
  names : List.Forall₂ (Local.Named p) Γ.locals K.names
  count : K.regions.length = Zone.attempts Γ.zones
  regions : (K.hold Γ).Sound
  loop : ∀ l, Γ.loop? = some l → ∃ τ, K.loop? = some τ ∧ K.Around Γ l τ

section

variable {K : Lore} {Γ Γ' : Scope} {p p' : Nat} {locals new : List Local} {names names' newNames : Names}

theorem heldCells_append (h : List.Forall₂ (Local.Named p) new newNames) :
    heldCells (new ++ locals) (newNames ++ names) = heldCells new newNames ++ heldCells locals names := by
  unfold heldCells
  rw [List.zip_append h.length_eq, List.filterMap_append]

theorem mem_heldCells (h : List.Forall₂ (Local.Named p) locals names) {c : UInt8 × Nat}
    (hc : c ∈ heldCells locals names) : (∃ l ∈ locals, l.slot = c.1) ∧ c.2 < p := by
  obtain ⟨⟨l, x⟩, hmem, hx⟩ := List.mem_filterMap.1 hc
  obtain ⟨site, hsite, rfl⟩ := Option.map_eq_some_iff.1 hx
  obtain ⟨i, hi, hget⟩ := List.getElem_of_mem hmem
  rw [List.getElem_zip, Prod.mk.injEq] at hget
  rw [List.length_zip] at hi
  have hnames : i < names.length := Nat.lt_of_lt_of_le hi (Nat.min_le_right _ _)
  have hnamed := (List.forall₂_iff_get.1 h).2 i (Nat.lt_of_lt_of_le hi (Nat.min_le_left _ _)) hnames
  refine ⟨⟨l, (List.of_mem_zip hmem).1, rfl⟩, hnamed.site site ?_⟩
  rw [show names.get ⟨i, hnames⟩ = x from hget.2]
  exact hsite

theorem Local.Named.mono {l : Local} {x : String × Option Nat} (h : l.Named p x) (hp : p ≤ p') : l.Named p' x :=
  { h with site := fun site hsite => Nat.lt_of_lt_of_le (h.site site hsite) hp }

/-- The new ones among the locals. -/
theorem Local.named_of_append (h : List.Forall₂ (Local.Named p) (new ++ locals) (newNames ++ names))
    (hnames : List.Forall₂ (Local.Named p') locals names) : List.Forall₂ (Local.Named p) new newNames := by
  have hlength : new.length = newNames.length := by
    have h₁ := h.length_eq
    have h₂ := hnames.length_eq
    rw [List.length_append, List.length_append] at h₁
    omega
  have htake := List.forall₂_take new.length h
  rwa [List.take_left', hlength, List.take_left'] at htake
  · rfl
  · rfl

namespace Lore.Fits

theorem mono (h : K.Fits Γ p) (hp : p ≤ p') : K.Fits Γ p' := { h with names := h.names.imp fun _ _ hx => hx.mono hp }

/-- In a scope with the same locals, zones and loop. -/
theorem same (h : K.Fits Γ p) (hsound : Γ'.Sound) (hlocals : Γ'.locals = Γ.locals)
    (hzones : Zone.attempts Γ'.zones = Zone.attempts Γ.zones) (hloop : Γ'.loop? = Γ.loop?) : K.Fits Γ' p where
  sound := hsound
  names := hlocals ▸ h.names
  count := h.count.trans hzones.symm
  regions := by
    unfold hold
    rw [hlocals]
    exact h.regions
  loop := fun l hl => by
    obtain ⟨τ, hτ, ha⟩ := h.loop l (hloop ▸ hl)
    exact ⟨τ, hτ, { ha with cells := hlocals ▸ ha.cells }⟩

theorem raise (h : K.Fits Γ p) (n : Nat) : K.Fits (Γ.raise n) p := h.same (h.sound.raise n) rfl rfl rfl

theorem inner (h : K.Fits Γ p) : K.Fits Γ.inner p := h.same h.sound.inner rfl rfl rfl

/-- Inside the body of a loop. -/
theorem within (h : K.Fits Γ p) (start exit : Nat) :
    Lore.Fits { K with loop? := some (K.hold Γ) } (Γ.within ⟨start, exit, Γ.shape⟩) p where
  sound := h.sound.within start exit
  names := h.names
  count := h.count
  regions := h.regions
  loop := by
    rintro l ⟨⟩
    exact ⟨_, rfl, rfl, fun _ hc => hc, ⟨[], rfl⟩, h.count, h.regions⟩

/-- Inside a `try` region. -/
theorem enterAttempt (h : K.Fits Γ p) :
    Lore.Fits { K with regions := heldCells Γ.locals K.names :: K.regions } (Γ.enter (.attempt Γ.height)) p where
  sound := h.sound.enter ⟨Nat.le_refl _, h.sound.nested⟩
  names := h.names
  count := congrArg (· + 1) h.count
  regions := by
    intro r hr
    rcases List.mem_cons.1 hr with rfl | hr
    · exact fun _ hc => hc
    · exact h.regions r hr
  loop := fun l hl => by
    obtain ⟨τ, hτ, ha⟩ := h.loop l hl
    obtain ⟨inner, hinner⟩ := ha.regions
    exact ⟨τ, hτ, { ha with regions := ⟨_ :: inner, congrArg _ hinner⟩ }⟩

/-- Inside a loop over items. -/
theorem enterEach (h : K.Fits Γ p) : K.Fits (Γ.enter .each) p :=
  h.same (h.sound.enter (show Zone.Nested Γ.height Γ.zones from h.sound.nested)) rfl rfl rfl

theorem subset (h : List.Forall₂ (Local.Named p) new newNames) :
    heldCells locals names ⊆ heldCells (new ++ locals) (newNames ++ names) := by
  rw [heldCells_append h]
  exact List.subset_append_right _ _

/-- After new locals. -/
theorem grow (h : K.Fits Γ p) (hp : p ≤ p') (hsound : (Γ.grow new).Sound)
    (hnew : List.Forall₂ (Local.Named p') new newNames) : (K.rename (newNames ++ K.names)).Fits (Γ.grow new) p' where
  sound := hsound
  names := List.rel_append hnew (h.mono hp).names
  count := h.count
  regions := fun r hr => List.Subset.trans (h.regions r hr) (subset hnew)
  loop := fun l hl => by
    obtain ⟨τ, hτ, ha⟩ := h.loop l hl
    exact ⟨τ, hτ, { ha with cells := List.Subset.trans ha.cells (subset hnew) }⟩

/-- New locals and their cells come later than the others. -/
theorem fresh (h : K.Fits Γ p) {c : UInt8 × Nat} (hc : c ∈ (K.hold Γ).cells) : c.1.toNat < Γ.height ∧ c.2 < p := by
  obtain ⟨⟨l, hl, hslot⟩, hsite⟩ := mem_heldCells h.names hc
  rw [← hslot]
  exact ⟨h.sound.slots l hl, hsite⟩

end Lore.Fits

/-- The code of the part is that for its uses. -/
def Part.Tells (P : Part) (S : Sheet) (Q : Names → List (Nat × Use) → Prop) : Prop :=
  ∀ ⦃Γ : Scope⦄ ⦃K : Lore⦄ ⦃p p' : Nat⦄, P Γ p p' → K.Fits Γ p →
    ∃ uses, Q K.names uses ∧ S.Tells (K.outs Γ) uses p (K.hold Γ) p' (K.hold Γ)

/-- The code is that for its uses, and new locals are known by their names. -/
def Layout.Tells (L : Layout) (S : Sheet) (Q : Names → List (Nat × Use) → Names → Prop) : Prop :=
  ∀ ⦃Γ : Scope⦄ ⦃K : Lore⦄ ⦃p : Nat⦄ ⦃Γ' : Scope⦄ ⦃p' : Nat⦄, L Γ p Γ' p' → K.Fits Γ p →
    ∃ uses newNames, Q K.names uses (newNames ++ K.names) ∧ Γ'.loop? = Γ.loop? ∧
      (K.rename (newNames ++ K.names)).Fits Γ' p' ∧
      S.Tells (K.outs Γ) uses p (K.hold Γ) p' ((K.rename (newNames ++ K.names)).hold Γ')

end

namespace Sheet

variable {S : Sheet} {outs : Nat → Hold → Prop} {K : Lore} {Γ : Scope} {p p' : Nat} {op : Op} {operands : List UInt8}
  {σ σ' : Hold} {es es' : List Expr}

/-- The uses of expressions one after the other, in the page. -/
def UsesOf (S : Sheet) (es : List Expr) (names : Names) (uses : List (Nat × Use)) : Prop :=
  PartsUse S.captures S.captured names es uses

/-! ## Single instructions -/

/-- An instruction that leaves what is held alone. Cells may not be needed behind it. -/
theorem Tells.bare {cells : List (UInt8 × Nat)} (has : S.Has p op operands) (hop : op.isBare = true) (hσ : σ.Sound)
    (hput : σ.put = []) (hp : p' = p + 1 + operands.length) (hcells : cells ⊆ σ.cells) :
    S.Tells outs [] p σ p' { σ with cells } := by
  have hvariable : op.usesVariable = false := by cases op <;> first | rfl | cases hop
  refine .single has hvariable hp hσ fun Λ hend _ => ?_
  rw [Instruction.follows_bare hop]
  subst hp
  exact ⟨hput, cells, hcells, hend⟩

theorem Tells.step (has : S.Has p op operands) (hop : op.isBare = true) (hσ : σ.Sound) (hput : σ.put = [])
    (hp : p' = p + 1 + operands.length) : S.Tells outs [] p σ p' σ := .bare has hop hσ hput hp fun _ h => h

/-- A jump. -/
theorem Tells.jump {t : Nat} (h : S.Jumps p op t) (hop : op.isBranch = true) (hσ : σ.Sound) (hput : σ.put = [])
    (ht : Leads outs t σ) (hfall : op.falls = true → σ' = σ) : S.Tells outs [] p σ (p + 3) σ' := by
  obtain ⟨operands, has, htarget⟩ := h
  have hplain : op.usesVariable = false ∧ op.width = 2 := by cases op <;> first | exact ⟨rfl, rfl⟩ | cases hop
  have hlength : operands.length = 2 := by rw [has.length, hplain.2]
  refine .single has hplain.1 (by omega) hσ fun Λ hend houts => ?_
  rw [Instruction.follows_common (Op.isCommon_of_isBranch hop)]
  refine ⟨hput, fun hf => ?_, fun t' ht' => ?_⟩
  · have hnext : Instruction.next ⟨p, op, operands⟩ = p + 3 := by
      show p + 1 + operands.length = p + 3
      omega
    rw [hnext, ← hfall hf]
    exact .of hend
  · obtain rfl : t = t' := Option.some.inj (htarget.symm.trans ht')
    exact ht.mono houts

theorem constant_tells (c : Constant) : (S.constant c).Tells S (S.UsesOf []) := by
  rintro Γ K p p' ⟨key, -, has, rfl⟩ hK
  exact ⟨[], .nil _, .step has rfl hK.regions rfl rfl⟩

theorem nil_tells : S.nil.Tells S (S.UsesOf []) := by
  rintro Γ K p p' ⟨hkey, has, rfl⟩ hK
  exact constant_tells .nil ⟨_, hkey, has, rfl⟩ hK

/-- A drop of values. Cells of what is dropped are forgotten. -/
theorem drops_tells {count : Nat} {cells : List (UInt8 × Nat)} (hop : op = .unwind ∨ op = .popN)
    (h : S.drops op count p p') (hσ : σ.Sound) (hput : σ.put = []) (hcells : cells ⊆ σ.cells)
    (hnone : count = 0 → cells = σ.cells) : S.Tells outs [] p σ p' { σ with cells } := by
  unfold drops at h
  split at h
  · next h0 =>
    subst h
    rw [hnone h0]
    exact .refl _ _
  · obtain ⟨-, has, rfl⟩ := h
    rcases hop with rfl | rfl
    · exact .bare has rfl hσ hput rfl hcells
    · exact .bare has rfl hσ hput rfl hcells

/-- The instructions that close zones. -/
theorem closes_tells {cells : List (UInt8 × Nat)} {regions outer : List (List (UInt8 × Nat))} {zones : List Zone}
    (h : S.closes zones p p') (hcount : regions.length = Zone.attempts zones)
    (hσ : Hold.Sound ⟨cells, regions ++ outer, []⟩) :
    S.Tells outs [] p ⟨cells, regions ++ outer, []⟩ p' ⟨cells, outer, []⟩ := by
  induction zones generalizing regions p with
  | nil =>
    obtain rfl : p' = p := h
    obtain rfl := List.length_eq_zero_iff.1 hcount
    exact .refl _ _
  | cons z zones ih =>
    obtain ⟨has, hrest⟩ := h
    cases z with
    | attempt height =>
      obtain ⟨r, regions, rfl⟩ := List.exists_cons_of_length_eq_add_one hcount
      have hrest := ih hrest (Nat.succ.inj hcount) fun r' hr' => hσ r' (List.mem_cons_of_mem _ hr')
      refine Tells.before (.single has rfl rfl hσ fun Λ hend _ => ?_) hrest
      exact ⟨rfl, r, regions ++ outer, rfl, .of hend⟩
    | each => exact Tells.before (.step has rfl hσ rfl rfl) (ih hrest hcount hσ)

/-! ## Locals -/

theorem declares_tells (outs : Nat → Hold → Prop) (names : Names) {depth slot : Nat} {name : String} {l : Local}
    {cells : List (UInt8 × Nat)} {regions : List (List (UInt8 × Nat))} (h : S.declares depth name slot p l p')
    (hfresh : ∀ c ∈ cells, c.1.toNat < slot ∧ c.2 < p) (hσ : Hold.Sound ⟨cells, regions, []⟩) :
    ∃ uses x, Declares S.captured names [name] uses (x :: names) ∧ l.Named p' x ∧ l.slot.toNat = slot ∧
      S.Tells outs uses p ⟨cells, regions, []⟩ p' ⟨heldCells [l] [x] ++ cells, regions, []⟩ := by
  have hslot := declares_slot h
  obtain ⟨-, hl, h⟩ := h
  cases hboxed : l.boxed with
  | false =>
    rw [hboxed, if_neg Bool.false_ne_true] at h
    subst h
    have hplain : S.captured.contains name = false := by rw [hl] at hboxed; exact hboxed
    exact ⟨[], (name, none), .plain hplain (.nil _), ⟨by rw [hl], hboxed.symm, nofun⟩, hslot, .refl _ _⟩
  | true =>
    rw [hboxed, if_pos rfl] at h
    obtain ⟨has, rfl⟩ := h
    have hcaptured : S.captured.contains name = true := by rw [hl] at hboxed; exact hboxed
    refine ⟨[(p, .declare)], (name, some p), .boxed p hcaptured (.nil _), ⟨by rw [hl], hboxed.symm, ?_⟩, hslot, ?_⟩
    · rintro site ⟨⟩
      omega
    · refine .use has rfl rfl hσ fun Λ hend => ⟨rfl, fun c hc => ⟨fun heq => ?_, fun heq => ?_⟩, .of hend⟩
      · have hlt : l.slot.toNat < slot := by
          have := (hfresh c hc).1
          rwa [heq] at this
        omega
      · have := (hfresh c hc).2
        rw [heq] at this
        exact Nat.lt_irrefl _ this

theorem declaresAll_tells (outs : Nat → Hold → Prop) (names : Names) {depth : Nat}
    {regions : List (List (UInt8 × Nat))} {declared : List String} {slot : Nat} {new : List Local}
    {cells : List (UInt8 × Nat)} (h : S.declaresAll depth declared slot p new p')
    (hfresh : ∀ c ∈ cells, c.1.toNat < slot ∧ c.2 < p) (hσ : Hold.Sound ⟨cells, regions, []⟩) :
    ∃ uses newNames, Declares S.captured names declared uses (newNames ++ names) ∧
      List.Forall₂ (Local.Named p') new newNames ∧
      S.Tells outs uses p ⟨cells, regions, []⟩ p' ⟨heldCells new newNames ++ cells, regions, []⟩ := by
  induction declared generalizing names slot p new cells with
  | nil =>
    obtain ⟨rfl, rfl⟩ := h
    exact ⟨[], [], .nil _, .nil, .refl _ _⟩
  | cons name declared ih =>
    obtain ⟨l, p₁, rest, hl, hrest, rfl⟩ := h
    obtain ⟨uses, x, hdeclares, hx, hslot, htells⟩ := declares_tells outs names hl hfresh hσ
    have hx' : List.Forall₂ (Local.Named p₁) [l] [x] := .cons hx .nil
    have hcells : ∀ c ∈ heldCells [l] [x] ++ cells, c.1.toNat < slot + 1 ∧ c.2 < p₁ := fun c hc => by
      rcases List.mem_append.1 hc with hc | hc
      · obtain ⟨⟨l', hl', hc'⟩, hsite⟩ := mem_heldCells hx' hc
        obtain rfl := List.mem_singleton.1 hl'
        rw [← hc']
        exact ⟨by omega, hsite⟩
      · have := hfresh c hc
        have := htells.le
        omega
    obtain ⟨uses', newNames, hdeclares', hnew, htells'⟩ := ih (x :: names) hrest hcells
      fun r hr => List.Subset.trans (hσ r hr) (List.subset_append_right _ _)
    refine ⟨uses ++ uses', newNames ++ [x], ?_, List.rel_append hnew (.cons (hx.mono htells'.le) .nil), ?_⟩
    · rw [List.append_assoc]
      exact hdeclares.append hdeclares'
    · rw [heldCells_append hnew, List.append_assoc]
      exact htells.trans htells'

/-- The value on top of the stack becomes a local, or its items become several. -/
theorem unpacks_tells (outs : Nat → Hold → Prop) {declared : List String} {new : List Local}
    (h : S.unpacks Γ.depth declared Γ.height p new p') (hK : K.Fits Γ p) :
    ∃ uses newNames, Declares S.captured K.names declared uses (newNames ++ K.names) ∧
      (K.rename (newNames ++ K.names)).Fits (Γ.grow new) p' ∧
      S.Tells outs uses p (K.hold Γ) p' ((K.rename (newNames ++ K.names)).hold (Γ.grow new)) := by
  obtain ⟨hsound, -⟩ : (Γ.grow new).Sound ∧ S.Flows (fun _ _ => False) p Γ.push.shape p' (Γ.grow new).shape :=
    unpacks_flows h hK.sound
  have hfresh : ∀ c ∈ (K.hold Γ).cells, c.1.toNat < Γ.height ∧ c.2 < p := fun c hc => hK.fresh hc
  have hgrown {uses : List (Nat × Use)} {newNames : Names} (hnew : List.Forall₂ (Local.Named p') new newNames)
      (htells : S.Tells outs uses p (K.hold Γ) p' ⟨heldCells new newNames ++ (K.hold Γ).cells, K.regions, []⟩) :
      (K.rename (newNames ++ K.names)).Fits (Γ.grow new) p' ∧
        S.Tells outs uses p (K.hold Γ) p' ((K.rename (newNames ++ K.names)).hold (Γ.grow new)) := by
    refine ⟨hK.grow htells.le hsound hnew, ?_⟩
    have hcells : (K.rename (newNames ++ K.names)).hold (Γ.grow new) =
        ⟨heldCells new newNames ++ (K.hold Γ).cells, K.regions, []⟩ :=
      congrArg (Hold.mk · K.regions []) (heldCells_append hnew)
    rwa [hcells]
  unfold unpacks at h
  split at h
  · obtain ⟨l, hl, rfl⟩ := h
    obtain ⟨uses, x, hdeclares, hx, -, htells⟩ := declares_tells outs K.names hl hfresh hK.regions
    exact ⟨uses, [x], hdeclares, hgrown (.cons hx .nil) htells⟩
  · obtain ⟨-, has, hall⟩ := h
    have hunpack : S.Tells outs [] p (K.hold Γ) (p + 2) (K.hold Γ) := .step has rfl hK.regions rfl rfl
    have hfresh' : ∀ c ∈ (K.hold Γ).cells, c.1.toNat < Γ.height ∧ c.2 < p + 2 := fun c hc => by
      have := hfresh c hc
      omega
    obtain ⟨uses, newNames, hdeclares, hnew, htells⟩ := declaresAll_tells outs K.names hall hfresh'
      hK.regions
    exact ⟨uses, newNames, hdeclares, hgrown hnew (hunpack.before htells)⟩

theorem declaration_tells {declared : List String} {value : Part} (h : value.Tells S (S.UsesOf es)) :
    (S.declaration declared value).Tells S fun names uses names' => ∃ uses₁ uses₂, uses = uses₁ ++ uses₂ ∧
      S.UsesOf es names uses₁ ∧ Declares S.captured names declared uses₂ names' := by
  rintro Γ K p Γ' p' ⟨p₁, new, hvalue, hnew, rfl⟩ hK
  obtain ⟨uses, huses, htells⟩ := h hvalue hK
  obtain ⟨uses', newNames, hdeclares, hfits, htells'⟩ := unpacks_tells (K.outs Γ) hnew (hK.mono htells.le)
  exact ⟨uses ++ uses', newNames, ⟨uses, uses', rfl, huses, hdeclares⟩, rfl, hfits, htells.trans htells'⟩

/-! ## Values from parts -/

theorem nothing_tells : Part.Tells (fun _ p p' => p' = p) S (S.UsesOf []) := by
  rintro Γ K p p' rfl hK
  exact ⟨[], .nil _, .refl _ _⟩

/-- One part after the other, with `n` values of the first on the stack. -/
theorem row_tells {P P' : Part} {n : Nat} (h : P.Tells S (S.UsesOf es)) (h' : P'.Tells S (S.UsesOf es')) :
    Part.Tells (fun Γ p p' => ∃ p₁, P Γ p p₁ ∧ P' (Γ.raise n) p₁ p') S (S.UsesOf (es ++ es')) := by
  rintro Γ K p p' ⟨p₁, hP, hP'⟩ hK
  obtain ⟨uses, huses, htells⟩ := h hP hK
  obtain ⟨uses', huses', htells'⟩ := h' hP' ((hK.mono htells.le).raise n)
  exact ⟨uses ++ uses', .append _ _ huses huses', htells.trans htells'⟩

theorem both_tells {P P' : Part} (h : P.Tells S (S.UsesOf es)) (h' : P'.Tells S (S.UsesOf es')) :
    (Part.both P P').Tells S (S.UsesOf (es ++ es')) := row_tells h h'

/-- A part on top of other values. -/
theorem raised_tells {P : Part} {n : Nat} (h : P.Tells S (S.UsesOf es)) :
    Part.Tells (fun Γ => P (Γ.raise n)) S (S.UsesOf es) := by
  intro Γ K p p' hP hK
  exact h (Γ := Γ.raise n) hP (hK.raise n)

/-- An instruction behind its operands. -/
theorem after_tells {parts : Part} (h : parts.Tells S (S.UsesOf es)) (hop : op.isBare = true) :
    (S.after parts op operands).Tells S (S.UsesOf es) := by
  rintro Γ K p p' ⟨p₁, hparts, has, rfl⟩ hK
  obtain ⟨uses, huses, htells⟩ := h hparts hK
  exact ⟨uses, huses, htells.behind (.step has hop hK.regions rfl rfl)⟩

theorem counted_tells {parts : Part} {count : Nat} (h : parts.Tells S (S.UsesOf es)) (hop : op.isBare = true) :
    (S.counted parts op count).Tells S (S.UsesOf es) := fun _ _ _ _ ⟨_, hafter⟩ hK => after_tells h hop hafter hK

/-- A scope of its own gives its value and drops its locals. -/
theorem block_tells {items : Layout} {Q : Names → List (Nat × Use) → Names → Prop} (h : items.Tells S Q) :
    (S.block items).Tells S fun names uses => ∃ names', Q names uses names' := by
  rintro Γ K p p' ⟨new, p₁, -, hitems, hdrops⟩ hK
  obtain ⟨uses, newNames, hQ, -, hfits, htells⟩ := h hitems hK.inner
  have hnew := Local.named_of_append hfits.names hK.names
  refine ⟨uses, ⟨_, hQ⟩, htells.behind ?_⟩
  refine drops_tells (.inl rfl) hdrops hfits.regions rfl (Lore.Fits.subset hnew) fun h0 => ?_
  obtain rfl := List.length_eq_zero_iff.1 h0
  cases hnew
  rfl

theorem thenNil_tells {code : Layout} {Q : Names → List (Nat × Use) → Names → Prop} (h : code.Tells S Q) :
    (S.thenNil code).Tells S Q := by
  rintro Γ K p Γ' p' ⟨Γ₁, p₁, hcode, hnil, rfl⟩ hK
  obtain ⟨uses, newNames, hQ, hloop, hfits, htells⟩ := h hcode hK
  obtain ⟨uses', hnone, hnil⟩ := nil_tells hnil hfits
  cases hnone
  unfold Lore.outs at hnil
  rw [hloop] at hnil
  exact ⟨uses, newNames, hQ, hloop, (hfits.mono hnil.le).raise 1, htells.behind hnil⟩

/-- An expression in the place of a value. -/
theorem valued_tells {e : Expr} (h : (e.Lies S).Tells S fun names => Expr.Uses S.captures S.captured names e) :
    (S.valued e.producesValue (e.Lies S)).Tells S (S.UsesOf [e]) := by
  have single {names names' : Names} {uses : List (Nat × Use)}
      (he : Expr.Uses S.captures S.captured names e uses names') :
      S.UsesOf [e] names uses := by
    have := PartsUse.cons he (.nil names)
    rwa [List.append_nil] at this
  cases hproduces : e.producesValue with
  | true =>
    intro Γ K p p' hcode hK
    obtain ⟨uses, newNames, huses, -, hfits, htells⟩ := h hcode hK
    have hnone : List.Forall₂ (Local.Named p') [] newNames := Local.named_of_append hfits.names hK.names
    cases hnone
    exact ⟨uses, single huses, htells⟩
  | false =>
    intro Γ K p p' hcode hK
    obtain ⟨uses, ⟨names', huses⟩, htells⟩ := block_tells (thenNil_tells h) hcode hK
    exact ⟨uses, single huses, htells⟩

/-! ## Branches -/

theorem shortCircuit_tells {left right : Part} (hop : op.isBranch = true) (h : left.Tells S (S.UsesOf es))
    (h' : right.Tells S (S.UsesOf es')) : (S.shortCircuit op left right).Tells S (S.UsesOf (es ++ es')) := by
  rintro Γ K p p' ⟨p₁, p₂, hleft, hjump, hpop, hright, hcast, rfl⟩ hK
  obtain ⟨uses, huses, htells⟩ := h hleft hK
  have hjump : S.Tells (fun q υ => K.outs Γ q υ ∨ q = p₂ ∧ υ = K.hold Γ) [] p₁ (K.hold Γ) (p₁ + 3) (K.hold Γ) :=
    .jump hjump hop hK.regions rfl (.of (.inr ⟨rfl, rfl⟩)) fun _ => rfl
  have hpop : S.Tells (K.outs Γ) [] (p₁ + 3) (K.hold Γ) (p₁ + 4) (K.hold Γ) := .step hpop rfl hK.regions rfl rfl
  obtain ⟨uses', huses', htells'⟩ := h' hright (hK.mono (Nat.le_trans htells.le (Nat.le_add_right _ _)))
  have hcast : S.Tells (K.outs Γ) [] p₂ (K.hold Γ) (p₂ + 2) (K.hold Γ) := .step hcast rfl hK.regions rfl rfl
  have hskip := hjump.before ((hpop.before htells').loosen fun _ _ h => .inl h)
  have hright := hskip.across hcast
  rw [List.append_nil] at hright
  exact ⟨uses ++ uses', .append _ _ huses huses', htells.trans hright⟩

end Sheet

end ShellVM
