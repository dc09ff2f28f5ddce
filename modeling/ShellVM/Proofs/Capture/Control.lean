import ShellVM.Proofs.Capture.Construct

/-!
# Code for captured variables in control flow

What `ShellVM.Proofs.Capture.Construct` says of values and locals, for branches, loops, regions, variables, closures,
calls and pages.
-/

namespace ShellVM

/-- Does the instruction read or write a variable? -/
def Op.isAccess : Op → Bool
  | .load | .store | .loadCell | .storeCell | .loadCapture | .storeCapture => true
  | _ => false

theorem Part.Tells.layout {P : Part} {S : Sheet} {Q : Names → List (Nat × Use) → Prop} (h : P.Tells S Q) :
    P.layout.Tells S fun names uses names' => names' = names ∧ Q names uses := by
  rintro Γ K p Γ' p' ⟨hP, rfl⟩ hK
  obtain ⟨uses, hQ, htells⟩ := h hP hK
  exact ⟨uses, [], ⟨rfl, hQ⟩, rfl, (hK.mono htells.le).raise 1, htells⟩

theorem Layout.Tells.imp {L : Layout} {S : Sheet} {Q Q' : Names → List (Nat × Use) → Names → Prop} (h : L.Tells S Q)
    (hQ : ∀ names uses names', Q names uses names' → Q' names uses names') : L.Tells S Q' := by
  intro Γ K p Γ' p' hL hK
  obtain ⟨uses, newNames, hq, hrest⟩ := h hL hK
  exact ⟨uses, newNames, hQ _ _ _ hq, hrest⟩

namespace Sheet

variable {S : Sheet} {outs : Nat → Hold → Prop} {K : Lore} {Γ : Scope} {p p' : Nat} {op : Op} {operands : List UInt8}
  {σ : Hold} {es es' es'' : List Expr}

/-! ## Branches and loops -/

theorem branch_tells {condition yes no : Part} (hc : condition.Tells S (S.UsesOf es)) (hy : yes.Tells S (S.UsesOf es'))
    (hn : no.Tells S (S.UsesOf es'')) : (S.branch condition yes no).Tells S (S.UsesOf (es ++ (es' ++ es''))) := by
  rintro Γ K p p' ⟨p₁, p₂, hcondition, hj, hyes, hj', hno⟩ hK
  obtain ⟨uses, huses, htells⟩ := hc hcondition hK
  have hK₁ : K.Fits Γ (p₁ + 3) := hK.mono (Nat.le_trans htells.le (Nat.le_add_right _ _))
  obtain ⟨uses', huses', htells'⟩ := hy hyes hK₁
  obtain ⟨uses'', huses'', htells''⟩ := hn hno (hK₁.mono (Nat.le_trans htells'.le (Nat.le_add_right _ _)))
  have htest : S.Tells (fun q υ => K.outs Γ q υ ∨ q = p₂ + 3 ∧ υ = K.hold Γ) [] p₁ (K.hold Γ) (p₁ + 3) (K.hold Γ) :=
    .jump hj rfl hK.regions rfl (.of (.inr ⟨rfl, rfl⟩)) fun _ => rfl
  have hskip : S.Tells (fun q υ => K.outs Γ q υ ∨ q = p' ∧ υ = K.hold Γ) [] p₂ (K.hold Γ) (p₂ + 3) (K.hold Γ) :=
    .jump hj' rfl hK.regions rfl (.of (.inr ⟨rfl, rfl⟩)) fun _ => rfl
  refine ⟨uses ++ (uses' ++ uses''), .append _ _ huses (.append _ _ huses' huses''), htells.trans (.close ?_)⟩
  refine Tells.across (r := p₂ + 3) ((htest.loosen ?_).before ((htells'.loosen ?_).behind (hskip.loosen ?_)))
    (htells''.loosen fun _ _ h => .inl h)
  · exact fun _ _ h => h.imp .inl id
  · exact fun _ _ h => .inl (.inl h)
  · exact fun _ _ h => .inl (h.imp id .inr)

/-- Everything outside of a loop is out of reach in its body, and its condition does not need it. -/
theorem loop_tells {condition body : Part} (hc : condition.Tells S (S.UsesOf es)) (hb : body.Tells S (S.UsesOf es')) :
    (S.loop condition body).Tells S fun names uses names' => names' = names ∧ S.UsesOf (es ++ es') names uses := by
  rintro Γ K p Γ' p' ⟨p₁, p₂, hcondition, hj, hbody, hpop, hj', rfl, rfl⟩ hK
  obtain ⟨uses, huses, htells⟩ := hc hcondition hK
  have hK₁ : K.Fits Γ' (p₁ + 3) := hK.mono (Nat.le_trans htells.le (Nat.le_add_right _ _))
  obtain ⟨uses', huses', htells'⟩ := hb hbody (hK₁.within p (p₂ + 4))
  have htest :
      S.Tells (Lore.outs { K with loop? := some (K.hold Γ') } (Γ'.within ⟨p, p₂ + 4, Γ'.shape⟩)) [] p₁ (K.hold Γ')
      (p₁ + 3) (K.hold Γ') := .jump hj rfl hK.regions rfl (.of ⟨_, rfl, rfl, .inr rfl⟩) fun _ => rfl
  have hback : S.Tells (Lore.outs { K with loop? := some (K.hold Γ') } (Γ'.within ⟨p, p₂ + 4, Γ'.shape⟩)) [] (p₂ + 1)
      (K.hold Γ') (p₂ + 4) (K.hold Γ') := .jump hj' rfl hK.regions rfl (.of ⟨_, rfl, rfl, .inl rfl⟩) fun _ => rfl
  have hrest := htest.before (htells'.behind ((Tells.step hpop rfl hK.regions rfl rfl).before hback))
  have hall : S.Tells (K.outs Γ') (uses ++ uses') p (K.hold Γ') (p₂ + 4) (K.hold Γ') := by
    refine .close ((htells.loosen fun _ _ h => .inl h).trans (hrest.loosen ?_))
    rintro q υ ⟨_, ⟨⟩, ⟨⟩, hq⟩
    exact .inr (hq.imp (⟨·, rfl⟩) (⟨·, rfl⟩))
  exact ⟨uses ++ uses', [], ⟨rfl, .append _ _ huses huses'⟩, rfl, hK.mono hall.le, hall⟩

theorem each_tells {declared : List String} {iterable body : Part} (hi : iterable.Tells S (S.UsesOf es))
    (hb : body.Tells S (S.UsesOf es')) :
    (S.each declared iterable body).Tells S fun names uses names' => names' = names ∧
      ∃ uses₁ uses₂ uses₃ inner, uses = uses₁ ++ (uses₂ ++ uses₃) ∧ S.UsesOf es names uses₁ ∧
        Declares S.captured names declared uses₂ inner ∧ S.UsesOf es' inner uses₃ := by
  rintro Γ K p Γ' p' ⟨p₁, new, p₂, p₃, p₄, hiterable, hiter, hj, hnew, hbody, hpop, hdrops, hj', hend, rfl, rfl⟩ hK
  obtain ⟨uses₁, huses₁, htells₁⟩ := hi hiterable hK
  have hstart : S.Tells (K.outs Γ') [] p₁ (K.hold Γ') (p₁ + 1) (K.hold Γ') := .step hiter rfl hK.regions rfl rfl
  have hround : Lore.Fits { K with loop? := some (K.hold Γ') } (eachScope Γ' (p₁ + 1) (p₄ + 3)) (p₁ + 4) :=
    ((hK.mono (Nat.le_trans htells₁.le (Nat.le_add_right _ _))).enterEach.within _ _).inner
  have hnext : S.Tells (Lore.outs { K with loop? := some (K.hold Γ') } (eachScope Γ' (p₁ + 1) (p₄ + 3))) [] (p₁ + 1)
      (K.hold Γ') (p₁ + 4) (K.hold Γ') := .jump hj rfl hK.regions rfl (.of ⟨_, rfl, rfl, .inr rfl⟩) fun _ => rfl
  obtain ⟨uses₂, newNames, hdeclares, hgrown, htells₂⟩ := unpacks_tells
    (Lore.outs { K with loop? := some (K.hold Γ') } (eachScope Γ' (p₁ + 1) (p₄ + 3))) hnew hround
  obtain ⟨uses₃, huses₃, htells₃⟩ := hb hbody hgrown
  have hfresh := Local.named_of_append hgrown.names hround.names
  have hdrops : S.Tells (Lore.outs { K with loop? := some (K.hold Γ') } (eachScope Γ' (p₁ + 1) (p₄ + 3))) [] (p₃ + 1)
      (Lore.hold { K with names := newNames ++ K.names } (Γ'.grow new)) p₄ (K.hold Γ') := by
    refine drops_tells (.inr rfl) hdrops hgrown.regions rfl (Lore.Fits.subset hfresh) fun h0 => ?_
    obtain rfl := List.length_eq_zero_iff.1 h0
    cases hfresh
    rfl
  have hback :
      S.Tells (Lore.outs { K with loop? := some (K.hold Γ') } (eachScope Γ' (p₁ + 1) (p₄ + 3))) [] p₄ (K.hold Γ')
      (p₄ + 3) (K.hold Γ') := .jump hj' rfl hK.regions rfl (.of ⟨_, rfl, rfl, .inl rfl⟩) fun _ => rfl
  have hend : S.Tells (K.outs Γ') [] (p₄ + 3) (K.hold Γ') (p₄ + 4) (K.hold Γ') := .step hend rfl hK.regions rfl rfl
  have hbehind := (Tells.step hpop rfl hgrown.regions rfl rfl).before (hdrops.before hback)
  have hrounds : S.Tells (K.outs Γ') (uses₂ ++ uses₃) (p₁ + 1) (K.hold Γ') (p₄ + 3) (K.hold Γ') := by
    refine .close ((hnext.before (htells₂.trans (htells₃.behind hbehind))).loosen ?_)
    rintro q υ ⟨_, ⟨⟩, ⟨⟩, hq⟩
    exact .inr (hq.imp (⟨·, rfl⟩) (⟨·, rfl⟩))
  have hall := htells₁.trans (hstart.before (hrounds.behind hend))
  exact ⟨_, [], ⟨rfl, uses₁, uses₂, uses₃, _, rfl, huses₁, hdeclares, huses₃⟩, rfl, hK.mono hall.le, hall⟩

/-- Zones are closed and values are dropped, down to the innermost loop; its cells are still held. -/
theorem unwinds_tells {l : Loop} {τ : Hold} (h : S.unwinds Γ l p p') (hK : K.Fits Γ p) (hτ : K.Around Γ l τ) :
    S.Tells outs [] p (K.hold Γ) p' ⟨heldCells Γ.locals K.names, τ.regions, []⟩ := by
  obtain ⟨inner, p₁, hzones, hcloses, hdrops⟩ := h
  obtain ⟨regions, hregions⟩ := hτ.regions
  have hcount : regions.length = Zone.attempts inner := by
    have hattempts := hK.count
    rw [hregions, List.length_append, hzones, Zone.attempts_append, hτ.count] at hattempts
    exact Nat.add_right_cancel hattempts
  have hsound : Hold.Sound ⟨heldCells Γ.locals K.names, regions ++ τ.regions, []⟩ := hregions ▸ hK.regions
  have hclosed : S.Tells outs [] p (K.hold Γ) p₁ ⟨heldCells Γ.locals K.names, τ.regions, []⟩ := by
    unfold Lore.hold
    rw [hregions]
    exact closes_tells hcloses hcount hsound
  have hinner : Hold.Sound ⟨heldCells Γ.locals K.names, τ.regions, []⟩ := fun r hr =>
    hsound r (List.mem_append_right _ hr)
  exact hclosed.before (drops_tells (.inr rfl) hdrops hinner rfl (fun _ h => h) fun _ => rfl)

/-- A jump to an end of the innermost loop. -/
theorem exit_tells {l : Loop} {t p₁ : Nat} (hl : Γ.loop? = some l) (hu : S.unwinds Γ l p p₁) (hj : S.Jumps p₁ op t)
    (hop : op = .jump ∨ op = .jumpBackward) (ht : t = l.start ∨ t = l.exit) (hK : K.Fits Γ p) :
    S.Tells (K.outs Γ) [] p (K.hold Γ) (p₁ + 3) (K.hold Γ) := by
  obtain ⟨τ, hτ, haround⟩ := hK.loop l hl
  have hinner : Hold.Sound ⟨heldCells Γ.locals K.names, τ.regions, []⟩ := fun r hr =>
    List.Subset.trans (haround.sound r hr) haround.cells
  have hreturn : Leads (K.outs Γ) t ⟨heldCells Γ.locals K.names, τ.regions, []⟩ := by
    refine ⟨τ.cells, haround.cells, ?_⟩
    rw [← haround.put]
    exact ⟨l, hl, hτ, ht⟩
  refine (unwinds_tells hu hK haround).before ?_
  rcases hop with rfl | rfl <;> exact .jump hj rfl hinner rfl hreturn (fun h => by cases h)

theorem leaveLoop_tells : S.leaveLoop.Tells S fun names uses names' => names' = names ∧ S.UsesOf [] names uses := by
  rintro Γ K p Γ' p' ⟨l, p₁, hl, hu, hj, rfl, rfl⟩ hK
  have htells := exit_tells hl hu hj (.inl rfl) (.inr rfl) hK
  exact ⟨[], [], ⟨rfl, .nil _⟩, rfl, hK.mono htells.le, htells⟩

theorem nextRound_tells : S.nextRound.Tells S fun names uses names' => names' = names ∧ S.UsesOf [] names uses := by
  rintro Γ K p Γ' p' ⟨l, p₁, hl, hu, hj, rfl, rfl⟩ hK
  have htells := exit_tells hl hu hj (.inr rfl) (.inl rfl) hK
  exact ⟨[], [], ⟨rfl, .nil _⟩, rfl, hK.mono htells.le, htells⟩

theorem leavePage_tells {value : Part} (h : value.Tells S (S.UsesOf es)) :
    (S.leavePage value).Tells S fun names uses names' => names' = names ∧ S.UsesOf es names uses := by
  rintro Γ K p Γ' p' ⟨p₁, p₂, p₃, hvalue, hcloses, hdrops, hret, rfl, rfl⟩ hK
  obtain ⟨uses, huses, htells⟩ := h hvalue hK
  have hclosed : S.Tells (K.outs Γ') [] p₁ (K.hold Γ') p₂ ⟨heldCells Γ'.locals K.names, [], []⟩ := by
    have hsound : Hold.Sound ⟨heldCells Γ'.locals K.names, K.regions ++ [], []⟩ :=
      (List.append_nil K.regions).symm ▸ hK.regions
    have hclosed : S.Tells (K.outs Γ') [] p₁ ⟨heldCells Γ'.locals K.names, K.regions ++ [], []⟩ p₂
        ⟨heldCells Γ'.locals K.names, [], []⟩ := closes_tells hcloses hK.count hsound
    rwa [List.append_nil] at hclosed
  have hdropped : S.Tells (K.outs Γ')
      [] p₂ ⟨heldCells Γ'.locals K.names, [], []⟩ p₃ ⟨heldCells Γ'.locals K.names, [], []⟩ :=
    drops_tells (.inl rfl) hdrops nofun rfl (fun _ h => h) fun _ => rfl
  have hret : S.Tells (K.outs Γ') [] p₃ ⟨heldCells Γ'.locals K.names, [], []⟩ (p₃ + 1) (K.hold Γ') := by
    exact .single hret rfl rfl nofun fun _ _ _ => ⟨rfl, rfl⟩
  have hall := htells.behind (hclosed.before (hdropped.before hret))
  exact ⟨uses, [], ⟨rfl, huses⟩, rfl, hK.mono hall.le, hall⟩

/-! ## Regions -/

/-- A handler takes the error that it finds. -/
theorem handles_tells {binding? : Option String} {handler : Part} (h : handler.Tells S (S.UsesOf es))
    (hh : S.handles binding? handler Γ p p') (hK : K.Fits Γ p) : ∃ uses₁ inner uses₂,
      Declares S.captured K.names binding?.toList uses₁ inner ∧ S.UsesOf es inner uses₂ ∧
        S.Tells (K.outs Γ) (uses₁ ++ uses₂) p (K.hold Γ) p' (K.hold Γ) := by
  unfold handles at hh
  split at hh
  · next name =>
    obtain ⟨l, p₁, p₂, hl, hhandler, hdrops⟩ := hh
    have hunpacks : S.unpacks Γ.inner.depth [name] Γ.inner.height p [l] p₁ := ⟨l, hl, rfl⟩
    obtain ⟨uses₁, newNames, hdeclares, hgrown, htells₁⟩ := unpacks_tells (K.outs Γ) hunpacks hK.inner
    obtain ⟨uses₂, huses₂, htells₂⟩ := h hhandler hgrown
    have hfresh := Local.named_of_append hgrown.names hK.names
    have hdrops : S.Tells (K.outs Γ)
        [] p₂ (Lore.hold { K with names := newNames ++ K.names } (Γ.grow [l])) p' (K.hold Γ) :=
      drops_tells (.inl rfl) hdrops hgrown.regions rfl (Lore.Fits.subset hfresh) fun h0 => by cases h0
    exact ⟨uses₁, _, uses₂, hdeclares, huses₂, htells₁.trans (htells₂.behind hdrops)⟩
  · obtain ⟨hpop, hhandler⟩ := hh
    obtain ⟨uses, huses, htells⟩ := h hhandler (hK.mono (Nat.le_succ p))
    exact ⟨[], _, uses, .nil _, huses, (Tells.step hpop rfl hK.regions rfl rfl).before htells⟩

theorem attempt_tells {body handler : Part} {binding? : Option String} (h : body.Tells S (S.UsesOf es))
    (h' : handler.Tells S (S.UsesOf es')) : (S.attempt body binding? handler).Tells S fun names uses =>
      ∃ uses₁ uses₂ uses₃ inner, uses = uses₁ ++ (uses₂ ++ uses₃) ∧ S.UsesOf es names uses₁ ∧
        Declares S.captured names binding?.toList uses₂ inner ∧ S.UsesOf es' inner uses₃ := by
  rintro Γ K p p' ⟨p₁, hj, hbody, hend, hj', hhandles⟩ hK
  have hK₁ := hK.enterAttempt
  obtain ⟨uses₁, huses₁, htells₁⟩ := h hbody (hK₁.mono (Nat.le_add_right p 3))
  have hle : p ≤ p₁ + 4 := Nat.le_trans (Nat.le_add_right p 3) (Nat.le_add_right_of_le htells₁.le)
  obtain ⟨uses₂, inner, uses₃, hdeclares, huses₃, htells₂⟩ := handles_tells h' hhandles (hK.mono hle)
  have htry : S.Tells (fun q υ => K.outs Γ q υ ∨ q = p₁ + 4 ∧ υ = K.hold Γ) [] p (K.hold Γ) (p + 3)
      (Lore.hold { K with regions := heldCells Γ.locals K.names :: K.regions } Γ) := by
    obtain ⟨operands, has, ht⟩ := hj
    have hlength : operands.length = 2 := has.length
    refine .single has rfl (by omega) hK.regions fun Λ hnext houts => ?_
    refine ⟨rfl, _, p₁ + 4, fun _ h => h, ht, houts _ _ (.inr ⟨rfl, rfl⟩), ?_⟩
    have hoffset : Instruction.next ⟨p, .enterTry, operands⟩ = p + 3 := by
      show p + 1 + operands.length = p + 3
      omega
    rw [hoffset]
    exact .of hnext
  have hend : S.Tells (K.outs Γ)
      [] p₁ (Lore.hold { K with regions := heldCells Γ.locals K.names :: K.regions } Γ) (p₁ + 1)
      (K.hold Γ) := .single hend rfl rfl hK₁.regions fun Λ hnext _ => ⟨rfl, _, _, rfl, .of hnext⟩
  have hskip : S.Tells (fun q υ => K.outs Γ q υ ∨ q = p' ∧ υ = K.hold Γ) [] (p₁ + 1) (K.hold Γ) (p₁ + 4) (K.hold Γ) :=
    .jump hj' rfl hK.regions rfl (.of (.inr ⟨rfl, rfl⟩)) fun _ => rfl
  refine ⟨uses₁ ++ (uses₂ ++ uses₃), ⟨uses₁, uses₂, uses₃, inner, rfl, huses₁, hdeclares, huses₃⟩, .close ?_⟩
  refine Tells.across (r := p₁ + 4) ((htry.loosen ?_).before ((htells₁.loosen ?_).behind ((hend.loosen ?_).before
    (hskip.loosen ?_)))) (htells₂.loosen fun _ _ h => .inl h)
  · exact fun _ _ h => h.imp .inl id
  · exact fun _ _ h => .inl (.inl h)
  · exact fun _ _ h => .inl (.inl h)
  · exact fun _ _ h => .inl (h.imp id .inr)

/-! ## Variables and closures -/

/-- A local is found by its name, with its site. -/
theorem lookup_of_find {locals : List Local} {names : Names} (h : List.Forall₂ (Local.Named p) locals names)
    (name : String) : match locals.find? (·.name == name) with
    | some l => ∃ site?, names.lookup name = some site? ∧ site?.isSome = l.boxed ∧
        ∀ site, site? = some site → (l.slot, site) ∈ heldCells locals names
    | none => names.lookup name = none := by
  induction h with
  | nil => rfl
  | @cons l x locals names hx _ ih =>
    obtain ⟨name', site?⟩ := x
    obtain rfl : name' = l.name := hx.name
    by_cases hname : l.name = name
    · subst hname
      have hfind : List.find? (fun l' : Local => l'.name == l.name) (l :: locals) = some l := by simp
      rw [hfind]
      refine ⟨site?, by simp, hx.boxed, fun site hsite => ?_⟩
      subst hsite
      exact List.mem_cons_self
    · have hfind : List.find? (fun l' : Local => l'.name == name) (l :: locals) =
          locals.find? fun l' => l'.name == name := by simp [hname]
      have hlookup : List.lookup name ((l.name, site?) :: names) = names.lookup name := by
        simp [List.lookup_cons, beq_eq_false_iff_ne.2 (Ne.symm hname)]
      rw [hfind, hlookup]
      have hkept : heldCells locals names ⊆ heldCells (l :: locals) ((l.name, site?) :: names) := by
        have h₁ : List.Forall₂ (Local.Named p) [l] [(l.name, site?)] := .cons hx .nil
        exact Lore.Fits.subset h₁
      split at ih
      · obtain ⟨site', hlookup, hboxed, hsite⟩ := ih
        exact ⟨site', hlookup, hboxed, fun site h => hkept (hsite site h)⟩
      · exact ih

/-- Where a variable lives is what its name stands for. -/
theorem place_resolve {name : String} {place : Emit.Place} (h : S.place? Γ name = some place) (hK : K.Fits Γ p) :
    match place with
    | .slot _ => K.names.resolve? S.captures name = none
    | .cell slot => ∃ site, K.names.resolve? S.captures name = some (.own site) ∧ (slot, site) ∈ (K.hold Γ).cells
    | .capture i => K.names.resolve? S.captures name = some (.outer i.toNat) := by
  have hfind := lookup_of_find hK.names name
  unfold place? at h
  unfold Names.resolve?
  split at h
  · next l hl =>
    rw [hl] at hfind
    obtain ⟨site?, hlookup, hboxed, hsite⟩ := hfind
    cases hb : l.boxed with
    | true =>
      rw [hb] at hboxed
      obtain ⟨site, rfl⟩ := Option.isSome_iff_exists.1 hboxed
      obtain rfl : Emit.Place.cell l.slot = place := by simpa [hb] using h
      exact ⟨site, by rw [hlookup]; rfl, hsite site rfl⟩
    | false =>
      rw [hb] at hboxed
      obtain rfl : site? = none := by simpa using hboxed
      obtain rfl : Emit.Place.slot l.slot = place := by simpa [hb] using h
      dsimp only
      rw [hlookup]
      rfl
  · next hl =>
    rw [hl] at hfind
    have hlookup : K.names.lookup name = none := hfind
    split at h
    · next i hi =>
      split at h
      · next hle =>
        cases h
        have hb : i.toUInt8.toNat = i := by rw [UInt8.toNat_ofNat', Nat.mod_eq_of_lt (by omega)]
        dsimp only
        rw [hlookup, hb, hi]
        rfl
      · cases h
    · cases h

/-- An instruction that reads or writes a variable. -/
theorem Tells.access {u : Use} (has : S.Has p op operands) (hop : op.isAccess = true)
    (hu : S.Shows ⟨p, op, operands⟩ σ u) (hσ : σ.Sound) (hput : σ.put = []) (hp : p' = p + 1 + operands.length) :
    S.Tells outs [(p, u)] p σ p' σ := by
  refine .use has hu hp hσ fun Λ hend => ?_
  subst hp
  have hop' : op.isCommon = true ∧ op.isJump = false := by cases op <;> first | exact ⟨rfl, rfl⟩ | cases hop
  rw [Instruction.follows_common hop'.1, Instruction.target?_eq_none hop'.2]
  exact ⟨hput, fun _ => .of hend, nofun⟩

theorem load_tells (line : UInt32) (name : String) : Part.Tells (fun Γ p p' =>
    ∃ place, S.place? Γ name = some place ∧ S.Has p place.loadOp [place.operand] ∧ p' = p + 2) S
      fun names uses => Expr.Uses S.captures S.captured names (.mk line (.variable name)) uses names := by
  rintro Γ K p p' ⟨place, hplace, has, rfl⟩ hK
  have hresolve := place_resolve hplace hK
  cases place with
  | slot s => exact ⟨_, .read p hresolve, .access has rfl rfl hK.regions rfl rfl⟩
  | cell s =>
    obtain ⟨site, hx, hmem⟩ := hresolve
    exact ⟨_, .load p hx, .access has rfl ⟨rfl, hmem⟩ hK.regions rfl rfl⟩
  | capture i => exact ⟨_, .load p hresolve, .access has rfl ⟨rfl, rfl⟩ hK.regions rfl rfl⟩

theorem store_tells {e : Expr} {value : Part} (line line' : UInt32) (name : String) (h : value.Tells S (S.UsesOf [e])) :
    Part.Tells (fun Γ p p' => ∃ place, S.place? Γ name = some place ∧
      S.after value place.storeOp [place.operand] Γ p p') S fun names uses =>
        Expr.Uses S.captures S.captured names (.mk line (.assign (.mk line' (.variable name)) e)) uses names := by
  rintro Γ K p p' ⟨place, hplace, p₁, hvalue, has, rfl⟩ hK
  obtain ⟨uses, huses, htells⟩ := h hvalue hK
  have hresolve := place_resolve hplace hK
  cases place with
  | slot s => exact ⟨_, .write p₁ huses hresolve, htells.trans (.access has rfl rfl hK.regions rfl rfl)⟩
  | cell s =>
    obtain ⟨site, hx, hmem⟩ := hresolve
    exact ⟨_, .store p₁ huses hx, htells.trans (.access has rfl ⟨rfl, hmem⟩ hK.regions rfl rfl)⟩
  | capture i => exact ⟨_, .store p₁ huses hresolve, htells.trans (.access has rfl ⟨rfl, rfl⟩ hK.regions rfl rfl)⟩

/-- Variables are put aside one by one. -/
theorem putsAll_tells (outs : Nat → Hold → Prop) (put : List CellVariable) {names : List String}
    (h : S.putsAll Γ names p p') (hK : K.Fits Γ p) : ∃ (uses : List (Nat × Use)) (xs : List CellVariable),
      uses.map Prod.snd = xs.map Use.put ∧ names.map (K.names.resolve? S.captures) = xs.map some ∧
      S.Tells outs uses p { K.hold Γ with put } p' { K.hold Γ with put := xs.reverse ++ put } := by
  induction names generalizing p put with
  | nil =>
    obtain rfl : p' = p := h
    exact ⟨[], [], rfl, rfl, .refl _ _⟩
  | cons name names ih =>
    obtain ⟨hputs, hrest⟩ := h
    obtain ⟨x, hx, hput⟩ : ∃ x, K.names.resolve? S.captures name = some x ∧
        S.Tells outs [(p, .put x)] p { K.hold Γ with put } (p + 2) { K.hold Γ with put := x :: put } := by
      rcases hputs with ⟨slot, hplace, has⟩ | ⟨i, hplace, has⟩
      · obtain ⟨site, hx, hmem⟩ := place_resolve hplace hK
        exact ⟨_, hx, .use has ⟨rfl, hmem⟩ rfl hK.regions fun Λ hend => ⟨site, hmem, .of hend⟩⟩
      · exact ⟨_, place_resolve hplace hK, .use has ⟨rfl, rfl⟩ rfl hK.regions fun Λ hend => .of hend⟩
    obtain ⟨uses, xs, huses, hxs, htells⟩ := ih (x :: put) hrest (hK.mono (Nat.le_add_right p 2))
    refine ⟨(p, .put x) :: uses, x :: xs, ?_, ?_, ?_⟩
    · rw [List.map_cons, List.map_cons, huses]
    · rw [List.map_cons, List.map_cons, hxs, hx]
    · rw [List.reverse_cons, List.append_assoc]
      exact hput.trans htells

theorem closure_tells (line : UInt32) (parameters captures : List String) (body : Expr) :
    (S.closure captures fun page => (S.other page captures body.captured).Holds parameters
      ((S.other page captures body.captured).valued body.producesValue
        (body.Lies (S.other page captures body.captured)))).Tells S fun names uses =>
      Expr.Uses S.captures S.captured names (.mk line (.closure parameters captures body)) uses names := by
  rintro Γ K p p' ⟨p₁, key, index, page, hputs, hle, hkey, has, rfl, hpage, hbody⟩ hK
  obtain ⟨puts, xs, huses, hxs, htells⟩ := putsAll_tells (K.outs Γ) [] hputs hK
  have hlength : captures.length = xs.length := by
    have := congrArg List.length hxs
    rwa [List.length_map, List.length_map] at this
  rw [List.append_nil] at htells
  refine ⟨_, .closure p₁ huses hxs, htells.trans (.use has ?_ rfl hK.regions fun Λ hend => .of hend)⟩
  refine ⟨rfl, rfl, ?_, index, page, ?_, hpage, hbody⟩
  · show captures.length.toUInt8.toNat = xs.length
    rw [UInt8.toNat_ofNat', Nat.mod_eq_of_lt (by omega), hlength]
  · rw [Instruction.word_wordBytes]
    exact hkey

/-! ## Calls -/

theorem call_tells {root : Bool} {count : Nat} {arguments : Part} (h : arguments.Tells S (S.UsesOf es)) :
    (S.call root count arguments).Tells S (S.UsesOf es) := by
  rintro Γ K p p' ⟨p₁, harguments, -, has, rfl⟩ hK
  obtain ⟨uses, huses, htells⟩ := h harguments (hK.raise 1)
  have hop : (S.callOp root .call .rootCall .maybeRootCall).isBare = true := by
    unfold callOp
    cases root <;> cases S.isEntry <;> rfl
  exact ⟨uses, huses, htells.behind (.step has hop hK.regions rfl rfl)⟩

theorem libraryCall_tells {f : LibraryFunction} {count : Nat} {arguments : Part} (h : arguments.Tells S (S.UsesOf es)) :
    (S.libraryCall f count arguments).Tells S (S.UsesOf es) := by
  rintro Γ K p p' ⟨p₁, key, index, entry, -, -, -, harguments, -, has, rfl⟩ hK
  obtain ⟨uses, huses, htells⟩ := h harguments hK
  exact ⟨uses, huses, htells.behind (.step has rfl hK.regions rfl rfl)⟩

theorem programCall_tells {settings : ProgramSettings} {root : Bool} {count pairs : Nat} {name arguments : Part}
    (piped? : Option Part) {environment : Part} {es₁ es₂ es₃ es₄ : List Expr} (hn : name.Tells S (S.UsesOf es₁))
    (ha : arguments.Tells S (S.UsesOf es₂))
    (hp : Part.Tells (match piped? with | some piped => piped | none => fun _ p p' => p' = p) S (S.UsesOf es₃))
    (he : environment.Tells S (S.UsesOf es₄)) :
    (S.programCall settings root count pairs name arguments piped? environment).Tells S
      (S.UsesOf (es₁ ++ (es₂ ++ (es₃ ++ es₄)))) := by
  rintro Γ K p p' ⟨p₁, p₂, p₃, p₄, hname, harguments, hpiped, henvironment, -, -, has, rfl⟩ hK
  obtain ⟨uses₁, huses₁, htells₁⟩ := hn hname hK
  have hK₁ := hK.mono htells₁.le
  obtain ⟨uses₂, huses₂, htells₂⟩ := ha harguments (hK₁.raise 1)
  have hK₂ := hK₁.mono htells₂.le
  have hpiped : (match piped? with | some piped => piped | none => fun _ p p' => p' = p)
      (Γ.raise (1 + count)) p₂ p₃ := by
    cases piped? <;> exact hpiped
  obtain ⟨uses₃, huses₃, htells₃⟩ := hp hpiped (hK₂.raise _)
  obtain ⟨uses₄, huses₄, htells₄⟩ := he henvironment ((hK₂.mono htells₃.le).raise _)
  have hop : (S.callOp root .callProgram .rootCallProgram .maybeRootCallProgram).isBare = true := by
    unfold callOp
    cases root <;> cases S.isEntry <;> rfl
  have hcall : S.Tells (K.outs Γ) [] p₄ (K.hold Γ) (p₄ + 5) (K.hold Γ) := .step has hop hK.regions rfl rfl
  refine ⟨uses₁ ++ (uses₂ ++ (uses₃ ++ uses₄)), ?_,
    htells₁.trans (htells₂.trans (htells₃.trans (htells₄.behind hcall)))⟩
  exact .append _ _ huses₁ (.append _ _ huses₂ (.append _ _ huses₃ huses₄))

/-! ## Pages -/

theorem holds_tells {parameters : List String} {body : Part} (hb : body.Tells S (S.UsesOf es))
    (h : S.Holds parameters body) :
    ∃ names uses₁ uses₂, Declares S.captured [] parameters uses₁ names ∧ S.UsesOf es names uses₂ ∧
      S.Tells (fun _ _ => False) (uses₁ ++ uses₂) 0 ⟨[], [], []⟩ S.page.code.size ⟨[], [], []⟩ := by
  obtain ⟨-, new, p₁, p₂, hnew, hbody, hdrops⟩ := h
  obtain ⟨hlen, hslots, hsorted⟩ := declaresAll_slots hnew
  have hfresh : ∀ c ∈ ([] : List (UInt8 × Nat)), c.1.toNat < 0 ∧ c.2 < 0 := fun c hc => absurd hc List.not_mem_nil
  have hempty (cells : List (UInt8 × Nat)) : Hold.Sound ⟨cells, [], []⟩ := fun r hr => absurd hr List.not_mem_nil
  obtain ⟨uses₁, names, hdeclares, hnamed, htells₁⟩ := declaresAll_tells (fun _ _ => False) [] hnew hfresh (hempty [])
  rw [List.append_nil] at hdeclares htells₁
  have hsound : (bodyScope new parameters.length).Sound := by
    refine ⟨fun l hl => ?_, hsorted, trivial, fun l hl => by cases hl⟩
    have := hslots l hl
    simp only [bodyScope]
    omega
  have hK : Lore.Fits ⟨names, [], none⟩ (bodyScope new parameters.length) p₁ := 
    ⟨hsound, hnamed, rfl, hempty _, fun l hl => by cases hl⟩
  obtain ⟨uses₂, huses₂, htells₂⟩ := hb hbody hK
  have htells₂ :
      S.Tells (fun _ _ => False) uses₂ p₁ ⟨heldCells new names, [], []⟩ p₂ ⟨heldCells new names, [], []⟩ := by
    refine htells₂.loosen ?_
    rintro q υ ⟨_, ⟨⟩, _⟩
  have hdrops : S.Tells (fun _ _ => False) [] p₂ ⟨heldCells new names, [], []⟩ S.page.code.size ⟨[], [], []⟩ := by
    refine drops_tells (.inl rfl) hdrops (hempty _) rfl (List.nil_subset _) fun h0 => ?_
    obtain rfl := List.length_eq_zero_iff.1 (hlen.trans h0)
    cases hnamed
    rfl
  exact ⟨names, uses₁, uses₂, hdeclares, huses₂, htells₁.trans (htells₂.behind hdrops)⟩

end Sheet

end ShellVM
