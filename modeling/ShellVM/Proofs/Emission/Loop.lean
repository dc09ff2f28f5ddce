import ShellVM.Proofs.Emission.Jump

/-!
# Emitters of loops

Inside a loop the jumps out of it are holes of the draft; at its end they are landed one by one and all go to its exit.
-/

namespace ShellVM

section Breaks

variable {S : Sheet} {H : List Hole} {p q n : Nat} {s s' s'' : Workbench}

theorem landAll_size : ∀ {sites : List Nat} {s : Workbench}, Emit.landAll sites s = .ok () s' →
    s'.draft.size = s.draft.size
  | [], _, h => by cases h; rfl
  | _ :: _, _, h => by
    obtain ⟨_, s₁, h₁, h⟩ := bind_ok.1 h
    rw [landAll_size h, land_size h₁]

theorem landAll_holes {loop? : Option Loop} : ∀ {sites : List Nat} {s : Workbench},
    Emit.landAll sites s = .ok () s' → s'.draft.holes loop? = s.draft.holes loop?
  | [], _, h => by cases h; rfl
  | _ :: _, _, h => by
    obtain ⟨_, s₁, h₁, h⟩ := bind_ok.1 h
    rw [landAll_holes h, land_holes h₁]

theorem Scope.Describes.landAll {Γ : Scope} : ∀ {sites : List Nat} {s : Workbench}, Γ.Describes s.draft →
    Emit.landAll sites s = .ok () s' → Γ.Describes s'.draft
  | [], _, hd, h => by cases h; exact hd
  | _ :: _, _, hd, h => by
    obtain ⟨_, s₁, h₁, h⟩ := bind_ok.1 h
    exact (hd.land h₁).landAll h

theorem Extends.landAll : ∀ {sites : List Nat} {s' : Workbench}, Extends s s' →
    Emit.landAll sites s' = .ok () s'' → (∀ site ∈ sites, s.draft.size ≤ site) → Extends s s''
  | [], _, he, h, _ => by cases h; exact he
  | site :: _, _, he, h, hs => by
    obtain ⟨_, s₁, h₁, h⟩ := bind_ok.1 h
    exact (he.land h₁ (hs site (List.mem_cons_self ..))).landAll h fun x hx => hs x (List.mem_cons_of_mem _ hx)

/-- What is settled once jumps have landed was settled before, up to their distances. -/
theorem Settled.back_landAll : ∀ {sites : List Nat} {s : Workbench}, Settled S H p q n s' →
    Emit.landAll sites s = .ok () s' → (∀ site ∈ sites, p ≤ site ∧ site + 2 ≤ s.draft.size) → s.draft.size ≤ q →
    (sites.Pairwise fun a b => a + 2 ≤ b ∨ b + 2 ≤ a) →
    (∀ site ∈ sites, ∀ x ∈ H, x.Off site (site + 2)) →
    Settled S (sites.map (⟨·, s.draft.size⟩) ++ H) p q n s
  | [], _, hs, h, _, _, _, _ => by cases h; exact hs
  | site :: sites, s, hs, h, hin, hq, hap, hH => by
    obtain ⟨_, s₁, h₁, h⟩ := bind_ok.1 h
    have hsize := land_size h₁
    obtain ⟨hap₁, hap₂⟩ := List.pairwise_cons.1 hap
    obtain ⟨hp, hle⟩ := hin site (List.mem_cons_self ..)
    have ih := Settled.back_landAll (s := s₁) hs h (fun x hx => by
      rw [hsize]; exact hin x (List.mem_cons_of_mem _ hx)) (by omega) hap₂
      fun x hx => hH x (List.mem_cons_of_mem _ hx)
    rw [hsize] at ih
    refine ih.back_land h₁ hle hp hq fun x hx => ?_
    rcases List.mem_append.1 hx with hx | hx
    · obtain ⟨site', hs', rfl⟩ := List.mem_map.1 hx
      have := hap₁ site' hs'
      unfold Hole.Off
      simp only
      omega
    · exact hH site (List.mem_cons_self ..) x hx

/-- What a body leaves that ran in a loop: all its code, and the jumps out of the loop, which lie in it apart from each
other. In the finished page the body lies in the scope of the loop, inside of what `f` opens; `k` says what it does to
the height. -/
structure DrawnLoop (s s' : Workbench) (start height : Nat) (sites : List Nat) (f : Scope → Scope) (k : Nat → Nat)
    (L : Sheet → Layout) : Prop where
  adds : Extends s s'
  inside : ∀ site ∈ sites, s.draft.size ≤ site ∧ site + 2 ≤ s'.draft.size
  apart : sites.Pairwise fun a b => a + 2 ≤ b ∨ b + 2 ≤ a
  holes : ∀ loop?, s'.draft.holes loop? = s.draft.holes loop?
  lies : ∀ {S : Sheet} {Γ : Scope} {l : Loop}, s.Known → Γ.Describes s.draft → l.start = start →
    l.shape.height = height → l.shape.zones = (f Γ).zones → start ≤ s.draft.size →
    Settled S (sites.map (⟨·, l.exit⟩)) s.draft.size s'.draft.size s.program.pages.size s' →
    ({ Γ with height := k Γ.height } : Scope).Describes s'.draft ∧
      ∃ Γ', L S ((f Γ).within l) s.draft.size Γ' s'.draft.size

/-- A body runs in a loop; as the height is known, it may be set first. -/
theorem DrawnLoop.of_body {start height : Nat} {body body' : Emit Unit} {sites : List Nat} {k : Nat → Nat}
    {L : Sheet → Layout} (h : Emits body' fun _ S => L S)
    (hrun : ∀ {s₀ s₁}, body s₀ = .ok () s₁ → s₀.draft.height = s.draft.height → body' s₀ = .ok () s₁)
    (hL : ∀ S Γ p Γ' p', L S Γ p Γ' p' → Γ' = { Γ with height := k Γ.height })
    (hm : Emit.inLoop start height body s = .ok sites s') : DrawnLoop s s' start height sites id k L := by
  obtain ⟨s₁, context, rest, hb, hl, rfl, rfl⟩ := Emit.inLoop_ok hm
  have hdraws := h (hrun hb rfl)
  obtain ⟨new, hnew, hsites, hap⟩ := hdraws.adds.draft.loops
  rw [hl] at hnew
  obtain ⟨rfl, hrest⟩ := List.cons.inj hnew
  have hrest : rest = s.draft.loops := hrest
  simp only [List.append_nil] at hdraws ⊢
  have hgrow : s.draft.Grows { s₁.draft with loops := rest } :=
    { hdraws.adds.draft with loops := ⟨[], by rw [addBreaks_nil]; exact hrest, by simp, .nil⟩ }
  refine ⟨hdraws.adds.redraft hgrow, ?_, ?_, ?_, ?_⟩
  · exact fun site hs => hsites site (List.mem_reverse.1 hs)
  · rw [List.pairwise_reverse]
    exact hap.imp fun h => .inl h
  · intro loop?
    unfold Draft.holes Draft.breaks
    simp only [hrest]
  · intro S Γ l hk hd hstart hheight hzones hle hs
    have hzones : l.shape.zones = Γ.zones := hzones
    have hd₀ : (Γ.within l).Describes { s.draft with
        loops := ⟨start, height, s.draft.regions.length, []⟩ :: s.draft.loops } := by
      refine { hd with loops := ?_, inside := by simp [Draft.breaks] }
      intro c rest' hc
      obtain ⟨rfl, rfl⟩ := List.cons.inj hc
      refine ⟨l, rfl, hstart.symm, hheight.symm, ?_, ⟨[], hzones.symm⟩, by rw [hstart]; exact hle⟩
      rw [hd.regions, hzones, List.length_map]
    have hholes : s₁.draft.holes (some l) = new.map (⟨·, l.exit⟩) := by
      simp only [Draft.holes, Draft.breaks, hl, List.append_nil]
    have hs₁ : Settled S (s₁.draft.holes (some l)) s.draft.size s₁.draft.size s.program.pages.size s₁ := by
      rw [hholes]
      refine hs.reframe.part (Nat.le_refl _) (Nat.le_refl _) (Nat.le_refl _) (fun x hx => ?_) fun x hx => .inl ?_
      · rwa [List.map_reverse, List.mem_reverse]
      · rwa [List.map_reverse, List.mem_reverse] at hx
    obtain ⟨Γ', hd', -, hlies⟩ := hdraws.lies hk hd₀ hs₁
    obtain rfl := hL _ _ _ _ _ hlies
    refine ⟨{ hd' with loops := ?_, inside := ?_ }, _, hlies⟩
    · intro c rest' hc
      obtain ⟨l₀, hl₀, hdesc⟩ := hd.loops c rest' (hrest.symm.trans hc)
      exact ⟨l₀, hl₀, { hdesc with le := Nat.le_trans hdesc.le hgrow.size }⟩
    · intro site hsite
      refine Nat.le_trans (hd.inside site ?_) hgrow.size
      unfold Draft.breaks at hsite ⊢
      simpa only [hrest] using hsite

/-- The body of a loop inside a zone of its own. -/
theorem DrawnLoop.inRegion {s s₁ s₂ s' : Workbench} {start height : Nat} {sites : List Nat}
    {k : Nat → Nat} {L : Sheet → Layout} (h₁ : Emit.openRegion .each s = .ok () s₁)
    (h : DrawnLoop s₁ s₂ start height sites id k L) (h₂ : Emit.leaveRegion s₂ = .ok () s') :
    DrawnLoop s s' start height sites (·.enter .each) k L := by
  cases h₁
  cases h₂
  have e₁ : Extends s { s with draft := { s.draft with regions := .each :: s.draft.regions } } :=
    .of_draft { Draft.Grows.refl s.draft with } rfl rfl rfl
  have e₂ : Extends s₂ { s₂ with draft := { s₂.draft with regions := s₂.draft.regions.drop 1 } } :=
    .of_draft { Draft.Grows.refl s₂.draft with } rfl rfl rfl
  refine ⟨(e₁.trans h.adds).trans e₂, h.inside, h.apart, h.holes, ?_⟩
  intro S Γ l hk hd hstart hheight hzones hle hs
  obtain ⟨hd₂, hlies⟩ := h.lies (e₁.program.known hk) (hd.enter .each) hstart hheight hzones hle hs.reframe
  obtain ⟨new, hnew, -⟩ := h.adds.draft.loops
  exact ⟨hd₂.exit hd ⟨new, hnew⟩ rfl rfl, hlies⟩

/-- A loop that is left by a jump in front of its body. -/
theorem DrawnLoop.round {s s₁ s₂ s₃ s' : Workbench} {o : Op} {start height exit : Nat} {sites : List Nat}
    {f : Scope → Scope} {k : Nat → Nat} {L : Sheet → Layout} {pops pushes : Nat} (hw : o.width = 2)
    (hjump : o.isJump = true) (hb : o ≠ .jumpBackward) (he : o.stackEffect? [0, 0] = some (pops, pushes))
    (hj : Emit.jump o s = .ok exit s₁) (h : DrawnLoop s₁ s₂ start height sites f k L)
    (hl : Emit.land exit s₂ = .ok () s₃) (hls : Emit.landAll sites s₃ = .ok () s') : Extends s s' ∧
      ∀ {S : Sheet} {Γ Γ₁ : Scope} {shape : Shape}, s.Known → Γ.Describes s.draft →
        Γ₁ = { Γ with height := Γ.height - pops + pushes } → start ≤ s.draft.size → shape.height = height →
        shape.zones = (f Γ₁).zones →
        Settled S (s'.draft.holes Γ.loop?) s.draft.size s'.draft.size s.program.pages.size s' →
        ({ Γ₁ with height := k Γ₁.height } : Scope).Describes s'.draft ∧ S.Jumps s.draft.size o s'.draft.size ∧
          ∃ Γ', L S ((f Γ₁).within ⟨start, s'.draft.size, shape⟩) (s.draft.size + 3) Γ' s'.draft.size := by
  obtain ⟨hsite, hop⟩ := Emit.jump_ok hj
  have hsize : s₁.draft.size = s.draft.size + 3 := op_size hop
  have hland := land_size hl
  have hlands := landAll_size hls
  have hle := h.adds.draft.size
  have e₃ : Extends s s₃ := ((op_extends hop).trans h.adds).land hl (by omega)
  refine ⟨e₃.landAll hls fun site hs => by have := h.inside site hs; omega, ?_⟩
  intro S Γ Γ₁ shape hk hd hΓ₁ hstart hheight hzones hs
  subst hΓ₁
  have hin := hd.holesIn
  have hholes : s'.draft.holes Γ.loop? = s₃.draft.holes Γ.loop? := landAll_holes hls
  have hholes₂ : s₂.draft.holes Γ.loop? = s₁.draft.holes Γ.loop? := h.holes _
  have hpast : ∀ x ∈ s₂.draft.holes Γ.loop?, x.site + 2 ≤ s.draft.size := fun x hx => by
    rw [hholes₂] at hx
    obtain ⟨height, rfl, -⟩ := Emit.op_ok hop
    exact hin x hx
  -- backwards: across the landing of the jumps out of the loop, and of the one in front of it
  have S₃ := hs.back_landAll hls (fun site hs => by have := h.inside site hs; omega) (by omega) h.apart
    fun site hs x hx => by
      rw [hholes, land_holes hl] at hx
      have := hpast x hx
      have := h.inside site hs
      exact .inl (by omega)
  have hexit : s₃.draft.size = s'.draft.size := hlands.symm
  rw [hexit, hholes] at S₃
  have S₂ := S₃.back_jump hj hl hle (Nat.le_refl _) (by omega) (fun x hx => by
    obtain ⟨site, hs, rfl⟩ := List.mem_map.1 hx
    have := h.inside site hs
    exact .inr this.1) fun x hx => .inl (hpast x hx)
  have hexit₂ : s₂.draft.size = s'.draft.size := by omega
  rw [hexit₂] at S₂
  have S₁ := Settled.back S₂ h.adds (by omega)
  have hbody : Settled S (sites.map (⟨·, s'.draft.size⟩)) s₁.draft.size s₂.draft.size s₁.program.pages.size s₂ := by
    refine S₂.part (by omega) (by omega) (op_extends hop).program.count (fun x hx => ?_) fun x hx => ?_
    · exact List.mem_append_left _ (List.mem_cons_of_mem _ hx)
    · rcases List.mem_append.1 hx with hx | hx
      · rcases List.mem_cons.1 hx with rfl | hx
        · exact .inr (.inl (by simp only; omega))
        · exact .inl hx
      · have := hpast x hx
        exact .inr (.inl (by omega))
  obtain ⟨-, -, hd₁⟩ := hd.jump hj he
  obtain ⟨hd₂, hlies⟩ := h.lies (l := ⟨start, s'.draft.size, shape⟩)
    ((op_extends hop).program.known hk) hd₁ rfl hheight hzones (by omega) hbody
  rw [hexit₂, hsize] at hlies
  refine ⟨(hd₂.land hl).landAll hls, ?_, hlies⟩
  refine S₁.forward hin hj hw hjump hb (Nat.le_refl _) (Nat.le_refl _) (List.mem_cons_self ..) fun x hx => ?_
  rcases List.mem_cons.1 hx with rfl | hx
  · exact .inl rfl
  · obtain ⟨site, hs, rfl⟩ := List.mem_map.1 hx
    have := h.inside site hs
    exact .inr (.inr this.1)

end Breaks

namespace Emits

/-- The body of a loop goes back to its start. -/
theorem rounds {m : Emit Unit} {P : Sheet → Part} (start : Nat) (h : Emits m fun _ S => (P S).layout) :
    Emits (do m; Emit.pop; Emit.jumpBack start) fun _ S Γ p Γ' p' => ∃ p₁, P S Γ p p₁ ∧ S.Has p₁ .pop [] ∧
      (start ≤ p₁ + 1 → S.Jumps (p₁ + 1) .jumpBackward start) ∧ p' = p₁ + 4 ∧ Γ' = Γ := by
  refine (h.bind fun _ => (op (o := .pop) rfl rfl).bind fun _ => jumpBack start).weaken ?_
  rintro _ S Γ p Γ' p' - ⟨_, _, p₁, ⟨hP, rfl⟩, _, _, _, ⟨ho, rfl, -, rfl⟩, hj, rfl, rfl⟩
  exact ⟨p₁, hP, ho, hj, rfl, rfl⟩

theorem loop {c b : Emit Unit} {C B : Sheet → Part} (hc : Emits c fun _ S => (C S).layout)
    (hb : Emits b fun _ S => (B S).layout) : Emits (Emit.loop c b) fun _ S => S.loop (C S) (B S) := by
  intro s s' _ hm
  obtain ⟨h, s₁, h₁, hm⟩ := bind_ok.1 hm
  cases h₁
  obtain ⟨start, _, h₂, hm⟩ := bind_ok.1 hm
  cases h₂
  obtain ⟨_, s₁, h₃, hm⟩ := bind_ok.1 hm
  obtain ⟨exit, s₂, h₄, hm⟩ := bind_ok.1 hm
  obtain ⟨breaks, s₃, h₅, hm⟩ := bind_ok.1 hm
  obtain ⟨_, s₄, h₆, h₇⟩ := bind_ok.1 hm
  have hcond := hc h₃
  have hbody := DrawnLoop.of_body (k := id) (rounds s.draft.size hb) (fun h _ => h)
    (fun S Γ p Γ' p' ⟨_, _, _, _, _, h⟩ => h) h₅
  obtain ⟨hadds, hround⟩ := hbody.round rfl rfl (by decide) rfl h₄ h₆ h₇
  refine ⟨hcond.adds.trans hadds, fun {S Γ} hk hd hs => ?_⟩
  have hle := hcond.adds.draft.size
  obtain ⟨Γ₁, hd₁, -, hC, rfl⟩ := hcond.lies hk hd (Settled.back (H := []) hs hadds (Nat.le_refl _))
  obtain ⟨hd', hjump, _, p₂, hB, hpop, hback, hp', -⟩ := hround (hcond.adds.program.known hk) hd₁ rfl hle
    (show Γ.shape.height = _ from hd.height.symm) rfl
    (hs.part hle (Nat.le_refl _) hcond.adds.program.count (fun _ h => h) fun _ h => .inl h)
  refine ⟨Γ, hd', rfl, s₁.draft.size, p₂, hC, hjump, hB, hpop, hback ?_, hp', rfl⟩
  have hsize : s₂.draft.size = s₁.draft.size + 3 := op_size (Emit.jump_ok h₄).2
  have := hbody.adds.draft.size
  have := land_size h₆
  have := landAll_size h₇
  omega

/-- The body of a loop over items, which finds the item in a slot. -/
theorem eachBody {m : Emit Unit} {P : Sheet → Part} (names : List String) (start slot : Nat)
    (h : Emits m fun _ S => (P S).layout) :
    Emits (do
      Emit.setHeight (slot + 1)
      Emit.beginScope
      Emit.unpack names slot
      m
      Emit.pop
      Emit.endScope false
      Emit.jumpBack start) fun _ S Γ p Γ' p' => ∃ new p₁ p₂ p₃, S.unpacks (Γ.depth + 1) names slot p new p₁ ∧
        P S (({ Γ with height := slot } : Scope).inner.grow new) p₁ p₂ ∧ S.Has p₂ .pop [] ∧
        S.drops .popN new.length (p₂ + 1) p₃ ∧ (start ≤ p₃ → S.Jumps p₃ .jumpBackward start) ∧ p' = p₃ + 3 ∧
        Γ' = { Γ with height := slot } := by
  have hcode : Emits (do Emit.setHeight (slot + 1); Emit.unpack names slot; m; Emit.pop) fun _ S Γ p Γ' p' =>
      ∃ new p₁ p₂, S.unpacks Γ.depth names slot p new p₁ ∧ P S (({ Γ with height := slot } : Scope).grow new) p₁ p₂ ∧
        S.Has p₂ .pop [] ∧ p' = p₂ + 1 ∧ Γ' = ({ Γ with height := slot } : Scope).grow new := by
    refine ((setHeight (slot + 1)).bind fun _ => (unpack names slot).bind fun _ => h.bind fun _ =>
      op (o := .pop) rfl rfl).weaken ?_
    rintro _ S Γ p Γ' p' - ⟨_, _, _, ⟨rfl, rfl⟩, _, _, p₁, ⟨new, hnew, hΓ⟩, _, _, p₂, ⟨hP, rfl⟩, ho, rfl, -, rfl⟩
    obtain rfl := hΓ { Γ with height := slot } rfl
    exact ⟨new, p₁, p₂, hnew, hP, ho, rfl, rfl⟩
  have hscope := inScopeAt false (fun _ => slot) hcode fun S Γ p Γ' p' ⟨new, _, _, hnew, _, _, _, hΓ⟩ =>
    ⟨new, hΓ, (Sheet.unpacks_length hnew).2⟩
  intro s s' _ hm
  have hm : (do
      (do Emit.beginScope
          (do Emit.setHeight (slot + 1); Emit.unpack names slot; m; Emit.pop)
          Emit.endScope false)
      Emit.jumpBack start) s = .ok () s' := by
    simp only [bind_assoc]
    exact hm
  refine (hscope.bind (fun _ => jumpBack start) hm).weaken ?_
  rintro S Γ p Γ' p' - ⟨_, _, p₃, ⟨new, p₁, -, ⟨new', p₂, p₄, hnew, hP, ho, rfl, hΓ⟩, hdrops, rfl⟩, hj, rfl, rfl⟩
  have hlocals : new ++ Γ.locals = new' ++ Γ.locals := congrArg Scope.locals hΓ
  obtain rfl := List.append_cancel_right hlocals
  exact ⟨new, p₂, p₄, p₃, hnew, hP, ho, hdrops, hj, rfl, rfl⟩

theorem each {i b : Emit Unit} {I B : Sheet → Part} (names : List String) (hi : Emits i fun _ S => (I S).layout)
    (hb : Emits b fun _ S => (B S).layout) : Emits (Emit.each names i b) fun _ S => S.each names (I S) (B S) := by
  intro s s' _ hm
  obtain ⟨_, s₁, h₁, hm⟩ := bind_ok.1 hm
  obtain ⟨_, s₂, h₂, hm⟩ := bind_ok.1 hm
  obtain ⟨h, _, hh, hm⟩ := bind_ok.1 hm
  cases hh
  obtain ⟨exit, s₃, h₃, hm⟩ := bind_ok.1 hm
  obtain ⟨_, s₄, h₄, hm⟩ := bind_ok.1 hm
  obtain ⟨breaks, s₅, h₅, hm⟩ := bind_ok.1 hm
  obtain ⟨_, s₆, h₆, hm⟩ := bind_ok.1 hm
  obtain ⟨_, s₇, h₇, hm⟩ := bind_ok.1 hm
  obtain ⟨_, s₈, h₈, h₉⟩ := bind_ok.1 hm
  have hiter := (hi h₁).trans (op (o := .getIter) rfl rfl h₂)
  obtain ⟨rfl, hop⟩ := Emit.jump_ok h₃
  have hsize : s₃.draft.size = s₂.draft.size + 3 := op_size hop
  have hheight : s₄.draft.height = s₂.draft.height + 1 := by
    cases h₄
    obtain ⟨height, rfl, hh⟩ := Emit.op_ok hop
    exact hh.2
  have hbody := DrawnLoop.of_body (k := fun _ => s₂.draft.height)
    (eachBody names s₂.draft.size s₂.draft.height hb) (fun {s₀ s₁} h hs₀ => by
      refine bind_ok.2 ⟨(), s₀, ?_, h⟩
      rw [← hheight, ← hs₀]
      rfl) (fun S Γ p Γ' p' ⟨_, _, _, _, _, _, _, _, _, _, h⟩ => h) h₅
  have hregion := hbody.inRegion h₄ h₆
  obtain ⟨hadds, hround⟩ := hregion.round rfl rfl (by decide) rfl h₃ h₇ h₈
  have hend := op (o := .endFor) rfl rfl h₉
  refine ⟨(hiter.adds.trans hadds).trans hend.adds, fun {S Γ} hk hd hs => ?_⟩
  have hle := hiter.adds.draft.size
  have hle' := hadds.draft.size
  have S₈ := Settled.back (H := []) hs hend.adds (Nat.le_refl _)
  obtain ⟨Γ₂, hd₂, -, _, p₁, ⟨hI, rfl⟩, hget, hp₁, -, rfl⟩ :=
    hiter.lies hk hd (Settled.back (H := []) S₈ hadds (Nat.le_refl _))
  have hh₂ : s₂.draft.height = Γ.height := hd₂.height
  obtain ⟨hd₈, hjump, _, new, p₂, p₃, p₄, hunpacks, hB, hpop, hdrops, hback, hp₄, -⟩ := hround
    (hiter.adds.program.known hk) hd₂ rfl (Nat.le_refl _)
    (show (Γ.enter .each).shape.height = _ from hh₂.symm) rfl (S₈.part hle (Nat.le_refl _) hiter.adds.program.count
      (fun _ h => h) fun _ h => .inl h)
  obtain ⟨Γ', hd', -, hendFor, hp', -, rfl⟩ := hend.lies ((hiter.adds.trans hadds).program.known hk) hd₈
    (hs.part (by omega) (Nat.le_refl _)
    (hiter.adds.trans hadds).program.count (fun _ h => h) fun _ h => .inl h)
  have hs₂ : s₂.draft.size = p₁ + 1 := hp₁
  rw [hh₂] at hd' hunpacks hB
  rw [hp₄] at hjump hB hendFor hp'
  rw [hs₂] at hjump hunpacks hB hback
  refine ⟨Γ, hd', rfl, p₁, new, p₂, p₃, p₄, hI, hget, hjump, hunpacks, hB, hpop, hdrops, hback ?_, hendFor, hp', rfl⟩
  have := hregion.adds.draft.size
  have := land_size h₇
  have := landAll_size h₈
  omega

end Emits

end ShellVM
