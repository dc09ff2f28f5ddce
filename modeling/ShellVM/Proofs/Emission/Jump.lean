import ShellVM.Proofs.Emission.Straight

/-!
# Emitters with jumps

A jump forward is written with an empty distance, which is filled in when its target is reached. Read backwards, from
the finished page, it is a hole (`Settled.back_jump`, `Settled.back_landAll`). With that the constructs that branch,
loop, leave a loop or a page, or catch errors lie as they should.
-/

namespace ShellVM

/-! ## Leaving -/

namespace Sheet

variable {S : Sheet} {Γ : Scope} {p p' : Nat}

theorem drops_le {op : Op} {count : Nat} (h : S.drops op count p p') : p ≤ p' := by
  unfold drops at h
  split at h <;> omega

theorem closes_le : ∀ {zones : List Zone} {p : Nat}, S.closes zones p p' → p ≤ p'
  | [], _, h => Nat.le_of_eq h.symm
  | _ :: _, _, h => Nat.le_trans (Nat.le_succ _) (closes_le h.2)

theorem unwinds_le {l : Loop} (h : S.unwinds Γ l p p') : p ≤ p' := by
  obtain ⟨inner, p₁, -, hc, hd⟩ := h
  exact Nat.le_trans (closes_le hc) (drops_le hd)

end Sheet

/-- The draft, in which a jump out of the innermost loop waits at `site` for the end of the loop. -/
def Draft.breaking (d : Draft) (site : Nat) (context : LoopContext) (rest : List LoopContext) (height : Nat) : Draft :=
  { d with loops := { context with breaks := site :: context.breaks } :: rest, height }

section Breaking

variable {Γ : Scope} {d : Draft} {c : LoopContext} {rest : List LoopContext} {site : Nat} {s s' : Workbench}

theorem Emit.addBreak_eq {height : Nat} (hc : d.loops = c :: rest) :
    { Emit.addBreak site d with height } = d.breaking site c rest height := by
  unfold Emit.addBreak
  rw [hc]
  rfl

theorem Draft.breaks_breaking {height : Nat} : (d.breaking site c rest height).breaks = site :: c.breaks := rfl

theorem Draft.holes_breaking {d' : Draft} {l : Loop} {height : Nat} (hc : d.loops = c :: rest) :
    (d'.breaking site c rest height).holes (some l) = ⟨site, l.exit⟩ :: d.holes (some l) := by
  unfold Draft.holes Draft.breaks
  rw [hc]
  rfl

theorem op_loops {o : Op} {operands : List UInt8} (h : Emit.op o operands s = .ok () s') :
    s'.draft.loops = s.draft.loops := by
  obtain ⟨height, rfl, -⟩ := Emit.op_ok h
  rfl

theorem Extends.breaking (hop : Emit.op .jump [0, 0] s = .ok () s') (hc : s.draft.loops = c :: rest) (height : Nat) :
    Extends s { s' with draft := s'.draft.breaking (s.draft.size + 1) c rest height } := by
  have hg := op_extends hop
  refine Extends.redraft (d := s.draft) hg
    { hg.draft with loops := ⟨[s.draft.size + 1], by rw [hc]; rfl, fun site hsite => ?_, List.pairwise_singleton _ _⟩ }
  rw [List.mem_singleton.1 hsite]
  exact ⟨Nat.le_succ _, Nat.le_of_eq (op_size hop).symm⟩

theorem Scope.Describes.breaking {height : Nat} (hd : Γ.Describes s.draft) (hop : Emit.op .jump [0, 0] s = .ok () s')
    (hc : s.draft.loops = c :: rest) :
    ({ Γ with height } : Scope).Describes (s'.draft.breaking (s.draft.size + 1) c rest height) := by
  have hsize := op_size hop
  obtain ⟨_, rfl, -⟩ := Emit.op_ok hop
  have hd' := hd.append (Op.jump.toByte :: [0, 0]) height
  refine { hd' with loops := ?_, inside := ?_ }
  · intro c' rest' hc'
    obtain ⟨l, hl, hdesc⟩ := hd'.loops c rest hc
    obtain ⟨rfl, rfl⟩ := List.cons.inj hc'
    exact ⟨l, hl, { hdesc with }⟩
  · intro site hsite
    rw [Draft.breaks_breaking] at hsite
    rcases List.mem_cons.1 hsite with rfl | hsite
    · exact Nat.le_of_eq hsize.symm
    · refine hd'.inside site ?_
      show site ∈ s.draft.breaks
      unfold Draft.breaks
      rw [hc]
      exact hsite

end Breaking

namespace Emits

theorem draft : Emits Emit.draft fun d _ Γ p Γ' p' => (Γ.Describes d ∧ d.size = p) ∧ p' = p ∧ Γ' = Γ := by
  refine (read id).weaken ?_
  rintro d _ _ _ _ _ - ⟨rfl, rfl, _, hd, hs, rfl⟩
  exact ⟨⟨hd, hs⟩, rfl, rfl⟩

theorem failure {α : Type} (e : CompileError) (L : α → Sheet → Layout) : Emits (throw e) L := by
  intro s s' a h
  cases h

/-- A step that is taken only under a condition. -/
theorem optional {α : Type} {c : Prop} [Decidable c] {m : Emit Unit} {g : Unit → Emit α} {L : Unit → Sheet → Layout}
    {L' : α → Sheet → Layout} (h : Emits (if c then m else pure ()) L) (h' : ∀ u, Emits (g u) L') :
    Emits (if c then m >>= g else g ()) fun b S Γ p Γ' p' => ∃ Γ₁ p₁, L () S Γ p Γ₁ p₁ ∧ L' b S Γ₁ p₁ Γ' p' := by
  have heq : (if c then m >>= g else g ()) = (if c then m else pure ()) >>= g := by
    split <;> rfl
  rw [heq]
  refine (h.bind h').weaken ?_
  rintro b S Γ p Γ' p' - ⟨_, hL⟩
  exact hL

/-- The instructions that close zones. -/
theorem opAll : ∀ regions : List Region, Emits (Emit.opAll (regions.map Region.closing)) fun _ S Γ p Γ' p' =>
    (∀ zones : List Zone, zones.map Zone.region = regions → S.closes zones p p') ∧ Γ' = Γ
  | [] => by
    refine (skip ()).weaken ?_
    rintro _ S Γ p Γ' p' - ⟨-, rfl, rfl⟩
    refine ⟨fun zones hz => ?_, rfl⟩
    obtain rfl := List.map_eq_nil_iff.1 hz
    rfl
  | r :: regions => by
    have hop : Emits (Emit.op r.closing []) fun _ S Γ p Γ' p' =>
        S.Has p r.closing [] ∧ p' = p + 1 ∧ 0 ≤ Γ.height ∧ Γ' = { Γ with height := Γ.height - 0 + 0 } := by
      cases r <;> exact op rfl rfl
    refine (hop.bind fun _ => opAll regions).weaken ?_
    rintro _ S Γ p Γ' p' - ⟨_, _, _, ⟨ho, rfl, -, rfl⟩, hc, rfl⟩
    refine ⟨fun zones hz => ?_, rfl⟩
    obtain ⟨z, zones, rfl, rfl, hzones⟩ := List.map_eq_cons_iff.1 hz
    exact ⟨ho, hc zones hzones⟩

theorem closeRegions (count : Nat) : Emits (Emit.closeRegions count) fun _ S Γ p Γ' p' =>
    S.closes (Γ.zones.take (Γ.zones.length - count)) p p' ∧ Γ' = Γ := by
  have hread : Emit.closeRegions count = Emit.draft >>= fun d =>
    Emit.opAll ((d.regions.take (d.regions.length - count)).map Region.closing) := rfl
  rw [hread]
  refine (draft.bind fun d => opAll _).weaken ?_
  rintro _ S Γ p Γ' p' - ⟨d, _, _, ⟨⟨hd, -⟩, rfl, rfl⟩, hc, rfl⟩
  refine ⟨hc _ ?_, rfl⟩
  rw [hd.regions, List.map_take, List.length_map]

theorem jumpBack (target : Nat) : Emits (Emit.jumpBack target) fun _ S Γ p Γ' p' =>
    (target ≤ p → S.Jumps p .jumpBackward target) ∧ p' = p + 3 ∧ Γ' = Γ := by
  intro s s' _ h
  have hop := op (o := .jumpBackward) rfl rfl (Emit.jumpBack_ok h).2
  refine ⟨hop.adds, fun {S Γ} hk hd hs => ?_⟩
  obtain ⟨Γ', hd', hl, -, hp, -, rfl⟩ := hop.lies hk hd hs
  refine ⟨_, hd', hl, fun ht => hs.jumpsBack h ht (Nat.le_refl _) (Nat.le_refl _) fun x hx => .inl ?_, hp, rfl⟩
  refine hd.holesIn x ?_
  obtain ⟨height, rfl, -⟩ := Emit.op_ok (Emit.jumpBack_ok h).2
  exact hx

/-- What was opened since the body of the innermost loop started is closed. -/
theorem unwindToLoop (keyword : String) : Emits (Emit.unwindToLoop keyword) fun context S Γ p Γ' p' =>
    ∃ l, Γ.loop? = some l ∧ context.start = l.start ∧ l.start ≤ p ∧ S.unwinds Γ l p p' ∧
      Γ' = { Γ with height := Γ.height - (Γ.height - l.shape.height) } := by
  refine Emits.weaken (Emits.bind draft (?_ : ∀ d : Draft, Emits _ fun context S Γ p Γ' p' =>
    (∃ rest, d.loops = context :: rest) ∧ ∃ p₁, S.closes (Γ.zones.take (Γ.zones.length - context.regions)) p p₁ ∧
      S.drops .popN (Γ.height - context.height) p₁ p' ∧
      Γ' = { Γ with height := Γ.height - (Γ.height - context.height) })) ?_
  · intro d
    cases hl : d.loops with
    | nil => exact failure _ _
    | cons context rest =>
      refine ((closeRegions context.regions).bind fun _ => height.bind fun h =>
        (drops false (h - context.height) "local variables").optional fun _ => skip context).weaken ?_
      rintro _ S Γ p Γ' p' - ⟨_, _, p₁, ⟨hc, rfl⟩, _, _, _, ⟨rfl, rfl, rfl⟩, _, _, ⟨hd, -, rfl⟩, rfl, rfl, rfl⟩
      exact ⟨⟨rest, rfl⟩, _, hc, hd, rfl⟩
  rintro context S Γ p Γ' p' - ⟨d, _, _, ⟨⟨hd, hsize⟩, rfl, rfl⟩, ⟨rest, hl⟩, p₁, hc, hdrops, rfl⟩
  obtain ⟨l, hl, hdesc⟩ := hd.loops _ _ hl
  obtain ⟨inner, hinner⟩ := hdesc.inner
  refine ⟨l, hl, hdesc.start, by rw [← hsize]; exact hdesc.le, ⟨inner, p₁, hinner, ?_, ?_⟩, ?_⟩
  · rwa [hdesc.regions, hinner, List.length_append, Nat.add_sub_cancel, List.take_left] at hc
  · rwa [hdesc.height] at hdrops
  · rw [hdesc.height]

theorem nextRound : Emits Emit.nextRound fun _ S => S.nextRound := by
  refine (height.bind fun h => (unwindToLoop "continue").bind fun context => (jumpBack context.start).bind fun _ =>
    setHeight h).weaken ?_
  rintro _ S Γ p Γ' p' - ⟨_, _, _, ⟨rfl, rfl, rfl⟩, context, _, p₁, ⟨l, hl, hstart, hle, hu, rfl⟩, _, _, _,
    ⟨hj, rfl, rfl⟩, rfl, rfl⟩
  refine ⟨l, p₁, hl, hu, ?_, rfl, rfl⟩
  rw [← hstart]
  refine hj ?_
  have := Sheet.unwinds_le hu
  omega

theorem leavePage {m : Emit Unit} {P : Sheet → Part} (h : Emits m fun _ S => (P S).layout) :
    Emits (Emit.leavePage m) fun _ S => S.leavePage (P S) := by
  refine (height.bind fun h₀ => h.bind fun _ => (closeRegions 0).bind fun _ => height.bind fun h₁ =>
    (drops true (h₁ - 1) "local variables").optional fun _ => (anyOp .ret []).bind fun _ => setHeight h₀).weaken ?_
  rintro _ S Γ p Γ' p' - ⟨_, _, _, ⟨rfl, rfl, rfl⟩, _, _, p₁, ⟨hP, rfl⟩, _, _, p₂, ⟨hc, rfl⟩, _, _, _,
    ⟨rfl, rfl, rfl⟩, _, p₃, ⟨hd, -, rfl⟩, _, _, _, ⟨ho, rfl, _, rfl, -⟩, rfl, rfl⟩
  refine ⟨p₁, _, _, hP, ?_, hd, ho rfl, rfl, rfl⟩
  rwa [Nat.sub_zero, List.take_length] at hc

/-- A jump out of the loop waits for its end. -/
theorem leaveLoop : Emits Emit.leaveLoop fun _ S => S.leaveLoop := by
  intro s s' _ h
  obtain ⟨context, s₁, s₂, h₁, hop, rfl⟩ := Emit.leaveLoop_ok h
  have hu := unwindToLoop "break" h₁
  obtain ⟨c, rest, hc⟩ : ∃ c rest, s₁.draft.loops = c :: rest := by
    obtain ⟨rest, hl⟩ := Emit.unwindToLoop_ok h₁
    obtain ⟨new, hn, -⟩ := hu.adds.draft.loops
    rw [hl] at hn
    exact ⟨_, _, hn⟩
  have hloops := (op_loops hop).trans hc
  rw [Emit.addBreak_eq hloops]
  have hsize : s₂.draft.size = s₁.draft.size + 3 := op_size hop
  have hadds := Extends.breaking hop hc s.draft.height
  refine ⟨hu.adds.trans hadds, fun {S Γ} hk hd hs => ?_⟩
  obtain ⟨Γ₁, hd₁, -, l, hl, -, -, hunwinds, rfl⟩ := hu.lies hk hd (Settled.back (H := []) hs hadds (Nat.le_refl _))
  have hholes : (s₂.draft.breaking (s₁.draft.size + 1) c rest s.draft.height).holes Γ.loop? =
      ⟨s₁.draft.size + 1, l.exit⟩ :: s₁.draft.holes Γ.loop? := by
    rw [hl, Draft.holes_breaking hc]
  have hjump : S.Jumps s₁.draft.size .jump l.exit := by
    rw [hholes] at hs
    refine hs.reframe.jumps hop rfl rfl (by decide) hu.adds.draft.size (Nat.le_refl _)
      (List.mem_cons_self ..) fun x hx => ?_
    rcases List.mem_cons.1 hx with rfl | hx
    · exact .inr (Nat.le_refl _)
    · exact .inl (hd₁.holesIn x hx)
  exact ⟨Γ, { hd₁.breaking hop hc with height := hd.height }, rfl, l, _, hl, hunwinds, hjump, hsize, rfl⟩

end Emits

/-! ## Jumps forward -/

section Forward

variable {S : Sheet} {Γ : Scope} {loop? : Option Loop} {H : List Hole} {p q n site : Nat} {o : Op}
  {s₁ s₂ s₃ s₄ : Workbench}

/-- What the compiler knows after a jump whose distance is still empty. -/
theorem Scope.Describes.jump {pops pushes : Nat} (hd : Γ.Describes s₁.draft) (hj : Emit.jump o s₁ = .ok site s₂)
    (he : o.stackEffect? [0, 0] = some (pops, pushes)) : s₂.draft.size = s₁.draft.size + 3 ∧ Extends s₁ s₂ ∧
      ({ Γ with height := Γ.height - pops + pushes } : Scope).Describes s₂.draft := by
  obtain ⟨-, hop⟩ := Emit.jump_ok hj
  refine ⟨op_size hop, op_extends hop, ?_⟩
  obtain ⟨height, rfl, hh⟩ := Emit.op_ok hop
  rw [he] at hh
  rw [hh.2, hd.height]
  exact hd.append _ _

/-- The holes around a jump: those of the loop that were there before, and those that come later. -/
theorem holes_off (hd : s₁.draft.HolesIn loop?) (hj : Emit.jump o s₁ = .ok site s₂) (hg : s₂.draft.Grows s₃.draft)
    {x : Hole} (hx : x ∈ s₃.draft.holes loop?) : x.Off s₁.draft.size s₂.draft.size := by
  rcases hg.holes_or hx with hx | hx
  · refine .inl (hd x ?_)
    obtain ⟨height, rfl, -⟩ := Emit.op_ok (Emit.jump_ok hj).2
    exact hx
  · exact .inr hx

theorem land_size (hl : Emit.land site s₁ = .ok () s₂) : s₂.draft.size = s₁.draft.size := by
  obtain ⟨-, rfl⟩ := Emit.land_ok hl
  exact Draft.size_patch ..

theorem land_holes (hl : Emit.land site s₁ = .ok () s₂) : s₂.draft.holes loop? = s₁.draft.holes loop? := by
  obtain ⟨-, rfl⟩ := Emit.land_ok hl
  rfl

/-- What is settled once a jump has landed was settled before, up to its distance. -/
theorem Settled.back_jump (hs : Settled S (H ++ s₄.draft.holes loop?) p q n s₄) (hj : Emit.jump o s₁ = .ok site s₂)
    (hl : Emit.land site s₃ = .ok () s₄) (hle : s₂.draft.size ≤ s₃.draft.size) (hp : p ≤ s₁.draft.size)
    (hq : s₃.draft.size ≤ q) (hH : ∀ x ∈ H, x.Off s₁.draft.size s₂.draft.size)
    (hin : ∀ x ∈ s₃.draft.holes loop?, x.Off s₁.draft.size s₂.draft.size) :
    Settled S ((⟨s₁.draft.size + 1, s₃.draft.size⟩ :: H) ++ s₃.draft.holes loop?) p q n s₃ := by
  obtain ⟨rfl, hop⟩ := Emit.jump_ok hj
  have hsize : s₂.draft.size = s₁.draft.size + 3 := op_size hop
  rw [land_holes hl] at hs
  refine hs.back_land hl (by omega) (by omega) hq fun x hx => ?_
  have hoff : x.Off s₁.draft.size s₂.draft.size := by
    rcases List.mem_append.1 hx with hx | hx
    · exact hH x hx
    · exact hin x hx
  unfold Hole.Off at *
  omega

/-- A jump goes where it landed. -/
theorem Settled.forward {t : Nat} (hs : Settled S (H ++ s₂.draft.holes loop?) p q n s₂)
    (hd : s₁.draft.HolesIn loop?) (hj : Emit.jump o s₁ = .ok site s₂) (hw : o.width = 2) (hjump : o.isJump = true)
    (hb : o ≠ .jumpBackward) (hp : p ≤ s₁.draft.size) (hq : s₂.draft.size ≤ q)
    (ht : (⟨s₁.draft.size + 1, t⟩ : Hole) ∈ H)
    (hH : ∀ x ∈ H, x.site = s₁.draft.size + 1 ∨ x.Off s₁.draft.size s₂.draft.size) : S.Jumps s₁.draft.size o t := by
  obtain ⟨rfl, hop⟩ := Emit.jump_ok hj
  have hsize : s₂.draft.size = s₁.draft.size + 3 := op_size hop
  refine hs.jumps hop hw hjump hb hp hq (List.mem_append_left _ ht) fun x hx => ?_
  have hoff : x.site = s₁.draft.size + 1 ∨ x.Off s₁.draft.size s₂.draft.size := by
    rcases List.mem_append.1 hx with hx | hx
    · exact hH x hx
    · exact .inr (holes_off hd hj (.refl _) hx)
  unfold Hole.Off at *
  omega

theorem Scope.Describes.land (hd : Γ.Describes s₁.draft) (hl : Emit.land site s₁ = .ok () s₂) :
    Γ.Describes s₂.draft := by
  have hsize := land_size hl
  obtain ⟨-, rfl⟩ := Emit.land_ok hl
  refine { hd with loops := ?_, inside := ?_ }
  · rw [hsize]
    exact hd.loops
  · rw [hsize]
    exact hd.inside

/-- A part among holes that it does not touch. -/
theorem Drawn.among {s s' : Workbench} {L : Sheet → Layout} (h : Drawn s s' L) (hk : s.Known)
    (hd : Γ.Describes s.draft)
    (hs : Settled S (H ++ s'.draft.holes Γ.loop?) p q n s') (hp : p ≤ s.draft.size) (hq : s'.draft.size ≤ q)
    (hn : n ≤ s.program.pages.size) (hH : ∀ x ∈ H, x.Off s.draft.size s'.draft.size) :
    ∃ Γ', Γ'.Describes s'.draft ∧ Γ'.loop? = Γ.loop? ∧ L S Γ s.draft.size Γ' s'.draft.size := by
  refine h.lies hk hd (hs.part hp hq hn (fun x hx => List.mem_append_right _ hx) fun x hx => ?_)
  rcases List.mem_append.1 hx with hx | hx
  · exact .inr (hH x hx)
  · exact .inl hx

/-- Code behind a jump over it. -/
theorem Drawn.over {s s₁ s₂ s' : Workbench} {L : Sheet → Layout} {pops pushes : Nat} (hw : o.width = 2)
    (hjump : o.isJump = true) (hb : o ≠ .jumpBackward) (he : o.stackEffect? [0, 0] = some (pops, pushes))
    (hj : Emit.jump o s = .ok site s₁) (h : Drawn s₁ s₂ L) (hl : Emit.land site s₂ = .ok () s') :
    Drawn s s' fun S Γ p Γ' p' =>
      S.Jumps p o p' ∧ L S { Γ with height := Γ.height - pops + pushes } (p + 3) Γ' p' := by
  obtain ⟨hsite, hop⟩ := Emit.jump_ok hj
  have hsize : s₁.draft.size = s.draft.size + 3 := op_size hop
  have hland := land_size hl
  have hle := h.adds.draft.size
  refine ⟨((op_extends hop).trans h.adds).land hl (by omega), fun {S Γ} hk hd hs => ?_⟩
  have S₂ := Settled.back_jump (H := []) hs hj hl hle (Nat.le_refl _) (by omega) (by simp)
    fun x => holes_off hd.holesIn hj h.adds.draft
  have S₁ := Settled.back S₂ h.adds (by omega)
  obtain ⟨-, -, hd₁⟩ := hd.jump hj he
  have hgrows := (op_extends hop).program
  obtain ⟨Γ', hd', hl', hL⟩ := h.among (hgrows.known hk) hd₁ S₂ (by omega) (by omega) hgrows.count fun x hx => by
    rw [List.mem_singleton.1 hx]
    exact .inl (by simp only; omega)
  have hjumps := S₁.forward hd.holesIn hj hw hjump hb (Nat.le_refl _) (Nat.le_refl _) (List.mem_cons_self ..) (by simp)
  refine ⟨Γ', hd'.land hl, hl', ?_, ?_⟩
  · rwa [hland]
  · rwa [hland, ← hsize]

/-- Two stretches of code of which one runs: a jump to the second one, and a jump from the end of the first one over
the second one. -/
theorem Drawn.fork {s s₁ s₂ s₃ s₄ s₅ s' : Workbench} {A B : Sheet → Layout} {pops pushes site' : Nat}
    (hw : o.width = 2) (hjump : o.isJump = true) (hb : o ≠ .jumpBackward)
    (he : o.stackEffect? [0, 0] = some (pops, pushes)) (hj : Emit.jump o s = .ok site s₁) (hA : Drawn s₁ s₂ A)
    (hj' : Emit.jump .jump s₂ = .ok site' s₃) (hl : Emit.land site s₃ = .ok () s₄) (hB : Drawn s₄ s₅ B)
    (hl' : Emit.land site' s₅ = .ok () s') :
    Drawn s s' fun S Γ p Γ' p' => ∃ Γ₁ p₁, S.Jumps p o (p₁ + 3) ∧
      A S { Γ with height := Γ.height - pops + pushes } (p + 3) Γ₁ p₁ ∧ S.Jumps p₁ .jump p' ∧
      B S Γ₁ (p₁ + 3) Γ' p' := by
  obtain ⟨hsite, hop⟩ := Emit.jump_ok hj
  obtain ⟨hsite', hop'⟩ := Emit.jump_ok hj'
  have hsize : s₁.draft.size = s.draft.size + 3 := op_size hop
  have hsize' : s₃.draft.size = s₂.draft.size + 3 := op_size hop'
  have hland := land_size hl
  have hland' := land_size hl'
  have hleA := hA.adds.draft.size
  have hleB := hB.adds.draft.size
  have e₃ : Extends s₁ s₃ := hA.adds.trans (op_extends hop')
  have e₄ : Extends s s₄ := ((op_extends hop).trans e₃).land hl (by omega)
  refine ⟨(e₄.trans hB.adds).land hl' (by omega), fun {S Γ} hk hd hs => ?_⟩
  have hin := hd.holesIn
  have hin' := ((op_extends hop).trans hA.adds).draft.holesIn hin
  -- backwards: across the second landing, the second stretch, the first landing and the first stretch
  have S₅ := Settled.back_jump (H := []) hs hj' hl' (by omega) (by omega) (by omega) (by simp) fun x hx => by
    rcases hB.adds.draft.holes_or hx with hx | hx
    · rw [land_holes hl] at hx
      exact holes_off hin' hj' (.refl _) hx
    · exact .inr (by omega)
  have S₄ := Settled.back S₅ hB.adds (by omega)
  have S₃ := S₄.back_jump hj hl e₃.draft.size (Nat.le_refl _) (by omega) (fun x hx => by
    rw [List.mem_singleton.1 hx]
    exact .inr (by simp only; omega)) fun x => holes_off hin hj e₃.draft
  have S₂ := Settled.back S₃ (op_extends hop') (by omega)
  have S₁ := Settled.back S₂ hA.adds (by omega)
  -- forwards: what the stretches and the jumps became
  obtain ⟨-, -, hd₁⟩ := hd.jump hj he
  have hgrows := (op_extends hop).program
  obtain ⟨Γ₂, hd₂, hl₂, hLA⟩ := hA.among (hgrows.known hk) hd₁ S₂ (by omega) (by omega) hgrows.count (by
    simp only [List.mem_cons, List.not_mem_nil, or_false, forall_eq_or_imp, forall_eq]
    exact ⟨.inl (by simp only; omega), .inr (by simp only; omega)⟩)
  obtain ⟨-, -, hd₃⟩ := hd₂.jump hj' rfl
  have hjumps := S₁.forward hin hj hw hjump hb (Nat.le_refl _) (Nat.le_refl _) (List.mem_cons_self ..) (by
    simp only [List.mem_cons, List.not_mem_nil, or_false, forall_eq_or_imp, forall_eq, true_or, true_and]
    exact .inr (.inr (by simp only; omega)))
  have hjumps' := S₃.forward hin' hj' rfl rfl (by decide) (by omega) (by omega)
    (List.mem_cons_of_mem _ (List.mem_cons_self ..)) (by
    simp only [List.mem_cons, List.not_mem_nil, or_false, forall_eq_or_imp, forall_eq, true_or, and_true]
    exact .inr (.inl (by simp only; omega)))
  have hd₄ : Γ₂.Describes s₄.draft := hd₃.land hl
  rw [show Γ.loop? = Γ₂.loop? from hl₂.symm] at S₅
  obtain ⟨Γ₅, hd₅, hl₅, hLB⟩ := hB.among (e₄.program.known hk) hd₄ S₅ (by omega) (by omega)
      e₄.program.count fun x hx => by
    rw [List.mem_singleton.1 hx]
    exact .inl (by simp only; omega)
  refine ⟨Γ₅, hd₅.land hl', hl₅.trans hl₂, Γ₂, s₂.draft.size, ?_, ?_, ?_, ?_⟩
  · rwa [← hsize']
  · rwa [← hsize]
  · rwa [hland']
  · rwa [hland', ← hsize', ← hland]

end Forward

namespace Emits

theorem shortCircuit {m m' : Emit Unit} {P P' : Sheet → Part} {o : Op} (ho : o = .jumpIf ∨ o = .jumpIfNot)
    (h : Emits m fun _ S => (P S).layout) (h' : Emits m' fun _ S => (P' S).layout) :
    Emits (Emit.shortCircuit o m m') fun _ S => (S.shortCircuit o (P S) (P' S)).layout := by
  have hop : o.width = 2 ∧ o.isJump = true ∧ o ≠ .jumpBackward ∧ o.stackEffect? [0, 0] = some (0, 0) := by
    rcases ho with rfl | rfl <;> exact ⟨rfl, rfl, by decide, rfl⟩
  obtain ⟨hw, hj, hb, he⟩ := hop
  intro s s' _ hm
  obtain ⟨_, s₁, h₁, hm⟩ := bind_ok.1 hm
  obtain ⟨site, s₂, h₂, hm⟩ := bind_ok.1 hm
  obtain ⟨_, s₃, h₃, hm⟩ := bind_ok.1 hm
  obtain ⟨_, s₄, h₄, hm⟩ := bind_ok.1 hm
  obtain ⟨_, s₅, h₅, h₆⟩ := bind_ok.1 hm
  have hpop := (op (o := .pop) rfl rfl h₃).trans (h' h₄)
  have hcast := op (o := .cast) rfl rfl h₆
  refine (((h h₁).trans (.over hw hj hb he h₂ hpop h₅)).trans hcast).weaken ?_
  rintro S Γ p Γ' p' - ⟨_, _, ⟨_, p₁, ⟨hP, rfl⟩, hjump, _, _, ⟨ho, rfl, -, rfl⟩, hP', rfl⟩, hc, rfl, -, rfl⟩
  exact ⟨⟨p₁, _, hP, hjump, ho, hP', hc, rfl⟩, rfl⟩

theorem branch {c y n : Emit Unit} {C Y N : Sheet → Part} (hc : Emits c fun _ S => (C S).layout)
    (hy : Emits y fun _ S => (Y S).layout) (hn : Emits n fun _ S => (N S).layout) :
    Emits (Emit.branch c y n) fun _ S => (S.branch (C S) (Y S) (N S)).layout := by
  intro s s' _ hm
  obtain ⟨_, s₁, h₁, hm⟩ := bind_ok.1 hm
  obtain ⟨toElse, s₂, h₂, hm⟩ := bind_ok.1 hm
  obtain ⟨h, s₃, h₃, hm⟩ := bind_ok.1 hm
  obtain ⟨_, s₄, h₄, hm⟩ := bind_ok.1 hm
  obtain ⟨toEnd, s₅, h₅, hm⟩ := bind_ok.1 hm
  obtain ⟨_, s₆, h₆, hm⟩ := bind_ok.1 hm
  obtain ⟨_, s₇, h₇, hm⟩ := bind_ok.1 hm
  obtain ⟨_, s₈, h₈, h₉⟩ := bind_ok.1 hm
  have hyes := (height h₃).trans (hy h₄)
  have hno := (setHeight h h₇).trans (hn h₈)
  refine ((hc h₁).trans (.fork rfl rfl (by decide) rfl h₂ hyes h₅ h₆ hno h₉)).weaken ?_
  rintro S Γ p Γ' p' - ⟨_, p₁, ⟨hC, rfl⟩, _, p₂, hj, ⟨_, _, ⟨rfl, rfl, rfl⟩, hY, rfl⟩, hj', _, _, ⟨rfl, rfl⟩, hN, rfl⟩
  exact ⟨⟨p₁, p₂, hC, hj, hY, hj', hN⟩, rfl⟩

end Emits

/-! ## Regions -/

theorem Scope.Describes.enter {Γ : Scope} {d : Draft} (hd : Γ.Describes d) (z : Zone) :
    (Γ.enter z).Describes { d with regions := z.region :: d.regions } := by
  refine { hd with regions := ?_, loops := ?_ }
  · simp only [Scope.enter, List.map_cons, hd.regions]
  · intro c rest hc
    obtain ⟨l, hl, hdesc⟩ := hd.loops c rest hc
    obtain ⟨inner, hinner⟩ := hdesc.inner
    exact ⟨l, hl, { hdesc with inner := ⟨z :: inner, by simp only [Scope.enter, hinner, List.cons_append]⟩ }⟩

/-- What is open around a zone is open after it. -/
theorem Scope.Describes.exit {Γ Γ' : Scope} {d d' : Draft} {z : Zone} (hd' : Γ'.Describes d') (hd : Γ.Describes d)
    (hloops : ∃ new, d'.loops = addBreaks new d.loops) (hz : Γ'.zones = z :: Γ.zones)
    (hl : Γ'.loop? = Γ.loop?) :
    ({ Γ' with zones := Γ.zones } : Scope).Describes { d' with regions := d'.regions.drop 1 } := by
  refine { hd' with regions := ?_, loops := ?_ }
  · simp only [hd'.regions, hz, List.map_cons, List.drop_succ_cons, List.drop_zero]
  · intro c rest hc
    obtain ⟨l, hl', hdesc⟩ := hd'.loops c rest hc
    refine ⟨l, hl', { hdesc with inner := ?_ }⟩
    obtain ⟨new, hn⟩ := hloops
    cases h₀ : d.loops with
    | nil =>
      rw [h₀, show d'.loops = c :: rest from hc] at hn
      cases hn
    | cons c₀ rest₀ =>
      obtain ⟨l₀, hl₀, hdesc₀⟩ := hd.loops c₀ rest₀ h₀
      obtain rfl : l = l₀ := by
        rw [hl] at hl'
        exact Option.some.inj (hl'.symm.trans hl₀)
      exact hdesc₀.inner

/-- Code inside a zone. -/
theorem Drawn.inRegion {s s₁ s₂ s' : Workbench} {r : Region} {L : Sheet → Layout} (z : Scope → Zone)
    (hr : ∀ Γ, (z Γ).region = r) (h₁ : Emit.openRegion r s = .ok () s₁) (h : Drawn s₁ s₂ L)
    (h₂ : Emit.leaveRegion s₂ = .ok () s') (hL : ∀ S Γ p Γ' p', L S Γ p Γ' p' → Γ'.zones = Γ.zones) :
    Drawn s s' fun S Γ p Γ' p' => ∃ Γ₁, L S (Γ.enter (z Γ)) p Γ₁ p' ∧ Γ' = { Γ₁ with zones := Γ.zones } := by
  cases h₁
  cases h₂
  have e₁ : Extends s { s with draft := { s.draft with regions := r :: s.draft.regions } } :=
    .of_draft { Draft.Grows.refl s.draft with } rfl rfl rfl
  have e₂ : Extends s₂ { s₂ with draft := { s₂.draft with regions := s₂.draft.regions.drop 1 } } :=
    .of_draft { Draft.Grows.refl s₂.draft with } rfl rfl rfl
  refine ⟨(e₁.trans h.adds).trans e₂, fun {S Γ} hk hd hs => ?_⟩
  have hd₁ := hd.enter (z Γ)
  rw [hr] at hd₁
  obtain ⟨Γ₂, hd₂, hl₂, hlies⟩ := h.lies (e₁.program.known hk) hd₁ (Settled.back (H := []) hs e₂ (Nat.le_refl _))
  obtain ⟨new, hnew, -⟩ := h.adds.draft.loops
  exact ⟨_, hd₂.exit hd ⟨new, hnew⟩ (hL _ _ _ _ _ hlies) hl₂, hl₂, Γ₂, hlies, rfl⟩

namespace Emits

/-- The code of a handler, which finds the error in a slot. -/
theorem handles {m : Emit Unit} {P : Sheet → Part} (h : Emits m fun _ S => (P S).layout) (slot : Nat) :
    ∀ binding? : Option String, Emits (do
      Emit.setHeight (slot + 1)
      match binding? with
      | some name => do
        Emit.beginScope
        Emit.declare name slot
        m
        Emit.endScope true
      | none => do
        Emit.pop
        m) fun _ S Γ p Γ' p' =>
          S.handles binding? (P S) { Γ with height := slot } p p' ∧ Γ' = ({ Γ with height := slot } : Scope).push
  | some name => by
    have hcode := (setHeight (slot + 1)).bind fun _ => (declare name slot).bind fun _ => h
    have hscope := inScopeAt true (fun _ => slot) hcode ?_
    · intro s s' _ hm
      have hm : (do
          Emit.beginScope
          (do Emit.setHeight (slot + 1); Emit.declare name slot; m)
          Emit.endScope true) s = .ok () s' := by
        simp only [bind_assoc]
        exact hm
      refine (hscope hm).weaken ?_
      rintro S Γ p Γ' p' - ⟨new, p₁, hnew, ⟨_, _, _, ⟨rfl, rfl⟩, _, _, p₂, ⟨l, hl, rfl⟩, hP, hΓ⟩, hdrops, rfl⟩
      have hlocals : new ++ Γ.locals = [l] ++ Γ.locals := congrArg Scope.locals hΓ
      obtain rfl := List.append_cancel_right hlocals
      exact ⟨⟨l, p₂, p₁, hl, hP, hdrops⟩, rfl⟩
    · rintro S Γ p Γ' p' ⟨_, _, _, ⟨rfl, rfl⟩, _, _, _, ⟨l, hl, rfl⟩, -, rfl⟩
      exact ⟨[l], rfl, by simpa using Sheet.declares_depth hl⟩
  | none => by
    refine ((setHeight (slot + 1)).bind fun _ => (op (o := .pop) rfl rfl).bind fun _ => h).weaken ?_
    rintro _ S Γ p Γ' p' - ⟨_, _, _, ⟨rfl, rfl⟩, _, _, _, ⟨ho, rfl, -, rfl⟩, hP, rfl⟩
    exact ⟨⟨ho, hP⟩, rfl⟩

theorem attempt {m m' : Emit Unit} {P P' : Sheet → Part} (h : Emits m fun _ S => (P S).layout)
    (binding? : Option String) (h' : Emits m' fun _ S => (P' S).layout) :
    Emits (Emit.attempt m binding? m') fun _ S => (S.attempt (P S) binding? (P' S)).layout := by
  intro s s' _ hm
  obtain ⟨h₀, s₀, hh, hm⟩ := bind_ok.1 hm
  obtain ⟨toHandler, s₁, h₁, hm⟩ := bind_ok.1 hm
  obtain ⟨_, s₂, h₂, hm⟩ := bind_ok.1 hm
  obtain ⟨_, s₃, h₃, hm⟩ := bind_ok.1 hm
  obtain ⟨_, s₄, h₄, hm⟩ := bind_ok.1 hm
  obtain ⟨_, s₅, h₅, hm⟩ := bind_ok.1 hm
  obtain ⟨toEnd, s₆, h₆, hm⟩ := bind_ok.1 hm
  obtain ⟨_, s₇, h₇, hm⟩ := bind_ok.1 hm
  have hbody := (Drawn.inRegion (fun Γ => .attempt Γ.height) (fun _ => rfl) h₂ (h h₃) h₄
    fun S Γ p Γ' p' ⟨_, hΓ'⟩ => by rw [hΓ']; rfl).trans (op (o := .endTry) rfl rfl h₅)
  obtain ⟨s₈, hm, h₈⟩ : ∃ s₈, (do
      Emit.setHeight (h₀ + 1)
      match binding? with
      | some name => do
        Emit.beginScope
        Emit.declare name h₀
        m'
        Emit.endScope true
      | none => do
        Emit.pop
        m') s₇ = .ok () s₈ ∧ Emit.land toEnd s₈ = .ok () s' := by
    obtain ⟨_, t₁, g₁, hm⟩ := bind_ok.1 hm
    cases binding? with
    | some name =>
      obtain ⟨_, t₂, g₂, hm⟩ := bind_ok.1 hm
      obtain ⟨_, t₃, g₃, hm⟩ := bind_ok.1 hm
      obtain ⟨_, t₄, g₄, hm⟩ := bind_ok.1 hm
      obtain ⟨_, t₅, g₅, hm⟩ := bind_ok.1 hm
      exact ⟨t₅, bind_ok.2 ⟨_, t₁, g₁, bind_ok.2 ⟨_, t₂, g₂, bind_ok.2 ⟨_, t₃, g₃, bind_ok.2 ⟨_, t₄, g₄, g₅⟩⟩⟩⟩, hm⟩
    | none =>
      obtain ⟨_, t₂, g₂, hm⟩ := bind_ok.1 hm
      obtain ⟨_, t₃, g₃, hm⟩ := bind_ok.1 hm
      exact ⟨t₃, bind_ok.2 ⟨_, t₁, g₁, bind_ok.2 ⟨_, t₂, g₂, g₃⟩⟩, hm⟩
  have hhandler := handles h' h₀ binding? hm
  refine ((height hh).trans (.fork rfl rfl (by decide) rfl h₁ hbody h₆ h₇ hhandler h₈)).weaken ?_
  rintro S Γ p Γ' p' - ⟨_, _, ⟨rfl, rfl, rfl⟩, _, p₁, hj, ⟨_, _, ⟨_, ⟨hP, rfl⟩, rfl⟩, ho, rfl, -, rfl⟩, hj', hP', rfl⟩
  exact ⟨⟨_, hj, hP, ho, hj', hP'⟩, rfl⟩

end Emits

end ShellVM
