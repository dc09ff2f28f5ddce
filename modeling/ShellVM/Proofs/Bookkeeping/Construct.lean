import ShellVM.Proofs.Bookkeeping.Scope

/-!
# The bookkeeping of constructs

Each construct leaves the stack, the scopes, the loops and the regions as they should be behind it, given that its
parts do (`Raises`, `Lifts`). What control never reaches is no exception: behind a jump out of a loop or a page the
compiler goes on with the height that it had in front of it.
-/

namespace ShellVM

variable {s t : Workbench} {o : Outline} {C : List String} {n k count : Nat} {x y x' y' x'' y'' : Emit Unit}

/-- A loop inside, whose stack has a height between two rounds. -/
def Outline.loop (o : Outline) (start height : Nat) : Outline :=
  { o with loops := ⟨start, height, o.regions.length, []⟩ :: o.loops }

namespace Outline.Fits

theorem inner (h : (o.at k).Fits) : (o.inner.at k).Fits where
  depths := fun l hl => Nat.le_succ_of_le (h.depths l hl)
  loops := h.loops

theorem enclose (h : (o.at k).Fits) (r : Region) : ((o.enclose r).at k).Fits where
  depths := h.depths
  loops := fun c hc => ⟨(h.loops c hc).1, Nat.le_succ_of_le (h.loops c hc).2⟩

theorem declare {new : List Local} (h : (o.at k).Fits) (hnew : ∀ l ∈ new, l.depth = o.depth) (hn : k ≤ n) :
    ((o.declare new).at n).Fits where
  depths := fun l hl => by
    rcases List.mem_append.1 hl with hl | hl
    · exact Nat.le_of_eq (hnew l hl)
    · exact h.depths l hl
  loops := fun c hc => ⟨Nat.le_trans (h.loops c hc).1 hn, (h.loops c hc).2⟩

theorem loop (h : (o.at k).Fits) (start : Nat) (hn : n ≤ k) : ((o.loop start n).at k).Fits where
  depths := h.depths
  loops := fun c hc => by
    rcases List.mem_cons.1 hc with rfl | hc
    · exact ⟨hn, Nat.le_refl _⟩
    · exact h.loops c hc

end Outline.Fits

namespace Emit

/-- Both emitters leave so many values on the stack, and nothing else, where closures capture the names `C`. -/
def Raises (C : List String) (count : Nat) (x y : Emit Unit) : Prop := ∀ s, s.Ready C →
  Settles (fun _ s' => Advances s (s.draft.outline.at (s.draft.height + count)) s') (x s) (y s)

/-- Both emitters leave a value on the stack, or else they may declare locals. -/
def Lifts (C : List String) (value : Bool) (x y : Emit Unit) : Prop := ∀ s, s.Ready C →
  Settles (fun _ s' => ∃ new : List Local, (value = true → new = []) ∧ (∀ l ∈ new, l.depth = s.draft.depth) ∧
    Advances s ((s.draft.outline.declare new).at (s.draft.height + new.length + value.toNat)) s') (x s) (y s)

theorem Raises.run (hx : Raises C count x y) (hs : s.Ready C) (hfits : (o.at k).Fits) (h : Advances s (o.at k) t) :
    Settles (fun _ t' => Advances s (o.at (k + count)) t') (x t) (y t) := by
  refine (hx t (h.ready hs hfits)).mono fun _ t' h' => ?_
  rw [h.outline, h.height] at h'
  exact h.trans h'

theorem Lifts.run {value : Bool} (hx : Lifts C value x y) (hs : s.Ready C) (hfits : (o.at k).Fits)
    (h : Advances s (o.at k) t) :
    Settles (fun _ t' => ∃ new : List Local, (value = true → new = []) ∧ (∀ l ∈ new, l.depth = o.depth) ∧
      Advances s ((o.declare new).at (k + new.length + value.toNat)) t') (x t) (y t) := by
  refine (hx t (h.ready hs hfits)).mono fun _ t' ⟨new, hnone, hnew, h'⟩ => ⟨new, hnone, ?_, ?_⟩
  · intro l hl
    rw [hnew l hl, h.depth]
    rfl
  · rw [h.outline, h.height] at h'
    exact h.trans h'

theorem Raises.zero : Raises C 0 (pure ()) (pure ()) := fun _ hs => .ok (.refl hs.steady)

theorem Raises.add {count' : Nat} (hx : Raises C count x y) (hx' : Raises C count' x' y') :
    Raises C (count + count') (do x; x') (do y; y') := by
  intro s hs
  refine (hx s hs).bind fun _ t h => ?_
  have := hx'.run hs (hs.room (Nat.le_add_right ..)) h
  rwa [Nat.add_assoc] at this

theorem Raises.of_eq {count' : Nat} (hx : Raises C count x y) (h : count = count') : Raises C count' x y := h ▸ hx

/-! ## Straight code -/

/-- Code that leaves no value is followed by nil, in a scope of its own. -/
theorem Lifts.valued {value : Bool} (hx : Lifts C value x y) : Raises C 1 (valued value x) (valued value y) := by
  intro s hs
  cases value with
  | true =>
    refine (hx s hs).mono fun _ t ⟨new, hnone, _, h⟩ => ?_
    obtain rfl := hnone rfl
    exact h
  | false =>
    refine (beginScope_settles hs.start).bind fun _ t₁ h₁ => ?_
    refine (hx.run hs (hs.room (Nat.le_refl _)).inner h₁).bind fun _ t₂ ⟨new, _, hnew, h₂⟩ => ?_
    refine (nil_settles h₂).bind fun _ t₃ h₃ => ?_
    exact endScope_settles true hnew hs.fits.depths rfl h₃

/-- An instruction takes the values that were left for it. -/
theorem Raises.op {p : Op} {operands : List UInt8} {b : Nat} (hx : Raises C count x y)
    (hwidth : operands.length = p.width) (heffect : p.stackEffect? operands = some (count, b)) :
    Raises C b (do x; op p operands) (do y; op p operands) := by
  intro s hs
  exact (hx s hs).bind fun _ t h => op_settles hwidth heffect (Nat.le_add_left ..) (by omega) h

theorem Raises.word {p : Op} {value : Nat} {what : String} (hx : Raises C count x y) (hwidth : p.width = 2)
    (heffect : value ≤ 65535 → p.stackEffect? (wordBytes value.toUInt16) = some (count, 1)) :
    Raises C 1 (do x; word p value what) (do y; word p value what) := by
  intro s hs
  exact (hx s hs).bind fun _ t h => word_settles hwidth heffect (Nat.le_add_left ..) (by omega) h

theorem Raises.constant (c : Constant) : Raises C 1 (constant c) (constant c) := fun _ hs => constant_settles hs.start c

theorem Raises.nil : Raises C 1 nil nil := fun _ hs => nil_settles hs.start

theorem Raises.load (name : String) : Raises C 1 (load name) (load name) := fun _ hs => load_settles name hs.start

/-- The right side replaces the value of the left one. -/
theorem Raises.shortCircuit {p : Op} (hwidth : p.width = 2) (heffect : p.stackEffect? [0, 0] = some (0, 0))
    (hx : Raises C 1 x y) (hx' : Raises C 1 x' y') : Raises C 1 (shortCircuit p x x') (shortCircuit p y y') := by
  intro s hs
  refine (hx s hs).bind fun _ t₁ h₁ => ?_
  refine (jump_settles hwidth heffect (Nat.zero_le _) rfl h₁).bind fun site t₂ ⟨h₂, hsite⟩ => ?_
  refine (pop_settles h₂.here).bind fun _ t₃ h₃ => ?_
  have hready := h₂.ready hs (hs.room (Nat.le_add_right ..))
  refine (hx'.run hready (hs.room (Nat.le_refl _)) h₃).bind fun _ t₄ h₄ => ?_
  refine (land_settles (h₂.trans h₄) (hsite.continue h₄.continues)).bind fun _ t₅ h₅ => ?_
  exact op_settles rfl rfl (Nat.le_add_left ..) rfl h₅

/-! ## Branches and loops -/

/-- Each of the two ways leaves a value. -/
theorem Raises.branch (hx : Raises C 1 x y) (hx' : Raises C 1 x' y') (hx'' : Raises C 1 x'' y'') :
    Raises C 1 (branch x x' x'') (branch y y' y'') := by
  intro s hs
  have hfits := hs.room (Nat.le_refl _)
  refine (hx s hs).bind fun _ t₁ h₁ => ?_
  refine (jump_settles rfl rfl (Nat.le_add_left ..) rfl h₁).bind fun toElse t₂ ⟨h₂, hElse⟩ => ?_
  rw [height_bind_run, height_bind_run, h₂.height]
  have hready₂ := h₂.ready hs hfits
  refine (hx'.run hready₂ hfits h₂.here).bind fun _ t₃ h₃ => ?_
  refine (jump_settles rfl rfl (Nat.zero_le _) rfl h₃).bind fun toEnd t₄ ⟨h₄, hEnd⟩ => ?_
  have h₄' := h₂.trans h₄
  refine (land_settles h₄.here (hElse.continue h₄.continues)).bind fun _ t₅ h₅ => ?_
  refine (setHeight_settles h₅ s.draft.height).bind fun _ t₆ h₆ => ?_
  have hready₄ := h₄'.ready hs (hs.room (Nat.le_add_right ..))
  refine (hx''.run hready₄ hfits h₆).bind fun _ t₇ h₇ => ?_
  exact land_settles (h₄'.trans h₇) (hEnd.continue h₇.continues)

/-- The body of a loop gives the jumps out of it, which wait for their distances. -/
theorem inLoop_settles {start height : Nat} (h : Advances s (o.at k) t)
    (hx : ∀ u, Advances s ((o.loop start height).at k) u →
      Settles (fun _ u' => Advances s ((o.loop start height).at n) u') (x u) (y u)) :
    Settles (fun sites t' => Advances s (o.at n) t' ∧ ∀ site ∈ sites, Site t'.draft.page.code site)
      (inLoop start height x t) (inLoop start height y t) := by
  have henter : Settles (fun _ t' => Advances s ((o.loop start height).at k) t')
      (modifyDraft (fun d => { d with loops := ⟨start, height, d.regions.length, []⟩ :: d.loops }) t)
      (modifyDraft (fun d => { d with loops := ⟨start, height, d.regions.length, []⟩ :: d.loops }) t) := by
    refine believe_settles h rfl rfl h.steady.draft.boxed (fun c hc site hsite => ?_) ?_
    · rcases List.mem_cons.1 hc with rfl | hc
      · cases hsite
      · exact h.steady.draft.sites c hc site hsite
    · show { t.draft.outline with
        loops := ⟨start, height, t.draft.outline.regions.length, []⟩ :: t.draft.outline.loops } =
        (o.loop start height).at k
      rw [h.outline]
      rfl
  refine henter.bind fun _ t₁ h₁ => (hx t₁ h₁).bind fun _ t₂ h₂ => ?_
  rw [draft_bind_run]
  have hloops := h₂.loops
  cases hcontext : t₂.draft.loops with
  | nil =>
    rw [hcontext] at hloops
    cases hloops
  | cons context rest =>
    rw [hcontext] at hloops
    have hrest : rest.map LoopContext.bare = o.loops := (List.cons.inj hloops).2
    have hsites := h₂.steady.draft.sites
    rw [hcontext] at hsites
    have hleave : Settles (fun _ t' => Advances s (o.at n) t' ∧ t'.draft.page = t₂.draft.page)
        (modifyDraft (fun d => { d with loops := rest }) t₂) (modifyDraft (fun d => { d with loops := rest }) t₂) := by
      have ho : { t₂.draft.outline with loops := rest.map LoopContext.bare } = o.at n := by
        rw [h₂.outline, hrest]
        rfl
      have hdraft : ({ t₂.draft with loops := rest } : Draft).Steady :=
        h₂.steady.draft.same rfl h₂.steady.draft.boxed fun c hc => hsites c (List.mem_cons_of_mem _ hc)
      exact .ok ⟨{ h₂ with steady := ⟨hdraft, h₂.steady.functions, h₂.steady.lined⟩, outline := ho }, rfl⟩
    refine hleave.bind fun _ t₃ ⟨h₃, hpage⟩ => .ok ⟨h₃, fun site hsite => ?_⟩
    rw [hpage]
    exact hsites context List.mem_cons_self site (List.mem_reverse.1 hsite)

/-- A loop leaves no value. -/
theorem Lifts.loop (hx : Raises C 1 x y) (hx' : Raises C 1 x' y') : Lifts C false (loop x x') (loop y y') := by
  intro s hs
  have hfits := hs.room (Nat.le_refl _)
  refine Settles.mono (Q := fun _ t => Advances s (s.draft.outline.at s.draft.height) t) ?_ fun _ t h =>
    ⟨[], fun _ => rfl, fun l hl => absurd hl List.not_mem_nil, h⟩
  refine (hx s hs).bind fun _ t₁ h₁ => ?_
  refine (jump_settles rfl rfl (Nat.le_add_left ..) rfl h₁).bind fun exit t₂ ⟨h₂, hexit⟩ => ?_
  have hready := h₂.ready hs hfits
  refine (inLoop_settles (n := s.draft.height) h₂.here fun u hu => ?_).bind fun breaks t₃ ⟨h₃, hbreaks⟩ => ?_
  · refine (hx'.run hready (hfits.loop _ (Nat.le_refl _)) hu).bind fun _ u₁ hu₁ => ?_
    exact (pop_settles hu₁).bind fun _ u₂ hu₂ => jumpBack_settles hu₂ _
  · refine (land_settles h₃.here (hexit.continue h₃.continues)).bind fun _ t₄ h₄ => ?_
    exact landAll_settles breaks ((h₂.trans h₃).trans h₄) fun site hsite => (hbreaks site hsite).continue h₄.continues

/-- A loop over items leaves no value. -/
theorem Lifts.each (names : List String) (hx : Raises C 1 x y) (hx' : Raises C 1 x' y') :
    Lifts C false (each names x x') (each names y y') := by
  intro s hs
  have hfits := hs.room (Nat.le_refl _)
  have hmore := hs.room (Nat.le_add_right s.draft.height 1)
  refine Settles.mono (Q := fun _ t => Advances s (s.draft.outline.at s.draft.height) t) ?_ fun _ t h =>
    ⟨[], fun _ => rfl, fun l hl => absurd hl List.not_mem_nil, h⟩
  refine (hx s hs).bind fun _ t₁ h₁ => ?_
  refine (op_settles (n := s.draft.height) rfl rfl (Nat.le_add_left ..) rfl h₁).bind fun _ t₂ h₂ => ?_
  have hheight₂ : t₂.draft.height = s.draft.height := h₂.height
  rw [height_bind_run, height_bind_run, hheight₂]
  refine (jump_settles (n := s.draft.height + 1) (b := 1) rfl rfl (Nat.zero_le _) rfl h₂).bind
    fun exit t₃ ⟨h₃, hexit⟩ => ?_
  have hready := h₃.ready hs hmore
  refine (openRegion_settles .each h₃.here).bind fun _ t₄ h₄ => ?_
  refine (inLoop_settles (n := s.draft.height) h₄ fun u hu => ?_).bind fun breaks t₅ ⟨h₅, hbreaks⟩ => ?_
  · have hloop := (hfits.enclose .each).loop (exit - 1) (Nat.le_refl _)
    refine (beginScope_settles hu).bind fun _ u₁ hu₁ => ?_
    refine (unpack_settles names s.draft.height hu₁).bind fun _ u₂ ⟨new, hnew, hu₂⟩ => ?_
    refine (hx'.run hready (hloop.inner.declare hnew (Nat.le_add_right ..)) hu₂).bind fun _ u₃ hu₃ => ?_
    refine (pop_settles hu₃).bind fun _ u₄ hu₄ => ?_
    refine (endScope_settles false hnew hloop.depths rfl hu₄).bind fun _ u₅ hu₅ => jumpBack_settles hu₅ _
  · refine (leaveRegion_settles h₅.here).bind fun _ t₆ h₆ => ?_
    have h₆' := h₅.trans h₆
    refine (land_settles h₆'.here (hexit.continue h₆'.continues)).bind fun _ t₇ h₇ => ?_
    have hbreaks₇ : ∀ site ∈ breaks, Site t₇.draft.page.code site := fun site hsite =>
      ((hbreaks site hsite).continue h₆.continues).continue h₇.continues
    refine (landAll_settles breaks ((h₃.trans h₆').trans h₇) hbreaks₇).bind fun _ t₈ h₈ => ?_
    exact op_settles rfl rfl (Nat.zero_le _) rfl h₈

/-! ## Ways out -/

theorem heightAbove_bind_run {α : Type} (hcount : count ≤ s.draft.height) (f : Nat → Emit α) :
    (Checked.heightAbove count >>= f) s = f (s.draft.height - count) s := by
  have hrun : Checked.heightAbove count s = .ok (s.draft.height - count) s := by
    unfold Checked.heightAbove
    rw [get_bind_run, if_neg (Nat.not_lt.2 hcount)]
    rfl
  exact bind_run_ok hrun

/-- What was opened since the loop started is closed. -/
theorem unwindToLoop_settles (keyword : String) (hfits : (o.at k).Fits) (h : Advances s (o.at k) t) :
    Settles (fun _ t' => ∃ n, Advances s (o.at n) t') (Checked.unwindToLoop keyword t) (unwindToLoop keyword t) := by
  unfold Checked.unwindToLoop unwindToLoop
  rw [draft_bind_run, draft_bind_run]
  have hloops := h.loops
  cases hcontext : t.draft.loops with
  | nil => exact .error (.external rfl)
  | cons context rest =>
    rw [hcontext] at hloops
    obtain ⟨hheight, hregions⟩ := hfits.loops context.bare (hloops ▸ List.mem_cons_self)
    dsimp only
    rw [draft_bind_run, if_neg]
    · refine (closeRegions_settles context.regions h).bind fun _ t₁ h₁ => ?_
      have hheight₁ : t₁.draft.height = k := h₁.height
      rw [heightAbove_bind_run (hheight₁ ▸ hheight), height_bind_run, hheight₁]
      by_cases hextra : 0 < k - context.height
      · rw [if_pos hextra]
        refine Settles.bind (Q := fun _ t' => Advances s (o.at (k - (k - context.height))) t') ?_
          fun _ t₂ h₂ => .ok ⟨_, h₂⟩
        refine byte_settles rfl (a := k - context.height) (b := 0) (fun hle => ?_) (Nat.sub_le ..) rfl h₁
        show some ((k - context.height).toUInt8.toNat, 0) = _
        rw [Nat.toUInt8, UInt8.toNat_ofNat', Nat.mod_eq_of_lt (by omega)]
      · rw [if_neg hextra]
        exact .ok ⟨_, h₁⟩
    · rw [h.regions]
      exact Nat.not_lt.2 hregions

theorem addBreak_cases (site : Nat) (d : Draft) : addBreak site d = d ∨ ∃ context rest, d.loops = context :: rest ∧
    addBreak site d = { d with loops := { context with breaks := site :: context.breaks } :: rest } := by
  unfold addBreak
  cases hloops : d.loops with
  | nil => exact .inl rfl
  | cons context rest => exact .inr ⟨context, rest, rfl, rfl⟩

/-- A jump out of the innermost loop, if there is one. -/
theorem addBreak_settles {site : Nat} (h : Advances s (o.at k) t) (hsite : Site t.draft.page.code site) :
    Settles (fun _ t' => Advances s (o.at k) t') (modifyDraft (addBreak site) t) (modifyDraft (addBreak site) t) := by
  rcases addBreak_cases site t.draft with hsame | ⟨context, rest, hloops, hbreak⟩
  · refine believe_settles h ?_ ?_ ?_ ?_ ?_
    all_goals rw [hsame]
    · exact h.steady.draft.boxed
    · exact h.steady.draft.sites
    · exact h.outline
  · have hsites := h.steady.draft.sites
    rw [hloops] at hsites
    refine believe_settles h ?_ ?_ ?_ ?_ ?_
    all_goals rw [hbreak]
    · exact h.steady.draft.boxed
    · intro c hc site' hsite'
      rcases List.mem_cons.1 hc with rfl | hc
      · rcases List.mem_cons.1 hsite' with rfl | hsite'
        · exact hsite
        · exact hsites context List.mem_cons_self site' hsite'
      · exact hsites c (List.mem_cons_of_mem _ hc) site' hsite'
    · rw [← h.outline]
      unfold Draft.outline
      rw [hloops]
      rfl

/-- Behind a jump that leaves no value the compiler goes on with the height in front of it. -/
theorem Lifts.jumping {x y : Emit Unit} (hx : ∀ s, s.Ready C →
    Settles (fun _ t => Advances s (s.draft.outline.at s.draft.height) t) (x s) (y s)) : Lifts C false x y := by
  intro s hs
  exact (hx s hs).mono fun _ t h => ⟨[], fun _ => rfl, fun l hl => absurd hl List.not_mem_nil, h⟩

theorem Lifts.leaveLoop : Lifts C false Checked.leaveLoop leaveLoop := by
  refine .jumping fun s hs => ?_
  unfold Checked.leaveLoop Emit.leaveLoop
  rw [height_bind_run, height_bind_run]
  refine (unwindToLoop_settles "break" (hs.room (Nat.le_refl _)) hs.start).bind fun context t₁ ⟨n, h₁⟩ => ?_
  refine (jump_settles (n := n) rfl rfl (Nat.zero_le _) rfl h₁).bind fun site t₂ ⟨h₂, hsite⟩ => ?_
  refine (addBreak_settles h₂ hsite).bind fun _ t₃ h₃ => setHeight_settles h₃ _

theorem Lifts.nextRound : Lifts C false Checked.nextRound nextRound := by
  refine .jumping fun s hs => ?_
  unfold Checked.nextRound Emit.nextRound
  rw [height_bind_run, height_bind_run]
  refine (unwindToLoop_settles "continue" (hs.room (Nat.le_refl _)) hs.start).bind fun context t₁ ⟨n, h₁⟩ => ?_
  exact (jumpBack_settles h₁ _).bind fun _ t₂ h₂ => setHeight_settles h₂ _

/-- Behind a return the compiler goes on with the height in front of it. -/
theorem Lifts.leavePage (hx : Raises C 1 x y) : Lifts C false (Checked.leavePage x) (leavePage y) := by
  refine .jumping fun s hs => ?_
  have hleave {t : Workbench} {n : Nat} (h : Advances s (s.draft.outline.at n) t) :
      Settles (fun _ t => Advances s (s.draft.outline.at s.draft.height) t)
        ((do op .ret []; setHeight s.draft.height : Emit Unit) t)
            ((do op .ret []; setHeight s.draft.height : Emit Unit) t) :=
    (untold_settles rfl rfl h).bind fun _ _ h₁ => setHeight_settles h₁ _
  unfold Checked.leavePage Emit.leavePage
  rw [height_bind_run, height_bind_run]
  refine (hx s hs).bind fun _ t₁ h₁ => ?_
  refine (closeRegions_settles 0 h₁).bind fun _ t₂ h₂ => ?_
  have hheight₂ : t₂.draft.height = s.draft.height + 1 := h₂.height
  rw [heightAbove_bind_run (hheight₂ ▸ Nat.le_add_left ..), height_bind_run, hheight₂, Nat.add_sub_cancel]
  by_cases hbelow : 0 < s.draft.height
  · rw [if_pos hbelow]
    refine Settles.bind (Q := fun _ t => Advances s (s.draft.outline.at 1) t) ?_ fun _ t₃ h₃ => hleave h₃
    refine byte_settles rfl (a := s.draft.height + 1) (b := 1) (fun hle => ?_) (Nat.le_refl _) (by omega) h₂
    show some (s.draft.height.toUInt8.toNat + 1, 1) = _
    rw [Nat.toUInt8, UInt8.toNat_ofNat', Nat.mod_eq_of_lt (by omega)]
  · rw [if_neg hbelow]
    exact hleave h₂

/-- The way of a failure and the way without one leave a value each. -/
theorem Raises.attempt (binding? : Option String) (hx : Raises C 1 x y) (hx' : Raises C 1 x' y') :
    Raises C 1 (attempt x binding? x') (attempt y binding? y') := by
  intro s hs
  have hfits := hs.room (Nat.le_refl _)
  unfold Emit.attempt
  rw [height_bind_run, height_bind_run]
  refine (jump_settles (n := s.draft.height) rfl rfl (Nat.zero_le _) rfl hs.start).bind
    fun toHandler t₁ ⟨h₁, hHandler⟩ => ?_
  have hready₁ := h₁.ready hs hfits
  refine (openRegion_settles .attempt h₁.here).bind fun _ t₂ h₂ => ?_
  refine (hx.run hready₁ (hfits.enclose .attempt) h₂).bind fun _ t₃ h₃ => ?_
  refine (leaveRegion_settles h₃).bind fun _ t₄ h₄ => ?_
  refine (op_settles (n := s.draft.height + 1) (b := 0) rfl rfl (Nat.zero_le _) rfl h₄).bind fun _ t₅ h₅ => ?_
  refine (jump_settles (n := s.draft.height + 1) (b := 0) rfl rfl (Nat.zero_le _) rfl h₅).bind
    fun toEnd t₆ ⟨h₆, hEnd⟩ => ?_
  have h₆' := h₁.trans h₆
  have hready₆ := h₆'.ready hs (hs.room (Nat.le_add_right ..))
  refine (land_settles h₆.here (hHandler.continue h₆.continues)).bind fun _ t₇ h₇ => ?_
  refine (setHeight_settles h₇ (s.draft.height + 1)).bind fun _ t₈ h₈ => ?_
  have hland {t : Workbench} (h : Advances t₆ (s.draft.outline.at (s.draft.height + 1)) t) :
      Settles (fun _ t => Advances s (s.draft.outline.at (s.draft.height + 1)) t) (land toEnd t) (land toEnd t) :=
    land_settles (h₆'.trans h) (hEnd.continue h.continues)
  cases binding? with
  | none =>
    refine (pop_settles h₈).bind fun _ t₉ h₉ => ?_
    exact (hx'.run hready₆ hfits h₉).bind fun _ t₁₀ h₁₀ => hland h₁₀
  | some name =>
    refine (beginScope_settles h₈).bind fun _ t₉ h₉ => ?_
    refine (declare_settles name s.draft.height h₉).bind fun _ t₁₀ ⟨l, hl, h₁₀⟩ => ?_
    have hnew : ∀ l' ∈ [l], l'.depth = s.draft.depth + 1 := by
      intro l' hl'
      obtain rfl : l' = l := by simpa using hl'
      exact hl
    refine (hx'.run hready₆ (hfits.inner.declare hnew (Nat.le_add_right ..)) h₁₀).bind fun _ t₁₁ h₁₁ => ?_
    exact (endScope_settles true hnew hs.fits.depths rfl h₁₁).bind fun _ t₁₂ h₁₂ => hland h₁₂

end Emit

end ShellVM
