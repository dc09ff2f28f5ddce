import ShellVM.Proofs.Window.Act

/-!
# Jumps, cells and regions

The acts that change the frame of the call, the cells put aside, the iterators and the handlers.
-/

namespace ShellVM

variable {V : View} {k : Context} {A : Activation} {q : Nat} {σ : Shape} {m m' : Machine}

/-! ## Cells -/

theorem Boxed.setCell {floor : Addr} {cells : List (UInt8 × Addr)} {s t : UInt8} {a : Addr} (ha : floor ≤ a)
    (h : t = s ∨ Boxed floor cells t) : Boxed floor ((s, a) :: cells.filter fun c => c.1 != s) t := by
  by_cases hts : t = s
  · exact ⟨a, by simp [hts], ha⟩
  · obtain ⟨b, hb, hle⟩ := h.resolve_left hts
    refine ⟨b, ?_, hle⟩
    have hne : (t == s) = false := by simpa using hts
    have hfilter : ∀ cells : List (UInt8 × Addr), cells.lookup t = some b →
        (cells.filter fun c => c.1 != s).lookup t = some b := by
      intro cells
      induction cells with
      | nil => exact fun h => h
      | cons c cells ih =>
        intro h
        obtain ⟨u, x⟩ := c
        by_cases hus : u = s
        · have : (t == u) = false := by rw [hus]; exact hne
          simp only [List.lookup_cons, this] at h
          simp [hus, ih h]
        · simp only [List.lookup_cons] at h ⊢
          have : (u != s) = true := by simpa using hus
          rw [List.filter_cons, if_pos this]
          simp only [List.lookup_cons]
          split at h
          · exact h
          · exact ih h
    simp only [List.lookup_cons, hne]
    exact hfilter cells hb

/-- Handlers rely on nothing but which locals live in cells. -/
theorem Open.mono {floor : Addr} {cells cells' : List (UInt8 × Addr)}
    (hcells : ∀ s, Boxed floor cells s → Boxed floor cells' s) {zones : List Zone} {n : Nat} {own : List Handler}
    (h : Open floor A cells zones n own) : Open floor A cells' zones n own := by
  induction h with
  | none => exact .none
  | attempt _ reaches boxes above ih => exact .attempt ih reaches (fun s hs => hcells s (boxes s hs)) above
  | each _ ih => exact .each ih

namespace Acts

/-! ## The frame -/

/-- The frame of the call goes on elsewhere, or has other cells. -/
theorem modifyFrame {g : Frame → Frame} {q' : Nat} {σ' : Shape} (habove : ∀ f, g (f.above k) = (g f).above k)
    (hg : ∀ cells, (∀ s ∈ σ.cells, Boxed V.cells cells s) → ∃ cells', g (A.frame q cells) = A.frame q' cells' ∧
      (∀ s, Boxed V.cells cells s → Boxed V.cells cells' s) ∧ ∀ s ∈ σ'.cells, Boxed V.cells cells' s)
    (hσ' : σ' = { σ with cells := σ'.cells }) :
    Acts V k A q σ (Act.modifyFrame g) (Act.modifyFrame g) (fun _ _ => True) q' σ' := by
  intro m m' hm
  obtain ⟨cells, own, hframes', hframes, hboxes, hopen, hown⟩ := frames hm
  obtain ⟨cells', hframe, hcells, hboxes'⟩ := hg cells hboxes
  unfold Act.modifyFrame
  rw [hframes, hframes']
  refine ⟨trivial, { hm with
    frames := ?_
    shaped := { active := ⟨cells', own, ?_, hboxes', ?_, hown⟩, height := ?_, floor := ?_, pending := ?_,
                stored := hm.shaped.stored } }⟩
  · simp only [List.map_cons, List.cons_append, habove]
  · simp only [hframe]
  · rw [hσ']
    exact hopen.mono hcells
  · rw [hσ']
    exact hm.shaped.height
  · rw [hσ']
    exact hm.shaped.floor
  · rw [hσ']
    exact hm.shaped.pending

theorem jump (t : Nat) : Acts V k A q σ (Act.jump t) (Act.jump t) (fun _ _ => True) t σ :=
  modifyFrame (fun _ => rfl) (fun cells hboxes => ⟨cells, rfl, fun _ h => h, hboxes⟩) rfl

theorem jumpTo {i : Instruction} {t : Nat} (h : i.target? = some t) :
    Acts V k A q σ (Act.jumpTo i) (Act.jumpTo i) (fun _ _ => True) t σ := by
  unfold Act.jumpTo
  rw [h]
  exact jump t

theorem makeCell {s : UInt8} (hs : s.toNat < σ.height) :
    Acts V k A q σ (Act.makeCell s) (Act.makeCell s) (fun _ _ => True) q { σ with cells := s :: σ.cells } := by
  refine (load hs).bind fun u v huv => (effect (Agrees.newCell huv)).bind fun a b ⟨hb, ha⟩ => ?_
  subst hb
  refine modifyFrame (fun _ => rfl) (fun cells hboxes => ⟨_, rfl, fun t h => .setCell ha (.inr h), fun t ht => ?_⟩) rfl
  rcases List.mem_cons.1 ht with rfl | ht
  · exact .setCell ha (.inl rfl)
  · exact .setCell ha (.inr (hboxes t ht))

theorem await {a : Addr} (ha : V.cells ≤ a) :
    Acts V k A q σ (Act.await a) (Act.await a) (fun _ _ => True) q { σ with pending := σ.pending + 1 } := by
  refine Lockstep.modify fun m m' hm => ⟨trivial, { hm with
    pending := ?_
    shaped := { hm.shaped with pending := ?_, stored := fun b hb => ?_ } }⟩
  · show a :: m.pending = _
    rw [hm.pending]
    rfl
  · exact Nat.succ_le_succ hm.shaped.pending
  · rcases List.mem_cons.1 hb with rfl | hb
    · exact ha
    · exact hm.shaped.stored b hb

/-! ## Iterators -/

theorem startIteration (hσ : σ.Admits 1) : Acts V k A q σ Act.startIteration Act.startIteration (fun _ _ => True) q
    { σ.lift 1 0 with zones := .each :: σ.zones } := by
  refine (pop hσ).bind fun u v huv => (effect (Iter.ofValue_agrees huv)).bind fun it it' hit => ?_
  refine Lockstep.modify fun m m' hm => ?_
  obtain ⟨top, hiterators, htop⟩ := hm.iterators
  obtain ⟨cells, own, hframes, hboxes, hopen, hown⟩ := hm.shaped.active
  refine ⟨trivial, { hm with
    iterators := ⟨it :: top, ?_, .cons hit htop⟩
    shaped := { hm.shaped with active := ⟨cells, own, hframes, hboxes, .each hopen, hown⟩ } }⟩
  simp only [hiterators, List.cons_append]

/-- The call has an iterator of its own. -/
theorem iterator (hm : Inside V k A q σ m m') {zones : List Zone} (hσ : σ.zones = .each :: zones) :
    ∃ it it' rest rest', m.iterators = it :: (rest ++ k.iterators) ∧ m'.iterators = it' :: rest' ∧ it.Alike V it' ∧
      List.Forall₂ (Iter.Alike V) rest rest' := by
  obtain ⟨top, hiterators, htop⟩ := hm.iterators
  obtain ⟨cells, own, hframes, hboxes, hopen, hown⟩ := hm.shaped.active
  rw [hσ] at hopen
  generalize hlength : m'.iterators.length = n at hopen
  cases hopen with
  | each outer =>
    cases hm' : m'.iterators with
    | nil => rw [hm'] at hlength; cases hlength
    | cons it' rest' =>
      rw [hm'] at htop
      obtain ⟨it, rest, hit, hrest, rfl⟩ := List.forall₂_cons_right_iff.1 htop
      exact ⟨it, it', rest, rest', hiterators, rfl, hit, hrest⟩

/-- Other iterators for the same zones. -/
theorem reiterate (hm : Inside V k A q σ m m') {rest rest' : List Iter} {zones : List Zone} {own : List Handler}
    (h : List.Forall₂ (Iter.Alike V) rest rest') (hfloor : Zone.floor zones = Zone.floor σ.zones)
    (hopen : ∀ cells, Open V.cells A cells σ.zones m'.iterators.length own →
      Open V.cells A cells zones rest'.length own)
    (hown : m'.handlers = own ++ A.outerHandlers) : Inside V k A q { σ with zones }
      { m with iterators := rest ++ k.iterators } { m' with iterators := rest' } := by
  obtain ⟨cells, own', hframes, hboxes, hopen', hown'⟩ := hm.shaped.active
  obtain rfl : own' = own := List.append_cancel_right (hown'.symm.trans hown)
  exact { hm with
    iterators := ⟨rest, rfl, h⟩
    shaped := { hm.shaped with
      active := ⟨cells, own', hframes, hboxes, hopen cells hopen', hown⟩
      floor := by rw [hfloor]; exact hm.shaped.floor } }

theorem endIteration {zones : List Zone} (hσ : σ.zones = .each :: zones) :
    Acts V k A q σ Act.endIteration Act.endIteration (fun _ _ => True) q { σ with zones } := by
  intro m m' hm
  obtain ⟨it, it', rest, rest', h, h', -, hrest⟩ := iterator hm hσ
  obtain ⟨-, own, -, -, -, hown⟩ := hm.shaped.active
  have hact : Act.endIteration m = .ok () { m with iterators := rest ++ k.iterators } := by
    unfold Act.endIteration
    rw [get_bind_run, h]
    rfl
  have hact' : Act.endIteration m' = .ok () { m' with iterators := rest' } := by
    unfold Act.endIteration
    rw [get_bind_run, h']
    rfl
  rw [hact, hact']
  refine ⟨trivial, reiterate hm hrest (by rw [hσ]; rfl) (fun cells hopen => ?_) hown⟩
  rw [hσ, h'] at hopen
  cases hopen with
  | each outer => exact outer

/-- The next item is pushed, or the loop is left if there is none. -/
theorem iterate {i : Instruction} {t : Nat} (ht : i.target? = some t) {zones : List Zone}
    (hσ : σ.zones = .each :: zones) : Lockstep (Inside V k A q σ) (Act.iterate i) (Act.iterate i)
      (fun _ _ m m' => Inside V k A q (σ.lift 0 1) m m' ∨ Inside V k A t σ m m')
      fun e f m m' => (f.cause = e.cause ∧ e.cause.isPlain) ∧ ∃ q σ, Inside V k A q σ m m' := by
  intro m m' hm
  obtain ⟨it, it', rest, rest', h, h', hit, hrest⟩ := iterator hm hσ
  obtain ⟨-, own, -, -, -, hown⟩ := hm.shaped.active
  unfold Act.iterate
  rw [get_bind_run, get_bind_run, h, h']
  refine Lockstep.bind (P := fun s t => ∃ w w', s = { m with world := w } ∧ t = { m' with world := w' } ∧
    w.Alike V w') (Q := fun r r' s t => (Option.Rel (Value.Alike V) r.1 r'.1 ∧ r.2.Alike V r'.2) ∧
      ∃ w w', s = { m with world := w } ∧ t = { m' with world := w' } ∧ w.Alike V w') ?_ ?_ ⟨_, _, rfl, rfl, hm.world⟩
  · rintro s t ⟨w, w', rfl, rfl, hw⟩
    unfold Act.effect
    rcases (Iter.next_agrees hit).cases hw with ⟨r, r', w, w', h₁, h₂, hr, hw⟩ |
      ⟨c, d, w, w', h₁, h₂, ⟨hcd, hplain⟩, hw⟩
    · rw [h₁, h₂]
      exact ⟨hr, w, w', rfl, rfl, hw⟩
    · rw [h₁, h₂]
      exact ⟨⟨by rw [hcd], hplain⟩, q, σ, { hm with world := hw, shaped := { hm.shaped with } }⟩
  rintro ⟨item?, it⟩ ⟨item'?, it'⟩
  refine Lockstep.assume fun hnext => ?_
  obtain ⟨hitem, hit⟩ := hnext
  refine Lockstep.bind (Q := fun _ _ => Inside V k A q σ) (Lockstep.modify ?_) fun _ _ => ?_
  · rintro s t ⟨w, w', rfl, rfl, hw⟩
    have hworld : Inside V k A q σ { m with world := w } { m' with world := w' } :=
      { hm with world := hw, shaped := { hm.shaped with } }
    refine reiterate hworld (.cons hit hrest) rfl (fun cells hopen => ?_) hown
    rw [show ({ m' with world := w' } : Machine).iterators = _ from h'] at hopen
    exact hopen
  · cases hitem with
    | none => exact Lockstep.post (jumpTo ht) fun _ _ _ _ h => .inr h.2
    | some huv => exact Lockstep.post (push huv) fun _ _ _ _ h => .inl h.2

/-! ## Handlers -/

theorem openTry {i : Instruction} {t : Nat} (ht : i.target? = some t)
    (hreaches : Reaches A.chart.At t ⟨σ.height + 1, σ.zones, σ.cells, 0⟩) :
    Acts V k A q σ (Act.openTry i) (Act.openTry i) (fun _ _ => True) q
      { σ with zones := .attempt σ.height :: σ.zones } := by
  unfold Act.openTry
  rw [ht]
  refine Lockstep.modify fun m m' hm => ?_
  obtain ⟨cells, own, hframes', hframes, hboxes, hopen, hown⟩ := frames hm
  obtain ⟨top, hstack, htop⟩ := hm.stack
  obtain ⟨iterators, hiterators, hiterators'⟩ := hm.iterators
  have hdepth : m'.frames.length = A.depth := by rw [hframes']; rfl
  have hheight := hm.shaped.height
  have hsize := htop.size
  refine ⟨trivial, { hm with
    handlers := ?_
    shaped := { hm.shaped with
      active := ⟨cells, _ :: own, hframes', hboxes, .attempt hopen hreaches hboxes hm.shaped.floor, ?_⟩
      floor := Nat.le_refl _ } }⟩
  · show _ :: m.handlers = _
    rw [List.map_cons, List.cons_append, ← hm.handlers]
    congr 1
    simp only [Handler.above, Handler.mk.injEq, and_true]
    refine ⟨?_, ?_, ?_⟩
    · rw [hm.frames, List.length_append, List.length_map]
    · rw [hstack, Array.size_append, hsize]
    · rw [hiterators, List.length_append, hiterators'.length_eq]
  · simp only [hdepth, hheight, hown, List.cons_append]

theorem closeTry {h : Nat} {zones : List Zone} (hσ : σ.zones = .attempt h :: zones) :
    Acts V k A q σ Act.closeTry Act.closeTry (fun _ _ => True) q { σ with zones } := by
  intro m m' hm
  obtain ⟨cells, own, hframes', hboxes, hopen, hown⟩ := hm.shaped.active
  have hfloor := hm.shaped.floor
  rw [hσ] at hopen hfloor
  generalize hn : m'.iterators.length = n at hopen
  cases hopen with
  | @attempt _ ip _ _ boxed own outer reaches boxes above =>
    have hhandlers : m'.handlers = ⟨A.depth, A.base + h, n, ip⟩ :: (own ++ A.outerHandlers) := hown
    have hhandlers' := hm.handlers
    rw [hhandlers, List.map_cons, List.cons_append] at hhandlers'
    have hact : Act.closeTry m = .ok () { m with
        handlers := (own ++ A.outerHandlers).map (Handler.above k) ++ k.handlers } := by
      unfold Act.closeTry
      rw [get_bind_run, hhandlers']
      rfl
    have hact' : Act.closeTry m' = .ok () { m' with handlers := own ++ A.outerHandlers } := by
      unfold Act.closeTry
      rw [get_bind_run, hhandlers]
      rfl
    rw [hact, hact']
    subst hn
    exact ⟨trivial, { hm with
      handlers := rfl
      shaped := { hm.shaped with
        active := ⟨cells, own, hframes', hboxes, outer, rfl⟩
        floor := Nat.le_trans above hfloor } }⟩

end Acts

end ShellVM
