import ShellVM.Proofs.Region.Performs

/-!
# Open regions

In every run of every program the handlers are those of regions that active calls have opened and not closed
(`Machine.Nested.regionsSince`), innermost first. So a recovery goes on in the call that has opened the region
(`Machine.Nested.recovers`).
-/

namespace ShellVM

variable {host : Host} {program : Program} {page : Page} {i : Instruction} {m s t : Machine} {h : Handler}

/-! ## What a turn does to handlers -/

theorem keepLast_eq_self {α : Type} {xs : List α} {n : Nat} (h : xs.length ≤ n) : keepLast n xs = xs := by
  unfold keepLast
  rw [Nat.sub_eq_zero_of_le h, List.drop_zero]

theorem keepLast_cons {α : Type} {x : α} {xs : List α} {n : Nat} (h : n ≤ xs.length) :
    keepLast n (x :: xs) = keepLast n xs := by
  unfold keepLast
  rw [List.length_cons, Nat.sub_add_comm h, List.drop_succ_cons]

theorem keepLast_tail {α : Type} {xs : List α} {n : Nat} (h : n ≤ xs.tail.length) :
    keepLast n xs.tail = keepLast n xs := by
  cases xs with
  | nil => rfl
  | cons x xs => exact (keepLast_cons h).symm

theorem keepLast_keepLast {α : Type} {xs : List α} {n k : Nat} (h : n ≤ k) :
    keepLast n (keepLast k xs) = keepLast n xs := by
  unfold keepLast
  rw [List.length_drop, List.drop_drop]
  congr 1
  omega

theorem length_keepLast {α : Type} {xs : List α} {n : Nat} (h : n ≤ xs.length) : (keepLast n xs).length = n := by
  unfold keepLast
  rw [List.length_drop]
  omega

/-- The handlers belong to active calls, and the innermost one to the innermost of these calls. -/
structure Machine.Nested (m : Machine) : Prop where
  sorted : m.handlers.Pairwise fun h outer => outer.frameDepth ≤ h.frameDepth
  bounded : ∀ h ∈ m.handlers, 1 ≤ h.frameDepth ∧ h.frameDepth ≤ m.frames.length

/-- The regions that are open in `s` are open in `m`, and the calls that have opened them are still there. -/
structure Stays (m s : Machine) : Prop where
  handlers : s.handlers <:+ m.handlers
  calls : ∀ h ∈ s.handlers, h.frameDepth ≤ s.calls.length ∧
    keepLast h.frameDepth s.calls = keepLast h.frameDepth m.calls

/-- A step from `m` opens a region, for which there is the handler `h`. -/
structure Opens (host : Host) (program : Program) (m : Machine) (h : Handler) (s : Machine) : Prop where
  next : ∃ i, m.next? program = some i ∧ i.op = .enterTry ∧ i.target? = some h.catchIp
  step : Act.step host program m = .ok () s
  handlers : s.handlers = h :: m.handlers
  depth : h.frameDepth = m.frames.length
  height : h.stackHeight = m.stack.size
  iterDepth : h.iterDepth = m.iterators.length
  calls : s.calls = m.calls
  stack : s.stack = m.stack
  iterators : s.iterators = m.iterators

namespace Machine.Nested

theorem stays_of_eq (hm : m.Nested) (hcalls : s.calls = m.calls) (hhandlers : s.handlers <:+ m.handlers) :
    Stays m s where
  handlers := hhandlers
  calls := fun h hh => by
    have := (hm.bounded h (hhandlers.subset hh)).2
    rw [hcalls]
    exact ⟨by rwa [length_calls], rfl⟩

/-- Of handlers in order, those of outer calls are the outer ones. -/
theorem filter_suffix : ∀ {hs : List Handler}, hs.Pairwise (fun h outer => outer.frameDepth ≤ h.frameDepth) →
    ∀ depth, hs.filter (fun h => h.frameDepth ≤ depth) <:+ hs
  | [], _, _ => List.suffix_refl _
  | h :: hs, hsorted, depth => by
    obtain ⟨hle, hsorted⟩ := List.pairwise_cons.1 hsorted
    by_cases hd : h.frameDepth ≤ depth
    · have hall : ∀ x ∈ h :: hs, decide (x.frameDepth ≤ depth) = true := by
        intro x hx
        rcases List.mem_cons.1 hx with rfl | hx
        · exact decide_eq_true hd
        · exact decide_eq_true (Nat.le_trans (hle x hx) hd)
      exact ⟨[], by rw [List.filter_eq_self.2 hall, List.nil_append]⟩
    · rw [List.filter_cons_of_neg (by simpa using hd)]
      exact (filter_suffix hsorted depth).trans (List.suffix_cons h hs)

/-- What a step does to regions and calls. -/
theorem step_cases [host.Lawful] (hm : m.Nested) (hstep : Act.step host program m = .ok () s) :
    Stays m s ∨ ∃ h, Opens host program m h s := by
  rcases Act.step_done host program m with
    ⟨f, rest, page, i, hframes, -, hnext, hdone⟩ | ⟨hactive, -, hleave⟩ | ⟨e, hfail⟩
  · have hcalls := Machine.calls_fetched (i := i) hframes
    rw [hstep] at hdone
    have hperforms : Performs page i (m.fetched f rest i) s := hdone
    cases hperforms with
    | touches touched => exact .inl (hm.stays_of_eq (touched.same.1.trans hcalls) (touched.same.2 ▸ List.suffix_refl _))
    | stores => exact .inl (hm.stays_of_eq hcalls (List.suffix_refl _))
    | starts _ kept => exact .inl (hm.stays_of_eq (kept.calls.trans hcalls) (kept.handlers ▸ List.suffix_refl _))
    | @opens t hop htarget =>
      have hdepth : (m.fetched f rest i).frames.length = m.frames.length := by rw [hframes]; rfl
      exact .inr ⟨_, ⟨i, hnext, hop, htarget⟩, hstep, rfl, hdepth, rfl, rfl, hcalls, rfl, rfl⟩
    | @closes h outer hhandlers =>
      have hsuffix : outer <:+ m.handlers := by
        rw [show m.handlers = h :: outer from hhandlers]
        exact List.suffix_cons h outer
      exact .inl (hm.stays_of_eq hcalls hsuffix)
    | @enters s₁ n g _ kept =>
      have hs := hm.stays_of_eq (kept.calls.trans hcalls) (kept.handlers ▸ List.suffix_refl _)
      refine .inl ⟨hs.handlers, fun h hh => ?_⟩
      obtain ⟨hle, hkeep⟩ := hs.calls h hh
      have hcons : ({ s₁ with frames := g :: s₁.frames } : Machine).calls = g.call :: s₁.calls := rfl
      rw [hcons, keepLast_cons hle]
      exact ⟨Nat.le_succ_of_le hle, hkeep⟩
  · rw [hstep] at hleave
    cases hleave
    have htail : m.calls.tail = m.frames.tail.map Frame.call := List.map_tail.symm
    refine .inl ⟨filter_suffix hm.sorted _, fun h hh => ?_⟩
    obtain ⟨-, hle⟩ := List.mem_filter.1 hh
    have hle' : h.frameDepth ≤ m.calls.tail.length := by
      rw [htail, List.length_map]
      exact of_decide_eq_true hle
    show h.frameDepth ≤ (m.frames.tail.map Frame.call).length ∧ keepLast _ (m.frames.tail.map Frame.call) = _
    rw [← htail]
    exact ⟨hle', keepLast_tail hle'⟩
  · cases hstep.symm.trans hfail

/-- A step that fails starts and ends no call, and no region. -/
theorem step_fails [host.Lawful] {e : Fault} (hstep : Act.step host program m = .error e s) :
    s.calls = m.calls ∧ s.handlers = m.handlers := by
  rcases Act.step_done host program m with
    ⟨f, rest, page, i, hframes, -, -, hdone⟩ | ⟨-, -, hleave⟩ | ⟨e, hfail⟩
  · rw [hstep] at hdone
    have htouches : Touches page i (m.fetched f rest i) s := hdone
    exact ⟨htouches.same.1.trans (Machine.calls_fetched hframes), htouches.same.2⟩
  · cases hstep.symm.trans hleave
  · cases hstep.symm.trans hfail
    exact ⟨rfl, rfl⟩

/-- After a failed step the call that has opened the innermost region goes on. -/
theorem recovers [host.Lawful] (hm : m.Nested) {e : Fault} (hstep : Act.step host program m = .error e s)
    (hcatch : e.cause.isCatchable) {outer : List Handler} (hhandlers : m.handlers = h :: outer) :
    ∃ t, Act.turn host program m = .ok () t ∧
      t.handlers = outer ∧ t.frames.head?.map Frame.ip = some h.catchIp ∧ t.frames.length = h.frameDepth ∧
      t.calls = keepLast h.frameDepth m.calls ∧ t.iterators = keepLast h.iterDepth s.iterators ∧
      ∃ trace, t.stack = (s.stack.shrink h.stackHeight).push (.error (.string e.cause.message) (some trace)) := by
  obtain ⟨hcalls, hhandlers'⟩ := step_fails hstep
  obtain ⟨hone, hbound⟩ := hm.bounded h (hhandlers ▸ List.mem_cons_self ..)
  have hlength : s.frames.length = m.frames.length := by rw [← length_calls, hcalls, length_calls]
  have hkept : (keepLast h.frameDepth s.frames).length = h.frameDepth := length_keepLast (by omega)
  cases hkeep : keepLast h.frameDepth s.frames with
  | nil =>
    rw [hkeep, List.length_nil] at hkept
    omega
  | cons f callers =>
    rw [hkeep] at hkept
    obtain ⟨trace, hrecover⟩ := @Act.recover_eq s program e h outer f callers hcatch (hhandlers'.trans hhandlers) hkeep
    refine ⟨_, (Act.turn_of_error hstep).trans hrecover, rfl, rfl, hkept, ?_, rfl, trace, rfl⟩
    have hmap : (keepLast h.frameDepth s.frames).map Frame.call = keepLast h.frameDepth s.calls :=
      (keepLast_map ..).symm
    rw [hkeep, hcalls] at hmap
    exact hmap

/-- What a turn does to regions and calls. -/
theorem turn_cases [host.Lawful] (hm : m.Nested) (hturn : Act.turn host program m = .ok () s) :
    Stays m s ∨ ∃ h, Opens host program m h s := by
  cases hstep : Act.step host program m with
  | ok _ s' =>
    cases hturn.symm.trans (Act.turn_of_ok hstep)
    exact hm.step_cases hstep
  | error e s' =>
    obtain ⟨hcalls, hhandlers⟩ := step_fails hstep
    obtain ⟨h, outer, f, callers, hcatch, hhandlers', -, -⟩ :=
      Act.recover_ok ((Act.turn_of_error hstep).symm.trans hturn)
    rw [hhandlers] at hhandlers'
    obtain ⟨t, ht, htouter, -, htlength, htcalls, -⟩ := hm.recovers hstep hcatch hhandlers'
    cases hturn.symm.trans ht
    refine .inl ⟨?_, fun h' hh' => ?_⟩
    · rw [htouter, hhandlers']
      exact List.suffix_cons h outer
    · have hsorted := hm.sorted
      rw [hhandlers'] at hsorted
      have hle : h'.frameDepth ≤ h.frameDepth := (List.pairwise_cons.1 hsorted).1 h' (htouter ▸ hh')
      rw [htcalls, keepLast_keepLast hle, ← htcalls, length_calls, htlength]
      exact ⟨hle, rfl⟩

theorem stays (hm : m.Nested) (h : Stays m s) : s.Nested where
  sorted := hm.sorted.sublist h.handlers.sublist
  bounded := fun x hx => ⟨(hm.bounded x (h.handlers.subset hx)).1, by
    have := (h.calls x hx).1
    rwa [length_calls] at this⟩

theorem opens (hm : m.Nested) (hs : Opens host program m h s) : s.Nested := by
  have hlength : s.frames.length = m.frames.length := by rw [← length_calls, hs.calls, length_calls]
  obtain ⟨i, hnext, -⟩ := hs.next
  have hactive := List.length_pos_iff.2 (Machine.active_of_next? hnext)
  constructor
  · rw [hs.handlers]
    exact List.pairwise_cons.2 ⟨fun x hx => hs.depth ▸ (hm.bounded x hx).2, hm.sorted⟩
  · intro x hx
    rw [hs.handlers] at hx
    rw [hlength]
    rcases List.mem_cons.1 hx with rfl | hx
    · rw [hs.depth]
      exact ⟨hactive, Nat.le_refl _⟩
    · exact hm.bounded x hx

theorem start (entry : UInt16) (w : World) : (Machine.start entry w).Nested := ⟨.nil, nofun⟩

theorem turn [host.Lawful] (hm : m.Nested) (hturn : Act.turn host program m = .ok () s) : s.Nested := by
  rcases hm.turn_cases hturn with h | ⟨h, hs⟩
  · exact hm.stays h
  · exact hm.opens hs

theorem turns [host.Lawful] {P : Machine → Prop} (hm : m.Nested) (h : Turns host program P m s) : s.Nested :=
  h.keeps hm fun _ _ hs _ hturn => hs.turn hturn

/-- Where regions are open, a call is active. -/
theorem active (hm : m.Nested) (hh : h ∈ m.handlers) : m.Active := fun hnil => by
  obtain ⟨hone, hle⟩ := hm.bounded h hh
  rw [hnil, List.length_nil] at hle
  omega

end Machine.Nested

/-! ## Regions -/

/-- A step from `s` has opened a region with the handler `h`, and turns have led from there to `m` while it was open. -/
structure InRegion (host : Host) (program : Program) (s : Machine) (h : Handler) (m : Machine) : Prop where
  turns : ∃ s₁, Opens host program s h s₁ ∧ Turns host program (fun u => h :: s.handlers <:+ u.handlers) s₁ m
  still : h :: s.handlers <:+ m.handlers

/-- The regions that are open in `m` have been opened in a run that starts with `m₀`. -/
def Machine.RegionsSince (host : Host) (program : Program) (m m₀ : Machine) : Prop :=
  ∀ above h outer, m.handlers = above ++ h :: outer →
    ∃ s, Turns host program Machine.Active m₀ s ∧ s.handlers = outer ∧ InRegion host program s h m

namespace InRegion

theorem opened (h₁ : Opens host program s h t) : InRegion host program s h t :=
  ⟨⟨t, h₁, .refl⟩, h₁.handlers ▸ List.suffix_refl _⟩

theorem mem (hr : InRegion host program s h m) : h ∈ m.handlers := hr.still.subset (List.mem_cons_self ..)

theorem turn (hr : InRegion host program s h m) (hturn : Act.turn host program m = .ok () t)
    (ht : h :: s.handlers <:+ t.handlers) : InRegion host program s h t := by
  obtain ⟨s₁, hs₁, hturns⟩ := hr.turns
  exact ⟨⟨s₁, hs₁, .turn hturns hr.still hturn⟩, ht⟩

/-- What holds where a region has been opened, and is kept by turns inside it, holds everywhere inside. -/
theorem keeps {I : Machine → Prop} (hr : InRegion host program s h m) (hopen : ∀ s₁, Opens host program s h s₁ → I s₁)
    (hturn : ∀ u v, I u → InRegion host program s h u → Act.turn host program u = .ok () v →
      h :: s.handlers <:+ v.handlers → I v) : I m := by
  obtain ⟨⟨s₁, hs₁, hturns⟩, hstill⟩ := hr
  induction hturns with
  | refl => exact hopen s₁ hs₁
  | turn before here next ih => exact hturn _ _ (ih here) ⟨⟨s₁, hs₁, before⟩, here⟩ next hstill

theorem nested [host.Lawful] (hr : InRegion host program s h m) (hs : s.Nested) : m.Nested :=
  hr.keeps (fun _ h₁ => hs.opens h₁) fun _ _ hu _ hturn _ => hu.turn hturn

/-- Inside a region the call that has opened it is active, with the same callers. -/
theorem calls [host.Lawful] (hr : InRegion host program s h m) (hs : s.Nested) :
    h.frameDepth ≤ m.frames.length ∧ keepLast h.frameDepth m.calls = s.calls := by
  refine hr.keeps (I := fun m => h.frameDepth ≤ m.frames.length ∧ keepLast h.frameDepth m.calls = s.calls) ?_ ?_
  · intro s₁ h₁
    have hlength : s₁.frames.length = s.frames.length := by rw [← Machine.length_calls, h₁.calls, Machine.length_calls]
    rw [hlength, h₁.depth, h₁.calls]
    exact ⟨Nat.le_refl _, keepLast_eq_self (Nat.le_of_eq (Machine.length_calls s))⟩
  · intro u v ⟨hle, hkeep⟩ hu hturn hv
    rcases (hu.nested hs).turn_cases hturn with hstays | ⟨h', hopens⟩
    · obtain ⟨hle', hkeep'⟩ := hstays.calls h (hv.subset (List.mem_cons_self ..))
      rw [Machine.length_calls] at hle'
      exact ⟨hle', hkeep'.trans hkeep⟩
    · rw [← Machine.length_calls, hopens.calls, Machine.length_calls]
      exact ⟨hle, hkeep⟩

end InRegion

/-- Every region that is open in a run has been opened in it. -/
theorem Machine.Nested.regionsSince [host.Lawful] {m₀ : Machine} (h₀ : m₀.Nested) (hnil : m₀.handlers = [])
    (hm : Turns host program Machine.Active m₀ m) : m.RegionsSince host program m₀ := by
  induction hm with
  | refl =>
    intro above h outer hhandlers
    rw [hnil] at hhandlers
    exact absurd hhandlers.symm (by simp)
  | @turn u v before here next ih =>
    intro above h outer hhandlers
    have hinner : h :: outer <:+ u.handlers → ∃ s, Turns host program Machine.Active m₀ s ∧ s.handlers = outer ∧
        InRegion host program s h v := by
      rintro ⟨above', hu⟩
      obtain ⟨s, hs, rfl, hregion⟩ := ih above' h outer hu.symm
      exact ⟨s, hs, rfl, hregion.turn next ⟨above, hhandlers.symm⟩⟩
    rcases (h₀.turns before).turn_cases next with hstays | ⟨h', hopens⟩
    · exact hinner (List.IsSuffix.trans ⟨above, hhandlers.symm⟩ hstays.handlers)
    · cases above with
      | nil =>
        rw [hopens.handlers, List.nil_append] at hhandlers
        obtain ⟨rfl, rfl⟩ := List.cons.inj hhandlers
        exact ⟨u, before, rfl, .opened hopens⟩
      | cons x above =>
        rw [hopens.handlers, List.cons_append] at hhandlers
        exact hinner ⟨above, (List.cons.inj hhandlers).2.symm⟩

end ShellVM
