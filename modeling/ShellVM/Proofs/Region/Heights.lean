import ShellVM.Proofs.Region.Handlers

/-!
# What a handler goes back to

In a compiled program all that lies below an open region stays there, apart from locals that the call of the region
assigns to (`InRegion.spared`). So a recovery finds the machine as it was when the region was opened
(`errors_unwind_to_regions`).
-/

namespace ShellVM

variable {V : View} {A : Activation} {q : Nat} {σ : Shape} {host : Host} {program : Program}
  {functions : List (Nat × UInt16)} {page : Page} {i : Instruction} {m s t : Machine} {h : Handler}

/-! ## Handlers of machines in shape -/

/-- Handlers, innermost first: each goes back to no more values and iterators than the ones inside, the first to no
more than these. -/
def Layered : List Handler → (height depth : Nat) → Prop
  | [], _, _ => True
  | h :: outer, height, depth => h.stackHeight ≤ height ∧ h.iterDepth ≤ depth ∧ Layered outer h.stackHeight h.iterDepth

namespace Layered

variable {hs : List Handler} {height height' depth depth' : Nat}

theorem mono (hl : Layered hs height depth) (hheight : height ≤ height') (hdepth : depth ≤ depth') :
    Layered hs height' depth' := by
  cases hs with
  | nil => trivial
  | cons h outer => exact ⟨Nat.le_trans hl.1 hheight, Nat.le_trans hl.2.1 hdepth, hl.2.2⟩

theorem of_mem : ∀ {hs : List Handler} {height depth : Nat}, Layered hs height depth → ∀ h ∈ hs,
    h.stackHeight ≤ height ∧ h.iterDepth ≤ depth
  | g :: outer, height, depth, hl, h, hh => by
    rcases List.mem_cons.1 hh with rfl | hh
    · exact ⟨hl.1, hl.2.1⟩
    · exact (hl.2.2.mono hl.1 hl.2.1).of_mem h hh

end Layered

theorem Open.layered {floor : Addr} {cells : List (UInt8 × Addr)} {zones : List Zone} {n : Nat} {own : List Handler}
    (h : Open floor A cells zones n own) (houter : Layered A.outerHandlers A.base A.outerIterators) :
    Layered (own ++ A.outerHandlers) (A.base + Zone.floor zones) n := by
  induction h with
  | none => exact houter
  | attempt _ _ _ above ih =>
    exact ⟨Nat.le_refl _, Nat.le_refl _, ih.mono (Nat.add_le_add_left above _) (Nat.le_refl _)⟩
  | each _ ih => exact ih.mono (Nat.le_refl _) (Nat.le_succ _)

theorem Callers.layered : ∀ {frames : List Frame} {base iterators : Nat} {handlers : List Handler},
    Callers V program functions frames base iterators handlers → Layered handlers base iterators
  | [], _, _, _, ⟨_, _, hhandlers⟩ => by
    rw [hhandlers]
    trivial
  | f :: rest, base, _, _, ⟨A, ip, σ, cells, own, _, _, _, hcallers, _, _, hfloor, _, hbase, hopen, hhandlers⟩ => by
    rw [hhandlers]
    exact (hopen.layered hcallers.layered).mono (by omega) (Nat.le_refl _)

/-- With a loop inside, the handlers leave its iterator alone. -/
theorem Shaped.layered (hA : Stands V program functions A) (hm : Shaped V A q σ m) :
    Layered m.handlers (A.base + Zone.floor σ.zones) m.iterators.length ∧
      ∀ zones, σ.zones = .each :: zones →
        Layered m.handlers (A.base + Zone.floor σ.zones) (m.iterators.length - 1) := by
  obtain ⟨cells, own, -, -, hopen, hown⟩ := hm.active
  rw [hown]
  refine ⟨hopen.layered hA.callers.layered, fun zones hzones => ?_⟩
  rw [hzones] at hopen ⊢
  generalize m.iterators.length = n at hopen
  cases hopen with
  | each outer => exact outer.layered hA.callers.layered

/-- The handlers of outer calls go back to what lies below this one. -/
theorem Shaped.below_base (hA : Stands V program functions A) (hm : Shaped V A q σ m) (hh : h ∈ m.handlers) :
    h.frameDepth = A.depth ∨ h.stackHeight ≤ A.base := by
  obtain ⟨cells, own, -, -, hopen, hown⟩ := hm.active
  rw [hown] at hh
  rcases List.mem_append.1 hh with hh | hh
  · exact .inl (hopen.depth_eq h hh)
  · exact .inr (hA.callers.layered.of_mem h hh).1

/-! ## What a step leaves alone -/

/-- A step assigns to the local of the innermost call, the one at `depth`, that lies in this place of the stack. -/
def Machine.Assigns (host : Host) (program : Program) (m : Machine) (depth place : Nat) : Prop :=
  ∃ i f rest s, m.next? program = some i ∧ i.op = .store ∧ m.frames = f :: rest ∧ m.frames.length = depth ∧
    place = f.base + (i.byte 0).toNat ∧ Act.step host program m = .ok () s

/-- What `h` goes back to in `m` is there in `s` as well, apart from some places on the stack. -/
structure Spared (h : Handler) (changed : Nat → Prop) (m s : Machine) : Prop where
  height : h.stackHeight ≤ s.stack.size
  stack : ∀ j, j < h.stackHeight → s.stack[j]? = m.stack[j]? ∨ changed j
  depth : h.iterDepth ≤ s.iterators.length
  iterators : keepLast h.iterDepth s.iterators = keepLast h.iterDepth m.iterators

namespace Spared

variable {changed changed' : Nat → Prop}

theorem trans (hs : Spared h changed m s) (ht : Spared h changed' s t) :
    Spared h (fun j => changed j ∨ changed' j) m t where
  height := ht.height
  stack := fun j hj => by
    rcases ht.stack j hj with hst | hst
    · rcases hs.stack j hj with hms | hms
      · exact .inl (hst.trans hms)
      · exact .inr (.inl hms)
    · exact .inr (.inr hst)
  depth := ht.depth
  iterators := ht.iterators.trans hs.iterators

theorem mono (hs : Spared h changed m s) (hchanged : ∀ j, changed j → changed' j) : Spared h changed' m s :=
  { hs with stack := fun j hj => (hs.stack j hj).imp_right (hchanged j) }

theorem of_kept {n : Nat} (kept : Kept n 0 m s) (hheight : h.stackHeight + n ≤ m.stack.size)
    (hdepth : h.iterDepth ≤ m.iterators.length) : Spared h changed m s where
  height := (kept.stack _ hheight).2
  stack := fun j hj => .inl ((kept.stack _ hheight).1 j hj)
  depth := by rw [kept.iterators]; exact hdepth
  iterators := by rw [kept.iterators]

/-- A recovery at a handler inside. -/
theorem shrink {g : Handler} {v : Value} (hs : Spared h changed m s) (hheight : h.stackHeight ≤ g.stackHeight)
    (hdepth : h.iterDepth ≤ g.iterDepth) (hstack : t.stack = (s.stack.shrink g.stackHeight).push v)
    (hiterators : t.iterators = keepLast g.iterDepth s.iterators) : Spared h changed m t := by
  have hsize := hs.height
  have hlength := hs.depth
  refine ⟨?_, fun j hj => ?_, ?_, ?_⟩
  · rw [hstack, Array.size_push, Array.size_shrink]
    omega
  · have hget : t.stack[j]? = s.stack[j]? := by
      rw [hstack, Array.getElem?_push_lt (by rw [Array.size_shrink]; omega), ← Array.getElem?_eq_getElem,
        ← Array.getElem?_toList, Array.toList_shrink, List.getElem?_take_of_lt (by omega), Array.getElem?_toList]
    rw [hget]
    exact hs.stack j hj
  · rw [hiterators]
    unfold keepLast
    rw [List.length_drop]
    omega
  · rw [hiterators, keepLast_keepLast hdepth]
    exact hs.iterators

end Spared

theorem keepLast_append_of_le {α : Type} (xs : List α) {ys : List α} {n : Nat} (h : n ≤ ys.length) :
    keepLast n (xs ++ ys) = keepLast n ys := by
  unfold keepLast
  rw [List.length_append, Nat.add_sub_assoc h, List.drop_length_add_append]

section

variable {f : Frame} {rest : List Frame} (hA : Stands V program functions A) (hm : Shaped V A q σ m)
  (hallows : A.sheet.Allows A.chart.At i σ) (hframes : m.frames = f :: rest) (hh : h ∈ m.handlers)

include hA hm hallows hh

/-- The values that an allowed instruction takes lie above what handlers go back to. -/
theorem Sheet.Allows.above {n : Nat} (costs : i.Costs A.sheet.page n) : h.stackHeight + n ≤ m.stack.size := by
  have hheight := ((hm.layered hA).1.of_mem h hh).1
  have hsize := hm.height
  obtain ⟨-, pops, pushes, heffect, hadmits, -⟩ := hallows
  have := costs A.sheet rfl pops pushes heffect
  unfold Shape.Admits at hadmits
  omega

include hframes

theorem spared_of_kept {n : Nat} {changed : Nat → Prop} (costs : i.Costs A.sheet.page n)
    (kept : Kept n 0 (m.fetched f rest i) s) : Spared h changed m s :=
  .of_kept { kept with calls := kept.calls.trans (Machine.calls_fetched hframes) } (hallows.above hA hm hh costs)
    ((hm.layered hA).1.of_mem h hh).2

/-- An instruction that fails leaves alone what handlers go back to, if the chart of the page allows it. -/
theorem Touches.spares (hs : Touches A.sheet.page i (m.fetched f rest i) s) (changed : Nat → Prop) :
    Spared h changed m s := by
  cases hs with
  | takes costs kept => exact spared_of_kept hA hm hallows hframes hh costs kept
  | @iterates it its outer hop hiterators kept =>
    obtain ⟨zones, hzones⟩ : ∃ zones, σ.zones = .each :: zones := by
      have hneeds := hallows.needs
      unfold Sheet.Needs at hneeds
      rcases hop with hop | hop <;> rw [hop] at hneeds <;> exact hneeds
    have hiterators' : m.iterators = it :: outer := hiterators
    have hdepth := (((hm.layered hA).2 zones hzones).of_mem h hh).2
    rw [hiterators', List.length_cons, Nat.add_sub_cancel] at hdepth
    have hmoved : h.iterDepth ≤ (its ++ outer).length := by
      rw [List.length_append]
      omega
    have hs : Spared h changed { m with iterators := its ++ outer } s :=
      .of_kept { kept with calls := kept.calls.trans (Machine.calls_fetched hframes) }
        (hallows.above hA hm hh (.zero _ i)) hmoved
    refine { hs with iterators := hs.iterators.trans ?_ }
    show keepLast _ (its ++ outer) = keepLast _ m.iterators
    rw [hiterators', keepLast_append_of_le _ hdepth, keepLast_cons hdepth]

/-- An instruction leaves alone what handlers go back to, apart from a local that it assigns to. -/
theorem Performs.spares (hs : Performs A.sheet.page i (m.fetched f rest i) s) :
    Spared h (fun j => i.op = .store ∧ m.frames.length = h.frameDepth ∧ j = f.base + (i.byte 0).toNat) m s := by
  have hdepth := ((hm.layered hA).1.of_mem h hh).2
  have hheight : h.stackHeight ≤ m.stack.size := hallows.above hA hm hh (.zero _ i)
  cases hs with
  | touches touched => exact touched.spares hA hm hallows hframes hh _
  | @stores g outer v hop hfetched hplace =>
    obtain ⟨rfl, rfl⟩ : { f with ip := i.next } = g ∧ rest = outer := List.cons.inj hfetched
    have hplace' : f.base + (i.byte 0).toNat < m.stack.size := hplace
    have hset : h.stackHeight ≤ (m.stack.set _ v hplace').size := by
      rw [Array.size_set]
      exact hheight
    refine ⟨hset, fun j hj => ?_, hdepth, rfl⟩
    show (m.stack.set _ v hplace')[j]? = _ ∨ _
    by_cases hj' : f.base + (i.byte 0).toNat = j
    · obtain ⟨cells, own, hactive, -⟩ := hm.active
      obtain ⟨rfl, rfl⟩ := List.cons.inj (hframes.symm.trans hactive)
      rcases hm.below_base hA hh with hd | hbase
      · exact .inr ⟨hop, by rw [hframes, hd]; rfl, hj'.symm⟩
      · have : A.base + (i.byte 0).toNat = j := hj'
        omega
    · exact .inl (Array.getElem?_set_ne _ hj')
  | starts costs kept =>
    have hs : Spared h (fun _ => False) m _ := spared_of_kept hA hm hallows hframes hh costs kept
    exact ⟨hs.height, fun j hj => (hs.stack j hj).imp_right False.elim, Nat.le_succ_of_le hs.depth,
      (keepLast_append_of_le [_] hs.depth).trans hs.iterators⟩
  | opens => exact ⟨hheight, fun _ _ => .inl rfl, hdepth, rfl⟩
  | closes => exact ⟨hheight, fun _ _ => .inl rfl, hdepth, rfl⟩
  | enters costs kept => exact { spared_of_kept hA hm hallows hframes hh costs kept with }

end

theorem Going.layered (hm : Going V program functions .empty m m) :
    Layered m.handlers m.stack.size m.iterators.length := by
  obtain ⟨A, q, σ, hA, -, hm⟩ := hm
  refine (hm.shaped.layered hA).1.mono ?_ (Nat.le_refl _)
  rw [hm.shaped.height]
  exact Nat.add_le_add_left hm.shaped.floor _

/-- A step of a machine in shape leaves alone what handlers go back to, apart from a local that it assigns to. -/
theorem Going.spares [host.Lawful] (hm : Going V program functions .empty m m) (hh : h ∈ m.handlers) :
    (∀ s, Act.step host program m = .ok () s → Spared h (m.Assigns host program h.frameDepth) m s) ∧
      ∀ e s, Act.step host program m = .error e s → Spared h (fun _ => False) m s := by
  obtain ⟨hheight, hdepth⟩ := hm.layered.of_mem h hh
  have hsame {changed : Nat → Prop} {s : Machine} (hstack : s.stack = m.stack)
      (hiterators : s.iterators = m.iterators) :
      Spared h changed m s :=
    ⟨by rwa [hstack], fun j _ => .inl (by rw [hstack]), by rwa [hiterators], by rw [hiterators]⟩
  obtain ⟨A, q, σ, hA, hq, hm⟩ := hm
  rcases Act.step_done host program m with
    ⟨f, rest, page, i, hframes, hpage, hnext, hdone⟩ | ⟨-, -, hleave⟩ | ⟨e, hfail⟩
  · obtain ⟨hallows, f', rest', hframes', -⟩ := hm.next hA hq hnext
    obtain ⟨cells, own, hactive, -⟩ := hm.shaped.active
    obtain ⟨hf, -⟩ := List.cons.inj (hframes.symm.trans hactive)
    have hpage' : program.page? f.page = some A.sheet.page := by rw [hf]; exact hA.fits.page
    obtain rfl : A.sheet.page = page := Option.some.inj (hpage'.symm.trans hpage)
    refine ⟨fun s hstep => ?_, fun e s hstep => ?_⟩
    · rw [hstep] at hdone
      have hperforms : Performs A.sheet.page i (m.fetched f rest i) s := hdone
      exact (hperforms.spares hA hm.shaped hallows hframes hh).mono fun j ⟨hop, hlength, hj⟩ =>
        ⟨i, f, rest, s, hnext, hop, hframes, hlength, hj, hstep⟩
    · rw [hstep] at hdone
      have htouches : Touches A.sheet.page i (m.fetched f rest i) s := hdone
      exact htouches.spares hA hm.shaped hallows hframes hh _
  · refine ⟨fun s hstep => ?_, fun e s hstep => ?_⟩
    · cases hstep.symm.trans hleave
      exact hsame rfl rfl
    · cases hstep.symm.trans hleave
  · refine ⟨fun s hstep => ?_, fun e' s hstep => ?_⟩
    · cases hstep.symm.trans hfail
    · cases hstep.symm.trans hfail
      exact hsame rfl rfl

/-! ## Regions of compiled programs -/

/-- Inside a region lies what its handler goes back to, apart from locals that its call has assigned to. -/
theorem InRegion.spared [host.Lawful] {m₀ : Machine} (hgoing : ∀ u, Turns host program Machine.Active m₀ u → u.Active →
    ∃ V, Going V program functions .empty u u) (h₀ : m₀.Nested) (hs : Turns host program Machine.Active m₀ s)
    (hr : InRegion host program s h m) : Turns host program Machine.Active s m ∧ Spared h (fun j => ∃ u,
      InRegion host program s h u ∧ Turns host program Machine.Active u m ∧
      u.Assigns host program h.frameDepth j) s m := by
  refine hr.keeps (I := fun m => Turns host program Machine.Active s m ∧ Spared h (fun j => ∃ u,
    InRegion host program s h u ∧ Turns host program Machine.Active u m ∧ u.Assigns host program h.frameDepth j) s m) ?_
    ?_
  · intro s₁ h₁
    obtain ⟨i, hnext, -⟩ := h₁.next
    refine ⟨.single (Machine.active_of_next? hnext) (Act.turn_of_ok h₁.step), ?_, fun j _ => .inl ?_, ?_, ?_⟩
    · exact Nat.le_of_eq (h₁.height.trans (congrArg Array.size h₁.stack.symm))
    · rw [h₁.stack]
    · exact Nat.le_of_eq (h₁.iterDepth.trans (congrArg List.length h₁.iterators.symm))
    · rw [h₁.iterators]
  · rintro u v ⟨hsu, hspared⟩ hu hturn hv
    have hnested : u.Nested := hu.nested (h₀.turns hs)
    have hactive := hnested.active hu.mem
    obtain ⟨V, hu'⟩ := hgoing u (hs.trans hsu) hactive
    have huv : Turns host program Machine.Active u v := .single hactive hturn
    have hbefore : Spared h (fun j => ∃ x, InRegion host program s h x ∧ Turns host program Machine.Active x v ∧
        x.Assigns host program h.frameDepth j) s u :=
      hspared.mono fun j ⟨x, hx, hxu, hassigns⟩ => ⟨x, hx, hxu.trans huv, hassigns⟩
    refine ⟨hsu.trans huv, ?_⟩
    cases hstep : Act.step host program u with
    | ok _ t =>
      cases hturn.symm.trans (Act.turn_of_ok hstep)
      refine (hbefore.trans ((hu'.spares hu.mem).1 v hstep)).mono fun j hj => hj.elim id fun hassigns => ?_
      exact ⟨u, hu, huv, hassigns⟩
    | error e t =>
      obtain ⟨-, hhandlers⟩ := Machine.Nested.step_fails hstep
      obtain ⟨g, outer, -, -, hcatch, hhandlers', -, -⟩ := Act.recover_ok ((Act.turn_of_error hstep).symm.trans hturn)
      rw [hhandlers] at hhandlers'
      obtain ⟨v', hv', hvouter, -, -, -, hviterators, trace, hvstack⟩ := hnested.recovers hstep hcatch hhandlers'
      cases hturn.symm.trans hv'
      have hlayered := hu'.layered
      rw [hhandlers'] at hlayered
      obtain ⟨hheight, hdepth⟩ := hlayered.2.2.of_mem h (hvouter ▸ hv.subset (List.mem_cons_self ..))
      refine (hbefore.trans ?_).mono fun j hj => hj.elim id False.elim
      exact ((hu'.spares hu.mem).2 e t hstep).shrink hheight hdepth hvstack hviterators

/-! ## Where errors go -/

/-- The step from `s` has opened the region of `m` with the handler `h`. As long as it is open, the calls that were
active in `s` still are. -/
structure Opener (host : Host) (program : Program) (h : Handler) (m s : Machine) : Prop where
  region : InRegion host program s h m
  calls : ∀ u, InRegion host program s h u → h.frameDepth ≤ u.frames.length ∧ keepLast h.frameDepth u.calls = s.calls

/-- From a failed step the machine `m` goes on as `t`, at the handler `h` and in the calls that were active in `s`. -/
structure GoesOn (host : Host) (program : Program) (h : Handler) (m s t : Machine) : Prop where
  turn : Act.turn host program m = .ok () t
  calls : t.calls = s.calls
  handlers : t.handlers = s.handlers
  ip : t.frames.head?.map Frame.ip = some h.catchIp

/-- On the stack of `t` lies an error on top of what the stack of `s` was, apart from locals that the call which has
opened the region has assigned to since. The iterators are those of `s`. -/
structure Restores (host : Host) (program : Program) (h : Handler) (e : Fault) (m s t : Machine) : Prop where
  stack : ∃ (below : Array Value) (trace : List CallSite),
    t.stack = below.push (.error (.string e.cause.message) (some trace)) ∧ below.size = s.stack.size ∧
    ∀ j, j < s.stack.size → below[j]? = s.stack[j]? ∨ ∃ u, InRegion host program s h u ∧
      Turns host program Machine.Active u m ∧ u.Assigns host program h.frameDepth j
  iterators : t.iterators = s.iterators

theorem Machine.Nested.goesOn [host.Lawful] (hm : m.Nested) (ho : Opener host program h m s)
    (hhandlers : m.handlers = h :: s.handlers) {e : Fault} (hstep : Act.step host program m = .error e t)
    (hcatch : e.cause.isCatchable) : ∃ t', GoesOn host program h m s t' := by
  obtain ⟨t', hturn, houter, hip, -, hcalls, -⟩ := hm.recovers hstep hcatch hhandlers
  exact ⟨t', hturn, hcalls.trans (ho.calls m ho.region).2, houter, hip⟩

theorem InRegion.restores [host.Lawful] {m₀ : Machine}
    (hgoing : ∀ u, Turns host program Machine.Active m₀ u → u.Active → ∃ V, Going V program functions .empty u u)
    (h₀ : m₀.Nested) (hs : Turns host program Machine.Active m₀ s) (hr : InRegion host program s h m)
    (hhandlers : m.handlers = h :: s.handlers) {e : Fault} (hstep : Act.step host program m = .error e t)
    (hcatch : e.cause.isCatchable) {t' : Machine} (hturn : Act.turn host program m = .ok () t') :
    Restores host program h e m s t' := by
  obtain ⟨hsm, hspared⟩ := hr.spared hgoing h₀ hs
  have hm : m.Nested := hr.nested (h₀.turns hs)
  obtain ⟨V, hm'⟩ := hgoing m (hs.trans hsm) (hm.active hr.mem)
  have hlast := hspared.trans ((hm'.spares hr.mem).2 e t hstep)
  obtain ⟨t'', hturn', -, -, -, -, hiterators, trace, hstack⟩ := hm.recovers hstep hcatch hhandlers
  cases hturn.symm.trans hturn'
  obtain ⟨⟨s₁, h₁, -⟩, -⟩ := hr
  have hsize := hlast.height
  rw [h₁.height] at hsize
  refine ⟨⟨_, trace, hstack, ?_, fun j hj => ?_⟩, ?_⟩
  · rw [Array.size_shrink, h₁.height, Nat.min_eq_left hsize]
  · have hget : (t.stack.shrink h.stackHeight)[j]? = t.stack[j]? := by
      rw [← Array.getElem?_toList, Array.toList_shrink, List.getElem?_take_of_lt (by rwa [h₁.height]),
        Array.getElem?_toList]
    rw [hget]
    exact (hlast.stack j (by rwa [h₁.height])).imp_right fun h => h.elim id False.elim
  · rw [hiterators, hlast.iterators, h₁.iterDepth]
    exact keepLast_eq_self (Nat.le_refl _)

/-- In every run of every program the handlers are those of regions that active calls have opened, and an error that
can be caught goes to the innermost of them. In a compiled program it finds there what there was when the region was
opened. -/
theorem errors_unwind_to_regions (host : Host) [host.Lawful] (program : Program) (entry : UInt16) (w : World)
    (hm : Turns host program Machine.Active (Machine.start entry w) m) :
    m.Nested ∧
    (∀ above h outer, m.handlers = above ++ h :: outer → ∃ s,
      Turns host program Machine.Active (Machine.start entry w) s ∧
      s.handlers = outer ∧ Opener host program h m s ∧ (above = [] → ∀ e t, Act.step host program m = .error e t →
        e.cause.isCatchable → ∃ t', GoesOn host program h m s t')) ∧
    ∀ es es' e c', (Compiler.new.addAll es).enter e = (.ok entry, c') → program = (c'.addAll es').program →
      (∀ h ∈ m.handlers, h.stackHeight ≤ m.stack.size ∧ h.iterDepth ≤ m.iterators.length) ∧
      ∀ s h fault t t', Turns host program Machine.Active (Machine.start entry w) s → Opener host program h m s →
        m.handlers = h :: s.handlers → Act.step host program m = .error fault t → fault.cause.isCatchable →
        GoesOn host program h m s t' → Restores host program h fault m s t' := by
  have hnested := (Machine.Nested.start entry w).turns hm
  refine ⟨hnested, fun above h outer hhandlers => ?_, fun es es' e c' henter hprogram => ?_⟩
  · obtain ⟨s, hs, rfl, hregion⟩ := (Machine.Nested.start entry w).regionsSince rfl hm above h outer hhandlers
    have hopener : Opener host program h m s :=
      ⟨hregion, fun u hu => hu.calls ((Machine.Nested.start entry w).turns hs)⟩
    refine ⟨s, hs, rfl, hopener, ?_⟩
    rintro rfl e t hstep hcatch
    exact hnested.goesOn hopener hhandlers hstep hcatch
  · subst hprogram
    have hentry := (Compiler.Sound.addAll es).enterable henter es'
    have hgoing : ∀ u, Turns host (c'.addAll es').program Machine.Active (Machine.start entry w) u → u.Active →
        ∃ V, Going V (c'.addAll es').program (c'.addAll es').functions .empty u u :=
      fun _ hu hactive => hentry.turns_going w hu hactive
    refine ⟨fun h hh => ?_, fun s h fault t t' hs hopener hhandlers hstep hcatch hgoes => ?_⟩
    · obtain ⟨V, hm'⟩ := hgoing m hm (hnested.active hh)
      exact hm'.layered.of_mem h hh
    · exact hopener.region.restores hgoing (.start entry w) hs hhandlers hstep hcatch hgoes.turn

/-- Does the entry stand in one region after so many turns, and fail there in a way that can be caught? -/
def failsInRegion (e : Expr) (turns : Nat) : Bool :=
  match Compiler.new.enter e with
  | (.ok index, c) =>
    match Act.run {} c.program turns (Machine.start index default) with
    | .ok _ m =>
      match m.handlers, Act.step {} c.program m with
      | [_], .error fault _ => fault.cause.isCatchable
      | _, _ => false
    | .error .. => false
  | (.error _, _) => false

/-- A call of nil fails inside a region, and the error is caught. -/
theorem errors_unwind_to_regions_from_call : ∃ index c' m h s fault t t',
    Compiler.new.enter (.mk 1 (.attempt (.mk 1 (.call (.value (.mk 1 (.literal .nil))) [] false)) (some "e")
      (.mk 1 (.variable "e")))) = (.ok index, c') ∧
    Turns {} c'.program Machine.Active (Machine.start index default) m ∧ m.handlers = [h] ∧
    Act.step {} c'.program m = .error fault t ∧ GoesOn {} c'.program h m s t' ∧
    Restores {} c'.program h fault m s t' := by
  have hrun : failsInRegion (.mk 1 (.attempt (.mk 1 (.call (.value (.mk 1 (.literal .nil))) [] false)) (some "e")
      (.mk 1 (.variable "e")))) 2 = true := by decide +kernel
  unfold failsInRegion at hrun
  cases h : Compiler.new.enter (.mk 1 (.attempt (.mk 1 (.call (.value (.mk 1 (.literal .nil))) [] false)) (some "e")
    (.mk 1 (.variable "e")))) with
  | mk result c' =>
    rw [h] at hrun
    cases result with
    | error error => cases hrun
    | ok index =>
      simp only at hrun
      cases hm : Act.run {} c'.program 2 (Machine.start index default) with
      | error fault m => rw [hm] at hrun; cases hrun
      | ok b m =>
        rw [hm] at hrun
        simp only at hrun
        split at hrun
        · next hs ho handler fault t hhandlers hstep =>
          have hturns := Act.turns_of_run hm
          obtain ⟨-, hopeners, hcompiled⟩ := errors_unwind_to_regions {} c'.program index default hturns
          obtain ⟨s, hreached, hnil, hopener, hgoes⟩ := hopeners [] handler [] hhandlers
          obtain ⟨t', ht'⟩ := hgoes rfl fault t hstep hrun
          exact ⟨index, c', m, handler, s, fault, t, t', rfl, hturns, hhandlers, hstep, ht',
            (hcompiled [] [] _ c' h rfl).2 s handler fault t t' hreached hopener
            (by rw [hnil]; exact hhandlers) hstep hrun ht'⟩
        · cases hrun

end ShellVM
