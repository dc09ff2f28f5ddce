import ShellVM.Proofs.Window.Advance

/-!
# Recovery from errors

The innermost handler of a machine in shape resumes a call that waits for the error value, as a caller waits for the
value of its call (`Shaped.resumes`). So a machine that fails for a cause that can be caught goes on there
(`recover_going`).
-/

namespace ShellVM

variable {V : View} {k : Context} {A : Activation} {q : Nat} {σ : Shape} {m m' : Machine} {program : Program}
  {functions : List (Nat × UInt16)}

/-! ## Handlers -/

/-- The iterators of the callers stay where they are. -/
theorem Open.outer_le {floor : Addr} {cells : List (UInt8 × Addr)} {zones : List Zone} {n : Nat} {own : List Handler}
    (h : Open floor A cells zones n own) : A.outerIterators ≤ n := by
  induction h with
  | none => exact Nat.le_refl _
  | attempt _ _ _ _ ih => exact ih
  | each _ ih => exact Nat.le_succ_of_le ih

/-- The innermost handler of a call: its call can go on with one value on top of what the handler remembers. -/
theorem Open.resumes {cells : List (UInt8 × Addr)} {own : List Handler} {h : Handler} (ip : Nat)
    (hfits : A.Fits V program functions)
    (hcallers : Callers V program functions A.callers A.base A.outerIterators A.outerHandlers) :
    ∀ {zones : List Zone} {n : Nat}, Open V.cells A cells zones n (h :: own) →
      Callers V program functions ({ A.frame ip cells with ip := h.catchIp } :: A.callers) h.stackHeight h.iterDepth
        (own ++ A.outerHandlers) ∧ h.frameDepth = A.depth ∧ h.stackHeight ≤ A.base + Zone.floor zones ∧ h.iterDepth ≤ n
  | _, _, .attempt outer reaches boxes above =>
    ⟨⟨A, _, _, cells, own, rfl, rfl, hfits, hcallers, reaches, boxes, Nat.succ_le_succ above, rfl, rfl, outer, rfl⟩,
      rfl, Nat.le_refl _, Nat.le_refl _⟩
  | _, _, .each outer =>
    have ⟨hcall, hdepth, hheight, hn⟩ := outer.resumes ip hfits hcallers
    ⟨hcall, hdepth, hheight, Nat.le_succ_of_le hn⟩

/-- To go back to the innermost handler: which calls are left, and what they wait for. -/
def Resumes (V : View) (program : Program) (functions : List (Nat × UInt16)) (frames : List Frame)
    (height iterators : Nat) (h : Handler) (rest : List Handler) : Prop :=
  ∃ f callers, keepLast h.frameDepth frames = f :: callers ∧
    Callers V program functions ({ f with ip := h.catchIp } :: callers) h.stackHeight h.iterDepth rest ∧
    h.stackHeight ≤ height ∧ h.iterDepth ≤ iterators

/-- Frames above the one of the handler do not matter. -/
theorem Resumes.cons {frames : List Frame} {f : Frame} {height height' iterators iterators' : Nat} {h : Handler}
    {rest : List Handler} (hr : Resumes V program functions frames height iterators h rest)
    (hdepth : h.frameDepth ≤ frames.length) (hheight : height ≤ height') (hiterators : iterators ≤ iterators') :
    Resumes V program functions (f :: frames) height' iterators' h rest := by
  obtain ⟨g, callers, hkeep, hcallers, hle, hle'⟩ := hr
  refine ⟨g, callers, ?_, hcallers, Nat.le_trans hle hheight, Nat.le_trans hle' hiterators⟩
  rw [← hkeep]
  unfold keepLast
  rw [List.length_cons, Nat.succ_sub hdepth, List.drop_succ_cons]

/-- The innermost handler of a call and its callers. -/
theorem Open.resumes_append {cells : List (UInt8 × Addr)} {ip : Nat} {own : List Handler} {h : Handler}
    {rest : List Handler} {zones : List Zone} {n height : Nat} (hfits : A.Fits V program functions)
    (hcallers : Callers V program functions A.callers A.base A.outerIterators A.outerHandlers)
    (houter : A.outerHandlers = h :: rest →
      Resumes V program functions A.callers A.base A.outerIterators h rest)
    (hopen : Open V.cells A cells zones n own) (hhandlers : h :: rest = own ++ A.outerHandlers)
    (hheight : A.base + Zone.floor zones ≤ height) :
    Resumes V program functions (A.frame ip cells :: A.callers) height n h rest := by
  cases own with
  | nil =>
    have hrest : A.outerHandlers = h :: rest := hhandlers.symm
    have hdepth := hcallers.depth_le h (by rw [hrest]; exact List.mem_cons_self ..)
    exact (houter hrest).cons hdepth (by omega) hopen.outer_le
  | cons h₀ own =>
    simp only [List.cons_append, List.cons.injEq] at hhandlers
    obtain ⟨rfl, rfl⟩ := hhandlers
    obtain ⟨hcall, hdepth, hle, hn⟩ := hopen.resumes ip hfits hcallers
    refine ⟨_, _, ?_, hcall, by omega, hn⟩
    unfold keepLast
    rw [hdepth, List.length_cons, Activation.depth, Nat.sub_self]
    rfl

theorem Callers.resumes : ∀ {frames : List Frame} {base iterators : Nat} {h : Handler} {rest : List Handler},
    Callers V program functions frames base iterators (h :: rest) →
      Resumes V program functions frames base iterators h rest
  | [], _, _, _, _, ⟨_, _, hhandlers⟩ => by cases hhandlers
  | _ :: callers, _, _, h, rest,
      ⟨A, _, _, _, _, hf, hr, hfits, hcallers, _, _, hfloor, _, hbase, hopen, hhandlers⟩ => by
    have houter (hrest : A.outerHandlers = h :: rest) :
        Resumes V program functions callers A.base A.outerIterators h rest := Callers.resumes (hrest ▸ hcallers)
    subst hf
    rw [hr] at hcallers houter ⊢
    exact hopen.resumes_append hfits hcallers houter hhandlers (by omega)

/-- Where a machine in shape goes back to. -/
theorem Shaped.resumes (hs : Shaped V A q σ m) (hA : Stands V program functions A) {h : Handler} {rest : List Handler}
    (hhandlers : m.handlers = h :: rest) :
    Resumes V program functions m.frames m.stack.size m.iterators.length h rest := by
  obtain ⟨cells, own, hframes, -, hopen, hown⟩ := hs.active
  rw [hframes]
  refine hopen.resumes_append hA.fits hA.callers (fun hrest => ?_) (hhandlers.symm.trans hown) ?_
  · exact Callers.resumes (hrest ▸ hA.callers)
  · rw [hs.height]
    exact Nat.add_le_add_left hs.floor _

/-! ## Recovery -/

theorem Fault.withTrace_cause (fault : Fault) (trace : List CallSite) :
    (fault.withTrace trace).cause = fault.cause := by
  unfold Fault.withTrace
  split <;> rfl

/-- What a recovery does. -/
theorem Act.recover_def (fault : Fault) (m : Machine) : Act.recover program fault m = (do
    if !fault.cause.isCatchable then throw (fault.withTrace (m.trace program))
    match m.handlers with
    | [] => throw (fault.withTrace (m.trace program))
    | h :: rest =>
      modify fun m => { m with handlers := rest }
      Act.unwind h
      Act.jump h.catchIp
      Act.push (.error (.string fault.cause.message) (some (fault.withTrace (m.trace program)).trace)) :
      Act Unit) m := by
  rw [← fault.withTrace_cause (m.trace program)]
  rfl

/-- With a handler, a cause that can be caught is caught, and the handler finds it with its trace. -/
theorem Act.recover_run {fault : Fault} {h : Handler} {rest : List Handler} {f : Frame} {callers : List Frame}
    (hcause : fault.cause.isCatchable) (hhandlers : m.handlers = h :: rest)
    (hframes : keepLast h.frameDepth m.frames = f :: callers) :
    Act.recover program fault m = .ok () { m with
      handlers := rest
      frames := { f with ip := h.catchIp } :: callers
      iterators := keepLast h.iterDepth m.iterators
      stack := (m.stack.shrink h.stackHeight).push
        (.error (.string fault.cause.message) (some (fault.withTrace (m.trace program)).trace)) } := by
  rw [Act.recover_def, hcause, hhandlers]
  show EStateM.bind (Act.jump h.catchIp) _ { m with
    handlers := rest
    frames := keepLast h.frameDepth m.frames
    stack := m.stack.shrink h.stackHeight
    iterators := keepLast h.iterDepth m.iterators } = _
  unfold EStateM.bind Act.jump Act.modifyFrame
  simp only [hframes]
  rfl

theorem Act.recover_eq {fault : Fault} {h : Handler} {rest : List Handler} {f : Frame} {callers : List Frame}
    (hcause : fault.cause.isCatchable) (hhandlers : m.handlers = h :: rest)
    (hframes : keepLast h.frameDepth m.frames = f :: callers) :
    ∃ t, Act.recover program fault m = .ok () { m with
      handlers := rest
      frames := { f with ip := h.catchIp } :: callers
      iterators := keepLast h.iterDepth m.iterators
      stack := (m.stack.shrink h.stackHeight).push (.error (.string fault.cause.message) (some t)) } :=
  ⟨_, Act.recover_run hcause hhandlers hframes⟩

/-- A fault that is not caught stays, with a trace. -/
theorem Act.recover_fails {fault : Fault} (h : m.handlers = []) :
    Act.recover program fault m = .error (fault.withTrace (m.trace program)) m := by
  rw [Act.recover_def, h]
  cases fault.cause.isCatchable <;> rfl

/-- A recovery goes back to the innermost handler. -/
theorem Act.recover_ok {fault : Fault} {s : Machine} (h : Act.recover program fault m = .ok () s) :
    ∃ h rest f callers, fault.cause.isCatchable ∧ m.handlers = h :: rest ∧
      keepLast h.frameDepth m.frames = f :: callers ∧ s.frames = { f with ip := h.catchIp } :: callers := by
  cases hcatch : fault.cause.isCatchable with
  | false =>
    rw [Act.recover_def, hcatch] at h
    cases h
  | true =>
    cases hhandlers : m.handlers with
    | nil =>
      rw [Act.recover_fails hhandlers] at h
      cases h
    | cons handler rest =>
      cases hkeep : keepLast handler.frameDepth m.frames with
      | nil =>
        rw [Act.recover_def, hcatch, hhandlers] at h
        have hjump : (EStateM.bind (Act.jump handler.catchIp) fun _ => Act.push
            (.error (.string fault.cause.message) (some (fault.withTrace (m.trace program)).trace))) { m with
          handlers := rest
          frames := keepLast handler.frameDepth m.frames
          stack := m.stack.shrink handler.stackHeight
          iterators := keepLast handler.iterDepth m.iterators } = .ok () s := h
        rw [hkeep] at hjump
        cases hjump
      | cons f callers =>
        obtain ⟨t, ht⟩ : ∃ t, Act.recover program fault m = .ok () _ := Act.recover_eq hcatch hhandlers hkeep
        rw [ht] at h
        cases h
        exact ⟨handler, rest, f, callers, rfl, rfl, hkeep, rfl⟩

/-- Of a row, so many of the outermost. -/
theorem length_keepLast_le {α : Type} (n : Nat) (xs : List α) : (keepLast n xs).length ≤ n := by
  unfold keepLast
  rw [List.length_drop]
  omega

/-- What a handler goes back to on top of a context. -/
theorem Window.recovered (hm : Window V k m m') {h : Handler} {rest : List Handler} {f : Frame} {callers : List Frame}
    (hhandlers : m'.handlers = h :: rest) (hkeep : keepLast h.frameDepth m'.frames = f :: callers) : ∃ hs g gs,
      m.handlers = h.above k :: hs ∧ keepLast (h.above k).frameDepth m.frames = g :: gs ∧
      ∀ (message : String) (t t' : List CallSite), Window V k
        { m with
          handlers := hs
          frames := { g with ip := h.catchIp } :: gs
          iterators := keepLast (h.above k).iterDepth m.iterators
          stack := (m.stack.shrink (h.above k).stackHeight).push (.error (.string message) (some t)) }
        { m' with
          handlers := rest
          frames := { f with ip := h.catchIp } :: callers
          iterators := keepLast h.iterDepth m'.iterators
          stack := (m'.stack.shrink h.stackHeight).push (.error (.string message) (some t')) } := by
  obtain ⟨top, hstack, htop⟩ := hm.stack
  obtain ⟨its, hiterators, hits⟩ := hm.iterators
  refine ⟨rest.map (Handler.above k) ++ k.handlers, f.above k, callers.map (Frame.above k) ++ k.frames, ?_, ?_,
    fun message t t' => { hm with stack := ?_, frames := rfl, iterators := ?_, handlers := rfl }⟩
  · rw [hm.handlers, hhandlers]
    rfl
  · show keepLast (h.frameDepth + k.frames.length) m.frames = _
    rw [hm.frames, keepLast_append, keepLast_map, hkeep]
    rfl
  · refine ⟨(top.shrink h.stackHeight).push (.error (.string message) (some t)), ?_, ?_⟩
    · show (m.stack.shrink (k.stack.size + h.stackHeight)).push _ = _
      rw [hstack, shrink_append, Array.push_append]
    · exact (htop.take _).push ⟨_, _, rfl, rfl⟩
  · refine ⟨keepLast h.iterDepth its, ?_, ?_⟩
    · show keepLast (h.iterDepth + k.iterators.length) m.iterators = _
      rw [hiterators, keepLast_append]
    · show List.Forall₂ _ (keepLast h.iterDepth its) (keepLast h.iterDepth m'.iterators)
      unfold keepLast
      rw [hits.length_eq]
      exact List.forall₂_drop _ hits

/-- A machine in shape that fails goes on at its innermost handler. -/
theorem recover_going {e f : Fault} (hA : Stands V program functions A) (hm : Inside V k A q σ m m')
    (hcause : f.cause = e.cause) (hcatch : e.cause.isCatchable) {h : Handler} {rest : List Handler}
    (hhandlers : m'.handlers = h :: rest) :
    ∃ s s', Act.recover program e m = .ok () s ∧ Act.recover program f m' = .ok () s' ∧
      Going V program functions k s s' := by
  obtain ⟨g, callers, hkeep, hcallers, hheight, hiterators⟩ := hm.shaped.resumes hA hhandlers
  have hcatch' : f.cause.isCatchable := hcause ▸ hcatch
  obtain ⟨t', hrecover'⟩ := Act.recover_eq hcatch' hhandlers hkeep
  obtain ⟨hs, g', gs, hhandlers', hkeep', hwindow⟩ := hm.recovered hhandlers hkeep
  obtain ⟨t, hrecover⟩ := Act.recover_eq hcatch hhandlers' hkeep'
  refine ⟨_, _, hrecover, hrecover', hcallers.going hA.hosts ?_ rfl ?_ ?_ rfl hm.shaped.stored⟩
  · rw [hcause]
    exact hwindow e.cause.message t t'
  · simp only [Array.size_push, Array.size_shrink, Nat.min_eq_left hheight]
  · unfold keepLast
    rw [List.length_drop]
    omega

end ShellVM
