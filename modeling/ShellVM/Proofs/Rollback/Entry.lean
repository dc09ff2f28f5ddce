import ShellVM.Proofs.Emission.Compiler
import ShellVM.Proofs.Rollback.Expression

/-!
# Entries that fail, and entries that get through

A compiler that entries have made is `Whole`: the functions that it knows are those that were defined, each with a page
of its own below the number of pages. This is what makes the way in which a failed entry is taken back exact
(`Undoable.rollBack`): such an entry leaves the compiler as it was, so deleting it changes nothing
(`failure_leaves_no_trace`). An entry that gets through changes only what its definitions change
(`entry_disturbs_nothing_else`).
-/

namespace ShellVM

variable {c c' : Compiler} {e : Expr} {s s' : Workbench} {index : UInt16}

/-! ## Taking back -/

theorem size_restore : ∀ (replaced : List (UInt16 × Page)) (pages : Array Page),
    (replaced.foldl (fun ps r => ps.setIfInBounds r.1.toNat r.2) pages).size = pages.size
  | [], _ => rfl
  | _ :: replaced, _ => (size_restore replaced _).trans Array.size_setIfInBounds

theorem Undoable.restored_take (h : Undoable c s) : s.restored.take c.program.pages.size = c.program.pages := by
  refine Array.ext_getElem? fun i => ?_
  have hsize : s.restored.size = s.program.pages.size := size_restore ..
  have hcount := h.count
  rw [Array.take_eq_extract, Array.getElem?_extract, Nat.zero_add, Nat.sub_zero, Nat.min_eq_left (by omega)]
  split
  · next hi => exact h.pages i hi
  · next hi => rw [Array.getElem?_eq_none (Nat.le_of_not_lt hi)]

theorem Undoable.functions_filter (h : Undoable c s) (hc : c.Whole) :
    s.functions.filter (fun f => f.2.toNat < c.program.pages.size) = c.functions := by
  obtain ⟨new, hnew, hbelow⟩ := h.functions
  rw [hnew, List.filter_append, List.filter_eq_nil_iff.2, List.nil_append, List.filter_eq_self.2]
  · exact fun f hf => decide_eq_true (hc.below f hf)
  · intro f hf
    have := (hbelow f hf).1
    simpa using this

theorem Undoable.defined_filter (h : Undoable c s) (hc : c.Whole) :
    s.defined.filter (fun id => (c.functions.lookup id).isSome) = c.defined := by
  obtain ⟨new, hnew, hnone⟩ := h.defined
  rw [hnew, List.filter_append, List.filter_eq_nil_iff.2, List.nil_append, List.filter_eq_self.2 hc.known]
  intro id hid
  simp [hnone id hid]

/-- Whatever an entry has done, taking it back gives the compiler that there was. -/
theorem Undoable.rollBack (h : Undoable c s) (hc : c.Whole) :
    s.rollBack c.program.pages.size c.program.library.size = c := by
  obtain ⟨more, hmore⟩ := h.library
  have hlibrary : s.program.library.take c.program.library.size = c.program.library := by
    rw [hmore, Array.take_eq_extract, Array.extract_append]
    simp
  show Compiler.mk ⟨s.restored.take _, _⟩ _ _ = c
  rw [h.restored_take, h.functions_filter hc, h.defined_filter hc, hlibrary]

namespace Compiler

/-! ## One entry -/

theorem Whole.new : new.Whole where
  defined := fun _ _ h => by cases h
  known := fun _ h => by cases h
  below := fun _ h => by cases h
  apart := fun _ _ _ h => by cases h

theorem Whole.undoable (hc : c.Whole) (d : Draft) : Undoable c (c.bench d) where
  count := Nat.le_refl _
  pages := fun _ _ => rfl
  library := ⟨#[], (Array.append_empty ..).symm⟩
  functions := ⟨[], rfl, fun _ h => by cases h⟩
  apart := hc.apart
  defined := ⟨[], rfl, fun _ h => by cases h⟩
  known := hc.known

/-- The outcome of an entry. -/
theorem Whole.emitEntry (hc : c.Whole) (e : Expr) :
    Outcome (fun index s' => Undoable c s' ∧ Moves c e.definitions (c.bench (entryDraft e)) s' ∧
      index.toNat = c.program.pages.size ∧ undefined? s'.functions s'.defined = none) (Undoable c)
      (emitEntry e (c.bench (entryDraft e))) := by
  have hs := hc.undoable (entryDraft e)
  refine (reservePage_traces hs entryName).bind fun index s₁ _ ⟨h₁, hi⟩ => ?_
  subst h₁
  have hcode := Traces.valued e.producesValue (e.traces hc) (hs.reserve entryName)
  refine Outcome.bind (m := Emit.beginEntry _) (Q := fun _ s' => s' = (c.bench (entryDraft e)).reserve entryName) rfl
    fun _ s₂ _ h₂ => ?_
  subst h₂
  refine hcode.bind fun _ s₃ _ ⟨hu, hm⟩ => ?_
  have hlt : index.toNat < s₃.program.pages.size := Reserved.lt ⟨hi, hm.grows⟩
  have hle : c.program.pages.size ≤ index.toNat := Nat.le_of_eq hi.symm
  have hrun : Emit.install index s₃.draft.page s₃ = .ok () (s₃.install index s₃.draft.page) := Emit.modifyPage_eq hlt
  have hinstall : Outcome (fun _ s' => Undoable c s' ∧ Moves c e.definitions (c.bench (entryDraft e)) s') (Undoable c)
      (Emit.install index s₃.draft.page s₃) := by
    rw [hrun]
    refine ⟨hu.modify hle hu.defined hu.known, .install hc hs hi hm fun ha hclosed => ?_⟩
    exact (hm.closed ha ((Moves.reserve _ hs _).closed ha hclosed)).draft
  refine Outcome.bind (m := Emit.draft) (Q := fun d s' => d = s₃.draft ∧ s' = s₃) ⟨rfl, rfl⟩ fun _ _ _ ⟨hd, hs₃⟩ => ?_
  subst hd hs₃
  refine hinstall.bind fun _ s₄ _ ⟨hu₄, hm₄⟩ => .get ?_
  cases hnone : undefined? s₄.functions s₄.defined with
  | some id => exact hu₄
  | none => exact ⟨hu₄, hm₄, hi, hnone⟩

/-- A compiler in which no function waits for its definition is whole again. -/
theorem Whole.later (hc : c.Whole) (h : Undoable c s) (hu : undefined? s.functions s.defined = none) :
    Whole ⟨s.program, s.functions, s.defined⟩ where
  defined := fun _ _ hl => undefined?_eq_none hu hl
  known := h.known
  below := fun f hf => by
    obtain ⟨new, hnew, hbelow⟩ := h.functions
    rw [show _ = _ from hnew] at hf
    rcases List.mem_append.1 hf with hf | hf
    · exact (hbelow f hf).2.1
    · exact Nat.lt_of_lt_of_le (hc.below f hf) h.count
  apart := h.apart

/-- An entry that fails leaves the compiler as it was. -/
theorem Whole.enter_error {error : CompileError} (hc : c.Whole) (h : c.enter e = (.error error, c')) : c' = c := by
  have he := hc.emitEntry e
  rw [enter_eq] at h
  cases hm : Compiler.emitEntry e (c.bench (entryDraft e)) with
  | ok index s => rw [hm] at h; cases h
  | error error' s =>
    rw [hm] at h he
    cases h
    exact Undoable.rollBack he hc

theorem Whole.enter_ok (hc : c.Whole) (h : c.enter e = (.ok index, c')) :
    c'.Whole ∧ index.toNat = c.program.pages.size ∧
      ∃ s, Undoable c s ∧ Moves c e.definitions (c.bench (entryDraft e)) s ∧
      c' = ⟨s.program, s.functions, s.defined⟩ := by
  obtain ⟨s, hm, rfl⟩ := Compiler.enter_ok h
  have he := hc.emitEntry e
  rw [hm] at he
  obtain ⟨hu, hmoves, hi, hnone⟩ := he
  exact ⟨hc.later hu hnone, hi, s, hu, hmoves, rfl⟩

/-! ## Entries one after the other -/

/-- What every entry preserves holds after any entries. -/
theorem addAll_induction {P : Compiler → Prop} (hstep : ∀ c e, P c → P (c.enter e).2) :
    ∀ (es : List Expr) {c : Compiler}, P c → P (c.addAll es)
  | [], _, h => h
  | e :: es, c, h => addAll_induction hstep es (hstep c e h)

/-- A compiler that entries have made: it is whole, its pages are laid out, and its constants refer to what is there. -/
structure Sound (c : Compiler) : Prop where
  whole : c.Whole
  stable : c.Stable
  closed : c.program.Closed

theorem Sound.new : new.Sound := ⟨.new, .new, fun _ h => absurd h (Array.not_mem_empty _)⟩

theorem Sound.bench_closed (hc : c.Sound) (e : Expr) : (c.bench (entryDraft e)).Closed fun _ => False where
  pages := fun page hpage => ⟨hc.closed page hpage, fun k _ => by cases k <;> first | trivial | exact id⟩
  draft := .empty
  functions := fun _ _ _ => id

theorem Sound.enter_ok (hc : c.Sound) (h : c.enter e = (.ok index, c')) : c'.Sound := by
  obtain ⟨hwhole, -, s, -, hm, rfl⟩ := hc.whole.enter_ok h
  have hclosed := hm.closed (fun _ => False.elim) (hc.bench_closed e)
  exact ⟨hwhole, (hc.stable.enter h).1, fun page hpage => (hclosed.pages page hpage).within⟩

theorem Sound.enter (c : Compiler) (e : Expr) (hc : c.Sound) : (c.enter e).2.Sound := by
  obtain ⟨result, c', h⟩ : ∃ result c', c.enter e = (result, c') := ⟨_, _, rfl⟩
  rw [h]
  cases result with
  | ok index => exact hc.enter_ok h
  | error error => rw [hc.whole.enter_error h]; exact hc

theorem Sound.addAll (es : List Expr) : (Compiler.new.addAll es).Sound := addAll_induction Sound.enter es .new

/-- A compiler grows by entries. -/
theorem Sound.grows (hc : c.Sound) (es : List Expr) : c.Grows (c.addAll es) := by
  refine (addAll_induction (P := fun c' => c'.Sound ∧ c.Grows c') (fun c' e ⟨hc', hg⟩ => ?_) es ⟨hc, .refl c⟩).2
  obtain ⟨result, c'', h⟩ : ∃ result c'', c'.enter e = (result, c'') := ⟨_, _, rfl⟩
  rw [h]
  cases result with
  | ok index => exact ⟨hc'.enter_ok h, hg.trans (hc'.stable.enter h).2.1⟩
  | error error => rw [hc'.whole.enter_error h]; exact ⟨hc', hg⟩

/-- The entries that get through. -/
def kept (c : Compiler) : List Expr → List Expr
  | [] => []
  | e :: es =>
    let (result, c) := c.enter e
    if result.isOk then e :: c.kept es else c.kept es

/-- Without the entries that fail, the others have the results that they had, and the same compiler is left. -/
theorem Sound.enterAll_kept : ∀ (es : List Expr) {c : Compiler}, c.Sound →
    c.enterAll (c.kept es) = ((c.enterAll es).1.filter Except.isOk, c.addAll es)
  | [], _, _ => rfl
  | e :: es, c, hc => by
    obtain ⟨result, c', h⟩ : ∃ result c', c.enter e = (result, c') := ⟨_, _, rfl⟩
    have hrest : (c.enterAll (e :: es)).1 = result :: (c'.enterAll es).1 := by simp only [enterAll, h]
    have hlast : c.addAll (e :: es) = c'.addAll es := by simp only [Compiler.addAll, enterAll, h]
    rw [hrest, hlast]
    cases result with
    | ok index =>
      have hkept : c.kept (e :: es) = e :: c'.kept es := by simp only [kept, h]; rfl
      have ih := Sound.enterAll_kept es (hc.enter_ok h)
      rw [hkept]
      simp only [enterAll, h, ih]
      rfl
    | error error =>
      have hkept : c.kept (e :: es) = c'.kept es := by simp only [kept, h]; rfl
      obtain rfl := hc.whole.enter_error h
      rw [hkept, Sound.enterAll_kept es hc]
      rfl

/-- The functions that entries define have the bodies of their last definitions, among the entries that get through. -/
theorem Sound.bodies (draft : Draft) : ∀ (es : List Expr) {c : Compiler}, c.Sound →
    Bodies ((c.kept es).flatMap Expr.definitions) (c.bench draft) ((c.addAll es).bench draft)
  | [], _, _ => .of_pages fun _ _ h => h
  | e :: es, c, hc => by
    obtain ⟨result, c', h⟩ : ∃ result c', c.enter e = (result, c') := ⟨_, _, rfl⟩
    have hlast : c.addAll (e :: es) = c'.addAll es := by simp only [Compiler.addAll, enterAll, h]
    rw [hlast]
    cases result with
    | ok index =>
      have hkept : c.kept (e :: es) = e :: c'.kept es := by simp only [kept, h]; rfl
      have hc' := hc.enter_ok h
      have hgrows := (hc.stable.enter h).2.1
      have hbodies : Bodies e.definitions (c.bench draft) (c'.bench draft) := by
        obtain ⟨-, -, s, -, hm, rfl⟩ := hc.whole.enter_ok h
        exact hm.bodies.congr rfl rfl rfl rfl
      rw [hkept, List.flatMap_cons]
      exact hbodies.trans (Sound.bodies draft es hc') (hgrows draft draft) (hc'.grows es draft draft)
    | error error =>
      have hkept : c.kept (e :: es) = c'.kept es := by simp only [kept, h]; rfl
      obtain rfl := hc.whole.enter_error h
      rw [hkept]
      exact Sound.bodies draft es hc

/-- The page of a function holds the code of its last definition. -/
theorem functionPage_lies (es : List Expr) {d : Definition}
    (h : definition? d.id ((new.kept es).flatMap Expr.definitions) = some d) :
    ∃ i page, (new.addAll es).functions.lookup d.id = some i ∧ (new.addAll es).program.page? i = some page ∧
      d.Lies (new.addAll es).program (new.addAll es).functions page := by
  obtain ⟨i, page, hi, hpage, hlies⟩ := (Sound.new.bodies (entryDraft default) es).compiled d h
  exact ⟨i, page, hi, hpage, hlies ((new.addAll es).final _)⟩

/-- An entry that fails leaves the program, the table of functions and the set of defined functions as they were. So
without the entries that fail, the others have the same results, and the same compiler is left. -/
theorem failed_entry_leaves_no_trace (es : List Expr) :
    (∀ e error c', (new.addAll es).enter e = (.error error, c') → c' = new.addAll es) ∧
      new.enterAll (new.kept es) = ((new.enterAll es).1.filter Except.isOk, new.addAll es) :=
  ⟨fun _ _ _ h => (Sound.addAll es).whole.enter_error h, Sound.new.enterAll_kept es⟩

/-- An entry that fails after it has defined a known function twice, and a new one. -/
theorem failed_entry_leaves_no_trace_redefinition :
    ∃ error c', (new.addAll [.mk 1 (.define 0 "f" [] (.mk 1 (.block [])))]).enter
        (.mk 2 (.block [.mk 2 (.define 0 "f" ["x"] (.mk 2 (.variable "x"))),
          .mk 3 (.define 0 "f" [] (.mk 3 (.define 1 "g" [] (.mk 3 (.block []))))), .mk 4 .break])) =
        (.error error, c') ∧ c' = new.addAll [.mk 1 (.define 0 "f" [] (.mk 1 (.block [])))] := by
  have h : ((new.addAll [.mk 1 (.define 0 "f" [] (.mk 1 (.block [])))]).enter
      (.mk 2 (.block [.mk 2 (.define 0 "f" ["x"] (.mk 2 (.variable "x"))),
        .mk 3 (.define 0 "f" [] (.mk 3 (.define 1 "g" [] (.mk 3 (.block []))))), .mk 4 .break]))).1.isOk = false := by
    decide +kernel
  cases he : (new.addAll [.mk 1 (.define 0 "f" [] (.mk 1 (.block [])))]).enter
      (.mk 2 (.block [.mk 2 (.define 0 "f" ["x"] (.mk 2 (.variable "x"))),
        .mk 3 (.define 0 "f" [] (.mk 3 (.define 1 "g" [] (.mk 3 (.block []))))), .mk 4 .break])) with
  | mk result c' =>
    rw [he] at h
    cases result with
    | ok index => cases h
    | error error => exact ⟨error, c', rfl, (failed_entry_leaves_no_trace _).1 _ _ _ he⟩

/-! ## What an entry that gets through leaves -/

/-- The compiler `c` has become `c'` by an entry that got the page `index`. -/
structure Adds (c : Compiler) (e : Expr) (index : UInt16) (c' : Compiler) : Prop where
  /-- The page of the entry comes behind all others. -/
  entry : index.toNat = c.program.pages.size
  /-- That page holds the code of the entry, and keeps it whatever entries follow. -/
  code : c'.Enters e index
  /-- A page is as it was, unless the entry defines its function. Then it keeps its name and takes the rest from the
  page that the last definition was compiled into. -/
  pages : ∀ (i : Nat) (old : Page), c.program.pages[i]? = some old →
    match c.redefinition? i e.definitions with
    | none => c'.program.pages[i]? = some old
    | some d => ∃ s s' page, Retains (c.bench (entryDraft e)) s ∧ d.page s = .ok page s' ∧
        Retains s' (c'.bench (entryDraft e)) ∧ c'.program.pages[i]? = some { page with name := old.name }
  library : ∃ more, c'.program.library = c.program.library ++ more
  /-- No constant refers to a page or a library function that is not there. -/
  closed : c'.program.Closed
  /-- A function keeps its page. -/
  functions : ∀ id i, c.functions.lookup id = some i → c'.functions.lookup id = some i
  /-- Different functions have different pages. -/
  apart : ∀ id id' i, c'.functions.lookup id = some i → c'.functions.lookup id' = some i → id = id'
  /-- Wherever a page calls a function, it loads the page that the function has now. -/
  laid : ∀ (i : Nat) (page : Page), c'.program.pages[i]? = some page → ∃ n, c'.program.Laid c'.functions page n
  /-- A function that is known has been defined, and its page is there. -/
  defined : ∀ id i, c'.functions.lookup id = some i → id ∈ c'.defined ∧ i.toNat < c'.program.pages.size

theorem Sound.adds (hc : c.Sound) (h : c.enter e = (.ok index, c')) : c.Adds e index c' := by
  have hc' := hc.enter_ok h
  have hcode : c'.Enters e index := fun d hf => (hc.stable.enter h).2.2 d hf
  obtain ⟨-, hi, s, hu, hm, rfl⟩ := hc.whole.enter_ok h
  refine ⟨hi, hcode, fun i old hold => ?_, hu.library, hc'.closed, hm.grows.functions,
    hc'.whole.apart, fun i page hp => ?_,
    fun id i hl => ⟨hc'.whole.defined id i hl, hc'.whole.below _ (mem_of_lookup_eq hl)⟩⟩
  · have hpages := hm.pages i (Array.getElem?_eq_some_iff.1 hold).1
    cases hd : c.redefinition? i e.definitions with
    | none =>
      rw [hd] at hpages
      exact hpages.trans hold
    | some d =>
      rw [hd] at hpages
      obtain ⟨t, t', page, h₁, hpage, h₂, hpages⟩ := hpages
      refine ⟨t, t', page, h₁, hpage, { h₂ with }, hpages.trans ?_⟩
      rw [show (c.bench (entryDraft e)).program.pages[i]? = some old from hold]
      rfl
  · obtain ⟨n, hlaid, -⟩ := hc'.stable.laid (e := e) hp
    exact ⟨n, hlaid⟩

/-- An entry that gets through disturbs nothing but the functions that it defines, and leaves no reference to what is
not there. -/
theorem entry_changes_only_definitions (es : List Expr) (h : (new.addAll es).enter e = (.ok index, c')) :
    (new.addAll es).Adds e index c' := (Sound.addAll es).adds h

/-- A known function is defined anew, inside of another one. -/
theorem entry_changes_only_definitions_redefinition :
    ∃ index c', (new.addAll [.mk 1 (.define 0 "f" [] (.mk 1 (.block [])))]).enter
        (.mk 2 (.define 1 "g" [] (.mk 2 (.define 0 "h" ["x"] (.mk 2 (.variable "x")))))) = (.ok index, c') ∧
      (new.addAll [.mk 1 (.define 0 "f" [] (.mk 1 (.block [])))]).Adds
        (.mk 2 (.define 1 "g" [] (.mk 2 (.define 0 "h" ["x"] (.mk 2 (.variable "x")))))) index c' := by
  have h : ((new.addAll [.mk 1 (.define 0 "f" [] (.mk 1 (.block [])))]).enter
      (.mk 2 (.define 1 "g" [] (.mk 2 (.define 0 "h" ["x"] (.mk 2 (.variable "x"))))))).1.isOk = true := by
    decide +kernel
  cases he : (new.addAll [.mk 1 (.define 0 "f" [] (.mk 1 (.block [])))]).enter
      (.mk 2 (.define 1 "g" [] (.mk 2 (.define 0 "h" ["x"] (.mk 2 (.variable "x")))))) with
  | mk result c' =>
    rw [he] at h
    cases result with
    | ok index => exact ⟨index, c', rfl, entry_changes_only_definitions _ he⟩
    | error error => cases h

end Compiler

end ShellVM
