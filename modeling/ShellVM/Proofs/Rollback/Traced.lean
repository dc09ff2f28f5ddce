import ShellVM.Proofs.Emission.Pages
import ShellVM.Proofs.Rollback.Definition

/-!
# What emitting changes

Whatever becomes of an emitter, what it has done can be taken back (`Undoable`): the pages that the compiler had can be
restored, and all the rest was added behind. If it ends well, of the pages that were there only those of functions that
it defines have changed, each as its last definition says (`Moves`). `Traces c ds m` says this of the emitter `m`, which
compiles the definitions `ds`; emitters are put together by `Traces.bind`.
-/

namespace ShellVM

/-! ## Constants -/

/-- What the constant refers to is there. -/
def Constant.Within (pages library : Nat) : Constant → Prop
  | .page index => index.toNat < pages
  | .libraryFunction index => index.toNat < library
  | _ => True

def ConstantTable.Within (pages library : Nat) (t : ConstantTable) : Prop := ∀ c ∈ t.entries, c.Within pages library

/-- What the constants of the program refer to is there. -/
def Program.Closed (program : Program) : Prop :=
  ∀ page ∈ program.pages, page.constants.Within program.pages.size program.library.size

/-- The constant is none of these pages. -/
def Constant.Avoids (apart : Nat → Prop) : Constant → Prop
  | .page index => ¬apart index.toNat
  | _ => True

/-- What the constants refer to is there, and is none of the pages that are to stand apart. -/
structure ConstantTable.Fits (apart : Nat → Prop) (pages library : Nat) (t : ConstantTable) : Prop where
  within : t.Within pages library
  avoids : ∀ c ∈ t.entries, c.Avoids apart

/-- What the constants refer to is there, also those of the page at hand. Neither constants nor functions refer to the
pages that are to stand apart. -/
structure Workbench.Closed (apart : Nat → Prop) (s : Workbench) : Prop where
  pages : ∀ page ∈ s.program.pages, page.constants.Fits apart s.program.pages.size s.program.library.size
  draft : s.draft.page.constants.Fits apart s.program.pages.size s.program.library.size
  functions : ∀ id i, s.functions.lookup id = some i → ¬apart i.toNat

section Constants

variable {pages pages' library library' : Nat} {t : ConstantTable} {c : Constant} {apart : Nat → Prop}

theorem Constant.Within.mono (h : c.Within pages library) (hp : pages ≤ pages') (hl : library ≤ library') :
    c.Within pages' library' := by
  cases c with
  | page index => exact Nat.lt_of_lt_of_le h hp
  | libraryFunction index => exact Nat.lt_of_lt_of_le h hl
  | _ => trivial

theorem ConstantTable.Within.mono (h : t.Within pages library) (hp : pages ≤ pages') (hl : library ≤ library') :
    t.Within pages' library' := fun c hc => (h c hc).mono hp hl

theorem ConstantTable.mem_add {c' : Constant} (h : c' ∈ (t.add c).2.entries) : c' ∈ t.entries ∨ c' = c := by
  unfold ConstantTable.add at h
  split at h
  · exact .inl h
  · split at h
    · exact Array.mem_push.1 h
    · exact .inl h

theorem ConstantTable.eq_nil_of_mem_empty (h : c ∈ ConstantTable.empty.entries) : c = .nil := by
  simpa [ConstantTable.empty, ConstantTable.ofList] using h

namespace ConstantTable.Fits

theorem mono (h : t.Fits apart pages library) (hp : pages ≤ pages') (hl : library ≤ library') :
    t.Fits apart pages' library' := ⟨h.within.mono hp hl, h.avoids⟩

theorem add (h : t.Fits apart pages library) (hc : c.Within pages library) (ha : c.Avoids apart) :
    (t.add c).2.Fits apart pages library where
  within := fun c' hc' => (mem_add hc').elim (h.within c') fun heq => heq ▸ hc
  avoids := fun c' hc' => (mem_add hc').elim (h.avoids c') fun heq => heq ▸ ha

theorem empty : ConstantTable.empty.Fits apart pages library where
  within := fun c hc => by
    obtain rfl := eq_nil_of_mem_empty hc
    trivial
  avoids := fun c hc => by
    obtain rfl := eq_nil_of_mem_empty hc
    trivial

end ConstantTable.Fits

end Constants

/-! ## What an emitter may do -/

namespace Compiler

/-- Functions that are known have been defined, and have pages of their own. -/
structure Whole (c : Compiler) : Prop where
  defined : ∀ id i, c.functions.lookup id = some i → id ∈ c.defined
  known : ∀ id ∈ c.defined, (c.functions.lookup id).isSome
  below : ∀ f ∈ c.functions, f.2.toNat < c.program.pages.size
  apart : ∀ id id' i, c.functions.lookup id = some i → c.functions.lookup id' = some i → id = id'

end Compiler

/-- The pages as they were before definitions replaced some of them. -/
def Workbench.restored (s : Workbench) : Array Page :=
  s.replaced.foldl (fun ps r => ps.setIfInBounds r.1.toNat r.2) s.program.pages

/-- The pages, functions and library functions of the compiler are still there, or can be restored. -/
structure Undoable (c : Compiler) (s : Workbench) : Prop where
  count : c.program.pages.size ≤ s.program.pages.size
  pages : ∀ i, i < c.program.pages.size → s.restored[i]? = c.program.pages[i]?
  library : ∃ more, s.program.library = c.program.library ++ more
  functions : ∃ new, s.functions = new ++ c.functions ∧ ∀ f ∈ new,
    c.program.pages.size ≤ f.2.toNat ∧ f.2.toNat < s.program.pages.size ∧ c.functions.lookup f.1 = none
  apart : ∀ id id' i, s.functions.lookup id = some i → s.functions.lookup id' = some i → id = id'
  defined : ∃ new, s.defined = new ++ c.defined ∧ ∀ id ∈ new, c.functions.lookup id = none
  known : ∀ id ∈ s.defined, (s.functions.lookup id).isSome

/-- What refers to functions, pages and library functions goes on to refer to the same. -/
structure Retains (s s' : Workbench) : Prop where
  functions : ∀ id i, s.functions.lookup id = some i → s'.functions.lookup id = some i
  count : s.program.pages.size ≤ s'.program.pages.size
  library : ∀ (i : Nat) e, s.program.library[i]? = some e → s'.program.library[i]? = some e

theorem Retains.trans {s s' s'' : Workbench} (h : Retains s s') (h' : Retains s' s'') : Retains s s'' where
  functions := fun id i hi => h'.functions id i (h.functions id i hi)
  count := Nat.le_trans h.count h'.count
  library := fun i e he => h'.library i e (h.library i e he)

theorem Grows.retains {s s' : Workbench} (h : Grows s s') : Retains s s' := { h with }

/-- Between the two, the body of the definition was compiled into a page, and the page `i` takes the body of that. -/
def Redefines (s s' : Workbench) (d : Definition) (i : Nat) : Prop :=
  ∃ t t' page, Retains s t ∧ d.page t = .ok page t' ∧ Retains t' s' ∧
    s'.program.pages[i]? = s.program.pages[i]?.map (·.replaceBody page)

/-- The definition that gives the page `i` its body: the last one of its function. -/
def Compiler.redefinition? (c : Compiler) (i : Nat) (ds : List Definition) : Option Definition :=
  ds.reverse.find? fun d => (c.functions.lookup d.id).map UInt16.toNat = some i

/-- The last definition of a function. -/
def definition? (id : Nat) (ds : List Definition) : Option Definition := ds.reverse.find? fun d => d.id == id

/-- The page holds the code of the definition. -/
def Definition.Lies (d : Definition) (program : Program) (functions : List (Nat × UInt16)) (page : Page) : Prop :=
  let S : Sheet := ⟨program, functions, page, [], d.body.captured, false⟩
  S.Holds d.parameters (S.valued d.body.producesValue (d.body.Lies S))

/-- The page of the function holds the code of the definition in every finished program, as far as its pages from `n`
on are final. -/
def Realizes (n : Nat) (s : Workbench) (d : Definition) : Prop := ∃ i page, s.functions.lookup d.id = some i ∧
  s.program.pages[i.toNat]? = some page ∧ ∀ {program : Program} {functions : List (Nat × UInt16)},
    Final program functions n s → d.Lies program functions page

/-- Between two workbenches the last definitions were compiled, and the pages of other functions are as they were. -/
structure Bodies (ds : List Definition) (s s' : Workbench) : Prop where
  compiled : ∀ d, definition? d.id ds = some d → Realizes s.program.pages.size s' d
  kept : ∀ id i page, definition? id ds = none → s.functions.lookup id = some i →
    s.program.pages[i.toNat]? = some page → s'.program.pages[i.toNat]? = some page

/-- These pages are some that the compiler has. -/
def Compiler.Has (c : Compiler) (apart : Nat → Prop) : Prop := ∀ i, apart i → i < c.program.pages.size

/-- What is new between two workbenches: all of it was added, but for the pages of the functions that are defined. -/
structure Moves (c : Compiler) (ds : List Definition) (s s' : Workbench) : Prop where
  grows : Grows s s'
  library : s.program.library.size ≤ s'.program.library.size
  closed : ∀ {apart}, c.Has apart → s.Closed apart → s'.Closed apart
  pages : ∀ i, i < c.program.pages.size →
    match c.redefinition? i ds with
    | none => s'.program.pages[i]? = s.program.pages[i]?
    | some d => Redefines s s' d i
  bodies : Bodies ds s s'

/-- What the emitter does can be taken back, and if it ends well it changes only what the definitions change. -/
def Traces {α : Type} (c : Compiler) (ds : List Definition) (m : Emit α) : Prop :=
  ∀ ⦃s : Workbench⦄, Undoable c s → Outcome (fun _ s' => Undoable c s' ∧ Moves c ds s s') (Undoable c) (m s)

/-! ## Bodies of functions -/

section Bodies

variable {d : Definition} {ds ds' : List Definition} {s s' s'' : Workbench} {n n' : Nat}

theorem definition?_append (id : Nat) : definition? id (ds ++ ds') = (definition? id ds').or (definition? id ds) := by
  simp [definition?, List.find?_append]

theorem Realizes.mono (h : Realizes n' s d) (hn : n ≤ n') : Realizes n s d := by
  obtain ⟨i, page, hi, hpage, hlies⟩ := h
  exact ⟨i, page, hi, hpage, fun hf => hlies (hf.mono hn)⟩

/-- The program may grow, as long as the page stays. -/
theorem Realizes.later (h : Realizes n s d) (hg : Grows s s')
    (hkept : ∀ i page, s.functions.lookup d.id = some i → s.program.pages[i.toNat]? = some page →
      s'.program.pages[i.toNat]? = some page) : Realizes n s' d := by
  obtain ⟨i, page, hi, hpage, hlies⟩ := h
  exact ⟨i, page, hg.functions _ _ hi, hkept i page hi hpage, fun hf => hlies (hf.back hg)⟩

namespace Bodies

/-- Nothing but the program and its functions matters. -/
theorem congr {t t' : Workbench} (h : Bodies ds s s') (hp : t.program = s.program) (hf : t.functions = s.functions)
    (hp' : t'.program = s'.program) (hf' : t'.functions = s'.functions) : Bodies ds t t' := by
  obtain ⟨program, functions, defined, replaced, draft, enclosing⟩ := t
  obtain ⟨program', functions', defined', replaced', draft', enclosing'⟩ := t'
  subst hp hf hp' hf'
  refine ⟨fun d hd => ?_, h.kept⟩
  obtain ⟨i, page, hi, hpage, hlies⟩ := h.compiled d hd
  exact ⟨i, page, hi, hpage, fun hfinal => hlies { hfinal with }⟩

/-- Nothing was defined, and all pages are still there. -/
theorem of_pages (h : ∀ (i : Nat) page, s.program.pages[i]? = some page → s'.program.pages[i]? = some page) :
    Bodies [] s s' where
  compiled := fun _ hd => by cases hd
  kept := fun _ i page _ _ hpage => h i.toNat page hpage

theorem trans (h : Bodies ds s s') (h' : Bodies ds' s' s'') (hg : Grows s s') (hg' : Grows s' s'') :
    Bodies (ds ++ ds') s s'' where
  compiled := fun d hd => by
    rw [definition?_append] at hd
    cases hlast : definition? d.id ds' with
    | some d' =>
      rw [hlast] at hd
      cases hd
      exact (h'.compiled d hlast).mono hg.count
    | none =>
      rw [hlast] at hd
      exact (h.compiled d hd).later hg' fun i page => h'.kept d.id i page hlast
  kept := fun id i page hnone hi hpage => by
    rw [definition?_append, Option.or_eq_none_iff] at hnone
    exact h'.kept id i page hnone.1 (hg.functions id i hi) (h.kept id i page hnone.2 hi hpage)

end Bodies

end Bodies

/-! ## Steps that change nothing but the draft -/

section Draft

variable {c : Compiler} {ds ds' : List Definition} {s s' s'' : Workbench}

theorem Undoable.congr (h : Undoable c s) (hp : s'.program = s.program) (hf : s'.functions = s.functions)
    (hd : s'.defined = s.defined) (hr : s'.replaced = s.replaced) : Undoable c s' := by
  obtain ⟨program, functions, defined, replaced, draft, enclosing⟩ := s
  obtain ⟨program', functions', defined', replaced', draft', enclosing'⟩ := s'
  subst hp hf hd hr
  exact ⟨h.count, h.pages, h.library, h.functions, h.apart, h.defined, h.known⟩

/-- The constants of another draft are fine, too. -/
theorem Workbench.Closed.redraft {apart : Nat → Prop} (h : s.Closed apart) (hp : s'.program = s.program)
    (hf : s'.functions = s.functions)
    (hd : s'.draft.page.constants.Fits apart s.program.pages.size s.program.library.size) : s'.Closed apart where
  pages := hp ▸ h.pages
  draft := hp ▸ hd
  functions := hf ▸ h.functions

theorem Moves.of_draft (hp : s'.program = s.program) (hf : s'.functions = s.functions)
    (hc : ∀ {apart}, c.Has apart → s.Closed apart →
      s'.draft.page.constants.Fits apart s.program.pages.size s.program.library.size) : Moves c [] s s' where
  grows := .of_eq hp hf
  library := Nat.le_of_eq (by rw [hp])
  closed := fun hapart h => h.redraft hp hf (hc hapart h)
  pages := fun i _ => by rw [hp]; rfl
  bodies := .of_pages fun _ _ h => by rwa [hp]

theorem Redefines.trans {d : Definition} {i : Nat} (h : Redefines s s' d i) (hg : Retains s' s'')
    (hp : s''.program.pages[i]? = s'.program.pages[i]?) : Redefines s s'' d i := by
  obtain ⟨t, t', page, h₁, hd, h₂, hi⟩ := h
  exact ⟨t, t', page, h₁, hd, h₂.trans hg, hp.trans hi⟩

theorem Compiler.redefinition?_append (i : Nat) :
    c.redefinition? i (ds ++ ds') = (c.redefinition? i ds').or (c.redefinition? i ds) := by
  simp [Compiler.redefinition?, List.find?_append]

theorem Moves.trans (h : Moves c ds s s') (h' : Moves c ds' s' s'') : Moves c (ds ++ ds') s s'' where
  grows := h.grows.trans h'.grows
  library := Nat.le_trans h.library h'.library
  closed := fun hapart hc => h'.closed hapart (h.closed hapart hc)
  pages := by
    intro i hi
    have h₁ := h.pages i hi
    have h₂ := h'.pages i hi
    rw [Compiler.redefinition?_append]
    cases hl' : c.redefinition? i ds' with
    | none =>
      rw [hl'] at h₂
      cases hl : c.redefinition? i ds with
      | none => rw [hl] at h₁; exact h₂.trans h₁
      | some d => rw [hl] at h₁; exact h₁.trans h'.grows.retains h₂
    | some d' =>
      rw [hl'] at h₂
      obtain ⟨t, t', page, g, hd, g', hi'⟩ := h₂
      refine ⟨t, t', page, h.grows.retains.trans g, hd, g', hi'.trans ?_⟩
      cases hl : c.redefinition? i ds with
      | none => rw [hl] at h₁; rw [h₁]
      | some d =>
        rw [hl] at h₁
        obtain ⟨_, _, page', _, _, _, h₁⟩ := h₁
        rw [h₁, Option.map_map]
        rfl
  bodies := h.bodies.trans h'.bodies h.grows h'.grows

end Draft

namespace Traces

variable {c : Compiler} {ds ds' : List Definition} {α β : Type} {m : Emit α} {f : α → Emit β}

theorem bind (h : Traces c ds m) (h' : ∀ a, Traces c ds' (f a)) : Traces c (ds ++ ds') (m >>= f) :=
  fun _ hs => (h hs).bind fun a _ _ h₁ => (h' a h₁.1).mono fun _ _ h₂ => ⟨h₂.1, h₁.2.trans h₂.2⟩

/-- Something in front that defines nothing. -/
theorem seq (h : Traces c [] m) (h' : ∀ a, Traces c ds (f a)) : Traces c ds (m >>= f) := h.bind h'

/-- Something behind that defines nothing. -/
theorem then' (h : Traces c ds m) (h' : ∀ a, Traces c [] (f a)) : Traces c ds (m >>= f) := by
  have := h.bind h'
  rwa [List.append_nil] at this

theorem pure (a : α) : Traces c [] (Pure.pure a) := fun _ hs => ⟨hs, .of_draft rfl rfl fun _ h => h.draft⟩

theorem throw (e : CompileError) : Traces c ds (throw e : Emit α) := fun _ hs => hs

/-- A look at the workbench. -/
theorem get {f : Workbench → Emit β} (h : ∀ s, Traces c ds (f s)) : Traces c ds (get >>= f) := by
  intro s hs
  exact h s hs

theorem check {p : Prop} [Decidable p] {e : CompileError} {g : Unit → Emit α} (h : Traces c ds (g ())) :
    Traces c ds (if p then (MonadExcept.throw e : Emit Unit) >>= g else g ()) := by
  split
  · exact fun _ hs => hs
  · exact h

theorem ite {p : Prop} [Decidable p] {m m' : Emit α} (h : Traces c ds m) (h' : Traces c ds m') :
    Traces c ds (if p then m else m') := by
  split
  · exact h
  · exact h'

/-- A change of the draft that leaves its constants as they are. -/
theorem draft {f : Draft → Draft} (hf : ∀ d, (f d).page.constants = d.page.constants) :
    Traces c [] (Emit.modifyDraft f) := by
  intro s hs
  refine ⟨hs.congr rfl rfl rfl rfl, .of_draft rfl rfl fun _ hc => ?_⟩
  show (f s.draft).page.constants.Fits _ _ _
  rw [hf]
  exact hc.draft

end Traces

end ShellVM
