import ShellVM.Proofs.Emission.Call
import ShellVM.Proofs.Rollback.Traced

/-!
# Constants and pages that can be taken back

The emitters that add constants, pages and functions, and those that complete pages. A page that a definition replaces
was remembered before (`Traces.define`).
-/

namespace ShellVM

variable {c : Compiler} {ds : List Definition} {s s' : Workbench}

/-! ## Constants -/

/-- A constant does not depend on the program. -/
def Constant.Plain : Constant → Prop
  | .page _ | .libraryFunction _ => False
  | _ => True

theorem Constant.Plain.within {k : Constant} (h : k.Plain) (pages library : Nat) : k.Within pages library := by
  cases k <;> first | exact h.elim | trivial

theorem Constant.Plain.avoids {k : Constant} (h : k.Plain) (apart : Nat → Prop) : k.Avoids apart := by
  cases k <;> first | exact h.elim | trivial

/-- The key of a constant, if what it refers to is there. -/
theorem constantKey_traces {k : Constant} (hs : Undoable c s)
    (hk : k.Within s.program.pages.size s.program.library.size)
    (hapart : ∀ {apart}, c.Has apart → s.Closed apart → k.Avoids apart) :
    Outcome (fun _ s' => Undoable c s' ∧ Moves c [] s s') (Undoable c) (Emit.constantKey k s) := by
  have hadd : Undoable c (s.addConstant k).2 ∧ Moves c [] s (s.addConstant k).2 :=
    ⟨hs.congr rfl rfl rfl rfl, .of_draft rfl rfl fun ha hc => hc.draft.add hk (hapart ha hc)⟩
  have hget : Outcome (fun _ s' => Undoable c s' ∧ Moves c [] s s') (Undoable c)
      ((modifyGet (·.addConstant k) : Emit (Option UInt16)) s) := hadd
  refine hget.bind fun key? s' _ h => ?_
  cases key? with
  | some key => exact h
  | none => exact h.1

namespace Traces

theorem constantKey {k : Constant} (hk : k.Plain) : Traces c [] (Emit.constantKey k) :=
  fun _ hs => constantKey_traces hs (hk.within _ _) fun _ _ => hk.avoids _

end Traces

/-! ## New pages -/

/-- What becomes of a page depends on nothing but the page. -/
theorem restore_congr {i : Nat} : ∀ (replaced : List (UInt16 × Page)) {pages pages' : Array Page},
    pages[i]? = pages'[i]? → (replaced.foldl (fun ps r => ps.setIfInBounds r.1.toNat r.2) pages)[i]? =
      (replaced.foldl (fun ps r => ps.setIfInBounds r.1.toNat r.2) pages')[i]?
  | [], _, _, h => h
  | r :: replaced, pages, pages', h => by
    refine restore_congr replaced ?_
    rw [Array.getElem?_setIfInBounds, Array.getElem?_setIfInBounds, h]
    have hlt : pages.size ≤ i ↔ pages'.size ≤ i := by
      rw [← Array.getElem?_eq_none_iff, ← Array.getElem?_eq_none_iff, h]
    have hlt' : i < pages.size ↔ i < pages'.size := by omega
    split
    · next he => rw [he]; simp only [hlt']
    · rfl

/-- A page that the compiler did not have is reserved. -/
theorem Undoable.reserve (hs : Undoable c s) (name : String) : Undoable c (s.reserve name) where
  count := by
    have := hs.count
    simp only [Workbench.reserve, Array.size_push]
    omega
  pages := fun i hi => by
    rw [← hs.pages i hi]
    refine restore_congr _ ?_
    have := hs.count
    simp only [Workbench.reserve]
    rw [Array.getElem?_push, if_neg (by omega)]
  library := hs.library
  functions := by
    obtain ⟨new, hn, hb⟩ := hs.functions
    refine ⟨new, hn, fun f hf => ⟨(hb f hf).1, ?_, (hb f hf).2.2⟩⟩
    have := (hb f hf).2.1
    simp only [Workbench.reserve, Array.size_push]
    omega
  apart := hs.apart
  defined := hs.defined
  known := hs.known

/-- A page that the compiler did not have becomes another one. -/
theorem Undoable.modify (hs : Undoable c s) {index : UInt16} {f : Page → Page} {defined : List Nat}
    (hi : c.program.pages.size ≤ index.toNat)
    (hd : ∃ new, defined = new ++ c.defined ∧ ∀ id ∈ new, c.functions.lookup id = none)
    (hk : ∀ id ∈ defined, (s.functions.lookup id).isSome) :
    Undoable c { s with
      program := { s.program with pages := s.program.pages.modify index.toNat f }, defined } where
  count := by simpa using hs.count
  pages := fun i hlt => by
    rw [← hs.pages i hlt]
    refine restore_congr _ ?_
    rw [Array.getElem?_modify, if_neg (by omega)]
  library := hs.library
  functions := by simpa using hs.functions
  apart := hs.apart
  defined := hd
  known := hk

theorem Grows.reserve (s : Workbench) (name : String) : Grows s (s.reserve name) where
  known := .reserve
  functions := fun _ _ h => h
  fresh := fun _ _ h => .inl h
  count := by simp [Workbench.reserve]
  pages := fun i hi _ => by
    simp only [Workbench.reserve]
    rw [Array.getElem?_push, if_neg (by omega)]
  library := fun _ _ h => h

theorem Moves.reserve (s : Workbench) (hs : Undoable c s) (name : String) : Moves c [] s (s.reserve name) where
  grows := .reserve s name
  library := Nat.le_refl _
  closed := fun _ hc => by
    have hle : s.program.pages.size ≤ (s.reserve name).program.pages.size := by simp [Workbench.reserve]
    refine ⟨fun page hpage => ?_, hc.draft.mono hle (Nat.le_refl _), hc.functions⟩
    rcases Array.mem_push.1 hpage with hpage | rfl
    · exact (hc.pages page hpage).mono hle (Nat.le_refl _)
    · exact .empty
  pages := fun i hi => by
    have := hs.count
    show (s.program.pages.push _)[i]? = _
    rw [Array.getElem?_push, if_neg (by omega)]
  bodies := .of_pages fun i page h => by
    have := (Array.getElem?_eq_some_iff.1 h).1
    show (s.program.pages.push _)[i]? = _
    rw [Array.getElem?_push, if_neg (by omega)]
    exact h

theorem reservePage_traces (hs : Undoable c s) (name : String) :
    Outcome (fun index s' => s' = s.reserve name ∧ index.toNat = s.program.pages.size) (Undoable c)
      (Emit.reservePage name s) := by
  refine .get (.check (fun _ => hs) fun hc => ⟨rfl, ?_⟩)
  show (s.program.pages.size.toUInt16).toNat = _
  rw [UInt16.toNat_ofNat', Nat.mod_eq_of_lt (by omega)]

/-- Every function has a page: one that the compiler had, or one behind those. -/
theorem Undoable.lookup (hs : Undoable c s) (hc : c.Whole) {id : Nat} {index : UInt16}
    (h : s.functions.lookup id = some index) : index.toNat < s.program.pages.size ∧
      (c.functions.lookup id = some index ∨ c.functions.lookup id = none ∧ c.program.pages.size ≤ index.toNat) := by
  obtain ⟨new, hnew, hbelow⟩ := hs.functions
  rw [hnew, List.lookup_append] at h
  cases hl : new.lookup id with
  | some i =>
    rw [hl] at h
    cases h
    obtain ⟨h₁, h₂, h₃⟩ := hbelow _ (mem_of_lookup_eq hl)
    exact ⟨h₂, .inr ⟨h₃, h₁⟩⟩
  | none =>
    rw [hl] at h
    exact ⟨Nat.lt_of_lt_of_le (hc.below _ (mem_of_lookup_eq h)) hs.count, .inl h⟩

theorem Undoable.functionPage (hs : Undoable c s) (hc : c.Whole) {id : Nat} {index : UInt16} {name : String}
    (hl : s.functions.lookup id = none) (hi : index.toNat = s.program.pages.size) :
    Undoable c { s.reserve name with functions := (id, index) :: s.functions } := by
  have hsize : (s.reserve name).program.pages.size = s.program.pages.size + 1 := Array.size_push _
  have hlookup (id' : Nat) := lookup_cons_ite s.functions id id' index
  have hold {id' : Nat} {i : UInt16} (h : s.functions.lookup id' = some i) : i ≠ index := by
    rintro rfl
    have := (hs.lookup hc h).1
    omega
  refine { hs.reserve name with functions := ?_, apart := fun id₁ id₂ i h₁ h₂ => ?_, known := fun id' hd => ?_ }
  · obtain ⟨new, hnew, hbelow⟩ := hs.functions
    have hlc : c.functions.lookup id = none := by
      rw [hnew, List.lookup_append] at hl
      exact (Option.or_eq_none_iff.1 hl).2
    refine ⟨(id, index) :: new, by rw [hnew]; rfl, fun f hf => ?_⟩
    rcases List.mem_cons.1 hf with rfl | hf
    · exact ⟨hi ▸ hs.count, by show index.toNat < (s.reserve name).program.pages.size; omega, hlc⟩
    · obtain ⟨h₁, h₂, h₃⟩ := hbelow f hf
      exact ⟨h₁, by show f.2.toNat < (s.reserve name).program.pages.size; omega, h₃⟩
  · simp only at h₁ h₂
    rw [hlookup] at h₁ h₂
    split at h₁ <;> split at h₂
    · next e₁ e₂ => rw [e₁, e₂]
    · cases h₁; exact absurd rfl (hold h₂)
    · cases h₂; exact absurd rfl (hold h₁)
    · exact hs.apart id₁ id₂ i h₁ h₂
  · rw [hlookup]
    split
    · rfl
    · exact hs.known id' hd

/-- The page of a function is the one that the compiler has for it, or another one. -/
theorem functionPage_traces (hs : Undoable c s) (hc : c.Whole) (id : Nat) :
    Outcome (fun index s' => (Undoable c s' ∧ Moves c [] s s') ∧ s'.functions.lookup id = some index)
      (Undoable c) (Emit.functionPage id s) := by
  refine .get ?_
  cases hl : s.functions.lookup id with
  | some index => exact ⟨⟨hs, .of_draft rfl rfl fun _ h => h.draft⟩, hl⟩
  | none =>
    refine (reservePage_traces hs _).bind fun index s' hr ⟨h, hi⟩ => ?_
    subst h
    have hf : Emit.functionPage id s = .ok index
        { s.reserve ("<function " ++ id.repr ++ ">") with functions := (id, index) :: s.functions } := by
      unfold Emit.functionPage
      refine bind_ok.2 ⟨s, s, rfl, ?_⟩
      rw [hl]
      exact bind_ok.2 ⟨_, _, hr, rfl⟩
    have hm := Moves.reserve s hs ("<function " ++ id.repr ++ ">")
    refine ⟨⟨hs.functionPage hc hl hi, { hm with
      grows := (Emits.functionPage id hf).adds.program
      bodies := ⟨fun d hd => absurd hd (by simp [definition?]), hm.bodies.kept⟩
      closed := fun ha h => { hm.closed ha h with functions := fun id' i hi' => ?_ } }⟩, ?_⟩
    · rcases (Emits.functionPage id hf).adds.program.fresh id' i hi' with hold | hfresh
      · exact h.functions id' i hold
      · intro hi''
        have := ha _ hi''
        have := hs.count
        omega
    · exact List.lookup_cons_self

/-- A library function is added behind the others. -/
theorem libraryIndex_traces (hs : Undoable c s) (f : LibraryFunction) :
    Outcome (fun index s' => (Undoable c s' ∧ Moves c [] s s') ∧ index.toNat < s'.program.library.size)
      (Undoable c) (Emit.libraryIndex f s) := by
  cases hm : Emit.libraryIndex f s with
  | ok index s' =>
    obtain ⟨⟨entry, he, -⟩, more, rfl⟩ := Emit.libraryIndex_ok hm
    obtain ⟨more', hlibrary⟩ := hs.library
    have hle : s.program.library.size ≤ (s.program.library ++ more).size := by simp
    refine ⟨⟨{ hs with library := ⟨more' ++ more, ?_⟩ }, ?_⟩, (Array.getElem?_eq_some_iff.1 he).1⟩
    · simp only [hlibrary, Array.append_assoc]
    · refine ⟨(Emits.libraryIndex f hm).adds.program, hle, fun _ hc => ⟨fun page hpage => ?_, ?_, hc.functions⟩,
        fun i _ => rfl, .of_pages fun _ _ h => h⟩
      · exact (hc.pages page hpage).mono (Nat.le_refl _) hle
      · exact hc.draft.mono (Nat.le_refl _) hle
  | error e s' =>
    have hsame : Outcome (fun _ _ => True) (fun s' => s' = s) (Emit.libraryIndex f s) := by
      refine .get ?_
      cases s.program.library.findIdx? (fun e => e.function? = some f) with
      | some i => exact .check (fun _ => rfl) fun _ => trivial
      | none => exact .check (fun _ => rfl) fun _ => trivial
    rw [hm] at hsame
    obtain rfl : s' = s := hsame
    exact hs

/-! ## Completed pages -/

/-- The emitter of a page, which leaves the draft as it was. -/
def TracesPage (c : Compiler) (ds : List Definition) (m : Emit Page) : Prop :=
  ∀ ⦃s : Workbench⦄, Undoable c s → Outcome (fun page s' => Undoable c s' ∧ Moves c ds s s' ∧ s'.draft = s.draft ∧
    ∀ {apart}, c.Has apart → s.Closed apart → page.constants.Fits apart s'.program.pages.size s'.program.library.size)
    (Undoable c) (m s)

/-- The draft does not matter, as long as its constants refer to what is there. -/
theorem Moves.redraft {d d' : Draft} {drafts drafts' : List Draft}
    (h : Moves c ds { s with draft := d, enclosing := drafts } s')
    (hc : ∀ {apart}, c.Has apart → s.Closed apart →
      ({ s' with draft := d', enclosing := drafts' } : Workbench).Closed apart) :
    Moves c ds s { s' with draft := d', enclosing := drafts' } where
  grows := { h.grows with }
  library := h.library
  closed := hc
  pages := by
    intro i hi
    have h := h.pages i hi
    cases hl : c.redefinition? i ds with
    | none => rw [hl] at h; exact h
    | some d =>
      rw [hl] at h
      obtain ⟨t, t', page, h₁, hd, h₂, hi⟩ := h
      exact ⟨t, t', page, { h₁ with }, hd, { h₂ with }, hi⟩
  bodies := h.bodies.congr rfl rfl rfl rfl

theorem Emit.modifyPage_eq {index : UInt16} {f : Page → Page} (h : index.toNat < s.program.pages.size) :
    Emit.modifyPage index f s =
      .ok () { s with program := { s.program with pages := s.program.pages.modify index.toNat f } } := by
  have hget : Outcome (fun _ s' => s' = { s with program := { s.program with
      pages := s.program.pages.modify index.toNat f } }) (fun _ => False) (Emit.modifyPage index f s) :=
    .get (.check (fun hc => by omega) fun _ => rfl)
  cases hm : Emit.modifyPage index f s with
  | ok _ s' => rw [hm] at hget; rw [show s' = _ from hget]
  | error e s' => rw [hm] at hget; exact hget.elim

/-- A page that is there becomes another one, whose constants are fine, too. -/
theorem Workbench.Closed.modify {apart : Nat → Prop} (h : s.Closed apart) {index : Nat} {f : Page → Page}
    {defined : List Nat} {replaced : List (UInt16 × Page)}
    (hf : ∀ old, (f old).constants.Fits apart s.program.pages.size s.program.library.size) :
    ({ s with defined, replaced, program := { s.program with pages := s.program.pages.modify index f } } :
      Workbench).Closed apart where
  pages := fun page hpage => by
    simp only [Array.size_modify]
    obtain ⟨i, hi⟩ := Array.mem_iff_getElem?.1 hpage
    simp only [Array.getElem?_modify] at hi
    split at hi
    · obtain ⟨old, -, rfl⟩ := Option.map_eq_some_iff.1 hi
      exact hf old
    · exact h.pages page (Array.mem_of_getElem? hi)
  draft := by
    simp only [Array.size_modify]
    exact h.draft
  functions := h.functions

/-- Functions have pages that are there. -/
theorem Undoable.hasPages (hs : Undoable c s) (hc : c.Whole) : s.Known := fun _ _ h => (hs.lookup hc h).1

/-- A page that was reserved is none of a function. -/
theorem Bodies.install {name : String} {index : UInt16} {page : Page} (hr : Reserved s s' name index) (hk : s.Known)
    (h : Bodies ds (s.reserve name) s') : Bodies ds s (s'.install index page) where
  compiled := fun d hd => by
    obtain ⟨i, page', hi, hpage, hlies⟩ := h.compiled d hd
    have hne : i.toNat ≠ index.toNat := hr.noFunction hk d.id i hi
    exact ⟨i, page', hi, (Workbench.getElem?_install page hne).trans hpage, fun hf => hlies (hr.final hf)⟩
  kept := fun id i page' hnone hi hpage => by
    have hlt := hk id i hi
    have hindex := hr.index
    rw [Workbench.getElem?_install page (by omega)]
    refine h.kept id i page' hnone hi ?_
    show (s.program.pages.push _)[i.toNat]? = _
    rw [Array.getElem?_push, if_neg (by omega)]
    exact hpage

/-- A page that was reserved is completed. -/
theorem Moves.install {name : String} {index : UInt16} {page : Page} (hc : c.Whole) (hs : Undoable c s)
    (hi : index.toNat = s.program.pages.size) (hm : Moves c ds (s.reserve name) s')
    (hfits : ∀ {apart}, c.Has apart → s.Closed apart →
      page.constants.Fits apart s'.program.pages.size s'.program.library.size) :
    Moves c ds s (s'.install index page) := by
  have hr : Reserved s s' name index := ⟨hi, hm.grows⟩
  have hres := Moves.reserve s hs name
  have hcount := hs.count
  have hsame (i : Nat) (h : i < c.program.pages.size) :
      (s'.install index page).program.pages[i]? = s'.program.pages[i]? := Workbench.getElem?_install page (by omega)
  have hsize : (s'.install index page).program.pages.size = s'.program.pages.size := Array.size_modify
  refine ⟨hr.grows page, Nat.le_trans hres.library hm.library, fun ha hc => ?_, fun i h => ?_,
    hm.bodies.install hr (hs.hasPages hc)⟩
  · exact (hm.closed ha (hres.closed ha hc)).modify fun _ => hfits ha hc
  · have hpages := hm.pages i h
    cases hl : c.redefinition? i ds with
    | none =>
      rw [hl] at hpages
      exact (hsame i h).trans (hpages.trans (hres.pages i h))
    | some d =>
      rw [hl] at hpages
      obtain ⟨t, t', new, h₁, hd, h₂, hpages⟩ := hpages
      refine ⟨t, t', new, hres.grows.retains.trans h₁, hd, { h₂ with count := ?_ }, ?_⟩
      · rw [hsize]
        exact h₂.count
      · rw [hsame i h, hpages, hres.pages i h]

/-- A page that is replaced can be restored. -/
theorem Undoable.replace (hs : Undoable c s) {index : UInt16} {old : Page} {f : Page → Page}
    (hold : s.program.pages[index.toNat]? = some old) : Undoable c { s with
      program := { s.program with pages := s.program.pages.modify index.toNat f },
      replaced := (index, old) :: s.replaced } where
  count := by simpa using hs.count
  pages := fun i hi => by
    rw [← hs.pages i hi]
    refine restore_congr s.replaced ?_
    rw [Array.getElem?_setIfInBounds, Array.getElem?_modify, Array.size_modify]
    split
    · next he => rw [← he, if_pos (Array.getElem?_eq_some_iff.1 hold).1, hold]
    · rfl
  library := hs.library
  functions := by simpa using hs.functions
  apart := hs.apart
  defined := hs.defined
  known := hs.known

/-- The emitter of the definition's page writes the code of its body. -/
def Definition.Composed (d : Definition) : Prop :=
  Composes d.page d.parameters [] d.body.captured fun S => S.valued d.body.producesValue (d.body.Lies S)

/-- The page of a function becomes that of its definition, which was compiled between `t` and `t'`. -/
theorem Bodies.define {d : Definition} {t t' : Workbench} {page : Page} {index : UInt16} {f : Page → Page}
    (h : Bodies ds s t') (ht : Grows s t) (ht' : Grows t t') (hg : Grows t' s') (hk : t.Known)
    (hpage : d.page t = .ok page t')
    (hu : Undoable c t') (hl : t'.functions.lookup d.id = some index) (hlt : index.toNat < t'.program.pages.size)
    (hcode : d.Composed) (hf : ∀ old, (f old).code = page.code ∧ (f old).constants = page.constants ∧
      (f old).arity = page.arity)
    (hpages : ∀ i : Nat, s'.program.pages[i]? = if index.toNat = i then t'.program.pages[i]?.map f
      else t'.program.pages[i]?) :
    Bodies (ds ++ [d]) s s' := by
  have hother {id : Nat} (hid : id ≠ d.id) (i : UInt16) (old : Page) (hi : t'.functions.lookup id = some i)
      (hold : t'.program.pages[i.toNat]? = some old) : s'.program.pages[i.toNat]? = some old := by
    rw [hpages, if_neg, hold]
    intro heq
    obtain rfl : index = i := UInt16.toNat_inj.1 heq
    exact hid (hu.apart id d.id index hi hl)
  have hlast : definition? d.id [d] = some d := List.find?_cons_of_pos (beq_self_eq_true d.id)
  have hnone {id : Nat} (hid : id ≠ d.id) : definition? id [d] = none :=
    List.find?_cons_of_neg (by simpa using Ne.symm hid)
  refine ⟨fun d' hd' => ?_, fun id i old hnot hi hold => ?_⟩
  · rw [definition?_append] at hd'
    by_cases hid : d'.id = d.id
    · rw [hid, hlast] at hd'
      obtain rfl : d = d' := Option.some.inj hd'
      have hget : s'.program.pages[index.toNat]? = some (f t'.program.pages[index.toNat]) := by
        rw [hpages, if_pos rfl, Array.getElem?_eq_getElem hlt]
        rfl
      refine ⟨index, _, hg.functions _ _ hl, hget, fun {program functions} hfinal => ?_⟩
      have hfinal : Final program functions t.program.pages.size t' := (hfinal.back hg).mono ht.count
      obtain ⟨hbytes, hconstants, harity⟩ := hf t'.program.pages[index.toNat]
      exact (hcode hpage).2.2 (S := ⟨program, functions, f t'.program.pages[index.toNat], [], d.body.captured, false⟩)
        hk hbytes hconstants harity rfl rfl rfl hfinal
    · rw [hnone hid] at hd'
      exact (h.compiled d' hd').later hg (hother hid)
  · rw [definition?_append, Option.or_eq_none_iff] at hnot
    have hid : id ≠ d.id := by
      rintro rfl
      rw [hlast] at hnot
      cases hnot.1
    exact hother hid i old ((ht.functions id i hi |> ht'.functions id i)) (h.kept id i old hnot.2 hi hold)

/-- A page of a function becomes the one of its definition, which was compiled between `t` and `t'`. -/
theorem Moves.define {d : Definition} {t t' : Workbench} {page : Page} {index : UInt16} {f : Page → Page}
    {defined : List Nat} {replaced : List (UInt16 × Page)} (hm : Moves c ds s t') (ht : Grows s t) (ht' : Grows t t')
    (hk : t.Known) (hpage : d.page t = .ok page t') (hu : Undoable c t') (hc : c.Whole)
    (hl : t'.functions.lookup d.id = some index) (hdefined : defined = t'.defined ∨ defined = d.id :: t'.defined)
    (hfits : ∀ {apart}, c.Has apart → s.Closed apart →
      page.constants.Fits apart t'.program.pages.size t'.program.library.size) (hcode : d.Composed)
    (hf : ∀ old, (f old).code = page.code ∧ (f old).constants = page.constants ∧ (f old).arity = page.arity)
    (hold : d.id ∈ c.defined → ∀ old, f old = old.replaceBody page)
    (hs' : s' = { t' with defined, replaced,
                          program := { t'.program with pages := t'.program.pages.modify index.toNat f } }) :
    Moves c (ds ++ [d]) s s' := by
  obtain ⟨hlt, hor⟩ := hu.lookup hc hl
  have hg : Grows t' s' := by
    have hmod := Emit.modifyPage_eq (s := { t' with defined, replaced }) (f := f) hlt
    rw [hs']
    exact (Emits.modifyPage hmod hl hdefined).1
  have hpages (i : Nat) : s'.program.pages[i]? = if index.toNat = i then t'.program.pages[i]?.map f else
      t'.program.pages[i]? := by
    rw [hs']
    exact Array.getElem?_modify ..
  refine ⟨hm.grows.trans hg, hs' ▸ hm.library, fun ha hcs => ?_, fun i hi => ?_,
    hm.bodies.define ht ht' hg hk hpage hu hl hlt hcode hf hpages⟩
  · rw [hs']
    exact (hm.closed ha hcs).modify fun old => (hf old).2.1 ▸ hfits ha hcs
  · have hbefore := hm.pages i hi
    rw [Compiler.redefinition?_append]
    by_cases hd : (c.functions.lookup d.id).map UInt16.toNat = some i
    · have hlast : c.redefinition? i [d] = some d := List.find?_cons_of_pos (decide_eq_true hd)
      obtain ⟨j, hj, hji⟩ := Option.map_eq_some_iff.1 hd
      obtain rfl : j = index := by
        rcases hor with h | ⟨h, -⟩
        · exact Option.some.inj (hj.symm.trans h)
        · rw [hj] at h; cases h
      rw [hlast]
      refine ⟨t, t', page, ht.retains, hpage, hg.retains, ?_⟩
      rw [hpages, if_pos hji, show f = (·.replaceBody page) from funext (hold (hc.defined _ _ hj))]
      cases hl : c.redefinition? i ds with
      | none => rw [hl] at hbefore; rw [hbefore]
      | some d' =>
        rw [hl] at hbefore
        obtain ⟨_, _, page', _, _, _, hbefore⟩ := hbefore
        rw [hbefore, Option.map_map]
        rfl
    · have hlast : c.redefinition? i [d] = none := List.find?_cons_of_neg (by simpa only [decide_eq_true_eq] using hd)
      have hne : index.toNat ≠ i := by
        rintro rfl
        rcases hor with h | ⟨-, h⟩
        · exact hd (by rw [h]; rfl)
        · omega
      have hsame : s'.program.pages[i]? = t'.program.pages[i]? := by rw [hpages, if_neg hne]
      rw [hlast, Option.none_or]
      cases hl : c.redefinition? i ds with
      | none => rw [hl] at hbefore; exact hsame.trans hbefore
      | some d' => rw [hl] at hbefore; exact hbefore.trans hg.retains hsame

namespace Traces

theorem define (hc : c.Whole) (d : Definition) (hcode : d.Composed) (h : TracesPage c ds d.page) :
    Traces c (ds ++ [d]) (Emit.define d.id d.page) := by
  intro s hs
  refine (functionPage_traces hs hc d.id).bind fun index s₁ _ ⟨⟨hu₁, hm₁⟩, hl₁⟩ =>
    (h hu₁).bind fun page s₂ hp ⟨hu₂, hm₂, _, hfits⟩ => .get ?_
  have hl₂ := hm₂.grows.functions _ _ hl₁
  obtain ⟨hlt, hor⟩ := hu₂.lookup hc hl₂
  have hm : Moves c ds s s₂ := hm₁.trans hm₂
  obtain ⟨new, hnew, hnone⟩ := hu₂.defined
  have hcontains {id : Nat} : s₂.defined.contains id = true ↔ id ∈ s₂.defined := by simp
  split
  · next hd =>
    obtain ⟨old, hold⟩ : ∃ old, s₂.program.pages[index.toNat]? = some old := ⟨_, Array.getElem?_eq_getElem hlt⟩
    have hreplace : Emit.replacePage index page s₂ = .ok () { s₂ with
        replaced := (index, old) :: s₂.replaced
        program := { s₂.program with pages := s₂.program.pages.modify index.toNat (·.replaceBody page) } } := by
      refine bind_ok.2 ⟨s₂, s₂, rfl, ?_⟩
      rw [hold]
      exact bind_ok.2 ⟨⟨⟩, _, rfl, Emit.modifyPage_eq hlt⟩
    rw [hreplace]
    exact ⟨hu₂.replace hold, hm.define (f := (·.replaceBody page)) hm₁.grows hm₂.grows (hu₁.hasPages hc)
      hp hu₂ hc hl₂ (.inl rfl) (fun ha hcs => hfits ha (hm₁.closed ha hcs)) hcode
      (fun _ => ⟨rfl, rfl, rfl⟩) (fun _ _ => rfl) rfl⟩
  · next hd =>
    have hid : d.id ∉ c.defined := fun h => hd (hcontains.2 (hnew ▸ List.mem_append_right _ h))
    have hlookup : c.functions.lookup d.id = none := by
      cases hl : c.functions.lookup d.id with
      | none => rfl
      | some i => exact absurd (hc.defined _ _ hl) hid
    have hle : c.program.pages.size ≤ index.toNat := by
      rcases hor with h | ⟨-, h⟩
      · rw [hlookup] at h; cases h
      · exact h
    have hinstall : (do
        modify fun s => { s with defined := d.id :: s.defined }
        Emit.install index page : Emit Unit) s₂ = .ok () { s₂ with
        defined := d.id :: s₂.defined
        program := { s₂.program with pages := s₂.program.pages.modify index.toNat fun _ => page } } :=
      bind_ok.2 ⟨⟨⟩, _, rfl, Emit.modifyPage_eq (s := { s₂ with defined := d.id :: s₂.defined }) hlt⟩
    rw [hinstall]
    refine ⟨hu₂.modify hle ⟨d.id :: new, by rw [hnew]; rfl, ?_⟩ ?_, hm.define (f := fun _ => page) hm₁.grows hm₂.grows
      (hu₁.hasPages hc) hp hu₂ hc hl₂ (.inr rfl) (fun ha hcs => hfits ha (hm₁.closed ha hcs)) hcode
      (fun _ => ⟨rfl, rfl, rfl⟩) (fun h => absurd h hid) rfl⟩
    · intro id h
      rcases List.mem_cons.1 h with rfl | h
      · exact hlookup
      · exact hnone id h
    · intro id h
      rcases List.mem_cons.1 h with rfl | h
      · rw [hl₂]; rfl
      · exact hu₂.known id h

end Traces

end ShellVM
