import ShellVM.Proofs.Direct.Respects
import ShellVM.Proofs.Rooted.Page
import ShellVM.Proofs.Verifier

/-!
# Entries stand apart

The pages of entries are nobody's function: no function that a compiler knows has one, and no constant refers to one.
All other pages hold the code of functions and closures. Every entry leaves that as it is (`Compiler.Secludes.enter`).
-/

namespace ShellVM.Compiler

variable {c c' : Compiler} {e : Expr} {index : UInt16} {entries apart : Nat → Prop}

/-- The compiler has the pages of these entries, which nothing refers to, and otherwise pages of functions and
closures. -/
structure Secludes (entries : Nat → Prop) (c : Compiler) : Prop where
  sound : c.Sound
  stable : c.StableBut entries
  has : c.Has entries
  closed : (c.bench (entryDraft default)).Closed entries

theorem Secludes.new : new.Secludes fun _ => False where
  sound := .new
  stable := .new
  has := fun _ => False.elim
  closed := ⟨fun _ h => absurd h (Array.not_mem_empty _), .empty, fun _ _ _ => id⟩

/-- The compiler with the page of an entry, which is still empty. -/
def reserving (c : Compiler) (e : Expr) : Compiler :=
  ⟨((c.bench (entryDraft e)).reserve entryName).program, c.functions, c.defined⟩

theorem Whole.reserving (hc : c.Whole) (e : Expr) : (c.reserving e).Whole where
  defined := hc.defined
  known := hc.known
  below := fun f hf => by
    have := hc.below f hf
    simp only [Compiler.reserving, Workbench.reserve, bench, Array.size_push]
    omega
  apart := hc.apart

/-- Nothing refers to a page that has only been reserved. -/
theorem Secludes.reserving (hc : c.Secludes entries) (e : Expr) :
    ((c.reserving e).bench (entryDraft e)).Closed fun i => entries i ∨ i = c.program.pages.size where
  pages := fun page hpage => by
    have hle : c.program.pages.size ≤ ((c.reserving e).bench (entryDraft e)).program.pages.size := by
      simp [Compiler.reserving, Workbench.reserve, bench]
    rcases Array.mem_push.1 hpage with hpage | rfl
    · have hfits := hc.closed.pages page hpage
      refine ⟨hfits.within.mono hle (Nat.le_refl _), fun k hk => ?_⟩
      cases k with
      | page index =>
        rintro (h | h)
        · exact hfits.avoids _ hk h
        · have : index.toNat < c.program.pages.size := hfits.within _ hk
          omega
      | _ => trivial
    · exact .empty
  draft := .empty
  functions := fun id i hi => by
    rintro (h | h)
    · exact hc.closed.functions id i hi h
    · have : i.toNat < c.program.pages.size := hc.sound.whole.below (id, i) (mem_of_lookup_eq hi)
      omega

/-- The page of an entry is a new one. -/
theorem enter_index (h : c.enter e = (.ok index, c')) : index.toNat = c.program.pages.size := by
  obtain ⟨s, he, -⟩ := Compiler.enter_ok h
  obtain ⟨s₁, -, hr, -⟩ := emitEntry_ok rfl rfl he
  exact hr.index

/-- One more entry. -/
theorem Secludes.enter_ok (hc : c.Secludes entries) (h : c.enter e = (.ok index, c')) :
    c'.Secludes fun i => entries i ∨ i = index.toNat := by
  have hsound := hc.sound.enter_ok h
  have hstable := (hc.stable.enter h).1
  have hindex := enter_index h
  obtain ⟨s, he, rfl⟩ := Compiler.enter_ok h
  obtain ⟨s₁, hemit, -, rfl, -⟩ := emitEntry_ok rfl rfl he
  have hhas : (c.reserving e).Has fun i => entries i ∨ i = index.toNat := by
    have hsize : (c.reserving e).program.pages.size = c.program.pages.size + 1 := Array.size_push _
    rintro i (hi | rfl)
    · have := hc.has i hi
      omega
    · omega
  -- what the code of the entry does is seen from a compiler that has the page of the entry already
  have hcode := Traces.valued e.producesValue (e.traces (hc.sound.whole.reserving e))
    ((hc.sound.whole.reserving e).undoable (entryDraft e))
  have hrun : Emit.valued e.producesValue e.emit ((c.reserving e).bench (entryDraft e)) = .ok () s₁ := hemit
  rw [hrun] at hcode
  have hclosed : s₁.Closed fun i => entries i ∨ i = index.toNat := hcode.2.closed hhas (hindex ▸ hc.reserving e)
  have hinstalled : ({ s₁ with program := { s₁.program with
      pages := s₁.program.pages.modify index.toNat fun _ => s₁.draft.page } } : Workbench).Closed
        fun i => entries i ∨ i = index.toNat := hclosed.modify fun _ => hclosed.draft
  refine ⟨hsound, hstable, fun i hi => ?_, hinstalled.redraft rfl rfl .empty⟩
  have hle : (c.reserving e).program.pages.size ≤ s₁.program.pages.size := hcode.2.grows.count
  have := hhas i hi
  show i < (s₁.program.pages.modify _ _).size
  rw [Array.size_modify]
  omega

/-- Root calls stand only in the pages of entries. -/
theorem Secludes.rootless (hc : c.Secludes entries) {page : Page} (hpage : c.program.page? index = some page)
    (hindex : ¬entries index.toNat) : page.Rootless := by
  obtain ⟨n, hlaid | ⟨hentry, -⟩, -⟩ := hc.stable.laidAt (e := default) hpage
  · exact hlaid.rootless hc.sound.stable.hosts
  · exact absurd hentry hindex

/-- The functions of a program are none of its entries, nor will they be. -/
theorem Secludes.names (hc : c.Secludes entries) (hapart : ∀ i, apart i → entries i ∨ c.program.pages.size ≤ i) :
    c.program.Names ⟨fun index => ¬apart index.toNat, fun _ => True⟩ where
  pages := fun _ page hpage key index hkey hindex => by
    have hfits := hc.closed.pages page (Array.mem_of_getElem? hpage)
    have hmem : Constant.page index ∈ page.constants.entries := Array.mem_of_getElem? hkey
    rcases hapart _ hindex with h | h
    · exact hfits.avoids _ hmem h
    · have : index.toNat < c.program.pages.size := hfits.within _ hmem
      omega
  library := fun _ _ _ => trivial

end ShellVM.Compiler
