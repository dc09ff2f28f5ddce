import ShellVM.Proofs.Bookkeeping.Expression
import ShellVM.Proofs.Rollback.Entry

/-!
# Compilers keep their books

`Compiler.bookkeeping_never_fails`: whatever entries a compiler has been given, and whichever of them failed, the
compiler that checks its bookkeeping and the one that does not do the same with the next one. An entry that fails is
at fault itself: it asks for too much, for something that has no meaning, or for a variable or a function that is not
there.
-/

namespace ShellVM.Compiler

open Emit

variable {c c' : Compiler} {e : Expr} {index : UInt16}

/-- The functions that are known have pages, and the lines of each page stand at its instructions. -/
structure Steady (c : Compiler) : Prop where
  functions : ∀ f ∈ c.functions, f.2.toNat < c.program.pages.size
  lined : ∀ page ∈ c.program.pages, page.Lined

theorem Steady.new : new.Steady where
  functions := fun _ hf => absurd hf List.not_mem_nil
  lined := fun _ hpage => absurd hpage (Array.not_mem_empty _)

/-- Nothing has been emitted into the page of an entry. -/
theorem ready_entryDraft {s : Workbench} (hfunctions : ∀ f ∈ s.functions, f.2.toNat < s.program.pages.size)
    (hlined : ∀ page ∈ s.program.pages, page.Lined) (e : Expr) :
    ({ s with draft := entryDraft e, enclosing := [] } : Workbench).Ready e.captured := by
  refine ⟨⟨⟨?_, .zero, ?_, .of_lines_eq_empty rfl⟩, hfunctions, hlined⟩, rfl, ⟨?_, ?_⟩⟩
  all_goals
    intro a ha
    cases ha

theorem Steady.emitEntry (hc : c.Steady) (e : Expr) :
    Settles (fun _ s' => s'.Steady) (emitEntryWith Checked.differences e (c.bench (entryDraft e)))
      (Compiler.emitEntry e (c.bench (entryDraft e))) := by
  have hs : (c.bench (entryDraft e)).Ready e.captured :=
    ready_entryDraft (s := c.bench (entryDraft e)) hc.functions hc.lined e
  refine (reservePage_settles entryName hs.start).bind fun index s₁ ⟨h₁, hindex⟩ => ?_
  let u : Workbench := { s₁ with draft := entryDraft e, enclosing := [] }
  have hu : u.Ready e.captured := ready_entryDraft h₁.steady.functions h₁.steady.lined e
  refine Settles.bind (Q := fun _ s' => s' = u) (.ok rfl) fun _ s₂ hs₂ => ?_
  rw [hs₂]
  refine ((e.lifts fun _ hname => hname).valued u hu).bind fun _ s₃ h₃ => ?_
  simp only [draft_bind_run]
  refine (install_settles h₃.here (Nat.lt_of_lt_of_le hindex h₃.pages) h₃.steady.draft.lined).bind fun _ s₄ h₄ => ?_
  simp only [get_bind_run]
  cases hundefined : undefined? s₄.functions s₄.defined with
  | none => exact .ok h₄.steady
  | some id =>
    refine .error fun d hd => .inr ⟨id, ?_⟩
    cases hd
    rfl

/-- What becomes of one more entry. -/
theorem Steady.enter (hc : c.Steady) (e : Expr) : Checked.enter c e = c.enter e ∧
    (∀ error, (c.enter e).1 = .error error → error.Permitted) ∧
    ∀ index, (c.enter e).1 = .ok index → (c.enter e).2.Steady := by
  have h := hc.emitEntry e
  rw [enter_eq]
  unfold Checked.enter enterWith
  generalize emitEntryWith Checked.differences e (c.bench (entryDraft e)) = r at h ⊢
  generalize Compiler.emitEntry e (c.bench (entryDraft e)) = r' at h ⊢
  cases h with
  | ok hsteady =>
    refine ⟨rfl, ?_, ?_⟩
    · intro error herror
      cases herror
    · intro _ _
      exact ⟨hsteady.functions, hsteady.lined⟩
  | error hpermitted =>
    refine ⟨rfl, ?_, ?_⟩
    · intro error herror
      cases herror
      exact hpermitted
    · intro index hindex
      cases hindex

/-- The compiler after one more entry. An entry that fails leaves it as it was. -/
theorem Steady.entered (hc : c.Steady) (hsound : c.Sound) (e : Expr) : (c.enter e).2.Steady := by
  cases henter : c.enter e with
  | mk result c' =>
    cases result with
    | ok index =>
      have hok := (hc.enter e).2.2 index
      rw [henter] at hok
      exact hok rfl
    | error error =>
      rw [hsound.whole.enter_error henter]
      exact hc

/-- The compiler after any entries. -/
theorem Steady.addAll (hc : c.Steady) (hsound : c.Sound) (es : List Expr) : (c.addAll es).Steady :=
  (addAll_induction (P := fun c => c.Sound ∧ c.Steady) (fun c e hc => ⟨hc.1.enter c e, hc.2.entered hc.1 e⟩) es
    ⟨hsound, hc⟩).2

/-- No check of the compiler's own bookkeeping ever fails: none of those that it makes, of the stack, of loops, of
cells, of pages that are filled in and of the page to go back to, and none of those that it leaves out where it takes
differences of heights. All that it blames on itself is a variable or a function that is not there. -/
theorem bookkeeping_never_fails (es : List Expr) (e : Expr) :
    Checked.enter (new.addAll es) e = (new.addAll es).enter e ∧
      ∀ d, ((new.addAll es).enter e).1 = .error (.internal d) →
        (∃ name, d = .unresolvedVariable name) ∨ ∃ id, d = .undefinedFunction id := by
  obtain ⟨hsame, hpermitted, -⟩ := (Steady.new.addAll .new es).enter e
  exact ⟨hsame, fun d hd => hpermitted _ hd d rfl⟩

end ShellVM.Compiler
