import ShellVM.Proofs.Meaning.Control
import ShellVM.Proofs.Meaning.Operation

/-!
# Code for expressions

The code of an expression without calls does what the evaluator does with it (`Expr.CallFree.does`), and captures no
variable.
-/

namespace ShellVM

variable {E : Stage} {line : UInt32} {node : Node} {part : Part} {code : Layout} {x : Eval Value} {e : Expr}

/-! ## Expressions -/

/-- An expression whose code is a part. -/
theorem Stage.Runs.does (h : E.Runs part x) (hproduces : node.producesValue = true)
    (hlies : node.Lies E.sheet = part.layout) : E.Does (.mk line node) x := by
  have hvalue : (Expr.mk line node).producesValue = true := hproduces
  unfold Stage.Does
  rw [hvalue, if_pos rfl]
  intro Γ G p p' s m hcode hover hm
  have hcode : node.Lies E.sheet Γ p Γ.push p' := hcode
  rw [hlies] at hcode
  exact h hcode.1 hover hm

/-- An expression whose code leaves no value. -/
theorem Stage.Walks.does (h : E.Walks code x) (hproduces : node.producesValue = false)
    (hlies : node.Lies E.sheet = code) : E.Does (.mk line node) x := by
  have hvalue : (Expr.mk line node).producesValue = false := hproduces
  unfold Stage.Does
  rw [hvalue, if_neg (by decide)]
  intro Γ G p Γ' p' s m hcode hover hm
  have hcode : node.Lies E.sheet Γ p Γ' p' := hcode
  rw [hlies] at hcode
  exact h hcode hover hm

/-- An evaluation without fuel comes to nothing. -/
theorem Stage.does_stuck (E : Stage) (e : Expr) : E.Does e (throw .stuck) := by
  unfold Stage.Does
  split
  · exact fun _ _ _ _ _ _ _ _ _ => trivial
  · exact fun _ _ _ _ _ _ _ _ _ _ => trivial

/-- **The code of an expression does what the evaluator does with it.** -/
theorem Expr.CallFree.does (hE : E.Bare) (fuel : Nat) (h : e.CallFree) : E.Does e (e.evaluate fuel) := by
  induction fuel generalizing e with
  | zero => exact E.does_stuck e
  | succ fuel ih =>
    have value {e : Expr} (he : e.CallFree) :
        E.Runs (E.sheet.valued e.producesValue (e.Lies E.sheet)) (Eval.enclosed (e.evaluate fuel)) := (ih he).runs hE
    cases h with
    | literal l => exact (literal_runs hE l).does rfl rfl
    | «variable» name => exact (variable_runs hE name).does rfl rfl
    | declare name h => exact (declaration_walks hE (value h)).does rfl rfl
    | assign name h => exact (assign_runs hE name (value h)).does rfl rfl
    | store hvalue hcontainer hindex =>
      exact (indexStore_runs hE (value hvalue) (value hcontainer) (value hindex)).does rfl rfl
    | binary o hleft hright =>
      cases o with
      | and => exact (short_runs hE (value hleft) (value hright) false rfl).does rfl rfl
      | or => exact (short_runs hE (value hleft) (value hright) true rfl).does rfl rfl
      | _ => exact (binary_runs hE (value hleft) (value hright) _).does rfl rfl
    | unary o h => exact (unary_runs hE (value h) o).does rfl rfl
    | cast h target => exact (cast_runs hE (value h) target).does rfl rfl
    | tuple h => exact (tuple_runs hE rfl fun e he => value (h e he)).does rfl rfl
    | list h => exact (list_runs hE rfl fun e he => value (h e he)).does rfl rfl
    | index htarget hindex => exact (index_runs hE (value htarget) (value hindex)).does rfl rfl
    | block h => exact (block_runs hE (items_deliver hE rfl fun e he => ih (h e he))).does rfl rfl
    | @branch _ _ _ no? hcondition hyes hno =>
      cases no? with
      | some no => exact (branch_runs hE (value hcondition) (value hyes) (value (hno no rfl))).does rfl rfl
      | none => exact (branch_runs hE (value hcondition) (value hyes) (nil_runs hE)).does rfl rfl
    | loop hcondition hbody => exact (loop_walks hE (value hcondition) (value hbody) fuel).does rfl rfl
    | each name hiterable hbody => exact (each_walks hE (value hiterable) (value hbody) fuel).does rfl rfl
    | «break» => exact (leaveLoop_walks hE).does rfl rfl
    | «continue» => exact (nextRound_walks hE).does rfl rfl
    | @«return» _ value? h =>
      cases value? with
      | some v => exact (leavePage_walks hE (value (h v rfl))).does rfl rfl
      | none => exact (leavePage_walks hE (nil_runs hE)).does rfl rfl
    | attempt hbody hhandler => exact (attempt_runs hE (value hbody) (value hhandler)).does rfl rfl

/-- No closures, so no captured variables. -/
theorem Expr.captured_eq_nil {parts : List Expr} (hparts : ∀ c ∈ parts, c.captured = [])
    (hnode : ∀ parameters captures body, e.node ≠ .closure parameters captures body) (hchildren : e.children = parts) :
    e.captured = [] := by
  rw [Expr.captured, List.append_eq_nil_iff, List.flatMap_eq_nil_iff]
  constructor
  · split
    · next h => exact absurd h (hnode _ _ _)
    · rfl
  · rintro ⟨c, hc⟩ -
    exact hparts c (hchildren ▸ hc)

theorem Expr.CallFree.captured (h : e.CallFree) : e.captured = [] := by
  have pair {a b : Expr} (ha : a.captured = []) (hb : b.captured = []) : ∀ c ∈ [a, b], c.captured = [] :=
    List.forall_mem_cons.2 ⟨ha, List.forall_mem_singleton.2 hb⟩
  induction h with
  | literal | «variable» | «break» | «continue» => exact captured_eq_nil (List.forall_mem_nil _) nofun rfl
  | declare name _ ih | unary _ _ ih | cast _ _ ih => exact captured_eq_nil (List.forall_mem_singleton.2 ih) nofun rfl
  | assign name h ih =>
    refine captured_eq_nil (pair ?_ ih) nofun rfl
    exact captured_eq_nil (List.forall_mem_nil _) nofun rfl
  | store _ _ _ ihv ihc ihi =>
    refine captured_eq_nil (pair ?_ ihv) nofun rfl
    exact captured_eq_nil (pair ihc ihi) nofun rfl
  | binary o _ _ ihl ihr | index _ _ ihl ihr | loop _ _ ihl ihr | each _ _ _ ihl ihr | attempt _ _ ihl ihr =>
    exact captured_eq_nil (pair ihl ihr) nofun rfl
  | tuple _ ih | list _ ih | block _ ih => exact captured_eq_nil ih nofun rfl
  | @branch _ _ _ no? _ _ _ ihc ihy ihn =>
    cases no? with
    | none => exact captured_eq_nil (pair ihc ihy) nofun rfl
    | some no =>
      exact captured_eq_nil (List.forall_mem_cons.2 ⟨ihc, pair ihy (ihn no rfl)⟩) nofun rfl
  | @«return» _ value? _ ih =>
    cases value? with
    | none => exact captured_eq_nil (List.forall_mem_nil _) nofun rfl
    | some value => exact captured_eq_nil (List.forall_mem_singleton.2 (ih value rfl)) nofun rfl

end ShellVM
