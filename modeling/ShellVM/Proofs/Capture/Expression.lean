import ShellVM.Proofs.Capture.Control
import ShellVM.Proofs.Flow.Page

/-!
# Code for captured variables in expressions

The code of every expression is that for its uses of captured variables (`Expr.tells`), and so is the code of every
page that comes from an `Origin`. Every offset of such a page that starts an instruction has a `Hold`
(`Origin.IsCodeOf.told`).
-/

namespace ShellVM

variable {S : Sheet}

open Sheet

/-- The code of an expression with nothing of its own is that of its parts. -/
theorem Layout.Tells.ofPlain {L : Layout} {e : Expr} {es : List Expr}
    (h : L.Tells S fun names uses names' => names' = names ∧ S.UsesOf es names uses) (he : e.isPlain = true)
    (hparts : e.parts = es) : L.Tells S fun names => Expr.Uses S.captures S.captured names e := by
  refine h.imp ?_
  rintro names uses names' ⟨rfl, huses⟩
  exact .plain he (hparts ▸ huses)

theorem Part.Tells.ofPlain {P : Part} {e : Expr} {es : List Expr} (h : P.Tells S (S.UsesOf es)) (he : e.isPlain = true)
    (hparts : e.parts = es) : P.layout.Tells S fun names => Expr.Uses S.captures S.captured names e :=
  h.layout.ofPlain he hparts

theorem Part.Tells.ofValue {P : Part} {e : Expr}
    (h : P.Tells S fun names uses => Expr.Uses S.captures S.captured names e uses names) :
    P.layout.Tells S fun names => Expr.Uses S.captures S.captured names e := by
  refine h.layout.imp ?_
  rintro names uses names' ⟨rfl, huses⟩
  exact huses

theorem Sheet.declare_tells {e : Expr} {declared : List String} {value : Part} (line : UInt32)
    (h : value.Tells S (S.UsesOf [e])) : (S.declaration declared value).Tells S fun names =>
      Expr.Uses S.captures S.captured names (.mk line (.declare declared e)) := by
  refine (declaration_tells h).imp ?_
  rintro names uses names' ⟨uses₁, uses₂, rfl, huses, hdeclares⟩
  exact .declare huses hdeclares

mutual

/-- The code of an expression is that for its uses of captured variables. -/
theorem Expr.tells : ∀ (e : Expr) {S : Sheet}, (e.Lies S).Tells S fun names => Expr.Uses S.captures S.captured names e
  | .mk line node, _ => node.tells line

theorem Node.tells : ∀ (node : Node) (line : UInt32) {S : Sheet}, (node.Lies S).Tells S fun names =>
    Expr.Uses S.captures S.captured names (.mk line node)
  | .literal l, _, _ => (constant_tells l.constant).ofPlain rfl rfl
  | .interpolation parts, _, _ => (counted_tells (valuesTell parts) rfl).ofPlain rfl rfl
  | .list items, _, _ => (counted_tells (valuesTell items) rfl).ofPlain rfl rfl
  | .tuple items, _, _ => (counted_tells (valuesTell items) rfl).ofPlain rfl rfl
  | .set items, _, _ => (counted_tells (valuesTell items) rfl).ofPlain rfl rfl
  | .dictionary entries, _, _ => (counted_tells (entriesTell entries) rfl).ofPlain rfl rfl
  | .range first? last? _, _, _ => (after_tells (row_tells (partTells first?) (partTells last?)) rfl).ofPlain rfl rfl
  | .struct _ fields, _, _ => Part.Tells.ofPlain (fun _ _ _ _ ⟨_, _, hafter⟩ hK =>
      after_tells (fieldsTell fields) rfl hafter hK) rfl rfl
  | .variable name, line, _ => (load_tells line name).ofValue
  | .declare names v, line, _ => declare_tells line (valued_tells v.tells)
  | .assign (.mk line' target) v, line, S => by
    have hv : (S.valued v.producesValue (v.Lies S)).Tells S (S.UsesOf [v]) := valued_tells v.tells
    cases target with
    | «variable» name => exact (store_tells line line' name hv).ofValue
    | index container index =>
      have hcontainer := both_tells hv (valued_tells container.tells)
      exact (after_tells (both_tells hcontainer (raised_tells (valued_tells index.tells))) rfl).ofPlain rfl rfl
    | field container name =>
      have hcontainer := both_tells hv (valued_tells container.tells)
      exact (after_tells (both_tells hcontainer (raised_tells (constant_tells (.string name)))) rfl).ofPlain rfl rfl
    | _ => exact fun _ _ _ _ _ h => h.elim
  | .binary o left right, _, S => by
    have hleft : (S.valued left.producesValue (left.Lies S)).Tells S (S.UsesOf [left]) := valued_tells left.tells
    have hright : (S.valued right.producesValue (right.Lies S)).Tells S (S.UsesOf [right]) := valued_tells right.tells
    cases o with
    | and | or => exact (shortCircuit_tells rfl hleft hright).ofPlain rfl rfl
    | _ => exact (after_tells (both_tells hleft hright) rfl).ofPlain rfl rfl
  | .unary o operand, _, _ => (after_tells (valued_tells operand.tells) (by cases o <;> rfl)).ofPlain rfl rfl
  | .cast v _, _, _ => (after_tells (valued_tells v.tells) rfl).ofPlain rfl rfl
  | .index target index, _, _ =>
    (after_tells (both_tells (valued_tells target.tells) (valued_tells index.tells)) rfl).ofPlain rfl rfl
  | .field target name, _, _ =>
    (after_tells (both_tells (valued_tells target.tells) (constant_tells (.string name))) rfl).ofPlain rfl rfl
  | .block items, line, _ => by
    refine (block_tells (itemsTell items)).layout.imp ?_
    rintro names uses names' ⟨rfl, inner, huses⟩
    exact .block huses
  | .branch condition yes (some no), _, _ =>
    (branch_tells (valued_tells condition.tells) (valued_tells yes.tells) (valued_tells no.tells)).ofPlain rfl rfl
  | .branch condition yes none, _, _ =>
    (branch_tells (valued_tells condition.tells) (valued_tells yes.tells) nil_tells).ofPlain rfl rfl
  | .loop condition body, _, _ => (loop_tells (valued_tells condition.tells) (valued_tells body.tells)).ofPlain rfl rfl
  | .each _ iterable body, _, _ => by
    refine (each_tells (valued_tells iterable.tells) (valued_tells body.tells)).imp ?_
    rintro names uses names' ⟨rfl, uses₁, uses₂, uses₃, inner, rfl, hiterable, hdeclares, hbody⟩
    exact .each hiterable hdeclares hbody
  | .break, _, _ => leaveLoop_tells.ofPlain rfl rfl
  | .continue, _, _ => nextRound_tells.ofPlain rfl rfl
  | .return (some v), _, _ => (leavePage_tells (valued_tells v.tells)).ofPlain rfl rfl
  | .return none, _, _ => (leavePage_tells nil_tells).ofPlain rfl rfl
  | .attempt body _ handler, _, _ => by
    refine (attempt_tells (valued_tells body.tells) (valued_tells handler.tells)).layout.imp ?_
    rintro names uses names' ⟨rfl, uses₁, uses₂, uses₃, inner, rfl, hbody, hdeclares, hhandler⟩
    exact .attempt hbody hdeclares hhandler
  | .define .., _, _ => by
    rintro Γ K p Γ' p' ⟨rfl, rfl⟩ hK
    exact ⟨[], [], .plain rfl (.nil _), rfl, hK, .refl _ _⟩
  | .closure parameters captures body, line, _ => (closure_tells line parameters captures body).ofValue
  | .call target arguments root, line, _ => target.tells arguments line root (valuesTell arguments)

theorem Target.tells : ∀ (target : Target) (arguments : List Expr) (line : UInt32) (root : Bool)
    {S : Sheet} {values : Part}, values.Tells S (S.UsesOf arguments) →
    (target.Lies S arguments.length root values).layout.Tells S fun names =>
      Expr.Uses S.captures S.captured names (.mk line (.call target arguments root))
  | .function _, _, _, _, _, _, h => Part.Tells.ofPlain (fun _ _ _ _ ⟨_, _, _, hc, hcall⟩ hK => by
      obtain ⟨uses, huses, htells⟩ := constant_tells _ hc hK
      cases huses
      obtain ⟨uses, huses, htells'⟩ := call_tells h hcall (hK.mono htells.le)
      exact ⟨uses, huses, htells.before htells'⟩) rfl rfl
  | .value callee, _, _, _, _, _, h => Part.Tells.ofPlain (fun _ _ _ _ ⟨_, hc, hcall⟩ hK => by
      obtain ⟨uses, huses, htells⟩ := valued_tells callee.tells hc hK
      obtain ⟨uses', huses', htells'⟩ := call_tells h hcall (hK.mono htells.le)
      exact ⟨uses ++ uses', .append _ _ huses huses', htells.trans htells'⟩) rfl rfl
  | .library _, _, _, _, _, _, h => (libraryCall_tells h).ofPlain rfl rfl
  | .program name (some piped) environment settings, arguments, line, root, _, _, h => by
    refine (programCall_tells (some _) (valued_tells name.tells) h (valued_tells piped.tells)
      (variablesTell environment)).ofPlain rfl ?_
    simp [Expr.parts, Expr.node, Expr.children]
  | .program name none environment settings, arguments, line, root, _, _, h => by
    refine (programCall_tells none (valued_tells name.tells) h nothing_tells (variablesTell environment)).ofPlain rfl ?_
    simp [Expr.parts, Expr.node, Expr.children]

theorem partTells : ∀ (e? : Option Expr) {S : Sheet}, Part.Tells (PartLies e? S) S (S.UsesOf e?.toList)
  | none, _ => nothing_tells
  | some e, _ => valued_tells e.tells

theorem valuesTell : ∀ (es : List Expr) {S : Sheet}, Part.Tells (ValuesLie es S) S (S.UsesOf es)
  | [], _ => nothing_tells
  | e :: rest, _ => both_tells (valued_tells e.tells) (valuesTell rest)

theorem entriesTell : ∀ (es : List (Expr × Expr)) {S : Sheet},
    Part.Tells (EntriesLie es S) S (S.UsesOf (es.flatMap fun (k, v) => [k, v]))
  | [], _ => nothing_tells
  | (k, v) :: rest, S => by
    rw [List.flatMap_cons]
    show Part.Tells _ S (S.UsesOf ([k] ++ ([v] ++ rest.flatMap fun (k, v) => [k, v])))
    exact both_tells (valued_tells k.tells) (both_tells (valued_tells v.tells) (entriesTell rest))

theorem fieldsTell : ∀ (es : List (String × Expr)) {S : Sheet},
    Part.Tells (FieldsLie es S) S (S.UsesOf (es.map Prod.snd))
  | [], _ => nothing_tells
  | (_, v) :: rest, _ => both_tells (valued_tells v.tells) (fieldsTell rest)

theorem variablesTell : ∀ (es : List (String × Expr)) {S : Sheet},
    Part.Tells (VariablesLie es S) S (S.UsesOf (es.map Prod.snd))
  | [], _ => nothing_tells
  | (name, v) :: rest, _ =>
    both_tells (constant_tells (.string name)) (both_tells (valued_tells v.tells) (variablesTell rest))

theorem itemsTell : ∀ (es : List Expr) {S : Sheet}, (ItemsLie es S).Tells S fun names =>
    ItemsUse S.captures S.captured names es
  | [], _ => by
    refine nil_tells.layout.imp ?_
    rintro names uses names' ⟨rfl, huses⟩
    cases huses
    exact .nil _
  | [e], S => by
    have h := e.tells (S := S)
    have single {names names' : Names} {uses : List (Nat × Use)}
        (he : Expr.Uses S.captures S.captured names e uses names') :
        ItemsUse S.captures S.captured names [e] uses names' := by
      have := ItemsUse.cons he (.nil names')
      rwa [List.append_nil] at this
    simp only [ItemsLie]
    split
    · exact h.imp fun _ _ _ => single
    · exact (thenNil_tells h).imp fun _ _ _ => single
  | e :: e' :: rest, S => by
    have h := e.tells (S := S)
    have h' := itemsTell (e' :: rest) (S := S)
    simp only [ItemsLie]
    rintro Γ K p Γ' p' hitems hK
    split at hitems
    · obtain ⟨p₁, hlies, hpop, hrest⟩ := hitems
      obtain ⟨uses, newNames, huses, -, hfits, htells⟩ := h hlies hK
      have hnone : List.Forall₂ (Local.Named p₁) [] newNames := Local.named_of_append hfits.names hK.names
      cases hnone
      have hpop : S.Tells (K.outs Γ) [] p₁ (K.hold Γ) (p₁ + 1) (K.hold Γ) := .step hpop rfl hK.regions rfl rfl
      obtain ⟨uses', newNames', huses', hloop, hfits', htells'⟩ := h' hrest (hK.mono (htells.behind hpop).le)
      exact ⟨uses ++ uses', newNames', .cons huses huses', hloop, hfits', htells.trans (hpop.before htells')⟩
    · obtain ⟨Γ₁, p₁, hlies, hrest⟩ := hitems
      obtain ⟨uses, newNames, huses, hloop₁, hfits₁, htells⟩ := h hlies hK
      obtain ⟨uses', newNames', huses', hloop, hfits', htells'⟩ := h' hrest hfits₁
      unfold Lore.outs at htells'
      rw [hloop₁] at htells'
      refine ⟨uses ++ uses', newNames' ++ newNames, ?_, hloop.trans hloop₁, ?_, ?_⟩
      · rw [List.append_assoc]
        exact .cons huses huses'
      · rw [List.append_assoc]
        exact hfits'
      · rw [List.append_assoc]
        exact htells.trans htells'

end

/-! ## Pages -/

/-- A page of which it is known what its code is for: the uses of its source, and what is held before its
instructions. -/
structure Told (program : Program) (functions : List (Nat × UInt16)) (page : Page) where
  origin : Origin
  uses : List (Nat × Use)
  points : List (Nat × Hold)
  ofSource : origin.Uses uses
  trace : (origin.sheet program functions page).Trace points uses 0 ⟨[], [], []⟩ page.code.size ⟨[], [], []⟩
  moves : ∀ x ∈ points, (origin.sheet program functions page).Moves
    (fun q τ => (q, τ) ∈ points ∨ q = page.code.size ∧ τ = ⟨[], [], []⟩) x.1 x.2

/-- Every page that comes from a source is known. -/
theorem Origin.IsCodeOf.told {program : Program} {functions : List (Nat × UInt16)} {page : Page} {origin : Origin}
    (h : origin.IsCodeOf program functions page) : ∃ T : Told program functions page, T.origin = origin := by
  obtain ⟨names, uses₁, uses₂, hdeclares, huses, points, trace, moves⟩ := holds_tells (valued_tells origin.body.tells) h
  exact ⟨⟨origin, uses₁ ++ uses₂, points, ⟨names, uses₁, uses₂, hdeclares, huses, rfl⟩, trace,
    moves _ (fun _ hx => .inl hx) (.inr ⟨rfl, rfl⟩) fun _ _ h => h.elim⟩, rfl⟩

end ShellVM
