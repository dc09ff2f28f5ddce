import ShellVM.Proofs.Bookkeeping.Page

/-!
# The bookkeeping of expressions

The compiler that checks its bookkeeping and the one that does not emit the same code for every expression
(`Expr.lifts`), as long as closures capture only what is known to be captured in the page: the traversal that collects
those names meets every closure that is emitted into the page. The proof follows the recursion of `Expr.emit`, with
one lemma for each construct.
-/

namespace ShellVM

variable {C : List String} {e : Expr}

/-- The closures that the expression creates capture nothing but the names. -/
def Expr.Boxed (C : List String) (e : Expr) : Prop := ∀ name ∈ e.captured, name ∈ C

theorem Expr.Boxed.child {c : Expr} (h : e.Boxed C) (hc : c ∈ e.children) : c.Boxed C := by
  intro name hname
  refine h name ?_
  rw [Expr.captured]
  exact List.mem_append_right _ (List.mem_flatMap.2 ⟨⟨c, hc⟩, List.mem_attach _ _, hname⟩)

theorem Expr.Boxed.first {c : Expr} {rest : List Expr} (h : e.Boxed C) (hc : e.children = c :: rest) : c.Boxed C :=
  h.child (hc ▸ List.mem_cons_self)

theorem Expr.Boxed.second {b c : Expr} {rest : List Expr} (h : e.Boxed C) (hc : e.children = b :: c :: rest) :
    c.Boxed C :=
  h.child (hc ▸ List.mem_cons_of_mem _ List.mem_cons_self)

theorem Expr.Boxed.captures {line : UInt32} {parameters captures : List String} {body : Expr}
    (h : (Expr.mk line (.closure parameters captures body)).Boxed C) : ∀ name ∈ captures, name ∈ C := by
  intro name hname
  refine h name ?_
  rw [Expr.captured]
  exact List.mem_append_left _ hname

namespace Emit

variable {s t : Workbench} {count n : Nat} {x y x' y' x'' y'' : Emit Unit}

/-- Both emitters leave a value above the locals that they declare. -/
def Fills (C : List String) (x y : Emit Unit) : Prop := ∀ s, s.Ready C →
  Settles (fun _ s' => ∃ new : List Local, (∀ l ∈ new, l.depth = s.draft.depth) ∧
    Advances s ((s.draft.outline.declare new).at (s.draft.height + new.length + 1)) s') (x s) (y s)

theorem Raises.lifts (hx : Raises C 1 x y) : Lifts C true x y := by
  intro s hs
  exact (hx s hs).mono fun _ t h => ⟨[], fun _ => rfl, fun l hl => absurd hl List.not_mem_nil, h⟩

theorem Lifts.marked {value : Bool} (line : UInt32) (hx : Lifts C value x y) :
    Lifts C value (do markLine line; x) (do markLine line; y) := by
  intro s hs
  exact (markLine_settles hs.start line).bind fun _ t h => hx.run hs (hs.room (Nat.le_refl _)) h

/-! ## Blocks -/

theorem Fills.nil : Fills C nil nil := by
  intro s hs
  exact (nil_settles hs.start).mono fun _ t h => ⟨[], fun l hl => absurd hl List.not_mem_nil, h⟩

/-- The last item of a block. -/
theorem Fills.last {value : Bool} (hx : Lifts C value x y) :
    Fills C (do x; if value then pure () else Emit.nil) (do y; if value then pure () else Emit.nil) := by
  intro s hs
  refine (hx s hs).bind fun _ t ⟨new, _, hnew, h⟩ => ?_
  cases value with
  | true => exact .ok ⟨new, hnew, h⟩
  | false => exact (nil_settles h).mono fun _ t' h' => ⟨new, hnew, h'⟩

/-- An item of a block and those behind it. -/
theorem Fills.cons {value : Bool} (hx : Lifts C value x y) (hx' : Fills C x' y') :
    Fills C (do
      x
      if value then Emit.pop
      x') (do
      y
      if value then Emit.pop
      y') := by
  intro s hs
  have hrest {t : Workbench} {new : List Local} (hnew : ∀ l ∈ new, l.depth = s.draft.depth)
      (h : Advances s ((s.draft.outline.declare new).at (s.draft.height + new.length)) t) :
      Settles (fun _ s' => ∃ new : List Local, (∀ l ∈ new, l.depth = s.draft.depth) ∧
        Advances s ((s.draft.outline.declare new).at (s.draft.height + new.length + 1)) s') (x' t) (y' t) := by
    have ht := h.ready hs ((hs.room (Nat.le_refl _)).declare hnew (Nat.le_add_right ..))
    refine (hx' t ht).mono fun _ t' ⟨more, hmore, h'⟩ => ⟨more ++ new, ?_, ?_⟩
    · intro l hl
      rcases List.mem_append.1 hl with hl | hl
      · exact (hmore l hl).trans h.depth
      · exact hnew l hl
    · have ho : (t.draft.outline.declare more).at (t.draft.height + more.length + 1) =
          (s.draft.outline.declare (more ++ new)).at (s.draft.height + (more ++ new).length + 1) := by
        rw [h.outline, h.height, List.length_append, Nat.add_comm more.length]
        unfold Outline.declare Outline.at
        simp only [List.append_assoc, Nat.add_assoc]
      exact ho ▸ h.trans h'
  refine (hx s hs).bind fun _ t ⟨new, _, hnew, h⟩ => ?_
  cases value with
  | true => exact (pop_settles h).bind fun _ t' h' => hrest hnew h'
  | false => exact hrest hnew h

theorem Raises.block (hx : Fills C x y) :
    Raises C 1 (do beginScope; x; endScope true) (do beginScope; y; endScope true) := by
  intro s hs
  refine (beginScope_settles hs.start).bind fun _ t₁ h₁ => ?_
  have ht := h₁.ready hs (hs.room (Nat.le_refl _)).inner
  refine (hx t₁ ht).bind fun _ t₂ ⟨new, hnew, h₂⟩ => ?_
  rw [h₁.outline, h₁.height] at h₂
  rw [h₁.depth] at hnew
  exact endScope_settles true hnew hs.fits.depths rfl (h₁.trans h₂)

/-! ## Other constructs -/

theorem Lifts.declaration (names : List String) (hx : Raises C 1 x y) :
    Lifts C false (Checked.declaration names x) (declaration names y) := by
  intro s hs
  refine (hx s hs).bind fun _ t h => ?_
  have hheight : t.draft.height = s.draft.height + 1 := h.height
  rw [heightAbove_bind_run (hheight ▸ Nat.le_add_left ..), height_bind_run, hheight, Nat.add_sub_cancel]
  exact (unpack_settles names s.draft.height h).mono fun _ t' ⟨new, hnew, h'⟩ => ⟨new, (by intro h; cases h), hnew, h'⟩

theorem Raises.assignment (name : String) (hx : Raises C 1 x y) :
    Raises C 1 (do let place ← resolve name; x; store place) (do let place ← resolve name; y; store place) := by
  intro s hs
  refine (resolve_settles name hs.start).bind fun place t₁ ⟨h₁, _⟩ => ?_
  exact (hx.run hs (hs.room (Nat.le_refl _)) h₁).bind fun _ t₂ h₂ => store_settles place h₂

theorem Raises.struct (name : String) (fields : List String) (hx : Raises C count x y) :
    Raises C 1 (do
      x
      let key ← constantKey (.shape name fields)
      Emit.op .buildStruct (wordBytes key)
      popHeight count
      setHeight ((← height) + 1)) (do
      y
      let key ← constantKey (.shape name fields)
      Emit.op .buildStruct (wordBytes key)
      popHeight count
      setHeight ((← height) + 1)) := by
  intro s hs
  refine (hx s hs).bind fun _ t₁ h₁ => ?_
  refine (constantKey_settles h₁ (.shape name fields)).bind fun key t₂ h₂ => ?_
  refine (untold_settles rfl rfl h₂).bind fun _ t₃ h₃ => ?_
  refine (popHeight_settles h₃ (Nat.le_add_left ..)).bind fun _ t₄ h₄ => ?_
  have hheight : t₄.draft.height = s.draft.height := h₄.height.trans (Nat.add_sub_cancel ..)
  rw [height_bind_run, hheight]
  exact setHeight_settles h₄ _

theorem Lifts.define (id : Nat) {f g : Emit Page} (hf : Completes f g) : Lifts C false (define id f) (define id g) :=
  .jumping fun _ hs => define_settles id hf hs.start

/-- Two parts, one after the other, and then an instruction that takes both. -/
theorem Raises.pair {p : Op} {operands : List UInt8} (hwidth : operands.length = p.width)
    (heffect : p.stackEffect? operands = some (2, 1)) (hx : Raises C 1 x y) (hx' : Raises C 1 x' y') :
    Raises C 1 (do x; x'; Emit.op p operands) (do y; y'; Emit.op p operands) := by
  intro s hs
  refine (hx s hs).bind fun _ t₁ h₁ => ?_
  refine (hx'.run hs (hs.room (by omega)) h₁).bind fun _ t₂ h₂ => ?_
  exact op_settles hwidth heffect (by omega) (by omega) h₂

theorem Raises.range {first? last? : Option Expr} (inclusive : Bool) (hx : Raises C first?.toList.length x y)
    (hx' : Raises C last?.toList.length x' y') :
    Raises C 1 (do x; x'; Emit.op .buildRange [rangeFlags first?.isSome last?.isSome inclusive])
      (do y; y'; Emit.op .buildRange [rangeFlags first?.isSome last?.isSome inclusive]) := by
  intro s hs
  refine (hx s hs).bind fun _ t₁ h₁ => ?_
  refine (hx'.run hs (hs.room (by omega)) h₁).bind fun _ t₂ h₂ => ?_
  exact op_settles rfl (stackEffect?_rangeFlags first? last? inclusive) (by omega) (by omega) h₂

theorem Raises.indexStore (hx : Raises C 1 x y) (hx' : Raises C 1 x' y') (hx'' : Raises C 1 x'' y'') :
    Raises C 1 (do x; x'; x''; Emit.op .indexStore []) (do y; y'; y''; Emit.op .indexStore []) := by
  intro s hs
  refine (hx s hs).bind fun _ t₁ h₁ => ?_
  refine (hx'.run hs (hs.room (by omega)) h₁).bind fun _ t₂ h₂ => ?_
  refine (hx''.run hs (hs.room (by omega)) h₂).bind fun _ t₃ h₃ => ?_
  exact op_settles rfl rfl (Nat.le_add_left ..) rfl h₃

theorem Raises.invalid {e : CompileError} (he : e.isInternal = false) : Raises C n (throw e) (throw e) :=
  fun _ _ => .error (.external he)

end Emit

open Emit

/-- So is the code of a value with the checks. -/
theorem Checked.value_tidy (e : Expr) : (Emit.valued e.producesValue (differences.expr e)).Tidy :=
  .valued _ (differences_tidy.expr e)

mutual

/-- The code of an expression leaves its value, or else it may declare locals. -/
theorem Expr.lifts : ∀ (e : Expr) {C : List String}, e.Boxed C →
    Lifts C e.producesValue (Checked.differences.expr e) e.emit
  | .mk line node, _, h => (node.lifts line h).marked line

theorem Node.lifts : ∀ (node : Node) (line : UInt32) {C : List String}, (Expr.mk line node).Boxed C →
    Lifts C node.producesValue (Checked.differences.node node line) (node.emit line)
  | .literal l, _, _, _ => (Raises.constant l.constant).lifts
  | .interpolation parts, _, _, h =>
    (Raises.word (valuesRaise parts fun _ he => h.child he) rfl (stackEffect?_build (by simp))).lifts
  | .list items, _, _, h =>
    (Raises.word (valuesRaise items fun _ he => h.child he) rfl (stackEffect?_build (by simp))).lifts
  | .tuple items, _, _, h =>
    (Raises.word (valuesRaise items fun _ he => h.child he) rfl (stackEffect?_build (by simp))).lifts
  | .set items, _, _, h =>
    (Raises.word (valuesRaise items fun _ he => h.child he) rfl (stackEffect?_build (by simp))).lifts
  | .dictionary entries, _, _, h =>
    (Raises.word (entriesRaise entries fun _ he => h.child he) rfl stackEffect?_buildDict).lifts
  | .range first? last? inclusive, _, _, h =>
    (Raises.range inclusive (partRaises first? fun _ he => h.child (List.mem_append_left _ he))
      (partRaises last? fun _ he => h.child (List.mem_append_right _ he))).lifts
  | .struct name fields, _, _, h => (Raises.struct name _ (fieldsRaise fields fun _ he => h.child he)).lifts
  | .variable name, _, _, _ => (Raises.load name).lifts
  | .declare names v, _, _, h => .declaration names (v.lifts (h.first rfl)).valued
  | .assign (.mk _ target) v, _, _, h => by
    have hv := (v.lifts (h.second rfl)).valued
    have htarget := h.first rfl
    cases target with
    | «variable» name => exact (Raises.assignment name hv).lifts
    | index container index =>
      have hcontainer := (container.lifts (htarget.first rfl)).valued
      exact (Raises.indexStore hv hcontainer (index.lifts (htarget.second rfl)).valued).lifts
    | field container name =>
      have hcontainer := (container.lifts (htarget.first rfl)).valued
      exact (Raises.indexStore hv hcontainer (.constant (.string name))).lifts
    | _ => exact (Raises.invalid rfl).lifts
  | .binary o left right, _, _, h => by
    have hleft := (left.lifts (h.first rfl)).valued
    have hright := (right.lifts (h.second rfl)).valued
    cases o with
    | and | or => exact (Raises.shortCircuit rfl rfl hleft hright).lifts
    | _ => exact (Raises.pair rfl rfl hleft hright).lifts
  | .unary .not operand, _, _, h | .unary .negate operand, _, _, h =>
    (Raises.op (operand.lifts (h.first rfl)).valued rfl rfl).lifts
  | .cast v target, _, _, h => (Raises.op (v.lifts (h.first rfl)).valued rfl rfl).lifts
  | .index target index, _, _, h =>
    (Raises.pair rfl rfl (target.lifts (h.first rfl)).valued (index.lifts (h.second rfl)).valued).lifts
  | .field target name, _, _, h =>
    (Raises.pair rfl rfl (target.lifts (h.first rfl)).valued (.constant (.string name))).lifts
  | .block items, _, _, h => (Raises.block (itemsFill items fun _ he => h.child he)).lifts
  | .branch condition yes (some no), _, _, h =>
    (Raises.branch (condition.lifts (h.first rfl)).valued (yes.lifts (h.second rfl)).valued
      (no.lifts (h.child (List.mem_append_right _ List.mem_cons_self))).valued).lifts
  | .branch condition yes none, _, _, h =>
    (Raises.branch (condition.lifts (h.first rfl)).valued (yes.lifts (h.second rfl)).valued .nil).lifts
  | .loop condition body, _, _, h =>
    .loop (condition.lifts (h.first rfl)).valued (body.lifts (h.second rfl)).valued
  | .each names iterable body, _, _, h =>
    .each names (iterable.lifts (h.first rfl)).valued (body.lifts (h.second rfl)).valued
  | .break, _, _, _ => .leaveLoop
  | .continue, _, _, _ => .nextRound
  | .return (some v), _, _, h => .leavePage (v.lifts (h.first rfl)).valued
  | .return none, _, _, _ => .leavePage .nil
  | .attempt body binding? handler, _, _, h =>
    (Raises.attempt binding? (body.lifts (h.first rfl)).valued (handler.lifts (h.second rfl)).valued).lifts
  | .define id name parameters body, _, _, _ =>
    .define id (.page name parameters [] (body.lifts fun _ hname => hname).valued
      (Checked.value_tidy body) (.value body))
  | .closure parameters captures body, _, _, h =>
    (Raises.closure h.captures (.page "<closure>" parameters captures (body.lifts fun _ hname => hname).valued
      (Checked.value_tidy body) (.value body))).lifts
  | .call (.function id) arguments root, _, _, h =>
    (Raises.functionCall id root (valuesRaise arguments fun _ he => h.child he)).lifts
  | .call (.value callee) arguments root, _, _, h =>
    (Raises.valueCall root (callee.lifts (h.first rfl)).valued
      (valuesRaise arguments fun _ he => h.child (List.mem_cons_of_mem _ he))).lifts
  | .call (.library f) arguments _, _, _, h =>
    (Raises.libraryCall f (valuesRaise arguments fun _ he => h.child he)).lifts
  | .call (.program name piped? environment settings) arguments root, _, C, h => by
    have hname := (name.lifts (h.first rfl)).valued
    have hchild : ∀ e ∈ arguments ++ piped?.toList ++ environment.map Prod.snd, e.Boxed C := fun _ he =>
      h.child (List.mem_cons_of_mem _ he)
    have harguments := valuesRaise arguments fun _ he => hchild _ (List.mem_append_left _ (List.mem_append_left _ he))
    have hvariables := variablesRaise environment fun _ he => hchild _ (List.mem_append_right _ he)
    cases piped? with
    | none => exact (Raises.programCall settings root hname harguments .zero hvariables rfl).lifts
    | some piped =>
      have hpiped :=
        (piped.lifts (hchild _ (List.mem_append_left _ (List.mem_append_right _ List.mem_cons_self)))).valued
      exact (Raises.programCall settings root hname harguments (Raises.piped hpiped) hvariables
        (Option.isSome_some.trans Option.isSome_some.symm)).lifts

theorem valuesRaise : ∀ (es : List Expr) {C : List String}, (∀ e ∈ es, e.Boxed C) →
    Raises C es.length (Checked.differences.values es) (emitValues es)
  | [], _, _ => .zero
  | e :: rest, _, h =>
    ((e.lifts (h e List.mem_cons_self)).valued.add
      (valuesRaise rest fun e' he => h e' (List.mem_cons_of_mem _ he))).of_eq
        (Nat.add_comm ..)

theorem entriesRaise : ∀ (es : List (Expr × Expr)) {C : List String},
    (∀ e ∈ es.flatMap fun (k, v) => [k, v], e.Boxed C) →
    Raises C (es.length * 2) (Checked.differences.entries es) (emitEntries es)
  | [], _, _ => .zero
  | (k, v) :: rest, _, h =>
    have hv := h v (List.mem_cons_of_mem _ List.mem_cons_self)
    have hrest := entriesRaise rest fun e he => h e (List.mem_append_right [k, v] he)
    ((k.lifts (h k List.mem_cons_self)).valued.add ((v.lifts hv).valued.add hrest)).of_eq
      (by rw [List.length_cons]; omega)

theorem partRaises : ∀ (e? : Option Expr) {C : List String}, (∀ e ∈ e?.toList, e.Boxed C) →
    Raises C e?.toList.length (Checked.differences.part? e?) (emitValue? e?)
  | none, _, _ => .zero
  | some e, _, h => (e.lifts (h e List.mem_cons_self)).valued

theorem fieldsRaise : ∀ (es : List (String × Expr)) {C : List String}, (∀ e ∈ es.map Prod.snd, e.Boxed C) →
    Raises C es.length (Checked.differences.fields es) (emitFields es)
  | [], _, _ => .zero
  | (_, v) :: rest, _, h =>
    ((v.lifts (h v List.mem_cons_self)).valued.add
      (fieldsRaise rest fun e' he => h e' (List.mem_cons_of_mem _ he))).of_eq
        (Nat.add_comm ..)

theorem variablesRaise : ∀ (es : List (String × Expr)) {C : List String}, (∀ e ∈ es.map Prod.snd, e.Boxed C) →
    Raises C (es.length * 2) (Checked.differences.bindings es) (emitVariables es)
  | [], _, _ => .zero
  | (name, v) :: rest, _, h =>
    have hrest := variablesRaise rest fun e' he => h e' (List.mem_cons_of_mem _ he)
    ((Raises.constant (.string name)).add ((v.lifts (h v List.mem_cons_self)).valued.add hrest)).of_eq
      (by rw [List.length_cons]; omega)

theorem itemsFill : ∀ (es : List Expr) {C : List String}, (∀ e ∈ es, e.Boxed C) →
    Fills C (Checked.differences.items es) (emitItems es)
  | [], _, _ => .nil
  | [e], _, h => .last (e.lifts (h e List.mem_cons_self))
  | e :: e' :: rest, _, h =>
    .cons (e.lifts (h e List.mem_cons_self)) (itemsFill (e' :: rest) fun e'' he => h e'' (List.mem_cons_of_mem _ he))

end

end ShellVM
