import ShellVM.Proofs.Flow.Construct

/-!
# Flow of control through expressions

Control flows through the code of every expression (`Expr.flows`) and so through every page that is laid out
(`Program.Laid.flows`).
-/

namespace ShellVM

/-- The functions of the program can be called. -/
def Sheet.Serves (S : Sheet) : Prop :=
  ∀ id index, S.functions.lookup id = some index → S.program.Hosts S.functions index 0

variable {S : Sheet}

theorem Literal.offers (l : Literal) : S.Offers l.constant := by
  cases l <;> trivial

theorem Sheet.binary_flows {left right : Part} (o : BinaryOp) (h : left.Flows S) (h' : right.Flows S) :
    (S.after (Part.both left right) o.opcode []).Flows S := by
  cases o <;> exact after_flows (.both h h') rfl (fun _ _ => trivial) fun _ => rfl

theorem Sheet.unary_flows {operand : Part} (o : UnaryOp) (h : operand.Flows S) :
    (S.after operand o.opcode []).Flows S := by
  cases o <;> exact after_flows h rfl (fun _ _ => trivial) fun _ => rfl

/-- Values from a row of values. -/
theorem Sheet.build_flows {parts : Part} {o : Op} {n : Nat}
    (ho : o = .buildList ∨ o = .buildTuple ∨ o = .buildSet ∨ o = .buildString) (h : parts.FlowsBy S n) :
    (S.counted parts o n).Flows S := by
  refine counted_flows h ?_ (fun p σ => ?_) fun p hle => ?_
  · rcases ho with rfl | rfl | rfl | rfl <;> rfl
  · rcases ho with rfl | rfl | rfl | rfl <;> trivial
  · have heffect := stackEffect?_build ho hle
    rcases ho with rfl | rfl | rfl | rfl <;> exact heffect

theorem Sheet.buildDict_flows {parts : Part} {n : Nat} (h : parts.FlowsBy S (n * 2)) :
    (S.counted parts .buildDict n).Flows S :=
  counted_flows h rfl (fun _ _ => trivial) fun _ hle => stackEffect?_buildDict hle

theorem Sheet.cast_flows {part : Part} (k : Kind) (h : part.Flows S) : (S.after part .cast [k.tag]).Flows S := by
  refine after_flows h rfl (fun p σ => ?_) fun _ => rfl
  show (Kind.ofTag? k.tag).isSome
  rw [Kind.ofTag?_tag]
  rfl

theorem Sheet.struct_flows {parts : Part} {name : String} {fields : List String} (h : parts.FlowsBy S fields.length) :
    Part.Flows (fun Γ p p' => ∃ key, S.page.constants.get? key = some (.shape name fields) ∧
      S.after parts .buildStruct (wordBytes key) Γ p p') S := by
  rintro Γ p p' ⟨key, hk, hafter⟩ hΓ
  have hbuild : (S.after parts .buildStruct (wordBytes key)).Flows S := by
    refine after_flows h rfl (fun _ _ => trivial) fun p => ?_
    have hkey : Instruction.word ⟨p, .buildStruct, wordBytes key⟩ 0 = key :=
      Instruction.word_wordBytes p .buildStruct key []
    simp only [effect?, hkey, hk]
  exact hbuild hafter hΓ

theorem Sheet.range_flows {first last : Part} {j k : Nat} {flags : UInt8} (h : first.FlowsBy S j)
    (h' : last.FlowsBy S k) (he : Op.stackEffect? .buildRange [flags] = some (j + k, 1)) :
    (S.after (fun Γ p p' => ∃ p₁, first Γ p p₁ ∧ last (Γ.raise j) p₁ p') .buildRange [flags]).Flows S := by
  have hboth : Part.FlowsBy (fun Γ p p' => ∃ p₁, first Γ p p₁ ∧ last (Γ.raise j) p₁ p') S (j + k) := by
    rintro Γ p p' ⟨p₁, hfirst, hlast⟩ hΓ
    have hlast := h' hlast (hΓ.raise j)
    rw [Scope.raise_raise] at hlast
    exact (h hfirst hΓ).trans hlast
  exact after_flows hboth rfl (fun _ _ => trivial) fun _ => he

theorem Sheet.index_flows {target index : Part} (ht : target.Flows S) (hi : index.Flows S) :
    (S.after (Part.both target index) .index []).Flows S :=
  after_flows (.both ht hi) rfl (fun _ _ => trivial) fun _ => rfl

theorem Sheet.indexStore_flows {value container index : Part} (hv : value.Flows S) (hc : container.Flows S)
    (hi : index.Flows S) : (S.after (Part.both (Part.both value container) fun Γ => index Γ.push) .indexStore []).Flows
      S := by
  have hall : (Part.both (Part.both value container) fun Γ => index Γ.push).FlowsBy S 3 := by
    rintro Γ p p' ⟨p₂, ⟨p₁, hvalue, hcontainer⟩, hindex⟩ hΓ
    exact (hv hvalue hΓ).trans ((hc hcontainer (hΓ.raise 1)).trans (hi hindex ((hΓ.raise 1).raise 1)))
  exact after_flows hall rfl (fun _ _ => trivial) fun _ => rfl

open Sheet

mutual

/-- Control flows through the code of an expression. -/
theorem Expr.flows : ∀ (e : Expr) {S : Sheet}, S.Serves → (e.Lies S).Flows S
  | .mk _ node, _, hS => node.flows hS

theorem Node.flows : ∀ (node : Node) {S : Sheet}, S.Serves → (node.Lies S).Flows S
  | .literal l, _, _ => (constant_flows l.offers).layout
  | .interpolation parts, _, hS => (build_flows (by simp) (valuesFlow parts hS)).layout
  | .list items, _, hS => (build_flows (by simp) (valuesFlow items hS)).layout
  | .tuple items, _, hS => (build_flows (by simp) (valuesFlow items hS)).layout
  | .set items, _, hS => (build_flows (by simp) (valuesFlow items hS)).layout
  | .dictionary entries, _, hS => (buildDict_flows (entriesFlow entries hS)).layout
  | .range first? last? inclusive, _, hS =>
    (range_flows (partFlows first? hS) (partFlows last? hS) (stackEffect?_rangeFlags first? last? inclusive)).layout
  | .struct name fields, _, hS =>
    (struct_flows (by rw [List.length_map]; exact fieldsFlow fields hS)).layout
  | .variable name, _, _ => (load_flows name).layout
  | .declare names v, _, hS => declaration_flows (valued_flows (v.flows hS))
  | .assign (.mk _ target) v, S, hS => by
    have hv : (S.valued v.producesValue (v.Lies S)).Flows S := valued_flows (v.flows hS)
    cases target with
    | «variable» name => exact (store_flows name hv).layout
    | index container index =>
      exact (indexStore_flows hv (valued_flows (container.flows hS)) (valued_flows (index.flows hS))).layout
    | field container name =>
      exact (indexStore_flows hv (valued_flows (container.flows hS))
        (constant_flows (c := .string name) trivial)).layout
    | _ => exact fun _ _ _ _ h => h.elim
  | .binary o left right, S, hS => by
    have hleft : (S.valued left.producesValue (left.Lies S)).Flows S := valued_flows (left.flows hS)
    have hright : (S.valued right.producesValue (right.Lies S)).Flows S := valued_flows (right.flows hS)
    cases o with
    | and => exact (shortCircuit_flows (.inr rfl) hleft hright).layout
    | or => exact (shortCircuit_flows (.inl rfl) hleft hright).layout
    | _ => exact (binary_flows _ hleft hright).layout
  | .unary o operand, _, hS => (unary_flows o (valued_flows (operand.flows hS))).layout
  | .cast v target, _, hS => (cast_flows target (valued_flows (v.flows hS))).layout
  | .index target index, _, hS =>
    (index_flows (valued_flows (target.flows hS)) (valued_flows (index.flows hS))).layout
  | .field target name, _, hS =>
    (index_flows (valued_flows (target.flows hS)) (constant_flows (c := .string name) trivial)).layout
  | .block items, _, hS => (block_flows (itemsFlow items hS)).layout
  | .branch condition yes (some no), _, hS =>
    (branch_flows (valued_flows (condition.flows hS)) (valued_flows (yes.flows hS)) (valued_flows (no.flows hS))).layout
  | .branch condition yes none, _, hS =>
    (branch_flows (valued_flows (condition.flows hS)) (valued_flows (yes.flows hS)) nil_flows).layout
  | .loop condition body, _, hS => loop_flows (valued_flows (condition.flows hS)) (valued_flows (body.flows hS))
  | .each _ iterable body, _, hS => each_flows (valued_flows (iterable.flows hS)) (valued_flows (body.flows hS))
  | .break, _, _ => leaveLoop_flows
  | .continue, _, _ => nextRound_flows
  | .return (some v), _, hS => leavePage_flows (valued_flows (v.flows hS))
  | .return none, _, _ => leavePage_flows nil_flows
  | .attempt body _ handler, _, hS =>
    (attempt_flows (valued_flows (body.flows hS)) (valued_flows (handler.flows hS))).layout
  | .define .., _, _ => by
    rintro Γ p Γ' p' ⟨rfl, rfl⟩ hΓ
    exact ⟨hΓ, rfl, .refl _ _⟩
  | .closure parameters captures body, _, _ =>
    (closure_flows fun _ h => ⟨parameters, captures, body.captured, false, body, rfl, h⟩).layout
  | .call target arguments root, _, hS => (target.flows hS root (valuesFlow arguments hS)).layout

theorem Target.flows : ∀ (target : Target) {S : Sheet}, S.Serves → ∀ {count : Nat} (root : Bool) {arguments : Part},
    arguments.FlowsBy S count → (target.Lies S count root arguments).Flows S
  | .function id, _, hS, _, root, _, h => by
    rintro Γ p p' ⟨p₁, index, hi, hc, hcall⟩ hΓ
    exact (constant_flows (c := .page index) (hS id index hi) hc hΓ).trans (call_flows h hcall hΓ)
  | .value callee, _, hS, _, root, _, h => by
    rintro Γ p p' ⟨p₁, hc, hcall⟩ hΓ
    exact (valued_flows (callee.flows hS) hc hΓ).trans (call_flows h hcall hΓ)
  | .library _, _, _, _, _, _, h => libraryCall_flows h
  | .program name (some piped) environment _, S, hS, _, _, _, h => by
    have hpiped : Part.Flows (S.valued piped.producesValue (piped.Lies S)) S := valued_flows (piped.flows hS)
    exact programCall_flows (some _) (valued_flows (name.flows hS)) h (fun _ hq => Option.some.inj hq ▸ hpiped)
      (variablesFlow environment hS)
  | .program name none environment _, _, hS, _, _, _, h =>
    programCall_flows none (valued_flows (name.flows hS)) h (fun _ hq => by cases hq) (variablesFlow environment hS)

theorem partFlows : ∀ (e? : Option Expr) {S : Sheet}, S.Serves → Part.FlowsBy (PartLies e? S) S e?.toList.length
  | none, S, _ => .nothing S
  | some e, _, hS => valued_flows (e.flows hS)

theorem valuesFlow : ∀ (es : List Expr) {S : Sheet}, S.Serves → Part.FlowsBy (ValuesLie es S) S es.length
  | [], S, _ => .nothing S
  | e :: rest, _, hS => .both (valued_flows (e.flows hS)) (valuesFlow rest hS)

theorem entriesFlow : ∀ (es : List (Expr × Expr)) {S : Sheet}, S.Serves →
    Part.FlowsBy (EntriesLie es S) S (es.length * 2)
  | [], S, _ => .nothing S
  | (k, v) :: rest, _, hS => by
    rw [List.length_cons, Nat.succ_mul]
    exact .both (valued_flows (k.flows hS)) (.both (valued_flows (v.flows hS)) (entriesFlow rest hS))

theorem fieldsFlow : ∀ (es : List (String × Expr)) {S : Sheet}, S.Serves → Part.FlowsBy (FieldsLie es S) S es.length
  | [], S, _ => .nothing S
  | (_, v) :: rest, _, hS => .both (valued_flows (v.flows hS)) (fieldsFlow rest hS)

theorem variablesFlow : ∀ (es : List (String × Expr)) {S : Sheet}, S.Serves →
    Part.FlowsBy (VariablesLie es S) S (es.length * 2)
  | [], S, _ => .nothing S
  | (name, v) :: rest, _, hS => by
    rw [List.length_cons, Nat.succ_mul]
    exact .both (constant_flows (c := .string name) trivial)
      (.both (valued_flows (v.flows hS)) (variablesFlow rest hS))

theorem itemsFlow : ∀ (es : List Expr) {S : Sheet}, S.Serves → (ItemsLie es S).Flows S
  | [], _, _ => nil_flows.layout
  | [e], _, hS => by
    have h := e.flows hS
    simp only [ItemsLie]
    split
    · exact h
    · exact thenNil_flows h
  | e :: e' :: rest, _, hS => by
    have h := e.flows hS
    have h' := itemsFlow (e' :: rest) hS
    simp only [ItemsLie]
    rintro Γ p Γ' p' hitems hΓ
    split at hitems
    · obtain ⟨p₁, hlies, ho, hrest⟩ := hitems
      obtain ⟨hΓ', hloop, hflow'⟩ := h' hrest hΓ
      have hpop : Sheet.Flows _ Γ.outs p₁ Γ.push.shape (p₁ + 1) Γ.shape :=
        .plain ho rfl trivial rfl (Nat.add_le_add_right hΓ.floor_le 1) rfl (.refl _)
      exact ⟨hΓ', hloop, (h hlies hΓ).2.2.trans (hpop.trans hflow')⟩
    · obtain ⟨Γ₁, p₁, hlies, hrest⟩ := hitems
      obtain ⟨hΓ₁, hloop₁, hflow⟩ := h hlies hΓ
      obtain ⟨hΓ', hloop, hflow'⟩ := h' hrest hΓ₁
      unfold Scope.outs at hflow'
      rw [hloop₁] at hflow'
      exact ⟨hΓ', hloop.trans hloop₁, hflow.trans hflow'⟩

end

end ShellVM
