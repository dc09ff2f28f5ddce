import ShellVM.Proofs.Interning
import ShellVM.Proofs.Meaning.Expression
import ShellVM.Proofs.Operands.Call

/-!
# Operands without calls

Where the operands of a program call call nothing themselves, their code leaves what the evaluator comes to
(`Ready.evaluates_operands`): each of them starts and ends with a machine that stands for a scene of the evaluator, on
top of the operands before it (`Ready`).
-/

namespace ShellVM

variable {E : Stage} {Γ : Scope} {G : Ground} {σ σ' : Scene} {s s' t : Workbench} {m m' : Machine} {k : Spot}
  {p p' fuel : Nat} {name e : Expr} {arguments es : List Expr} {piped? e? : Option Expr}
  {environment : List (String × Expr)} {settings : ProgramSettings} {u v : Value}
  {us vs operands operands' : List Value} {v? : Option Value}

/-! ## The evaluator -/

/-- The value of an operand that may be missing. -/
def evaluatePart (run : Expr → Eval Value) : Option Expr → Eval (Option Value)
  | none => return none
  | some e => do return some (← Eval.enclosed (run e))

/-- The values of the operands of a program call, in the order of the source. -/
def evaluateOperands (run : Expr → Eval Value) (name : Expr) (arguments : List Expr) (piped? : Option Expr)
    (environment : List (String × Expr)) : Eval Act.ProgramOperands := do
  let name ← Eval.enclosed (run name)
  let arguments ← evaluateAll run arguments
  let piped? ← evaluatePart run piped?
  let values ← evaluateAll run (environment.map Prod.snd)
  return ⟨name, arguments, piped?, bindingRow ((environment.map Prod.fst).zip values)⟩

/-! ## Where operands start and end -/

/-- Where operands are put together on top of a ground of the entry page. -/
def Stage.spot (E : Stage) (G : Ground) : Spot := ⟨E.entry, 0, G.slots.length⟩

theorem Sits.holds {locals : List Local} (hm : Sits E locals (G.pushAll us) p σ m) : (E.spot G).Holds p us m := by
  obtain ⟨below, hstack, hsize, -⟩ := hm.bears.split (by rw [hm.size, Ground.length_pushAll])
  exact ⟨⟨_, [], hm.frames, rfl, rfl, rfl⟩, below, hsize, hstack⟩

theorem Spot.Holds.operands_eq (h : k.Holds p operands m) (h' : k.Holds p' operands' m) : operands = operands' := by
  obtain ⟨below, hbelow, hstack⟩ := h.stack
  obtain ⟨below', hbelow', hstack'⟩ := h'.stack
  have hlists : below.toList ++ operands = below'.toList ++ operands' := by
    have := congrArg Array.toList (hstack.symm.trans hstack')
    rwa [Array.toList_append, Array.toList_append] at this
  exact List.append_inj_right hlists (by rw [Array.length_toList, Array.length_toList, hbelow, hbelow'])

/-- The machine stands for the scene, with the operands `us` on top of the ground, where the code of the finished page
goes on that was emitted from the workbench `s` to the workbench `t`. -/
structure Ready (E : Stage) (Γ : Scope) (G : Ground) (t : Workbench) (us : List Value) (σ : Scene) (s : Workbench)
    (m : Machine) : Prop where
  finishes : E.sheet.FinishesIn (Γ.raise us.length) s t
  sits : Sits E Γ.locals (G.pushAll us) s.draft.size σ m

namespace Ready

section

variable (hE : E.Bare) (hover : Over Γ G) (h : Ready E Γ G t us σ s m) (later : Extends s' t)

include hE hover h later

/-- One operand. The turns that the evaluator's result stands for leave its value on top of the operands before it. -/
theorem evaluates (hfree : e.CallFree) (heval : Eval.enclosed (e.evaluate fuel) σ = .ok v σ')
    (emitted : e.emitValue s = .ok () s') :
    ∃ u m', u.Alike E.view v ∧ Evaluates E.host E.program (E.spot G) e u s s' m m' ∧
      Ready E Γ G t (us ++ [u]) σ' s' m' := by
  obtain ⟨_, ⟨hcode, rfl⟩, hfinishes⟩ := h.finishes.lies (Emits.value e.emits emitted) later
  have hcomes := ((hfree.does hE fuel).runs hE) hcode (hover.raise us) h.sits
  rw [heval] at hcomes
  obtain ⟨m', hturns, u, huv, hsits⟩ := hcomes
  rw [Ground.pushAll_push] at hsits
  refine ⟨u, m', huv, ⟨emitted, hturns, fun operands hm => ?_⟩, ?_, hsits⟩
  · obtain rfl := hm.operands_eq h.sits.holds
    exact hsits.holds
  · rw [List.length_append, List.length_singleton, ← Scope.raise_raise]
    exact hfinishes

/-- The key of a variable is no expression; its code pushes it. -/
theorem key {x : String} (emitted : Emit.constant (.string x) s = .ok () s') :
    ∃ m', Act.step E.host E.program m = .ok () m' ∧ Ready E Γ G t (us ++ [.string x]) σ s' m' := by
  obtain ⟨_, ⟨hcode, rfl⟩, hfinishes⟩ := h.finishes.lies (Emits.constant _ emitted) later
  obtain ⟨m', hstep, hsits⟩ := h.sits.literal hE (fun l hl => (hover.raise us).slot_lt hl) (.string x) hcode
  rw [Ground.pushAll_push] at hsits
  refine ⟨m', hstep, ?_, hsits⟩
  rw [List.length_append, List.length_singleton, ← Scope.raise_raise]
  exact hfinishes

end

variable (hE : E.Bare) (hover : Over Γ G)

include hE hover

/-- Operands one after the other. The induction is on the row; each operand starts where the one before it has ended. -/
theorem evaluates_all (h : Ready E Γ G t us σ s m) (later : Extends s' t) (hfree : ∀ e ∈ es, e.CallFree)
    (heval : evaluateAll (Expr.evaluate fuel) es σ = .ok vs σ') (emitted : emitValues es s = .ok () s') :
    ∃ us' m', List.Forall₂ (Value.Alike E.view) us' vs ∧ EvaluatesAll E.host E.program (E.spot G) es us' s s' m m' ∧
      Ready E Γ G t (us ++ us') σ' s' m' := by
  induction es generalizing us σ s m vs with
  | nil =>
    cases heval
    cases emitted
    exact ⟨[], m, .nil, .nil, by rwa [List.append_nil]⟩
  | cons e rest ih =>
    obtain ⟨v, σ₁, hfirst, heval⟩ := bind_ok.1 heval
    obtain ⟨vs', _, hrest, heval⟩ := bind_ok.1 heval
    cases heval
    obtain ⟨_, s₁, hemitted, hothers⟩ := bind_ok.1 emitted
    obtain ⟨he, hfree⟩ := List.forall_mem_cons.1 hfree
    obtain ⟨u, m₁, huv, hevaluates, h₁⟩ :=
      h.evaluates hE hover ((valuesEmit rest hothers).adds.trans later) he hfirst hemitted
    obtain ⟨us', m', hvs, hall, h'⟩ := ih h₁ hfree hrest hothers
    exact ⟨u :: us', m', .cons huv hvs, .cons hevaluates hall, by rwa [List.append_assoc] at h'⟩

theorem evaluates_part (h : Ready E Γ G t us σ s m) (later : Extends s' t) (hfree : ∀ e, e? = some e → e.CallFree)
    (heval : evaluatePart (Expr.evaluate fuel) e? σ = .ok v? σ') (emitted : emitValue? e? s = .ok () s') :
    ∃ u? m', Option.Rel (Value.Alike E.view) u? v? ∧ EvaluatesPart E.host E.program (E.spot G) e? u? s s' m m' ∧
      Ready E Γ G t (us ++ u?.toList) σ' s' m' := by
  cases e? with
  | none =>
    cases heval
    cases emitted
    exact ⟨none, m, .none, .none, by rwa [Option.toList_none, List.append_nil]⟩
  | some e =>
    obtain ⟨v, _, hvalue, heval⟩ := bind_ok.1 heval
    cases heval
    obtain ⟨u, m', huv, hevaluates, h'⟩ := h.evaluates hE hover later (hfree e rfl) hvalue emitted
    exact ⟨some u, m', .some huv, .some hevaluates, h'⟩

/-- Variables one after the other, each key in front of its value. -/
theorem evaluates_variables (h : Ready E Γ G t us σ s m) (later : Extends s' t)
    (hfree : ∀ x ∈ environment, x.2.CallFree)
    (heval : evaluateAll (Expr.evaluate fuel) (environment.map Prod.snd) σ = .ok vs σ')
    (emitted : emitVariables environment s = .ok () s') :
    ∃ bindings m', List.Forall₂ (Value.Alike E.view) (bindingRow bindings)
        (bindingRow ((environment.map Prod.fst).zip vs)) ∧
      EvaluatesVariables E.host E.program (E.spot G) environment bindings s s' m m' ∧ E.Leads m m' ∧
      Ready E Γ G t (us ++ bindingRow bindings) σ' s' m' := by
  induction environment generalizing us σ s m vs with
  | nil =>
    cases heval
    cases emitted
    exact ⟨[], m, .nil, .nil, .refl, by rwa [bindingRow, List.flatMap_nil, List.append_nil]⟩
  | cons x rest ih =>
    obtain ⟨name, e⟩ := x
    obtain ⟨v, σ₁, hfirst, heval⟩ := bind_ok.1 heval
    obtain ⟨vs', _, hrest, heval⟩ := bind_ok.1 heval
    cases heval
    obtain ⟨_, s₁, hkey, emitted⟩ := bind_ok.1 emitted
    obtain ⟨_, s₂, hvalue, hothers⟩ := bind_ok.1 emitted
    obtain ⟨he, hfree⟩ := List.forall_mem_cons.1 hfree
    have later₂ := (variablesEmit rest hothers).adds.trans later
    have later₁ := (Emits.value e.emits hvalue).adds.trans later₂
    obtain ⟨m₁, hstep, h₁⟩ := h.key hE hover later₁ hkey
    obtain ⟨u, m₂, huv, hevaluates, h₂⟩ := h₁.evaluates hE hover later₂ he hfirst hvalue
    obtain ⟨bindings, m', hvs, hall, hturns, h'⟩ := ih h₂ hfree hrest hothers
    have hkeyed : E.Leads m m₁ := .single h.sits.active (Act.turn_of_ok hstep)
    refine ⟨(name, u) :: bindings, m', .cons rfl (.cons huv hvs), .cons hkey hstep hevaluates hall,
      (hkeyed.trans hevaluates.turns).trans hturns, ?_⟩
    rwa [List.append_assoc, List.append_assoc] at h'

/-- **The operands of a program call that call nothing evaluate to what the evaluator comes to**, with the same
effects. -/
theorem evaluates_operands {root : Bool} {o : Act.ProgramOperands} (h : Ready E Γ G t [] σ s m) (later : Extends s' t)
    (hname : name.CallFree) (harguments : ∀ e ∈ arguments, e.CallFree) (hpiped : ∀ e, piped? = some e → e.CallFree)
    (henvironment : ∀ x ∈ environment, x.2.CallFree)
    (heval : evaluateOperands (Expr.evaluate fuel) name arguments piped? environment σ = .ok o σ')
    (hcompiled : (Target.program name piped? environment settings).emit arguments.length root (emitValues arguments) s =
      .ok () s') :
    ∃ u us u? bindings s₁ m', (⟨u, us, u?, bindingRow bindings⟩ : Act.ProgramOperands).Alike E.view o ∧
      EvaluatesOperands E.host E.program (E.spot G) name arguments piped? environment u us u? bindings s s₁ m m' ∧
      E.Leads m m' ∧ Ready E Γ G t ([u] ++ us ++ u?.toList ++ bindingRow bindings) σ' s₁ m' := by
  obtain ⟨v, σ₁, heval₁, heval⟩ := bind_ok.1 heval
  obtain ⟨vs, σ₂, heval₂, heval⟩ := bind_ok.1 heval
  obtain ⟨v?, σ₃, heval₃, heval⟩ := bind_ok.1 heval
  obtain ⟨ws, σ₄, heval₄, heval⟩ := bind_ok.1 heval
  cases heval
  rw [Target.emit_program] at hcompiled
  obtain ⟨_, s₁, hemitted₁, hcompiled⟩ := bind_ok.1 hcompiled
  obtain ⟨_, s₂, hemitted₂, hcompiled⟩ := bind_ok.1 hcompiled
  obtain ⟨_, s₃, hemitted₃, hcompiled⟩ := bind_ok.1 hcompiled
  obtain ⟨_, s₄, hemitted₄, hinstruction⟩ := bind_ok.1 hcompiled
  have later₄ := (Emits.programInstruction settings root _ _ _ hinstruction).adds.trans later
  have later₃ := (variablesEmit environment hemitted₄).adds.trans later₄
  have later₂ := (partEmits piped? hemitted₃).adds.trans later₃
  have later₁ := (valuesEmit arguments hemitted₂).adds.trans later₂
  obtain ⟨u, m₁, huv, called, h₁⟩ := h.evaluates hE hover later₁ hname heval₁ hemitted₁
  obtain ⟨us, m₂, hvs, listed, h₂⟩ := h₁.evaluates_all hE hover later₂ harguments heval₂ hemitted₂
  obtain ⟨u?, m₃, hv?, piped, h₃⟩ := h₂.evaluates_part hE hover later₃ hpiped heval₃ hemitted₃
  obtain ⟨bindings, m₄, hws, bound, hturns, h₄⟩ := h₃.evaluates_variables hE hover later₄ henvironment heval₄ hemitted₄
  have hleads : E.Leads m m₄ := ((called.turns.trans listed.turns).trans piped.turns).trans hturns
  exact ⟨u, us, u?, bindings, s₄, m₄, ⟨huv, hvs, hv?, hws⟩, .mk called listed piped bound, hleads, h₄⟩

end Ready

/-! ## Leaves -/

/-- The leaves of values that are alike are alike. -/
theorem Value.Leaves.of_alike {V : View} {w w' : World} {ls : List Value} (h : Value.Leaves w' vs ls)
    (hw : w.Alike V w') : ∀ {us}, List.Forall₂ (Value.Alike V) us vs →
      ∃ ls', Value.Leaves w us ls' ∧ List.Forall₂ (Value.Alike V) ls' ls := by
  induction h with
  | nil =>
    intro us hvs
    cases hvs
    exact ⟨[], .nil, .nil⟩
  | list _ _ ihItems ihRest =>
    rintro _ (_ | ⟨hu, hrest⟩)
    obtain rfl := hu.eq nofun nofun
    obtain ⟨ls₁, hitems, halike₁⟩ := ihItems (hw.list hu.2)
    obtain ⟨ls₂, hrest, halike₂⟩ := ihRest hrest
    exact ⟨ls₁ ++ ls₂, .list hitems hrest, List.rel_append halike₁ halike₂⟩
  | tuple _ _ ihItems ihRest =>
    rintro _ (_ | ⟨hu, hrest⟩)
    rcases hu.cases with ⟨rfl, hne⟩ | ⟨us', _, rfl, ⟨⟩, hitems⟩ | ⟨_, _, _, _, -, ⟨⟩, -⟩
    · exact absurd rfl (hne _)
    · obtain ⟨ls₁, hitems, halike₁⟩ := ihItems hitems
      obtain ⟨ls₂, hrest, halike₂⟩ := ihRest hrest
      exact ⟨ls₁ ++ ls₂, .tuple hitems hrest, List.rel_append halike₁ halike₂⟩
  | leaf single _ ih =>
    rintro _ (_ | ⟨hu, hrest⟩)
    obtain ⟨ls', hrest, halike⟩ := ih hrest
    refine ⟨_ :: ls', .leaf ?_ hrest, .cons hu halike⟩
    rcases hu.cases with ⟨rfl, -⟩ | ⟨_, _, -, rfl, -⟩ | ⟨_, _, _, _, rfl, rfl, -⟩
    · exact single
    · exact single.elim
    · trivial

/-! ## A call with a nested list -/

/-- A string literal. -/
def Expr.text (s : String) : Expr := .mk 0 (.literal (.string s))

/-- A text, and a list with a list in it. -/
def pipingArguments : List Expr := [.text "a", .mk 0 (.list [.text "b", .mk 0 (.list [.text "c"])])]

/-- The output is captured, and read without a buffer. -/
def pipingSettings : ProgramSettings := ⟨true, false, true, false, false⟩

/-- A program is called with the arguments; a text is piped into it, and a variable is set. -/
def piping : Expr :=
  .mk 0 (.call (.program (.text "p") (some (.text "in")) [("K", .text "v")] pipingSettings) pipingArguments false)

/-- The world in which its operands have been evaluated. -/
def pipingWorld : World := { (default : World) with lists := #[#[.string "c"], #[.string "b", .list 0]] }

/-- The constants of its page. -/
def pipingConstants : List Constant :=
  [.nil, .string "p", .string "a", .string "b", .string "c", .string "in", .string "K", .string "v"]

/-- The code of its page. -/
def pipingCode : List UInt8 :=
  [4, 0, 1, 4, 0, 2, 4, 0, 3, 4, 0, 4, 34, 0, 1, 34, 0, 2, 4, 0, 5, 4, 0, 6, 4, 0, 7, 56, 2, 0, 11, 1]

/-- The compiler that has the entry. -/
def knowingPiping : Compiler :=
  ⟨⟨#[⟨Compiler.entryName, 0, pipingCode.toArray, .ofList pipingConstants, #[]⟩], #[]⟩, [], []⟩

theorem enter_piping : Compiler.new.enter piping = (.ok 0, knowingPiping) := by
  let writing (size count height : Nat) : Workbench :=
    ⟨⟨#[.empty Compiler.entryName 0], #[]⟩, [], [], [], ⟨⟨Compiler.entryName, 0, (pipingCode.take size).toArray,
      .ofList (pipingConstants.take count), #[]⟩, [], [], [], height, 0, [], [], true⟩, []⟩
  have hname : Emit.constant (.string "p") (writing 0 1 0) = .ok () (writing 3 2 1) :=
    (ConstantTable.constant_new rfl rfl (by decide) (by decide)).trans rfl
  have hfirst : Emit.constant (.string "a") (writing 3 2 1) = .ok () (writing 6 3 2) :=
    (ConstantTable.constant_new rfl rfl (by decide) (by decide)).trans rfl
  have hitem : Emit.constant (.string "b") (writing 6 3 2) = .ok () (writing 9 4 3) :=
    (ConstantTable.constant_new rfl rfl (by decide) (by decide)).trans rfl
  have hinner : Emit.constant (.string "c") (writing 9 4 3) = .ok () (writing 12 5 4) :=
    (ConstantTable.constant_new rfl rfl (by decide) (by decide)).trans rfl
  have hlists : (do Emit.word .buildList 1 "collection items"; Emit.word .buildList 2 "collection items")
      (writing 12 5 4) = .ok () (writing 18 5 3) := rfl
  have hpiped : Emit.constant (.string "in") (writing 18 5 3) = .ok () (writing 21 6 4) :=
    (ConstantTable.constant_new rfl rfl (by decide) (by decide)).trans rfl
  have hkey : Emit.constant (.string "K") (writing 21 6 4) = .ok () (writing 24 7 5) :=
    (ConstantTable.constant_new rfl rfl (by decide) (by decide)).trans rfl
  have hvalue : Emit.constant (.string "v") (writing 24 7 5) = .ok () (writing 27 8 6) :=
    (ConstantTable.constant_new rfl rfl (by decide) (by decide)).trans rfl
  have hcall : Emit.programInstruction pipingSettings false 2 1 true (writing 27 8 6) =
      .ok () (writing 32 8 1) := rfl
  have hcode : piping.emitValue = (do
      Emit.constant (.string "p")
      Emit.constant (.string "a")
      Emit.constant (.string "b")
      Emit.constant (.string "c")
      (do Emit.word .buildList 1 "collection items"; Emit.word .buildList 2 "collection items")
      Emit.constant (.string "in")
      Emit.constant (.string "K")
      Emit.constant (.string "v")
      Emit.programInstruction pipingSettings false 2 1 true) := by
    have hnested : piping.emitValue = (do
        Emit.constant (.string "p")
        (do
          Emit.constant (.string "a")
          (do
            (do
              (do
                Emit.constant (.string "b")
                (do
                  (do (do Emit.constant (.string "c"); pure ()); Emit.word .buildList 1 "collection items")
                  pure ()))
              Emit.word .buildList 2 "collection items")
            pure ()))
        Emit.constant (.string "in")
        (do Emit.constant (.string "K"); (do Emit.constant (.string "v"); pure ()))
        Emit.programInstruction pipingSettings false 2 1 true) := by
      with_unfolding_all rfl
    rw [hnested]
    simp only [bind_assoc, bind_pure_unit]
  have hemit : piping.emitValue (writing 0 1 0) = .ok () (writing 32 8 1) := by
    rw [hcode, bind_run_ok hname, bind_run_ok hfirst, bind_run_ok hitem, bind_run_ok hinner, bind_run_ok hlists,
      bind_run_ok hpiped, bind_run_ok hkey, bind_run_ok hvalue, hcall]
  have hstart : (Compiler.new.bench (Compiler.entryDraft piping)).reserve Compiler.entryName = writing 0 1 0 := by
    with_unfolding_all rfl
  exact Compiler.enter_of_emitValue (by decide) hstart hemit (by decide) rfl

/-- The operands are evaluated where the instruction of the call stands. -/
theorem piping_evaluates : ∃ (S : Sheet) (s s₁ t : Workbench) (m : Machine) (V : View) (u : Value) (us : List Value)
    (u? : Option Value) (bindings : List (String × Value)), S.program = knowingPiping.program ∧
    S.program.page? 0 = some S.page ∧ S.Finishes s t ∧
    (Target.program (.text "p") (some (.text "in")) [("K", .text "v")] pipingSettings).emit pipingArguments.length false
      (emitValues pipingArguments) s = .ok () t ∧
    (⟨0, 0, 0⟩ : Spot).Holds s.draft.size [] (Machine.start 0 default) ∧
    EvaluatesOperands {} S.program ⟨0, 0, 0⟩ (.text "p") pipingArguments (some (.text "in")) [("K", .text "v")]
      u us u? bindings s s₁ (Machine.start 0 default) m ∧
    (⟨u, us, u?, bindingRow bindings⟩ : Act.ProgramOperands).Alike V
      ⟨.string "p", [.string "a", .list 1], some (.string "in"), [.string "K", .string "v"]⟩ ∧
    m.world.Alike V pipingWorld ∧
    Turns {} S.program Machine.Active (Machine.start 0 default) m ∧
    ({} : Host).exceeded? { m with steps := m.steps + 1 } = none := by
  obtain ⟨page, s, t, hemit, hfinishes, hsize, hpage⟩ := Compiler.Stable.new.finishes enter_piping
  let E : Stage := ⟨(default : World).view (fun _ _ => False) fun _ => False, {}, knowingPiping.program, 0,
    ⟨knowingPiping.program, knowingPiping.functions, page, [], piping.captured, true⟩⟩
  have hE : E.Bare := ⟨hpage, rfl, by with_unfolding_all rfl⟩
  have hover : Over ⟨[], 0, 0, [], none⟩ ⟨[], [], []⟩ :=
    ⟨rfl, nofun, .nil, nofun, Nat.le_refl _, Nat.le_refl _, nofun⟩
  have hcalm : (Machine.start 0 default).Calm {} knowingPiping.program :=
    @Machine.calm_of_staysCalm _ _ _ 12 (by decide +kernel)
  have hready : Ready E ⟨[], 0, 0, [], none⟩ ⟨[], [], []⟩ t [] ⟨[], default⟩ s (Machine.start 0 default) := by
    refine ⟨hfinishes, ?_⟩
    rw [hsize]
    exact ⟨rfl, rfl, rfl, rfl, ⟨Nat.le_refl _, nofun, .nil⟩, World.alike_self _ _ _, hcalm⟩
  have hcompiled : (Target.program (.text "p") (some (.text "in")) [("K", .text "v")] pipingSettings).emit
      pipingArguments.length false (emitValues pipingArguments) s = .ok () t := by
    have hcall : piping.emitValue =
        (Target.program (.text "p") (some (.text "in")) [("K", .text "v")] pipingSettings).emit
          pipingArguments.length false (emitValues pipingArguments) := by
      with_unfolding_all rfl
    rwa [hcall] at hemit
  have htext {x : String} : (Expr.text x).CallFree := .literal _
  have harguments : ∀ e ∈ pipingArguments, e.CallFree := by
    refine List.forall_mem_cons.2 ⟨htext, List.forall_mem_singleton.2 (.list ?_)⟩
    refine List.forall_mem_cons.2 ⟨htext, List.forall_mem_singleton.2 (.list ?_)⟩
    exact List.forall_mem_singleton.2 htext
  have hpiped : ∀ e, some (Expr.text "in") = some e → e.CallFree := by
    rintro _ ⟨⟩
    exact htext
  have heval :
      evaluateOperands (Expr.evaluate 3) (.text "p") pipingArguments (some (.text "in")) [("K", .text "v")]
        ⟨[], default⟩ =
      .ok ⟨.string "p", [.string "a", .list 1], some (.string "in"), [.string "K", .string "v"]⟩
        ⟨[], pipingWorld⟩ := rfl
  obtain ⟨u, us, u?, bindings, s₁, m, halike, hoperands, hturns, h⟩ := hready.evaluates_operands hE hover
    ⟨.refl _, .of_eq rfl rfl, fun _ _ h => h⟩ htext harguments hpiped
      (List.forall_mem_singleton.2 htext) heval hcompiled
  exact ⟨E.sheet, s, s₁, t, m, E.view, u, us, u?, bindings, rfl, hpage, ⟨_, hfinishes⟩, hcompiled, hready.sits.holds,
    hoperands, halike, h.sits.world, hturns, (h.sits.calm m .refl).exceeded?_eq_none⟩

/-- The lists among the arguments are opened, at any depth; their items are arguments in the order of the source. -/
theorem program_call_operands_survive_piping : ∃ (m : Machine) (i : Instruction) (f : Frame) (frames : List Frame)
    (isRoot : Bool) (ip : Nat), Turns {} knowingPiping.program Machine.Active (Machine.start 0 default) m ∧
    m.next? knowingPiping.program = some i ∧
    m.stack = #[.string "p", .string "a", .list 1, .string "in", .string "K", .string "v"] ∧
    Value.Leaves m.world [.string "a", .list 1] [.string "a", .string "b", .string "c"] ∧
    (i.word 1).toNat.testBit 0 = true ∧ (i.word 1).toNat.testBit 2 = false ∧ (i.word 1).toNat.testBit 3 = true ∧
    Act.step {} knowingPiping.program m = (do Act.push (← Act.effect (Job.run
      ⟨"p", ["a", "b", "c"], [("K", "v")], some (.text "in")⟩ ⟨i.word 1⟩ isRoot)) : Act Unit)
      { m with steps := m.steps + 1, frames := { f with ip := ip } :: frames, stack := #[] } := by
  obtain ⟨S, s, s₁, t, m, V, u, us, u?, bindings, hprogram, hpage, hfinishes, hcompiled, hstart,
    hoperands, halike, hworld, hturns, hlimits⟩ := piping_evaluates
  have hname : u.Alike V (.string "p") := halike.name
  have harguments : List.Forall₂ (Value.Alike V) us [.string "a", .list 1] := halike.arguments
  have hinput : Option.Rel (Value.Alike V) u? (some (.string "in")) := halike.piped?
  have hvariables : List.Forall₂ (Value.Alike V) (bindingRow bindings) [.string "K", .string "v"] := halike.environment
  -- the leaves are those in the world of the evaluator
  obtain ⟨ls, hls, hleaves⟩ : ∃ ls, Value.Leaves m.world us ls ∧
      List.Forall₂ (Value.Alike V) ls [.string "a", .string "b", .string "c"] := by
    have hdeep : Value.Leaves pipingWorld [.list 0] ([.string "c"] ++ []) := .list (.leaf trivial .nil) .nil
    have hnested : Value.Leaves pipingWorld [.list 1] ([.string "b", .string "c"] ++ []) :=
      .list (.leaf trivial hdeep) .nil
    have houter : Value.Leaves pipingWorld [.string "a", .list 1] [.string "a", .string "b", .string "c"] :=
      .leaf trivial hnested
    exact houter.of_alike hworld harguments
  obtain rfl : ls = [.string "a", .string "b", .string "c"] := by
    obtain _ | ⟨h₁, _ | ⟨h₂, _ | ⟨h₃, ⟨⟩⟩⟩⟩ := hleaves
    rw [h₁.eq nofun nofun, h₂.eq nofun nofun, h₃.eq nofun nofun]
  obtain rfl := hname.eq nofun nofun
  obtain rfl : us = [.string "a", .list 1] := by
    obtain _ | ⟨h₁, _ | ⟨h₂, ⟨⟩⟩⟩ := harguments
    rw [h₁.eq nofun nofun, h₂.eq nofun nofun]
  obtain rfl : u? = some (.string "in") := by
    cases hinput with
    | some h => rw [h.eq nofun nofun]
  obtain rfl : bindings = [("K", .string "v")] := by
    obtain ⟨⟨_, x⟩, rfl, rfl⟩ := List.map_eq_singleton_iff.1 hoperands.names
    obtain _ | ⟨-, _ | ⟨hx, ⟨⟩⟩⟩ := hvariables
    exact congrArg (fun v => [("K", v)]) (hx.eq nofun nofun)
  obtain ⟨n, hnests⟩ := hls.nests
  obtain ⟨-, i, f, frames, below, leaves, hnext, -, hbits, -, hbelow, hstack, hleaves, hcall⟩ :=
    program_call_operands_survive hpage hfinishes ⟨.refl _, .of_eq rfl rfl, fun _ _ h => h⟩ hcompiled hstart
      hoperands hnests.acyclic hlimits
  obtain rfl : below = #[] := Array.eq_empty_of_size_eq_zero hbelow
  obtain rfl := hls.unique hleaves
  have hnamed : (Value.string "p").text m.world = .ok "p" m.world := rfl
  have hlisted : Value.textAll [.string "a", .string "b", .string "c"] m.world = .ok ["a", "b", "c"] m.world := rfl
  have hbound : Value.textAll ([("K", Value.string "v")].map Prod.snd) m.world = .ok ["v"] m.world := rfl
  have hpiped : (Value.string "in").pipedInput m.world = .ok (.text "in") m.world := rfl
  rw [hprogram] at hturns hnext hcall
  exact ⟨m, i, f, frames, _, _, hturns, hnext, hstack, hls, hbits 0, hbits 2, hbits 3,
    hcall _ _ (.mk hnamed hlisted hbound (.value hpiped))⟩

end ShellVM
