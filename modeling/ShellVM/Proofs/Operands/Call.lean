import ShellVM.Proofs.Operands.Evaluated

/-!
# Program calls in code

Behind its operands, the code of a program call has one instruction. It takes off the stack what the code of the
operands left there, in the same groups, and hands over the call that these values ask for
(`program_call_operands_survive`).
-/

namespace ShellVM

variable {host : Host} {S : Sheet} {k : Spot} {s s' t : Workbench} {m m' : Machine} {below : Array Value}
  {name : Expr} {arguments : List Expr} {piped? : Option Expr} {environment : List (String × Expr)}
  {settings : ProgramSettings} {v : Value} {vs row : List Value} {v? : Option Value} {bindings : List (String × Value)}
  {flags : CallFlags} {pairs : Nat}

/-! ## The operands -/

/-- The operands of a program call evaluate one after the other: the name, the arguments, what is piped, and the
variables. -/
inductive EvaluatesOperands (host : Host) (program : Program) (k : Spot) (name : Expr) (arguments : List Expr)
    (piped? : Option Expr) (environment : List (String × Expr)) : Value → List Value → Option Value →
    List (String × Value) → (s s' : Workbench) → (m m' : Machine) → Prop where
  | mk {v : Value} {vs : List Value} {v? : Option Value} {bindings : List (String × Value)} {s s₁ s₂ s₃ s' : Workbench}
      {m m₁ m₂ m₃ m' : Machine} (called : Evaluates host program k name v s s₁ m m₁)
      (listed : EvaluatesAll host program k arguments vs s₁ s₂ m₁ m₂)
      (piped : EvaluatesPart host program k piped? v? s₂ s₃ m₂ m₃)
      (bound : EvaluatesVariables host program k environment bindings s₃ s' m₃ m') :
      EvaluatesOperands host program k name arguments piped? environment v vs v? bindings s s' m m'

theorem EvaluatesAll.length {es : List Expr} (h : EvaluatesAll host S.program k es vs s s' m m') :
    vs.length = es.length := by
  induction h with
  | nil => rfl
  | cons _ _ ih => exact congrArg (· + 1) ih

theorem EvaluatesPart.isSome {e? : Option Expr} (h : EvaluatesPart host S.program k e? v? s s' m m') :
    v?.isSome = e?.isSome := by
  cases h <;> rfl

theorem EvaluatesVariables.names (h : EvaluatesVariables host S.program k environment bindings s s' m m') :
    bindings.map Prod.fst = environment.map Prod.fst := by
  induction h with
  | nil => rfl
  | cons _ _ _ _ ih => exact congrArg (_ :: ·) ih

theorem length_bindingRow (bindings : List (String × Value)) : (bindingRow bindings).length = bindings.length * 2 := by
  induction bindings with
  | nil => rfl
  | cons x bindings ih =>
    show (bindingRow bindings).length + 1 + 1 = _
    rw [ih, List.length_cons]
    omega

section

variable (h : EvaluatesOperands host S.program k name arguments piped? environment v vs v? bindings s s' m m')

include h

theorem EvaluatesOperands.lengths : vs.length = arguments.length ∧ v?.isSome = piped?.isSome := by
  obtain ⟨-, listed, piped, -⟩ := h
  exact ⟨listed.length, piped.isSome⟩

theorem EvaluatesOperands.names : bindings.map Prod.fst = environment.map Prod.fst := by
  obtain ⟨-, -, -, bound⟩ := h
  exact bound.names

/-- The values of the operands lie on top of each other, and the page has their code. -/
theorem EvaluatesOperands.holds (hpage : S.program.page? k.page = some S.page) (hfinishes : S.Finishes s t)
    (later : Extends s' t) (hm : k.Holds s.draft.size [] m) :
    k.Holds s'.draft.size ([v] ++ vs ++ v?.toList ++ bindingRow bindings) m' ∧ S.Finishes s' t := by
  obtain ⟨called, listed, piped, bound⟩ := h
  have hcalled := Emits.value name.emits called.emitted
  have hlisted := valuesEmit arguments listed.emitted
  have hpiped := partEmits piped? piped.emitted
  have hbound := variablesEmit environment bound.emitted
  have later₃ := hbound.adds.trans later
  have later₂ := hpiped.adds.trans later₃
  obtain ⟨-, hfinishes₁⟩ := hfinishes.lies hcalled (hlisted.adds.trans later₂)
  obtain ⟨-, hfinishes₂⟩ := hfinishes₁.lies hlisted later₂
  obtain ⟨-, hfinishes₃⟩ := hfinishes₂.lies hpiped later₃
  obtain ⟨-, hfinishes₄⟩ := hfinishes₃.lies hbound later
  have hnamed := called.leaves [] hm
  exact ⟨bound.holds hpage hfinishes₃ later (piped.holds (listed.holds hnamed)), hfinishes₄⟩

end

/-! ## Off the stack again -/

namespace Act

/-- What the operands left on the stack comes off it in the same groups, and what is below stays. -/
theorem programOperands_eq (hstack : m.stack = below.push v ++ vs.toArray ++ v?.toArray ++ row.toArray)
    (hrow : row.length = pairs * 2) (hflags : flags.contains .piped = v?.isSome) :
    programOperands vs.length pairs flags m = .ok ⟨v, vs, v?, row⟩ { m with stack := below } := by
  have henvironment := popMany_eq hstack
  rw [List.size_toArray, hrow] at henvironment
  unfold programOperands
  rw [bind_run_ok henvironment, hflags]
  have hnamed : (do
      let arguments ← popMany vs.length
      let name ← pop
      return ⟨name, arguments.toList, v?, row⟩ : Act ProgramOperands) { m with stack := below.push v ++ vs.toArray } =
        .ok ⟨v, vs, v?, row⟩ { m with stack := below } := by
    rw [← List.size_toArray, bind_run_ok (popMany_eq rfl), bind_run_ok (pop_eq rfl)]
    rfl
  cases v? with
  | none => exact hnamed
  | some u =>
    have hpiped : (some <$> pop : Act (Option Value)) { m with stack := (below.push v ++ vs.toArray).push u } =
        .ok (some u) { m with stack := below.push v ++ vs.toArray } := by
      show EStateM.map some pop _ = _
      unfold EStateM.map
      rw [pop_eq rfl]
    exact (bind_run_ok hpiped).trans hnamed

theorem effect_bind_ok {α β : Type} {x : Effect α} {y : α → Effect β} {a : α} {w : World} (h : x m.world = .ok a w) :
    effect (x >>= y) m = effect (y a) { m with world := w } := by
  unfold effect
  rw [bind_run_ok h]

/-- The instruction takes its operands off the stack, and runs the call that they ask for. -/
theorem callProgram_eq (rootness : Rootness) {isRoot : Bool} {i : Instruction} {call : ProgramCall} {w : World}
    (hroot : root rootness m = .ok isRoot m) (hcount : (i.byte 0).toNat = vs.length)
    (hstack : m.stack = below.push v ++ vs.toArray ++ v?.toArray ++ row.toArray)
    (hrow : row.length = (i.byte 3).toNat * 2) (hflags : CallFlags.contains ⟨i.word 1⟩ .piped = v?.isSome)
    (hcall : programCall ⟨v, vs, v?, row⟩ m.world = .ok call w) : callProgram rootness i m =
      (do push (← effect (Job.run call ⟨i.word 1⟩ isRoot)) : Act Unit) { m with stack := below, world := w } := by
  have hoperands := programOperands_eq hstack hrow hflags
  rw [← hcount] at hoperands
  unfold callProgram
  rw [bind_run_ok hroot, bind_run_ok hoperands]
  show EStateM.bind (effect (programCall _ >>= _)) _ _ = EStateM.bind _ _ _
  unfold EStateM.bind
  rw [effect_bind_ok (m := { m with stack := below }) hcall]

end Act

/-! ## The code behind the operands -/

theorem Target.emit_program (count : Nat) (root : Bool) (emitArguments : Emit Unit) :
    (Target.program name piped? environment settings).emit count root emitArguments = (do
      name.emitValue
      emitArguments
      emitValue? piped?
      emitVariables environment
      Emit.programInstruction settings root count environment.length piped?.isSome) := by
  cases piped? <;> rw [Target.emit] <;> rfl

/-- Behind the operands the call emits its instruction. -/
theorem EvaluatesOperands.rest {root : Bool} {s₁ : Workbench}
    (h : EvaluatesOperands host S.program k name arguments piped? environment v vs v? bindings s s₁ m m')
    (hcompiled : (Target.program name piped? environment settings).emit arguments.length root (emitValues arguments) s =
      .ok () s') :
    Emit.programInstruction settings root arguments.length environment.length piped?.isSome s₁ = .ok () s' := by
  obtain ⟨called, listed, piped, bound⟩ := h
  rw [Target.emit_program, bind_run_ok called.emitted, bind_run_ok listed.emitted, bind_run_ok piped.emitted,
    bind_run_ok bound.emitted] at hcompiled
  exact hcompiled

/-- The flags of a call are those of its settings, and the one for a value that is piped. -/
theorem programFlags_testBit (settings : ProgramSettings) (piped : Bool) (j : Nat) :
    ((Emit.programFlags settings).withIf .piped piped).bits.toNat.testBit j =
      [piped, settings.captureOutput, settings.captureErrors, settings.unbuffered, settings.autostart,
        settings.background].getD j false := by
  obtain ⟨a, b, c, d, e⟩ := settings
  have hlt : ((Emit.programFlags ⟨a, b, c, d, e⟩).withIf .piped piped).bits.toNat < 2 ^ 6 := by
    cases a <;> cases b <;> cases c <;> cases d <;> cases e <;> cases piped <;> decide
  have hlow : ∀ j < 6, ((Emit.programFlags ⟨a, b, c, d, e⟩).withIf .piped piped).bits.toNat.testBit j =
      [piped, a, b, c, d, e].getD j false := by
    cases a <;> cases b <;> cases c <;> cases d <;> cases e <;> cases piped <;> decide
  by_cases hj : j < 6
  · exact hlow j hj
  · rw [Nat.testBit_lt_two_pow (Nat.lt_of_lt_of_le hlt (Nat.pow_le_pow_right (by decide) (Nat.not_lt.1 hj)))]
    rw [List.getD_eq_getElem?_getD, List.getElem?_eq_none (Nat.not_lt.1 hj)]
    rfl

theorem word_programOperands (p : Nat) (op : Op) (count pairs : UInt8) (w : UInt16) :
    Instruction.word ⟨p, op, [count] ++ wordBytes w ++ [pairs]⟩ 1 = w := by
  have hw : wordAt? ([count] ++ wordBytes w ++ [pairs]) 1 = some w := wordAt?_wordBytes w [pairs]
  unfold Instruction.word
  rw [hw]
  rfl

/-- Each of the instructions that call programs runs the call that its operands ask for. -/
theorem Act.perform_program {page : Page} {i : Instruction} {call : ProgramCall} {w : World} {f : Frame}
    {frames : List Frame} (hop : i.op = .callProgram ∨ i.op = .rootCallProgram ∨ i.op = .maybeRootCallProgram)
    (hframes : m.frames = f :: frames) (hcount : (i.byte 0).toNat = vs.length)
    (hstack : m.stack = below.push v ++ vs.toArray ++ v?.toArray ++ row.toArray)
    (hrow : row.length = (i.byte 3).toNat * 2) (hflags : CallFlags.contains ⟨i.word 1⟩ .piped = v?.isSome)
    (hcall : programCall ⟨v, vs, v?, row⟩ m.world = .ok call w) : perform host S.program page i m =
      (do push (← effect (Job.run call ⟨i.word 1⟩
        (i.op == .rootCallProgram || i.op == .maybeRootCallProgram && f.isRoot))) : Act Unit)
        { m with stack := below, world := w } := by
  obtain ⟨offset, op, operands⟩ := i
  dsimp only at hop
  rcases hop with rfl | rfl | rfl
  · exact callProgram_eq (.fixed false) rfl hcount hstack hrow hflags hcall
  · exact callProgram_eq (.fixed true) rfl hcount hstack hrow hflags hcall
  · have hframe : frame m = .ok f m := by
      unfold frame
      rw [hframes]
    have hroot : root .inherited m = .ok f.isRoot m := bind_run_ok hframe
    exact callProgram_eq .inherited hroot hcount hstack hrow hflags hcall

/-- The operands of a program call survive the way through the code. Where they have been evaluated, the instruction
of the call comes next. Its flags are those of the settings; it takes exactly the operands off the stack, with nothing
below them changed, and runs the call that they ask for: the arguments are the texts of the leaves of the values, and
the variables are in the order of the source. -/
theorem program_call_operands_survive {root : Bool} {s₁ : Workbench} (hpage : S.program.page? k.page = some S.page)
    (hfinishes : S.Finishes s t) (later : Extends s' t)
    (hcompiled : (Target.program name piped? environment settings).emit arguments.length root (emitValues arguments) s =
      .ok () s')
    (hstart : k.Holds s.draft.size [] m)
    (hoperands : EvaluatesOperands host S.program k name arguments piped? environment v vs v? bindings s s₁ m m')
    (hacyclic : ∀ u ∈ vs, u.Acyclic m'.world) (hlimits : host.exceeded? { m' with steps := m'.steps + 1 } = none) :
    bindings.map Prod.fst = environment.map Prod.fst ∧ ∃ i f frames below leaves,
      m'.next? S.program = some i ∧ (i.op = .callProgram ∨ i.op = .rootCallProgram ∨ i.op = .maybeRootCallProgram) ∧
      (∀ j, (i.word 1).toNat.testBit j = [piped?.isSome, settings.captureOutput,
        settings.captureErrors, settings.unbuffered, settings.autostart, settings.background].getD j false) ∧
      m'.frames = f :: frames ∧ below.size = k.height ∧
      m'.stack = below.push v ++ vs.toArray ++ v?.toArray ++ (bindingRow bindings).toArray ∧
      Value.Leaves m'.world vs leaves ∧
      ∀ call w, ProgramCall.Requested v leaves bindings v? m'.world call w → Act.step host S.program m' =
        (do Act.push (← Act.effect (Job.run call ⟨i.word 1⟩
          (i.op == .rootCallProgram || i.op == .maybeRootCallProgram && f.isRoot))) : Act Unit)
        { m' with
          steps := m'.steps + 1, frames := { f with ip := s'.draft.size } :: frames, stack := below, world := w } := by
  have hdrawn := Emits.programInstruction settings root _ _ _ (hoperands.rest hcompiled)
  obtain ⟨hholds, hfinishes'⟩ := hoperands.holds hpage hfinishes (hdrawn.adds.trans later) hstart
  obtain ⟨⟨Γ, Γ', hcount, hpairs, hhas, hsize, -⟩, -⟩ := hfinishes'.lies hdrawn later
  obtain ⟨f, frames, hframes, hf, hip, -⟩ := hholds.frames
  obtain ⟨below, hbelow, hstack⟩ := hholds.stack
  rw [← hip] at hhas
  have hnext := Machine.next?_of_reads hframes (hf ▸ hpage) hhas
  obtain ⟨leaves, hleaves, htexts⟩ := Value.Acyclic.arguments hacyclic
  have hgroups : m'.stack = below.push v ++ vs.toArray ++ v?.toArray ++ (bindingRow bindings).toArray :=
    hstack.trans (Array.ext' (by simp))
  refine ⟨hoperands.names, _, f, frames, below, leaves, hnext, Emits.programOp S root, ?_, hframes,
    hbelow, hgroups, hleaves, ?_⟩
  · rw [word_programOperands]
    exact programFlags_testBit settings piped?.isSome
  intro call w hrequested
  rw [Act.step_of_reads hframes (hf ▸ hpage) hhas hlimits]
  refine Eq.trans (Act.perform_program (Emits.programOp S root) rfl ?_ (by exact hgroups) ?_ ?_
    (Act.programCall_requested htexts hrequested)) ?_
  · show (arguments.length.toUInt8).toNat = vs.length
    rw [hoperands.lengths.1, UInt8.toNat_ofNat', Nat.mod_eq_of_lt (by omega)]
  · show (bindingRow bindings).length = (environment.length.toUInt8).toNat * 2
    rw [length_bindingRow, UInt8.toNat_ofNat', Nat.mod_eq_of_lt (by omega), ← List.length_map Prod.fst, hoperands.names,
      List.length_map]
  · rw [word_programOperands, hoperands.lengths.2]
    exact contains_piped settings _
  · rw [hsize, ← hip]
    rfl

end ShellVM
