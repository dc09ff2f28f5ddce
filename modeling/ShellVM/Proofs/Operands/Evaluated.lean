import ShellVM.Proofs.Calls
import ShellVM.Proofs.Emission.Compiler
import ShellVM.Proofs.Job.Request
import ShellVM.Proofs.Meaning.Step

/-!
# Operands of program calls in code

The operands of a program call are emitted one after the other, and run one after the other. If the code of each of
them leaves its value on top of those before it (`Evaluates`), they all lie on the stack where the code of the call
comes to its last instruction (`EvaluatesOperands.holds`). The keys of the environment are no expressions; that their
code leaves them there is part of the proof.
-/

namespace ShellVM

variable {host : Host} {S : Sheet} {s s' t : Workbench} {m m' : Machine} {p p' : Nat}

/-! ## Finished pages -/

/-- The sheet is a finished page that has all that was written between two workbenches. The first of them is in the
scope `Γ`, and knows its page and its program as they are. -/
structure Sheet.FinishesIn (S : Sheet) (Γ : Scope) (s s' : Workbench) : Prop where
  known : s.Known
  scope : Γ.Describes s.draft
  settled : Settled S (s'.draft.holes Γ.loop?) s.draft.size s'.draft.size s.program.pages.size s'

/-- The sheet is a finished page that has all that was written between two workbenches. -/
def Sheet.Finishes (S : Sheet) (s s' : Workbench) : Prop := ∃ Γ, S.FinishesIn Γ s s'

/-- What an emitter writes on the way lies in the finished page as the layout says. -/
theorem Sheet.FinishesIn.lies {L : Sheet → Layout} {Γ : Scope} (h : S.FinishesIn Γ s t) (hm : Drawn s s' L)
    (later : Extends s' t) : ∃ Γ', L S Γ s.draft.size Γ' s'.draft.size ∧ S.FinishesIn Γ' s' t := by
  obtain ⟨Γ', hscope', hloop, hlies⟩ :=
    hm.lies h.known h.scope (Settled.back (H := []) h.settled later (Nat.le_refl _))
  refine ⟨Γ', hlies, hm.adds.program.known h.known, hscope', ?_⟩
  rw [hloop]
  exact h.settled.part hm.adds.draft.size (Nat.le_refl _) hm.adds.program.count (fun _ h => h) fun _ h => .inl h

theorem Sheet.Finishes.lies {L : Sheet → Layout} (h : S.Finishes s t) (hm : Drawn s s' L) (later : Extends s' t) :
    (∃ Γ Γ', L S Γ s.draft.size Γ' s'.draft.size) ∧ S.Finishes s' t := by
  obtain ⟨Γ, h⟩ := h
  obtain ⟨Γ', hlies, h'⟩ := h.lies hm later
  exact ⟨⟨Γ, Γ', hlies⟩, Γ', h'⟩

/-- The page of an entry has all that was emitted for it. -/
theorem Compiler.Stable.finishes {c c' : Compiler} {e : Expr} {index : UInt16} (hc : c.Stable)
    (h : c.enter e = (.ok index, c')) : ∃ (page : Page) (s s' : Workbench), e.emitValue s = .ok () s' ∧
      (⟨c'.program, c'.functions, page, [], e.captured, true⟩ : Sheet).FinishesIn ⟨[], 0, 0, [], none⟩ s s' ∧
      s.draft.size = 0 ∧ c'.program.page? index = some page := by
  obtain ⟨t, he, rfl⟩ := Compiler.enter_ok h
  obtain ⟨s, hemit, hreserved, rfl, -⟩ := Compiler.emitEntry_ok rfl rfl he
  have hknown := hc.known (entryDraft e)
  have hfinal : Final (s.install index s.draft.page).program s.functions 0 (s.install index s.draft.page) :=
    ⟨fun _ _ h => h, fun _ _ _ _ => rfl, fun _ _ h => h⟩
  have hsettled := Compiler.settled_entry rfl hemit hreserved hfinal
  exact ⟨_, _, s, hemit, ⟨hknown.reserve, Compiler.entryDraft_describes e, hsettled⟩, rfl,
    hreserved.page hknown (hfinal.mono (Nat.zero_le _))⟩

section

variable {program : Program} {page : Page} {f : Frame} {rest : List Frame} {op : Op} {operands : List UInt8}

theorem Machine.next?_of_reads (hframes : m.frames = f :: rest) (hpage : program.page? f.page = some page)
    (h : Reads page.code f.ip op operands) : m.next? program = some ⟨f.ip, op, operands⟩ := by
  obtain ⟨byte, hbyte, hread⟩ := h
  unfold Machine.next?
  rw [hframes]
  simp [hpage, hbyte, hread, Except.toOption]

/-- A machine that is where an instruction stands carries it out, if no limit is exceeded. -/
theorem Act.step_of_reads (hframes : m.frames = f :: rest) (hpage : program.page? f.page = some page)
    (h : Reads page.code f.ip op operands) (hlimits : host.exceeded? { m with steps := m.steps + 1 } = none) :
    Act.step host program m = Act.perform host program page ⟨f.ip, op, operands⟩
      { m with steps := m.steps + 1, frames := { f with ip := f.ip + 1 + operands.length } :: rest } := by
  rw [Act.step_of_next hframes hpage (Machine.next?_of_reads hframes hpage h), hlimits]
  rfl

end

/-! ## Where operands lie -/

/-- Where a call is put together: the page that runs, the number of calls that wait for it, and the number of values
that lie below the operands. -/
structure Spot where
  page : UInt16
  callers : Nat
  height : Nat

/-- The machine has come to an offset of the page, and the operands lie on top of what is below them. -/
structure Spot.Holds (k : Spot) (ip : Nat) (operands : List Value) (m : Machine) : Prop where
  frames : ∃ f rest, m.frames = f :: rest ∧ f.page = k.page ∧ f.ip = ip ∧ rest.length = k.callers
  stack : ∃ below : Array Value, below.size = k.height ∧ m.stack = below ++ operands.toArray

variable {k : Spot} {operands : List Value}

/-- The code of a literal leaves its value. -/
theorem Spot.Holds.literal {l : Literal} {Γ : Scope} (h : k.Holds p operands m)
    (hpage : S.program.page? k.page = some S.page) (hlies : S.constant l.constant Γ p p')
    (hstep : Act.step host S.program m = .ok () m') : k.Holds p' (operands ++ [l.value]) m' := by
  obtain ⟨f, rest, hframes, hf, rfl, hrest⟩ := h.frames
  obtain ⟨below, hbelow, hstack⟩ := h.stack
  obtain ⟨key, hkey, hhas, rfl⟩ := hlies
  have hlimits : host.exceeded? { m with steps := m.steps + 1 } = none := by
    cases hexceeded : host.exceeded? { m with steps := m.steps + 1 } with
    | none => rfl
    | some l =>
      rw [Act.step_eq, hexceeded] at hstep
      cases hstep
  rw [Act.step_of_reads hframes (hf ▸ hpage) hhas hlimits] at hstep
  cases hstep.symm.trans (Act.perform_constant hkey)
  refine ⟨⟨_, rest, rfl, hf, rfl, hrest⟩, below, hbelow, ?_⟩
  show m.stack.push _ = _
  rw [hstack]
  exact Array.ext' (by simp)

/-! ## Evaluations -/

/-- The code that was emitted for an operand comes to the value of the operand, and leaves it on top of the operands
before it. What is below these may change, as the variables are there. -/
structure Evaluates (host : Host) (program : Program) (k : Spot) (e : Expr) (v : Value) (s s' : Workbench)
    (m m' : Machine) : Prop where
  emitted : e.emitValue s = .ok () s'
  turns : Turns host program Machine.Active m m'
  leaves : ∀ operands, k.Holds s.draft.size operands m → k.Holds s'.draft.size (operands ++ [v]) m'

/-- Operands one after the other. -/
inductive EvaluatesAll (host : Host) (program : Program) (k : Spot) : List Expr → List Value → (s s' : Workbench) →
    (m m' : Machine) → Prop where
  | nil {s : Workbench} {m : Machine} : EvaluatesAll host program k [] [] s s m m
  | cons {e : Expr} {es : List Expr} {v : Value} {vs : List Value} {s s₁ s' : Workbench} {m m₁ m' : Machine}
      (first : Evaluates host program k e v s s₁ m m₁) (rest : EvaluatesAll host program k es vs s₁ s' m₁ m') :
      EvaluatesAll host program k (e :: es) (v :: vs) s s' m m'

/-- An operand that may be missing. -/
inductive EvaluatesPart (host : Host) (program : Program) (k : Spot) : Option Expr → Option Value → (s s' : Workbench) →
    (m m' : Machine) → Prop where
  | none {s : Workbench} {m : Machine} : EvaluatesPart host program k none none s s m m
  | some {e : Expr} {v : Value} {s s' : Workbench} {m m' : Machine} (part : Evaluates host program k e v s s' m m') :
      EvaluatesPart host program k (some e) (some v) s s' m m'

/-- The variables of an environment. Of the code of a key nothing is known but that its step does not fail. -/
inductive EvaluatesVariables (host : Host) (program : Program) (k : Spot) :
    List (String × Expr) → List (String × Value) → (s s' : Workbench) → (m m' : Machine) → Prop where
  | nil {s : Workbench} {m : Machine} : EvaluatesVariables host program k [] [] s s m m
  | cons {name : String} {e : Expr} {es : List (String × Expr)} {v : Value} {bindings : List (String × Value)}
      {s s₁ s₂ s' : Workbench} {m m₁ m₂ m' : Machine} (emitted : Emit.constant (.string name) s = .ok () s₁)
      (key : Act.step host program m = .ok () m₁) (value : Evaluates host program k e v s₁ s₂ m₁ m₂)
      (rest : EvaluatesVariables host program k es bindings s₂ s' m₂ m') :
      EvaluatesVariables host program k ((name, e) :: es) ((name, v) :: bindings) s s' m m'

section

variable {e : Expr} {es : List Expr} {e? : Option Expr} {environment : List (String × Expr)} {v : Value}
  {vs : List Value} {v? : Option Value} {bindings : List (String × Value)}

theorem EvaluatesAll.emitted (h : EvaluatesAll host S.program k es vs s s' m m') : emitValues es s = .ok () s' := by
  induction h with
  | nil => rfl
  | cons first _ ih => exact (bind_run_ok first.emitted).trans ih

theorem EvaluatesPart.emitted (h : EvaluatesPart host S.program k e? v? s s' m m') : emitValue? e? s = .ok () s' := by
  cases h with
  | none => rfl
  | some part => exact part.emitted

theorem EvaluatesVariables.emitted (h : EvaluatesVariables host S.program k environment bindings s s' m m') :
    emitVariables environment s = .ok () s' := by
  induction h with
  | nil => rfl
  | cons emitted _ value _ ih => exact (bind_run_ok emitted).trans ((bind_run_ok value.emitted).trans ih)

theorem EvaluatesAll.turns {program : Program} (h : EvaluatesAll host program k es vs s s' m m') :
    Turns host program Machine.Active m m' := by
  induction h with
  | nil => exact .refl
  | cons first _ ih => exact first.turns.trans ih

theorem EvaluatesPart.turns {program : Program} (h : EvaluatesPart host program k e? v? s s' m m') :
    Turns host program Machine.Active m m' := by
  cases h with
  | none => exact .refl
  | some part => exact part.turns

theorem EvaluatesAll.holds (h : EvaluatesAll host S.program k es vs s s' m m') (hm : k.Holds s.draft.size operands m) :
    k.Holds s'.draft.size (operands ++ vs) m' := by
  induction h generalizing operands with
  | nil => rwa [List.append_nil]
  | cons first _ ih =>
    have := ih (first.leaves operands hm)
    rwa [List.append_assoc] at this

theorem EvaluatesPart.holds (h : EvaluatesPart host S.program k e? v? s s' m m')
    (hm : k.Holds s.draft.size operands m) : k.Holds s'.draft.size (operands ++ v?.toList) m' := by
  cases h with
  | none => exact (List.append_nil operands).symm ▸ hm
  | some part => exact part.leaves operands hm

/-- The induction is on the variables; the page that is finished in the end has the code of each key. -/
theorem EvaluatesVariables.holds (h : EvaluatesVariables host S.program k environment bindings s s' m m')
    (hpage : S.program.page? k.page = some S.page) (hfinishes : S.Finishes s t) (later : Extends s' t)
    (hm : k.Holds s.draft.size operands m) : k.Holds s'.draft.size (operands ++ bindingRow bindings) m' := by
  induction h generalizing operands with
  | nil => rwa [bindingRow, List.flatMap_nil, List.append_nil]
  | @cons name e es v bindings s s₁ s₂ s' m m₁ m₂ m' emitted key value rest ih =>
    have hrest := (variablesEmit es rest.emitted).adds.trans later
    have hvalue := Emits.value e.emits value.emitted
    obtain ⟨⟨Γ, Γ', hlies, -⟩, hfinishes₁⟩ := hfinishes.lies (Emits.constant _ emitted) (hvalue.adds.trans hrest)
    obtain ⟨-, hfinishes₂⟩ := hfinishes₁.lies hvalue hrest
    have := ih hfinishes₂ later (value.leaves _ (Spot.Holds.literal (l := .string name) hm hpage hlies key))
    rwa [List.append_assoc, List.append_assoc] at this

end

end ShellVM
