import ShellVM.Proofs.Meaning.Expression
import ShellVM.Proofs.Safety

/-!
# Compilation preserves meaning

The run of a compiled entry without calls ends as the evaluation of its expression does
(`Compiler.entry_means_expression`).
-/

namespace ShellVM

/-- What the run of an entry page in a world comes to if the evaluation of its expression comes to a result: to a
value that is alike, or to a failure for the same cause, in a world that is alike. -/
def Program.Means (program : Program) (host : Host) (entry : UInt16) (w : World) (V : View) :
    EStateM.Result Escape Scene Value → Prop
  | .ok v s | .error (.return v) s => ∃ n u w', (∀ fuel, program.execute host entry (n + fuel) w = .ok (some u) w') ∧
      u.Alike V v ∧ w'.Alike V s.world
  | .error (.fail cause) s => ∃ n fault w', (∀ fuel, program.execute host entry (n + fuel) w = .error fault w') ∧
      fault.cause = cause ∧ w'.Alike V s.world
  | .error .break _ | .error .continue _ => False
  | .error .stuck _ => True

/-- What happens to variables at the end is of no concern. -/
theorem Program.means_enclosed {program : Program} {host : Host} {entry : UInt16} {w : World} {V : View}
    {x : Eval Value} {s : Scene} :
    program.Means host entry w V (Eval.enclosed x s) ↔ program.Means host entry w V (x s) := by
  unfold Eval.enclosed
  cases x s with
  | ok v t => exact Iff.rfl
  | error escape t => cases escape <;> exact Iff.rfl

section

variable {E : Stage} {m m' : Machine} {u v : Value} {w : World} {part : Part} {x : Eval Value}

/-- At the end of the page the run is over. -/
theorem Stage.Bare.returns (hE : E.Bare) (hcalm : m.Calm E.host E.program)
    (hframes : m.frames = [entryFrame E.entry E.sheet.page.code.size]) :
    ∃ m', Act.turn E.host E.program m = .ok () m' ∧ m'.frames = [] ∧ m'.stack = m.stack ∧ m'.world = m.world := by
  have hframes' : ({ m with steps := m.steps + 1 } : Machine).frames =
      entryFrame E.entry E.sheet.page.code.size :: [] :=
    hframes
  have hstep := Act.step_eq E.host E.program m
  rw [(hcalm m .refl).exceeded?_eq_none] at hstep
  simp only at hstep
  rw [Act.advance_eq (q := E.sheet.page.code.size) hframes' hE.page rfl,
    Array.getElem?_eq_none (Nat.le_refl _)] at hstep
  refine ⟨_, Act.turn_of_ok hstep, ?_, rfl, rfl⟩
  show m.frames.tail = []
  rw [hframes]
  rfl

/-- A run with a value on its stack at the end of the page ends with that value. -/
theorem Stage.Bare.ends (hE : E.Bare) (hcalm : (Machine.start E.entry w).Calm E.host E.program)
    (hm : E.Leads (Machine.start E.entry w) m) (hframes : m.frames = [entryFrame E.entry E.sheet.page.code.size])
    (hstack : m.stack = #[u]) :
    ∃ n, ∀ fuel, E.program.execute E.host E.entry (n + fuel) w = .ok (some u) m.world := by
  obtain ⟨m', hturn, hnil, hstack', hworld⟩ := hE.returns (hcalm.after hm) hframes
  have hactive : m.Active := by
    unfold Machine.Active
    rw [hframes]
    exact nofun
  obtain ⟨n, hn⟩ := Act.run_of_turns (hm.trans (.single hactive hturn))
  refine ⟨n, fun fuel => ?_⟩
  unfold Program.execute
  rw [hE.page, hn, Act.run_of_nil hnil]
  simp only [Option.isNone_some, Bool.false_eq_true, if_false, hstack', hstack, hworld]
  rfl

/-- A run without handlers ends with the first failure. -/
theorem Stage.Bare.fails (hE : E.Bare) {e : Fault} {t : Machine} (hm : E.Leads (Machine.start E.entry w) m)
    (hactive : m.Active) (hstep : Act.step E.host E.program m = .error e t) (hhandlers : t.handlers = []) :
    ∃ n fault, (∀ fuel, E.program.execute E.host E.entry (n + fuel) w = .error fault t.world) ∧
    fault.cause = e.cause := by
  have hturn := (Act.turn_of_error hstep).trans (Act.recover_fails hhandlers)
  obtain ⟨n, hn⟩ := Act.run_of_turns hm
  refine ⟨n + 1, e.withTrace (t.trace E.program), fun fuel => ?_, e.withTrace_cause _⟩
  unfold Program.execute
  rw [hE.page, Nat.add_assoc, Nat.add_comm 1, hn, Act.run_succ hactive, hturn]
  rfl

/-- The run of a page that consists of a part. -/
theorem Stage.Runs.means (hE : E.Bare) (hx : E.Runs part x)
    (hpart : part (Sheet.bodyScope [] 0) 0 E.sheet.page.code.size) (hview : w.Alike E.view w)
    (hcalm : (Machine.start E.entry w).Calm E.host E.program) :
    E.program.Means E.host E.entry w E.view (x ⟨[], w⟩) := by
  have hover : Over (Sheet.bodyScope [] 0) ⟨[], [], []⟩ :=
    ⟨rfl, nofun, .nil, nofun, Nat.le_refl _, Nat.le_refl _, nofun⟩
  have hsits : Sits E [] ⟨[], [], []⟩ 0 ⟨[], w⟩ (Machine.start E.entry w) :=
    ⟨rfl, rfl, rfl, rfl, ⟨Nat.le_refl _, nofun, .nil⟩, hview, hcalm⟩
  have hcomes := hx hpart hover hsits
  cases hresult : x ⟨[], w⟩ with
  | ok v s =>
    rw [hresult] at hcomes
    obtain ⟨m, hm, u, huv, hsits⟩ := hcomes
    obtain ⟨below, hstack, hsize, -⟩ := hsits.top
    obtain rfl := Array.eq_empty_of_size_eq_zero hsize
    obtain ⟨n, hn⟩ := hE.ends hcalm hm hsits.frames hstack
    exact ⟨n, u, m.world, hn, huv, hsits.world⟩
  | error escape s =>
    rw [hresult] at hcomes
    cases escape with
    | «break» | «continue» =>
      obtain ⟨l, m, hl, -⟩ := hcomes
      cases hl
    | «return» v =>
      obtain ⟨u, m, huv, hm, hframes, hstack, hworld⟩ := hcomes
      obtain ⟨n, hn⟩ := hE.ends hcalm hm hframes hstack
      exact ⟨n, u, m.world, hn, huv, hworld⟩
    | fail cause =>
      obtain ⟨-, m, e, t, hm, hactive, hstep, rfl, hfallen, hworld⟩ := hcomes
      obtain ⟨n, fault, hn, hcause⟩ := hE.fails hm hactive hstep hfallen.handlers
      exact ⟨n, fault, t.world, hn, hcause, hworld⟩
    | stuck => trivial

end

namespace Compiler

variable {c' : Compiler} {e : Expr} {index : UInt16}

/-- The run of a compiled entry without calls that reaches no limit comes to what the evaluation of its expression
comes to, whatever entries came before and after it: to the same value up to the traces of errors, or to a failure for
the same cause, with the same effects on the world. -/
theorem entry_means_expression (es es' : List Expr) (h : (new.addAll es).enter e = (.ok index, c')) (hfree : e.CallFree)
    (host : Host) (w : World) (hcalm : (Machine.start index w).Calm host (c'.addAll es').program) (fuel : Nat) :
    (c'.addAll es').program.Means host index w (w.view (fun _ _ => False) fun _ => False)
      (e.evaluate fuel ⟨[], w⟩) := by
  have hc : (new.addAll es).Sound := .addAll es
  have henters : c'.Enters e index := fun d hf => (hc.stable.enter h).2.2 d hf
  obtain ⟨page, hpage, -, new, p₁, p₂, hnew, hbody, hdrops⟩ :=
    henters.later ((hc.enter_ok h).grows es') (entryDraft e) ((c'.addAll es').final _)
  obtain ⟨rfl, rfl⟩ := hnew
  obtain rfl : page.code.size = p₂ := hdrops
  let E : Stage := ⟨w.view (fun _ _ => False) fun _ => False, host, (c'.addAll es').program, index,
    ⟨(c'.addAll es').program, (c'.addAll es').functions, page, [], e.captured, true⟩⟩
  have hE : E.Bare := ⟨hpage, rfl, hfree.captured⟩
  exact Program.means_enclosed.1 (((hfree.does hE fuel).runs hE).means hE hbody (w.alike_self _ _) hcalm)

/-- Does the run of an entry stay calm for so many turns? -/
def staysCalm (e : Expr) (turns : Nat) : Bool :=
  match (new.addAll []).enter e with
  | (.ok index, c) => (Machine.start index default).staysCalm {} (c.addAll []).program turns
  | (.error _, _) => false

/-- Does an expression return nil when it is evaluated? -/
def returnsNil (e : Expr) (fuel : Nat) : Bool :=
  match e.evaluate fuel ⟨[], default⟩ with
  | .error (.return .nil) _ => true
  | _ => false

/-- A loop inside a region inside a loop. The inner one runs through the first item of the outer one, and fails with
the second item, which is returned. -/
theorem entry_means_expression_of_loops : ∃ index c' s,
    (new.addAll []).enter (.mk 1 (.each ["i"] (.mk 1 (.tuple [.mk 1 (.tuple []), .mk 1 (.literal .nil)]))
      (.mk 2 (.attempt (.mk 2 (.each ["j"] (.mk 2 (.variable "i")) (.mk 2 (.variable "j")))) (some "e")
        (.mk 3 (.return (some (.mk 3 (.variable "i"))))))))) = (.ok index, c') ∧
    (c'.addAll []).program.Means {} index default ((default : World).view (fun _ _ => False) fun _ => False)
      (.error (.return .nil) s) := by
  let e : Expr := .mk 1 (.each ["i"] (.mk 1 (.tuple [.mk 1 (.tuple []), .mk 1 (.literal .nil)]))
    (.mk 2 (.attempt (.mk 2 (.each ["j"] (.mk 2 (.variable "i")) (.mk 2 (.variable "j")))) (some "e")
      (.mk 3 (.return (some (.mk 3 (.variable "i"))))))))
  have hfree : e.CallFree := by
    refine .each "i" (.tuple ?_) (.attempt (.each "j" (.variable "i") (.variable "j")) (.return ?_))
    · exact List.forall_mem_cons.2 ⟨.tuple (List.forall_mem_nil _), List.forall_mem_singleton.2 (.literal _)⟩
    · rintro _ ⟨⟩
      exact .variable "i"
  have hrun : staysCalm e 40 = true := by decide +kernel
  have hvalue : returnsNil e 6 = true := by decide +kernel
  unfold staysCalm at hrun
  unfold returnsNil at hvalue
  cases h : (new.addAll []).enter e with
  | mk result c' =>
    rw [h] at hrun
    cases result with
    | error error => cases hrun
    | ok index =>
      have hmeans := entry_means_expression [] [] h hfree {} default (Machine.calm_of_staysCalm hrun) 6
      split at hvalue
      · next s hresult => exact ⟨index, c', s, rfl, hresult ▸ hmeans⟩
      · cases hvalue

end Compiler

end ShellVM
