import ShellVM.Proofs.Job.Leaves

/-!
# What operands ask for

The call of a program that operands stand for (`ProgramCall.Requested`): the text of the name, the texts of the leaves
of the arguments, the variables with the texts of their values, and the input that is made of what is piped. The
machine makes this very call of the operands that it takes off the stack (`Act.programCall_requested`).
-/

namespace ShellVM

/-- The values that variables are on the stack: each name, and behind it the value. -/
def bindingRow (bindings : List (String × Value)) : List Value := bindings.flatMap fun x => [.string x.1, x.2]

/-- The input that is made of what is piped into a program, if anything is. -/
inductive Pipes : Option Value → World → Option PipedInput → World → Prop where
  | nothing (w : World) : Pipes none w none w
  | value {v : Value} {input : PipedInput} {w w' : World} (made : v.pipedInput w = .ok input w') :
      Pipes (some v) w (some input) w'

/-- The call that a name, the leaves of the arguments, variables and what is piped stand for. To make a text may read
streams, so that each text is made in the world that the one before it has left. -/
inductive ProgramCall.Requested (name : Value) (leaves : List Value)
    (bindings : List (String × Value)) (piped? : Option Value) (w : World) : ProgramCall → World → Prop where
  | mk {program : String} {arguments values : List String} {input? : Option PipedInput} {w₁ w₂ w₃ w' : World}
      (named : name.text w = .ok program w₁) (listed : Value.textAll leaves w₁ = .ok arguments w₂)
      (bound : Value.textAll (bindings.map Prod.snd) w₂ = .ok values w₃) (piped : Pipes piped? w₃ input? w') :
      Requested name leaves bindings piped? w ⟨program, arguments, (bindings.map Prod.fst).zip values, input?⟩ w'

namespace Act

theorem textPairs_bindingRow (bindings : List (String × Value)) : textPairs (bindingRow bindings) = do
    let values ← Value.textAll (bindings.map Prod.snd)
    return (bindings.map Prod.fst).zip values := by
  induction bindings with
  | nil => rfl
  | cons x bindings ih =>
    have hkey : (Value.string x.1).text = pure x.1 := rfl
    show textPairs (.string x.1 :: x.2 :: bindingRow bindings) = _
    rw [textPairs, hkey, ih]
    simp [Value.textAll]

/-- The machine makes the call that the operands stand for. -/
theorem programCall_requested {name : Value} {arguments leaves : List Value} {bindings : List (String × Value)}
    {piped? : Option Value} {w w' : World} {call : ProgramCall}
    (htexts : Value.Texts w (Value.flatMapEffect Value.arguments arguments) leaves)
    (h : ProgramCall.Requested name leaves bindings piped? w call w') :
    programCall ⟨name, arguments, piped?, bindingRow bindings⟩ w = .ok call w' := by
  obtain ⟨named, listed, bound, piped⟩ := h
  have hlists := name.text_preserves Value.lists_apart w
  rw [named] at hlists
  have hbound := (congrFun (textPairs_bindingRow bindings) _).trans (bind_run_ok bound)
  unfold programCall
  rw [bind_run_ok named, bind_run_ok ((htexts _ hlists).trans listed), bind_run_ok hbound]
  cases piped with
  | nothing => rfl
  | value made => exact bind_run_ok (bind_run_ok made)

end Act

end ShellVM
