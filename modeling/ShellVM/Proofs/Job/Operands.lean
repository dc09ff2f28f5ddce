import ShellVM.Machine.Call
import ShellVM.Proofs.Job.Effect

/-!
# Operands of program calls

To make the texts that a program call hands over, streams are read. Nothing else of the world changes
(`Act.programCall_preserves`), and of the machine only the stack does (`Act.programOperands_preserves`).
-/

namespace ShellVM

variable {τ : Type}

namespace Value

variable {part : World → τ}

section

variable (hpart : World.Apart part)

include hpart

theorem text_preserves (v : Value) : Preserves part v.text := by
  cases v with
  | stream a => exact (Job.lines_preserves hpart a).bind fun _ => .pure _
  | _ => exact .get fun _ => .pure _

theorem items_preserves (v : Value) : Preserves part v.items := by
  refine .get fun w => ?_
  cases v with
  | range r =>
    dsimp only
    split
    · exact .pure _
    · exact .throw _
  | stream a => exact (Job.lines_preserves hpart a).bind fun _ => .pure _
  | nil | boolean _ | integer _ | float _ | struct _ | function _ | error _ _ => exact .throw _
  | _ => exact .pure _

theorem textAll_preserves (vs : List Value) : Preserves part (textAll vs) := by
  induction vs with
  | nil => exact .pure _
  | cons v vs ih => exact (text_preserves hpart v).bind fun _ => ih.bind fun _ => .pure _

end

theorem flatMapEffect_preserves {f : Value → Effect (List String)} (hf : ∀ v, Preserves part (f v)) (vs : List Value) :
    Preserves part (flatMapEffect f vs) := by
  induction vs with
  | nil => exact .pure _
  | cons v vs ih => exact (hf v).bind fun _ => ih.bind fun _ => .pure _

mutual

theorem argumentsWith_preserves {deep : Value → Effect (List String)} (hpart : World.Apart part)
    (hdeep : ∀ v, Preserves part (deep v)) : ∀ v : Value, Preserves part (argumentsWith deep v)
  | .list _ => .get fun _ => flatMapEffect_preserves hdeep _
  | .tuple vs => argumentsAllWith_preserves hpart hdeep vs
  | .nil | .boolean _ | .integer _ | .float _ | .string _ | .dictionary _ | .set _ | .range _ | .struct _ | .function _
  | .error .. | .stream _ => (text_preserves hpart _).bind fun _ => .pure _

theorem argumentsAllWith_preserves {deep : Value → Effect (List String)} (hpart : World.Apart part)
    (hdeep : ∀ v, Preserves part (deep v)) : ∀ vs : List Value, Preserves part (argumentsAllWith deep vs)
  | [] => .pure _
  | v :: vs => (argumentsWith_preserves hpart hdeep v).bind fun _ =>
    (argumentsAllWith_preserves hpart hdeep vs).bind fun _ => .pure _

end

section

variable (hpart : World.Apart part)

include hpart

theorem argumentsTo_preserves (depth : Nat) (v : Value) : Preserves part (argumentsTo depth v) := by
  induction depth generalizing v with
  | zero => exact argumentsWith_preserves hpart (fun _ => .pure _) v
  | succ depth ih => exact argumentsWith_preserves hpart ih v

theorem arguments_preserves (v : Value) : Preserves part v.arguments := .get fun _ => argumentsTo_preserves hpart _ v

theorem pipedInput_preserves (v : Value) : Preserves part v.pipedInput := by
  unfold pipedInput
  split
  · exact .pure _
  all_goals first
    | exact (items_preserves hpart _).bind fun _ => (textAll_preserves hpart _).bind fun _ => .pure _
    | exact (text_preserves hpart _).bind fun _ => .pure _

end

end Value

namespace Act

section

variable {part : World → τ} (hpart : World.Apart part)

include hpart

theorem textPairs_preserves : ∀ vs : List Value, Preserves part (textPairs vs)
  | [] | [_] => .pure _
  | k :: v :: rest => (k.text_preserves hpart).bind fun _ => (v.text_preserves hpart).bind fun _ =>
    (textPairs_preserves rest).bind fun _ => .pure _

theorem programCall_preserves (o : ProgramOperands) : Preserves part (programCall o) := by
  refine (o.name.text_preserves hpart).bind fun name =>
    (Value.flatMapEffect_preserves (Value.arguments_preserves hpart) _).bind fun arguments =>
    (textPairs_preserves hpart _).bind fun environment => ?_
  cases o.piped? with
  | none => exact .pure _
  | some v => exact (v.pipedInput_preserves hpart).map.bind fun _ => .pure _

end

/-! ## The stack -/

/-- A part of the machine that the stack has no bearing on. -/
def OffStack (part : Machine → τ) : Prop := ∀ m stack, part { m with stack } = part m

section

variable {part : Machine → τ} (hpart : OffStack part)

include hpart

theorem push_preserves (v : Value) : Preserves part (push v) := .modify fun m => hpart m _

theorem pop_preserves : Preserves part pop := by
  intro m
  unfold pop
  cases m.stack.back? with
  | some v => exact hpart m _
  | none => rfl

theorem popMany_preserves (count : Nat) : Preserves part (popMany count) := by
  intro m
  unfold popMany
  dsimp only
  split
  · rfl
  · exact hpart m _

theorem programOperands_preserves (count pairs : Nat) (flags : CallFlags) :
    Preserves part (programOperands count pairs flags) := by
  refine (popMany_preserves hpart _).bind fun environment => .ite ?_ ?_
  · exact (pop_preserves hpart).map.bind fun _ => (popMany_preserves hpart _).bind fun _ =>
      (pop_preserves hpart).bind fun _ => .pure _
  · exact (Preserves.pure none).bind fun _ => (popMany_preserves hpart _).bind fun _ =>
      (pop_preserves hpart).bind fun _ => .pure _

end

end Act

end ShellVM
