import ShellVM.Proofs.Emission.Enclosing

/-!
# A compiler that checks its bookkeeping

A difference of heights that would be negative is zero. Three constructs take such differences: a declaration, the way
out of a loop, and the way out of a page. Those here fail there instead, and if a loop remembers more regions than
there are; the compiler is the same but for them.
-/

namespace ShellVM.Checked

open Emit

/-- The height of the stack above `count` values, which have to be there. -/
def heightAbove (count : Nat) : Emit Nat := do
  let s ← get
  if s.draft.height < count then throw (.internal (.stackUnderflow s.draft.page.name))
  return s.draft.height - count

theorem heightAbove_tidy (count : Nat) : (heightAbove count).Tidy := .get fun _ => .check (.pure _)

def declaration (names : List String) (value : Emit Unit) : Emit Unit := do
  value
  unpack names (← heightAbove 1)

/-- Closes what was opened since the body of the innermost loop started, and gives that loop. -/
def unwindToLoop (keyword : String) : Emit LoopContext := do
  match (← draft).loops with
  | [] => throw (.outsideLoop keyword)
  | context :: _ =>
    if (← draft).regions.length < context.regions then throw (.internal .noLoop)
    closeRegions context.regions
    let extra ← heightAbove context.height
    if 0 < extra then byte .popN extra "local variables"
    return context

theorem unwindToLoop_tidy (keyword : String) : (unwindToLoop keyword).Tidy := by
  refine .get fun s => ?_
  cases s.draft.loops with
  | nil => exact .throw _
  | cons context rest =>
    refine .get fun _ => .check (.bind (.closeRegions _) fun _ => .bind (heightAbove_tidy _) fun _ => ?_)
    exact .ite (.bind (.byte _ _ _) fun _ => .pure _) (.pure _)

def leaveLoop : Emit Unit := do
  let h ← height
  let _ ← unwindToLoop "break"
  let site ← jump .jump
  modifyDraft (addBreak site)
  setHeight h

def nextRound : Emit Unit := do
  let h ← height
  let context ← unwindToLoop "continue"
  jumpBack context.start
  setHeight h

def leavePage (value : Emit Unit) : Emit Unit := do
  let h ← height
  value
  closeRegions 0
  let below ← heightAbove 1
  if 0 < below then byte .unwind below "local variables"
  op .ret []
  setHeight h

/-- The constructs with their checks. -/
def differences : Differences := ⟨declaration, leaveLoop, nextRound, leavePage⟩

theorem differences_tidy : differences.Tidy where
  declaration := fun names _ h => h.bind fun _ => .bind (heightAbove_tidy 1) fun _ => .unpack names _
  leaveLoop := .bind .height fun _ => .bind (unwindToLoop_tidy _) fun _ => .bind (.jump _) fun _ =>
    .bind (.draft _) fun _ => .draft _
  nextRound := .bind .height fun _ => .bind (unwindToLoop_tidy _) fun _ => .bind (.jumpBack _) fun _ => .draft _
  leavePage := fun h => .bind .height fun _ => h.bind fun _ => .bind (.closeRegions _) fun _ =>
    .bind (heightAbove_tidy 1) fun _ =>
      .ite (.bind (.byte _ _ _) fun _ => .bind (.op _ _) fun _ => .draft _) (.bind (.op _ _) fun _ => .draft _)

/-- Compiles one more entry. -/
def enter (c : Compiler) (e : Expr) : Except CompileError UInt16 × Compiler := c.enterWith differences e

end ShellVM.Checked
