import ShellVM.Proofs.Emission.Compiler
import ShellVM.Proofs.Flow.Page

/-!
# Where root calls stand

Control reaches an offset of a page from its first instruction, by way of the instructions in between
(`Page.Reaches`). In a page that is laid out it reaches nothing but instructions that its chart allows, and these are
root calls only in the page of an entry (`Program.LaidBody.rootless`).
-/

namespace ShellVM

/-- Does the instruction make a root call, whatever call carries it out? -/
def Op.isRooted : Op → Bool
  | .rootCall | .rootCallProgram => true
  | _ => false

/-- The instruction at which control is leads to another place of the page. -/
def Instruction.LeadsTo (i : Instruction) (page : Page) (q : Nat) : Prop :=
  i.op.falls = true ∧ q = i.next ∨ i.target? = some q ∨ q = page.code.size

/-- Control may get to the offset. -/
inductive Page.Reaches (page : Page) : Nat → Prop where
  | start : Reaches page 0
  | lead {i : Instruction} {q : Nat} (reaches : Reaches page i.offset)
      (reads : Reads page.code i.offset i.op i.operands) (leads : i.LeadsTo page q) : Reaches page q

/-- Control gets to no instruction that makes a root call of its own accord. -/
def Page.Rootless (page : Page) : Prop := ∀ q op operands, page.Reaches q →
    Reads page.code q op operands → op.isRooted = false

namespace Sheet

variable {S : Sheet}

theorem Allows.target {Λ : Nat → Shape → Prop} {i : Instruction} {σ : Shape} {t : Nat} (h : S.Allows Λ i σ)
    (ht : i.target? = some t) : ∃ τ, Λ t τ := by
  have hjump : i.op.isJump = true := by
    cases hop : i.op.isJump with
    | true => rfl
    | false =>
      unfold Instruction.target? at ht
      rw [hop] at ht
      cases ht
  obtain ⟨pops, pushes, -, -, -, hjumps⟩ := h.moves
  obtain ⟨t', ht', τ, hτ, -⟩ := hjumps hjump
  obtain rfl : t = t' := Option.some.inj (ht.symm.trans ht')
  exact ⟨τ, hτ⟩

theorem Allows.next {Λ : Nat → Shape → Prop} {i : Instruction} {σ : Shape} (h : S.Allows Λ i σ)
    (hfalls : i.op.falls = true) : ∃ τ, Λ i.next τ := by
  obtain ⟨pops, pushes, -, -, hnext, -⟩ := h.moves
  obtain ⟨τ, hτ, -⟩ := hnext hfalls
  exact ⟨τ, hτ⟩

/-- Control stays where the chart has shapes. -/
theorem Chart.at_of_reaches (c : S.Chart) {q : Nat} (h : S.page.Reaches q) : ∃ τ, c.At q τ := by
  induction h with
  | start => exact ⟨_, c.start⟩
  | lead _ reads leads ih =>
    obtain ⟨τ, hτ⟩ := ih
    have hallows := c.allows hτ reads
    rcases leads with ⟨hfalls, rfl⟩ | htarget | rfl
    · exact hallows.next hfalls
    · exact hallows.target htarget
    · exact ⟨_, .inr ⟨rfl, rfl⟩⟩

theorem Needs.isEntry {i : Instruction} {σ : Shape} (h : S.Needs i σ) (hop : i.op.isRooted = true) :
    S.isEntry = true := by
  obtain ⟨offset, op, operands⟩ := i
  cases op <;> first | exact h | exact h.2 | cases hop

/-- The page of a function or a closure has a chart of its own. -/
theorem Chart.rootless (c : S.Chart) (h : S.isEntry = false) : S.page.Rootless := by
  intro q op operands hreaches hreads
  obtain ⟨τ, hτ⟩ := c.at_of_reaches hreaches
  cases hop : op.isRooted with
  | false => rfl
  | true => exact absurd ((c.allows hτ hreads).needs.isEntry hop) (by simp [h])

end Sheet

/-- The code of a function or a closure makes no root calls of its own accord. -/
theorem Program.LaidBody.rootless {program : Program} {functions : List (Nat × UInt16)} {page : Page} {n : Nat}
    (h : program.LaidBody functions page n)
    (hf : ∀ id index, functions.lookup id = some index → program.Hosts functions index 0) : page.Rootless := by
  obtain ⟨parameters, captures, captured, body, -, hholds⟩ := h
  obtain ⟨chart⟩ := Sheet.chart_of_holds (S := ⟨program, functions, page, captures, captured, false⟩) hf hholds
  exact chart.rootless rfl

end ShellVM
