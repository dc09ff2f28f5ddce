import ShellVM.Proofs.Flow.Expression
import ShellVM.Proofs.Layout.Reading

/-!
# Shapes of whole pages

A page that is laid out has a `Chart`: a shape at every instruction and at its end, such that all its instructions are
allowed (`Program.Laid.chart`). A chart is a row of offsets that the reader of instructions finds again
(`Sheet.Track.decodeAll_eq`).
-/

namespace ShellVM

open Instruction.Body

namespace Sheet

variable {S : Sheet} {points : List (Nat × Shape)} {p p' : Nat} {σ σ' : Shape}

theorem Track.le (h : S.Track points p σ p' σ') : p ≤ p' := by
  induction h with
  | done => exact Nat.le_refl _
  | more _ _ ih => omega

/-- The points of a row lie between its ends. -/
theorem Track.bounds (h : S.Track points p σ p' σ') : ∀ x ∈ points, p ≤ x.1 ∧ x.1 < p' := by
  induction h with
  | done => exact fun x hx => by cases hx
  | more has rest ih =>
    have hle := rest.le
    intro x hx
    rcases List.mem_cons.1 hx with rfl | hx
    · exact ⟨Nat.le_refl _, by omega⟩
    · have := ih x hx
      exact ⟨by omega, this.2⟩

/-- Every offset has one shape. -/
theorem Track.lookup (h : S.Track points p σ p' σ') {q : Nat} {τ : Shape} (hq : (q, τ) ∈ points) :
    points.lookup q = some τ := by
  induction h with
  | done => cases hq
  | @more points p p' σ υ σ' op operands has rest ih =>
    rcases List.mem_cons.1 hq with hq | hq
    · cases hq
      simp
    · have := (rest.bounds _ hq).1
      have hne : (q == p) = false := beq_false_of_ne (fun h : q = p => by omega)
      rw [List.lookup_cons, hne]
      exact ih hq

/-- The points of a row are where instructions stand, one behind the other. -/
theorem Track.row (h : S.Track points p σ p' σ') :
    ∃ row, Row S.page.code p row p' ∧ (placed p row).map Instruction.offset = points.map Prod.fst := by
  induction h with
  | done p => exact ⟨[], .nil p, rfl⟩
  | @more _ p _ _ _ _ op operands has _ ih =>
    obtain ⟨row, hrow, hoffsets⟩ := ih
    exact ⟨⟨op, operands, has.length⟩ :: row, .cons has hrow, congrArg (List.cons p) hoffsets⟩

/-- Reading the instructions of a row finds them all, and nothing else. -/
theorem Track.decodeAll_eq (h : S.Track points 0 σ S.page.code.size σ') :
    ∃ is : List Instruction, decodeAll S.page.code = is.map Except.ok ∧
    is.map Instruction.offset = points.map Prod.fst ∧
      (∀ i ∈ is, S.Has i.offset i.op i.operands) ∧ is.flatMap Instruction.bytes = S.page.code.toList := by
  obtain ⟨row, hrow, hoffsets⟩ := h.row
  refine ⟨placed 0 row, ?_, hoffsets, hrow.reads, ?_⟩
  · rw [hrow.decodeAll_eq (.done rfl), List.append_nil]
  · have hbytes : S.page.code.toList = stream row ++ S.page.code.toList.drop S.page.code.size := hrow.bytes.2
    rw [List.drop_eq_nil_of_le (Nat.le_of_eq Array.length_toList), List.append_nil] at hbytes
    rw [bytes_placed, hbytes]

/-- A row of shapes for the whole page, and all its instructions are allowed. -/
structure Chart (S : Sheet) where
  points : List (Nat × Shape)
  track : S.Track points 0 ⟨S.page.arity.toNat, [], [], 0⟩ S.page.code.size ⟨1, [], [], 0⟩
  goes : ∀ x ∈ points, S.Goes (fun q τ => (q, τ) ∈ points ∨ q = S.page.code.size ∧ τ = ⟨1, [], [], 0⟩) x.1 x.2

/-- The shape at an offset of a chart. -/
def Chart.At (c : S.Chart) (q : Nat) (τ : Shape) : Prop :=
  (q, τ) ∈ c.points ∨ q = S.page.code.size ∧ τ = ⟨1, [], [], 0⟩

theorem Chart.start (c : S.Chart) : c.At 0 ⟨S.page.arity.toNat, [], [], 0⟩ :=
  c.track.start (Λ := c.At) (fun _ hx => .inl hx) (.inr ⟨rfl, rfl⟩)

/-- An instruction that can be read where there is a shape is allowed there. -/
theorem Chart.allows (c : S.Chart) {q : Nat} {τ : Shape} {op : Op} {operands : List UInt8} (h : c.At q τ)
    (has : S.Has q op operands) : S.Allows c.At ⟨q, op, operands⟩ τ := by
  rcases h with h | ⟨rfl, -⟩
  · obtain ⟨_, _, has', hallows⟩ := c.goes _ h
    obtain ⟨rfl, rfl⟩ := has'.unique has
    exact hallows
  · exact absurd (Reads.lt has) (Nat.lt_irrefl _)

/-- The code of a body has a chart, if the functions of the program can be called. -/
theorem chart_of_holds (hS : S.Serves) {parameters : List String} {body : Expr}
    (h : S.Holds parameters (S.valued body.producesValue (body.Lies S))) : Nonempty S.Chart := by
  obtain ⟨points, track, goes⟩ := holds_flows (valued_flows (body.flows hS)) h
  exact ⟨points, track, goes _ (fun x hx => .inl hx) (.inr ⟨rfl, rfl⟩) fun _ _ h => h.elim⟩

end Sheet

/-- Every page that is laid out has a chart, if the functions of the program can be called. -/
theorem Program.Laid.chart {program : Program} {functions : List (Nat × UInt16)} {page : Page} {n : Nat}
    (h : program.Laid functions page n)
    (hf : ∀ id index, functions.lookup id = some index → program.Hosts functions index 0) :
    ∃ S : Sheet, S.program = program ∧ S.functions = functions ∧ S.page = page ∧ S.captures.length = n ∧
      Nonempty S.Chart := by
  obtain ⟨parameters, captures, captured, isEntry, body, hn, hholds⟩ := h
  exact ⟨⟨program, functions, page, captures, captured, isEntry⟩, rfl, rfl, rfl, hn, Sheet.chart_of_holds hf hholds⟩

end ShellVM
