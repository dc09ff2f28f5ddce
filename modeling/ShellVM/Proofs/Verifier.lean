import ShellVM.Proofs.Emission.Compiler
import ShellVM.Proofs.Flow.Page

/-!
# Compiled pages pass a verifier

A verifier of pages assigns a `Mark` to every instruction and to the end of the code: the height of the stack above the
base of the call, and the regions that are open. `Page.Verified` says that an assignment is right. Every page of a
compiled program can be read to its end and has such an assignment (`compile_verified`).
-/

namespace ShellVM

/-- The height of the stack at an offset, and the open regions, innermost first. -/
structure Mark where
  height : Nat
  regions : List Region
deriving DecidableEq

/-- The values that an instruction takes and leaves; a struct takes as many as its shape has fields. -/
def Page.effect? (page : Page) (i : Instruction) : Option (Nat × Nat) :=
  match i.op with
  | .buildStruct =>
    match page.constants.get? (i.word 0) with
    | some (.shape _ fields) => some (fields.length, 1)
    | _ => none
  | op => op.stackEffect? i.operands

namespace Mark

/-- The mark behind an instruction that takes and leaves values. -/
def next (m : Mark) (i : Instruction) (pops pushes : Nat) : Mark :=
  let height := m.height - pops + pushes
  match i.op with
  | .getIter => ⟨height, .each :: m.regions⟩
  | .enterTry => ⟨height, .attempt :: m.regions⟩
  | .endFor | .endTry => ⟨height, m.regions.tail⟩
  | _ => ⟨height, m.regions⟩

/-- The mark to which an instruction jumps: `forIter` pushes nothing then, and a handler finds an error on the stack. -/
def taken (m : Mark) (i : Instruction) (pops pushes : Nat) : Mark :=
  match i.op with
  | .forIter => m
  | .enterTry => ⟨m.height + 1, m.regions⟩
  | _ => ⟨m.height - pops + pushes, m.regions⟩

end Mark

/-- The op reads or writes a local, directly or through its cell. -/
def Op.usesSlot : Op → Bool
  | .load | .store | .makeCell | .loadCell | .storeCell | .captureLocal => true
  | _ => false

/-- The region that an op closes. -/
def Op.closes? : Op → Option Region
  | .endTry => some .attempt
  | .endFor => some .each
  | _ => none

/-- The marks are right for an instruction of a page. -/
structure Instruction.Verified (i : Instruction) (page : Page) (mark : Nat → Mark) : Prop where
  slot : i.op.usesSlot = true → (i.byte 0).toNat < (mark i.offset).height
  closes : ∀ r, i.op.closes? = some r → (mark i.offset).regions.head? = some r
  ret : i.op = .ret → mark i.offset = ⟨1, []⟩
  moves : i.op ≠ .ret → ∃ pops pushes, page.effect? i = some (pops, pushes) ∧ pops ≤ (mark i.offset).height ∧
    (i.op.falls = true → mark i.next = (mark i.offset).next i pops pushes) ∧
    (i.op.isJump = true → ∃ target, i.target? = some target ∧
      (target ∈ (instructions page.code).map Instruction.offset ∨ target = page.code.size) ∧
      mark target = (mark i.offset).taken i pops pushes)

/-- The marks are right for a page. -/
structure Page.Verified (page : Page) (mark : Nat → Mark) : Prop where
  start : mark 0 = ⟨page.arity.toNat, []⟩
  finish : mark page.code.size = ⟨1, []⟩
  instructions : ∀ i ∈ instructions page.code, i.Verified page mark

/-- The mark of a shape. -/
def Shape.mark (σ : Shape) : Mark := ⟨σ.height, σ.zones.map Zone.region⟩

namespace Sheet.Chart

variable {S : Sheet} (c : S.Chart)

/-- The marks of a chart. -/
def mark (q : Nat) : Mark := (c.points.lookup q).elim ⟨1, []⟩ Shape.mark

variable {c}

theorem mark_eq {q : Nat} {τ : Shape} (h : c.At q τ) : c.mark q = τ.mark := by
  rcases h with h | ⟨rfl, rfl⟩
  · simp [mark, c.track.lookup h]
  · cases hl : c.points.lookup S.page.code.size with
    | none => simp [mark, hl, Shape.mark]
    | some τ =>
      have hmem : (S.page.code.size, τ) ∈ c.points := by
        obtain ⟨_, _, hp, -⟩ := List.lookup_eq_some_iff.1 hl
        rw [hp]
        simp
      exact absurd (c.track.bounds _ hmem).2 (Nat.lt_irrefl _)

theorem mark_reaches {q : Nat} {τ : Shape} (h : Reaches c.At q τ) : c.mark q = τ.mark := by
  obtain ⟨υ, hυ, cells, -, rfl⟩ := h
  exact (mark_eq hυ).trans rfl

theorem reached_offset {q : Nat} {τ : Shape} (h : Reaches c.At q τ) :
    q ∈ c.points.map Prod.fst ∨ q = S.page.code.size := by
  obtain ⟨υ, hυ | ⟨rfl, -⟩, -⟩ := h
  · exact .inl (List.mem_map.2 ⟨_, hυ, rfl⟩)
  · exact .inr rfl

end Sheet.Chart

theorem Shape.mark_next (σ : Shape) (i : Instruction) (pops pushes : Nat) :
    (σ.next i pops pushes).mark = σ.mark.next i pops pushes := by
  obtain ⟨p, op, operands⟩ := i
  cases op <;> first | rfl | simp [Shape.next, Shape.mark, Mark.next, Shape.lift]

theorem Shape.mark_taken (σ : Shape) (i : Instruction) (pops pushes : Nat) :
    (σ.taken i pops pushes).mark = σ.mark.taken i pops pushes := by
  obtain ⟨p, op, operands⟩ := i
  cases op <;> rfl

namespace Sheet

variable {S : Sheet}

theorem effect?_eq {i : Instruction} (h : i.op ≠ .ret) : S.effect? i = S.page.effect? i := by
  obtain ⟨p, op, operands⟩ := i
  cases op <;> first | rfl | exact absurd rfl h

/-- What an instruction needs, as far as a verifier sees it. -/
theorem Needs.marked {i : Instruction} {σ : Shape} (h : S.Needs i σ) :
    (i.op.usesSlot = true → (i.byte 0).toNat < σ.mark.height) ∧
      (∀ r, i.op.closes? = some r → σ.mark.regions.head? = some r) ∧ (i.op = .ret → σ.mark = ⟨1, []⟩) := by
  obtain ⟨p, op, operands⟩ := i
  refine ⟨fun hslot => ?_, fun r hr => ?_, fun hret => ?_⟩
  · cases op <;> first | cases hslot; done | exact h.1 | exact h
  · cases op with
    | endTry =>
      cases hr
      obtain ⟨t, zones, hz⟩ := h
      simp [Shape.mark, hz, Zone.region]
    | endFor =>
      cases hr
      obtain ⟨zones, hz⟩ := h
      simp [Shape.mark, hz, Zone.region]
    | _ => cases hr
  · subst hret
    obtain ⟨hh, hz⟩ := h
    simp [Shape.mark, hh, hz]

theorem Chart.instructions_eq (c : S.Chart) : ∃ is : List Instruction, decodeAll S.page.code = is.map Except.ok ∧
    instructions S.page.code = is ∧ is.map Instruction.offset = c.points.map Prod.fst ∧
    (∀ i ∈ is, S.Has i.offset i.op i.operands) ∧ is.flatMap Instruction.bytes = S.page.code.toList := by
  obtain ⟨is, hdecode, hoffsets, hreads, hbytes⟩ := c.track.decodeAll_eq
  refine ⟨is, hdecode, ?_, hoffsets, hreads, hbytes⟩
  rw [instructions, hdecode, List.filterMap_map]
  exact List.filterMap_some

/-- The marks of a chart are right. -/
theorem Chart.verified (c : S.Chart) : S.page.Verified c.mark := by
  obtain ⟨is, -, his, hoffsets, hreads, -⟩ := c.instructions_eq
  refine ⟨c.mark_eq c.start, c.mark_eq (.inr ⟨rfl, rfl⟩), fun i hi => ?_⟩
  rw [his] at hi
  have hmem : i.offset ∈ c.points.map Prod.fst := hoffsets ▸ List.mem_map.2 ⟨i, hi, rfl⟩
  obtain ⟨⟨q, σ⟩, hpoint, hq⟩ := List.mem_map.1 hmem
  obtain ⟨op, operands, has, needs, pops, pushes, heffect, hadmits, hnext, hjump⟩ := c.goes _ hpoint
  have hi' : (⟨q, op, operands⟩ : Instruction) = i := by
    obtain ⟨q', op', operands'⟩ := i
    obtain rfl : q = q' := hq
    obtain ⟨rfl, rfl⟩ := has.unique (hreads _ hi)
    rfl
  rw [hi'] at needs heffect hnext hjump
  have hmark : c.mark i.offset = σ.mark := by
    rw [← hi']
    exact c.mark_eq (.inl hpoint)
  obtain ⟨hslot, hcloses, hret⟩ := needs.marked
  refine ⟨?_, ?_, ?_, fun hne => ⟨pops, pushes, ?_, ?_, fun hf => ?_, fun hj => ?_⟩⟩
  · rwa [hmark]
  · rwa [hmark]
  · rwa [hmark]
  · rw [← effect?_eq hne, heffect]
  · rw [hmark]
    exact Nat.le_trans (Nat.le_add_left _ _) hadmits
  · rw [c.mark_reaches (hnext hf), hmark, Shape.mark_next]
  · obtain ⟨t, ht, hreach⟩ := hjump hj
    refine ⟨t, ht, ?_, ?_⟩
    · rw [his, hoffsets]
      exact c.reached_offset hreach
    · rw [c.mark_reaches hreach, hmark, Shape.mark_taken]

end Sheet

/-- The functions of a compiler that is stable can be called. -/
theorem Compiler.Stable.hosts {c : Compiler} (hc : c.Stable) (id : Nat) (index : UInt16)
    (h : c.functions.lookup id = some index) : c.program.Hosts c.functions index 0 :=
  hc.functionPage h

/-- Every page of a program that was compiled entry by entry can be read to its end and passes the verifier. -/
theorem Compiler.Stable.verified {c : Compiler} (hc : c.Stable) {page : Page} (hp : page ∈ c.program.pages) :
    (∀ d ∈ decodeAll page.code, d.isOk) ∧
      (instructions page.code).flatMap Instruction.bytes = page.code.toList ∧ ∃ mark, page.Verified mark := by
  obtain ⟨i, hi⟩ := Array.mem_iff_getElem?.1 hp
  obtain ⟨n, hlaid, -⟩ := hc.laid (e := default) hi
  obtain ⟨S, -, -, rfl, -, ⟨chart⟩⟩ := hlaid.chart hc.hosts
  obtain ⟨is, hdecode, his, -, -, hbytes⟩ := chart.instructions_eq
  refine ⟨fun d hd => ?_, by rw [his, hbytes], chart.mark, chart.verified⟩
  rw [hdecode] at hd
  obtain ⟨i, -, rfl⟩ := List.mem_map.1 hd
  rfl

/-- Every page that the compiler emits can be read to its end and passes the verifier. -/
theorem compile_verified {e : Expr} {program : Program} (h : compile e = .ok program) {page : Page}
    (hp : page ∈ program.pages) :
    (∀ d ∈ decodeAll page.code, d.isOk) ∧
      (instructions page.code).flatMap Instruction.bytes = page.code.toList ∧ ∃ mark, page.Verified mark := by
  unfold compile at h
  cases hadd : Compiler.new.add e with
  | error error => rw [hadd] at h; cases h
  | ok result =>
    obtain ⟨index, c⟩ := result
    rw [hadd] at h
    cases h
    exact (Compiler.Stable.new.add hadd).1.verified hp

/-- A loop that is left from inside a `try` region. -/
theorem compile_verified_break : ∃ program, compile (.mk 1 (.loop (.mk 1 (.block []))
    (.mk 2 (.attempt (.mk 2 .break) (some "e") (.mk 3 .continue))))) = .ok program ∧ program.pages.size = 1 ∧
      ∀ page ∈ program.pages, (∀ d ∈ decodeAll page.code, d.isOk) ∧
        (instructions page.code).flatMap Instruction.bytes = page.code.toList ∧ ∃ mark, page.Verified mark := by
  have h : (compile (.mk 1 (.loop (.mk 1 (.block []))
      (.mk 2 (.attempt (.mk 2 .break) (some "e") (.mk 3 .continue)))))).toOption.any
        (fun program => program.pages.size == 1) = true := by decide +kernel
  cases hc : compile (.mk 1 (.loop (.mk 1 (.block []))
      (.mk 2 (.attempt (.mk 2 .break) (some "e") (.mk 3 .continue))))) with
  | error error => rw [hc] at h; cases h
  | ok program =>
    rw [hc] at h
    exact ⟨program, rfl, by simpa [Except.toOption] using h, fun _ hp => compile_verified hc hp⟩

end ShellVM
