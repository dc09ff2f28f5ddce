import ShellVM.Proofs.Calls
import ShellVM.Proofs.Swaps

/-!
# What an instruction can do

`Performs` lists what one instruction does to calls, handlers, iterators and values, in any program and whether it
fails or not (`Act.perform_cases`); `Act.step_cases` is the same for a step.
-/

namespace ShellVM

variable {host : Host} {program : Program} {page : Page} {i : Instruction} {m s t : Machine} {n : Nat}

/-- The machine `m` has become `s`. Calls, handlers and iterators are as they were. If `taken` values lay above some
height, the stack below it is as it was, and `left` values lie above it. -/
structure Kept (taken left : Nat) (m s : Machine) : Prop where
  calls : s.calls = m.calls
  handlers : s.handlers = m.handlers
  iterators : s.iterators = m.iterators
  stack : ∀ b, b + taken ≤ m.stack.size → (∀ i, i < b → s.stack[i]? = m.stack[i]?) ∧ b + left ≤ s.stack.size

namespace Kept

variable {a b c d : Nat} {m s t : Machine}

theorem refl (n : Nat) (m : Machine) : Kept n n m m := ⟨rfl, rfl, rfl, fun _ h => ⟨fun _ _ => rfl, h⟩⟩

theorem trans (h : Kept a b m s) (h' : Kept b c s t) : Kept a c m t where
  calls := h'.calls.trans h.calls
  handlers := h'.handlers.trans h.handlers
  iterators := h'.iterators.trans h.iterators
  stack := fun n hn => by
    obtain ⟨hs, hsize⟩ := h.stack n hn
    obtain ⟨ht, hsize'⟩ := h'.stack n hsize
    exact ⟨fun i hi => (ht i hi).trans (hs i hi), hsize'⟩

/-- Values that lie below the ones that are taken are left. -/
theorem mono (h : Kept a b m s) (ha : a ≤ c) (hb : d + a ≤ b + c) : Kept c d m s where
  calls := h.calls
  handlers := h.handlers
  iterators := h.iterators
  stack := fun n hn => by
    obtain ⟨hs, hsize⟩ := h.stack (n + (c - a)) (by omega)
    exact ⟨fun i hi => hs i (by omega), by omega⟩

theorem lose (h : Kept a b m s) : Kept a 0 m s := h.mono (Nat.le_refl a) (by omega)

end Kept

theorem Swapped.kept {a b : Nat} (h : Swapped a b m s) : Kept a b m s where
  calls := h.calls
  handlers := h.handlers
  iterators := h.iterators
  stack := fun n hn => by
    have := h.size
    exact ⟨fun k hk => h.below k (by omega), by omega⟩

theorem Dropped.kept {a : Nat} {fault : Fault} (h : Dropped a m fault s) : Kept a 0 m s where
  calls := h.calls
  handlers := h.handlers
  iterators := h.iterators
  stack := fun n hn => by
    have := h.size
    exact ⟨fun k hk => h.below k (by omega), by omega⟩

/-! ## Instructions -/

/-- The instruction takes `n` values or more, wherever its effect is known. -/
def Instruction.Costs (page : Page) (i : Instruction) (n : Nat) : Prop :=
  ∀ S : Sheet, S.page = page → ∀ pops pushes, S.effect? i = some (pops, pushes) → n ≤ pops

theorem Instruction.Costs.zero (page : Page) (i : Instruction) : i.Costs page 0 := fun _ _ _ _ _ => Nat.zero_le _

/-- What also an instruction that fails may have done. -/
inductive Touches (page : Page) (i : Instruction) (m s : Machine) : Prop where
  /-- It takes some values and leaves others. -/
  | takes {n : Nat} (costs : i.Costs page n) (kept : Kept n 0 m s)
  /-- It moves or closes the innermost iterator. -/
  | iterates {it : Iter} {its rest : List Iter} (op : i.op = .forIter ∨ i.op = .endFor)
      (iterators : m.iterators = it :: rest) (kept : Kept 0 0 { m with iterators := its ++ rest } s)

/-- What an instruction does to calls, handlers, iterators and values. -/
inductive Performs (page : Page) (i : Instruction) (m : Machine) : Machine → Prop where
  | touches {s : Machine} (touched : Touches page i m s) : Performs page i m s
  /-- It assigns to a local of the innermost call. -/
  | stores {f : Frame} {rest : List Frame} {v : Value} (op : i.op = .store) (frames : m.frames = f :: rest)
      (h : f.base + (i.byte 0).toNat < m.stack.size) :
      Performs page i m { m with stack := m.stack.set (f.base + (i.byte 0).toNat) v h }
  /-- It opens an iterator. -/
  | starts {s : Machine} {n : Nat} {it : Iter} (costs : i.Costs page n) (kept : Kept n 0 m s) :
      Performs page i m { s with iterators := it :: s.iterators }
  /-- It opens a region. -/
  | opens {t : Nat} (op : i.op = .enterTry) (target : i.target? = some t) : Performs page i m
      { m with handlers := ⟨m.frames.length, m.stack.size, m.iterators.length, t⟩ :: m.handlers }
  /-- It closes the innermost region. -/
  | closes {h : Handler} {rest : List Handler} (handlers : m.handlers = h :: rest) :
      Performs page i m { m with handlers := rest }
  /-- It starts a call. -/
  | enters {s : Machine} {n : Nat} {f : Frame} (costs : i.Costs page n) (kept : Kept n 0 m s) :
      Performs page i m { s with frames := f :: s.frames }

theorem Touches.same (h : Touches page i m s) : s.calls = m.calls ∧ s.handlers = m.handlers := by
  cases h with
  | takes _ kept => exact ⟨kept.calls, kept.handlers⟩
  | iterates _ _ kept => exact ⟨kept.calls, kept.handlers⟩

namespace Act

/-- An act on `m` has done what the instruction can do. -/
def Done (page : Page) (i : Instruction) (m : Machine) (r : EStateM.Result Fault Machine Unit) : Prop :=
  match r with
  | .ok _ s => Performs page i m s
  | .error _ s => Touches page i m s

namespace Done

variable {α : Type} {x : Act α} {y : Act Unit} {f : α → Act Unit} {k : Nat}

theorem error {e : Fault} (costs : i.Costs page n) (h : Kept n 0 m s) : Done page i m (.error e s) :=
  Touches.takes costs h

/-- An act that swaps values, and then another one. -/
theorem bind {b : Nat} (costs : i.Costs page n) (hs : Kept n b m s) (h : Swaps b k x)
    (h' : ∀ v t, Kept n k m t → Done page i m (f v t)) : Done page i m ((x >>= f) s) := by
  have hx := h s
  refine bind_run_cases (fun v t hxs => ?_) fun e t hxs => ?_
  · rw [hxs] at hx
    exact h' v t (hs.trans hx.kept)
  · rw [hxs] at hx
    exact error costs (hs.trans hx.kept)

theorem of_swaps {b : Nat} (costs : i.Costs page n) (hs : Kept n b m s) (h : Swaps b k y) : Done page i m (y s) := by
  have hy := h s
  cases hys : y s with
  | ok v t =>
    rw [hys] at hy
    exact .touches (.takes costs (hs.trans hy.kept).lose)
  | error e t =>
    rw [hys] at hy
    exact error costs (hs.trans hy.kept)

theorem breach (b : Breach) : Done page i m (Act.breach b m) := error (.zero page i) (.refl 0 m)

/-- The value on top is looked at, and then comes another act. -/
theorem peeks {g : Value → Act Unit} (h : ∀ v, Swaps 0 k (g v)) : Done page i m ((peek >>= g) m) := by
  refine bind_run_cases (fun v t hpeek => ?_) fun e t hpeek => ?_
  · unfold Act.peek at hpeek
    split at hpeek
    · cases hpeek
      exact of_swaps (.zero page i) (.refl 0 m) (h v)
    · cases hpeek
  · unfold Act.peek at hpeek
    split at hpeek
    · cases hpeek
    · cases hpeek
      exact error (.zero page i) (.refl 0 m)

theorem store (hop : i.op = .store) : Done page i m (Act.store (i.byte 0) m) := by
  obtain ⟨stack, frames, iterators, handlers, pending, steps, world⟩ := m
  unfold Act.store Machine.slot
  cases frames with
  | nil => exact error (.zero page i) (.refl 0 _)
  | cons f rest =>
    by_cases h : f.base + (i.byte 0).toNat < stack.size
    · simp only [dif_pos h]
      cases stack.back? with
      | some v => exact .stores hop rfl h
      | none => exact error (.zero page i) (.refl 0 _)
    · simp only [dif_neg h]
      exact error (.zero page i) (.refl 0 _)

theorem startIteration (costs : i.Costs page 1) : Done page i m (Act.startIteration m) :=
  bind costs (.refl 1 m) .pop fun v s hs => by
    have hv := Swaps.effect (Iter.ofValue_contained v).fresh s
    refine bind_run_cases (fun it t hvs => ?_) fun e t hvs => ?_
    · rw [hvs] at hv
      exact .starts costs (hs.trans hv.kept)
    · rw [hvs] at hv
      exact error costs (hs.trans hv.kept)

/-- The innermost iterator has moved, and then another act. -/
theorem iterates {it : Iter} {its rest : List Iter} (hop : i.op = .forIter) (hiterators : m.iterators = it :: rest)
    (hs : Kept 0 0 { m with iterators := its ++ rest } s) (h : Swaps 0 k y) : Done page i m (y s) := by
  have hy := h s
  cases hys : y s with
  | ok v t =>
    rw [hys] at hy
    exact .touches (.iterates (.inl hop) hiterators (hs.trans hy.kept).lose)
  | error e t =>
    rw [hys] at hy
    exact Touches.iterates (.inl hop) hiterators (hs.trans hy.kept)

theorem iterate (hop : i.op = .forIter) : Done page i m (Act.iterate i m) := by
  obtain ⟨stack, frames, iterators, handlers, pending, steps, world⟩ := m
  cases iterators with
  | nil => exact breach .nextWithoutIterator
  | cons it rest =>
    show Done page i _ ((effect it.next >>= _) _)
    refine bind (.zero page i) (.refl 0 _) (.effect it.next_contained.fresh) fun ⟨item?, it'⟩ s hs => ?_
    have hmoved : Kept 0 0 ⟨stack, frames, [it'] ++ rest, handlers, pending, steps, world⟩
        { s with iterators := it' :: rest } :=
      { hs with iterators := rfl }
    cases item? with
    | some v => exact iterates (y := Act.push v) hop rfl hmoved (.push v)
    | none => exact iterates (y := Act.jumpTo i) hop rfl hmoved (.jumpTo i)

theorem endIteration (hop : i.op = .endFor) : Done page i m (Act.endIteration m) := by
  obtain ⟨stack, frames, iterators, handlers, pending, steps, world⟩ := m
  cases iterators with
  | nil => exact breach .endWithoutIterator
  | cons it rest =>
    have hclosed : Kept 0 0 ⟨stack, frames, [] ++ rest, handlers, pending, steps, world⟩
        ⟨stack, frames, rest, handlers, pending, steps, world⟩ := .refl 0 _
    exact .touches (.iterates (.inr hop) rfl hclosed)

theorem openTry (hop : i.op = .enterTry) : Done page i m (Act.openTry i m) := by
  unfold Act.openTry
  cases htarget : i.target? with
  | none => exact breach .tryWithoutTarget
  | some t => exact .opens hop htarget

theorem closeTry : Done page i m (Act.closeTry m) := by
  obtain ⟨stack, frames, iterators, handlers, pending, steps, world⟩ := m
  cases handlers with
  | nil => exact breach .endWithoutTry
  | cons h rest => exact .closes rfl

/-! ## Calls -/

theorem enter {index : UInt16} {environment? : Option Addr} {count : Nat} {isRoot : Bool} (costs : i.Costs page n)
    (hs : Kept n 0 m s) : Done page i m (Act.enter host program index environment? count isRoot s) := by
  unfold Act.enter
  cases program.page? index with
  | none => exact error costs hs
  | some page' =>
    show Done page i m ((if count ≠ page'.arity.toNat then _ else if host.callDepth ≤ s.frames.length then _ else
      if s.stack.size < count then _ else _ : Act Unit) s)
    split
    · exact error costs hs
    split
    · exact error costs hs
    split
    · exact error costs hs
    · exact .enters costs hs

theorem callValue [host.Lawful] {r : Rootness} (costs : i.Costs page ((i.byte 0).toNat + 1)) :
    Done page i m (Act.callValue host program r (i.byte 0).toNat m) := by
  have hroot := (Swaps.root r).beside ((i.byte 0).toNat + 1)
  rw [Nat.zero_add] at hroot
  refine bind costs (.refl _ m) hroot fun isRoot s hs => ?_
  refine bind costs hs (.takeCallee _) fun callee t ht => ?_
  unfold Act.call
  split
  · exact enter costs ht.lose
  · exact enter costs ht.lose
  · next f => exact of_swaps costs ht (.callLibrary f _)
  · exact error costs ht.lose

end Done

/-- What an instruction of any page does. -/
theorem perform_done [host.Lawful] : Done page i m (perform host program page i m) := by
  by_cases hop : i.op.swaps
  · obtain ⟨taken, left, h⟩ := perform_swaps host program page hop
    exact .of_swaps (fun S hS pops pushes heffect => Nat.le_of_eq (h.effect S hS pops pushes heffect).1.symm)
      (.refl taken m)
      h.swaps
  · obtain ⟨p, op, operands⟩ := i
    cases op with
    | store => exact .store rfl
    | jumpIf | jumpIfNot => exact .peeks fun v => .jumpIf _ v _
    | getIter => exact .startIteration fun _ _ _ _ h => by cases h; exact Nat.le_refl _
    | forIter => exact .iterate rfl
    | endFor => exact .endIteration rfl
    | call | rootCall | maybeRootCall => exact .callValue fun _ _ _ _ h => by cases of_byte? h; exact Nat.le_refl _
    | enterTry => exact .openTry rfl
    | endTry => exact .closeTry
    | _ => exact absurd rfl hop

end Act

/-! ## Steps -/

/-- The machine has fetched the instruction. -/
def Machine.fetched (m : Machine) (f : Frame) (rest : List Frame) (i : Instruction) : Machine :=
  { m with steps := m.steps + 1, frames := { f with ip := i.next } :: rest }

theorem Machine.calls_fetched {f : Frame} {rest : List Frame} (h : m.frames = f :: rest) :
    (m.fetched f rest i).calls = m.calls := by
  unfold Machine.calls
  rw [h]
  rfl

/-- A step carries out an instruction, or ends the innermost call, or fails before it does anything. The first two
only where no limit is exceeded. -/
theorem Act.step_reads (host : Host) (program : Program) (m : Machine) :
    (host.exceeded? { m with steps := m.steps + 1 } = none ∧
      ((∃ f rest page i, m.frames = f :: rest ∧ program.page? f.page = some page ∧ m.next? program = some i ∧
        Act.step host program m = Act.perform host program page i (m.fetched f rest i)) ∨
      m.Active ∧ m.next? program = none ∧ Act.step host program m = Act.leave { m with steps := m.steps + 1 })) ∨
    ∃ e, Act.step host program m = .error e { m with steps := m.steps + 1 } := by
  obtain ⟨stack, frames, iterators, handlers, pending, steps, world⟩ := m
  rw [Act.step_eq]
  cases host.exceeded? ⟨stack, frames, iterators, handlers, pending, steps + 1, world⟩ with
  | some l => exact .inr ⟨_, rfl⟩
  | none =>
    simp only
    cases frames with
    | nil => exact .inr ⟨_, rfl⟩
    | cons f rest =>
      cases hpage : program.page? f.page with
      | none =>
        refine .inr ⟨.ofBreach (.noPage f.page.toNat), ?_⟩
        have hframe : Act.frame ⟨stack, f :: rest, iterators, handlers, pending, steps + 1, world⟩ =
            .ok f ⟨stack, f :: rest, iterators, handlers, pending, steps + 1, world⟩ := rfl
        unfold Act.advance
        rw [bind_run_ok hframe, hpage]
        rfl
      | some page =>
        have hadvance := @Act.advance_eq f.ip ⟨stack, f :: rest, iterators, handlers, pending, steps + 1, world⟩ program
          host f rest page rfl hpage rfl
        have hnext : Machine.next? program ⟨stack, f :: rest, iterators, handlers, pending, steps, world⟩ =
            (page.code[f.ip]?).bind fun byte => (readInstruction page.code f.ip byte).toOption := by
          show (program.page? f.page).bind _ = _
          rw [hpage]
          rfl
        rw [hadvance]
        cases hbyte : page.code[f.ip]? with
        | none => exact .inl ⟨trivial, .inr ⟨nofun, by rw [hnext, hbyte]; rfl, rfl⟩⟩
        | some byte =>
          cases hread : readInstruction page.code f.ip byte with
          | error u =>
            refine .inr ?_
            simp only [hread]
            cases u <;> exact ⟨_, rfl⟩
          | ok i =>
            refine .inl ⟨trivial, .inl ⟨f, rest, page, i, rfl, hpage, ?_, ?_⟩⟩
            · rw [hnext, hbyte]
              show (readInstruction page.code f.ip byte).toOption = some i
              rw [hread]
              rfl
            · simp only [hread]
              rfl

/-- A step carries out an instruction, or ends the innermost call, or fails before it does anything. -/
theorem Act.step_done (host : Host) [host.Lawful] (program : Program) (m : Machine) :
    (∃ f rest page i, m.frames = f :: rest ∧ program.page? f.page = some page ∧ m.next? program = some i ∧
      Act.Done page i (m.fetched f rest i) (Act.step host program m)) ∨
    (m.Active ∧ m.next? program = none ∧ Act.step host program m = Act.leave { m with steps := m.steps + 1 }) ∨
    ∃ e, Act.step host program m = .error e { m with steps := m.steps + 1 } := by
  rcases Act.step_reads host program m with
    ⟨-, ⟨f, rest, page, i, hframes, hpage, hnext, hstep⟩ | hleave⟩ | hfail
  · exact .inl ⟨f, rest, page, i, hframes, hpage, hnext, hstep ▸ Act.perform_done⟩
  · exact .inr (.inl hleave)
  · exact .inr (.inr hfail)

end ShellVM
