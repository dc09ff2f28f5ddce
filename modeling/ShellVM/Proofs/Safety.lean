import ShellVM.Proofs.Rollback.Entry
import ShellVM.Proofs.Turns
import ShellVM.Proofs.Window.Turn

/-!
# Compiled programs break no rule of the machine

The entries of a compiler run through machines in shape (`Enterable.turns_going`), and there no step breaks a rule of
the machine (`Compiler.entries_keep_rules`).
-/

namespace ShellVM

variable {program : Program} {functions : List (Nat × UInt16)} {host : Host} {entry : UInt16} {w : World} {m : Machine}

/-! ## The start of a run -/

/-- What is in a world when a run starts is of no concern to it. -/
def World.view (w : World) (hosts : UInt16 → Nat → Prop) (library : LibraryFunction → Prop) : View :=
  ⟨w.lists.size, w.dictionaries.size, w.records.size, w.cells.size, w.environments, hosts, library⟩

theorem Matches.refl {α : Type} {R : α → α → Prop} (xs : Array α) : Matches xs.size R xs xs :=
  ⟨Nat.le_refl _, rfl, fun _ _ => rfl, fun _ _ _ ha hx _ =>
    absurd (Array.getElem?_eq_some_iff.1 hx).1 (Nat.not_lt.2 ha)⟩

theorem World.alike_self (w : World) (hosts : UInt16 → Nat → Prop) (library : LibraryFunction → Prop) :
    w.Alike (w.view hosts library) w where
  lists := .refl _
  dictionaries := .refl _
  sets := rfl
  records := .refl _
  cells := .refl _
  environments := rfl
  environments' := rfl
  streams := rfl
  files := rfl
  system := rfl
  terminal := rfl
  errors := rfl

/-- A program in which the known functions and the entry page can be called. -/
structure Enterable (program : Program) (functions : List (Nat × UInt16)) (entry : UInt16) : Prop where
  serves : ∀ id index, functions.lookup id = some index → program.Hosts functions index 0
  hosts : program.Hosts functions entry 0
  arity : ∀ page, program.page? entry = some page → page.arity.toNat = 0

/-- A run starts in shape. -/
theorem Enterable.start_going (h : Enterable program functions entry) (w : World) :
    ∃ V, Going V program functions .empty (Machine.start entry w) (Machine.start entry w) := by
  have hsupplies : (w.view (program.Hosts functions) fun _ => True).Supplies entry none := h.hosts
  obtain ⟨A, hA, rfl, hbase, hroot, henvironment, hcallers, hiterators, hhandlers⟩ :=
    activation h.serves rfl hsupplies 0 true [] 0 []
  have hframe : A.frame 0 [] :: A.callers = [Frame.new A.page 0 true none] := by
    rw [hcallers, Activation.frame, hbase, hroot, henvironment]
    rfl
  have hstands : Stands (w.view (program.Hosts functions) fun _ => True) program functions A :=
    ⟨rfl, hA, by rw [hcallers, hbase, hiterators, hhandlers]; exact ⟨rfl, rfl, rfl⟩⟩
  have hopen : Open (w.view (program.Hosts functions) fun _ => True).cells A [] [] 0 [] := hiterators ▸ .none
  refine ⟨_, A, 0, _, hstands, A.chart.start, {
    stack := ⟨#[], rfl, .nil⟩
    frames := rfl
    iterators := ⟨[], rfl, .nil⟩
    handlers := rfl
    pending := rfl
    world := w.alike_self _ _
    shaped := {
      active := ⟨[], [], hframe.symm, nofun, hopen, hhandlers.symm⟩
      height := by
        show 0 = A.base + A.sheet.page.arity.toNat
        rw [hbase, h.arity _ hA.page]
      floor := Nat.zero_le _
      pending := Nat.zero_le _
      stored := nofun } }⟩

theorem Done.idle {V : View} {m m' : Machine} (h : Done V .empty m m') : ¬m.Active := fun hactive =>
  hactive (by rw [h.frames, h.returned]; rfl)

/-- Turns lead from shape to shape. -/
theorem Enterable.turns_onward [host.Lawful] (h : Enterable program functions entry) (w : World)
    (hm : Turns host program Machine.Active (Machine.start entry w) m) : Onward program functions .empty m m := by
  obtain ⟨V, hstart⟩ := h.start_going w
  refine hm.keeps (I := fun m => Onward program functions .empty m m) ⟨V, .inl hstart⟩ ?_
  rintro s s' ⟨V, hgoing | hdone⟩ hactive hturn
  · rcases turn_self host h.serves hgoing with ⟨t, ht, honward⟩ | ⟨e, t, ht, -⟩
    · cases hturn.symm.trans ht
      exact honward
    · cases hturn.symm.trans ht
  · exact absurd hactive hdone.idle

theorem Enterable.turns_going [host.Lawful] (h : Enterable program functions entry) (w : World)
    (hm : Turns host program Machine.Active (Machine.start entry w) m) (hactive : m.Active) :
    ∃ V, Going V program functions .empty m m := by
  obtain ⟨V, hgoing | hdone⟩ := h.turns_onward w hm
  · exact ⟨V, hgoing⟩
  · exact absurd hactive hdone.idle

/-- In a run no step breaks a rule of the machine. -/
theorem Enterable.step_keeps_rules [host.Lawful] (h : Enterable program functions entry) (w : World)
    (hm : Turns host program Machine.Active (Machine.start entry w) m) (hactive : m.Active) {fault : Fault}
    {s : Machine} (hstep : Act.step host program m = .error fault s) : fault.cause.isCatchable := by
  obtain ⟨V, hgoing⟩ := h.turns_going w hm hactive
  rcases step_self host h.serves hgoing with ⟨t, ht, -⟩ | ⟨e, t, ht, hcatch, -⟩
  · cases hstep.symm.trans ht
  · cases hstep.symm.trans ht
    exact hcatch

/-- A run that fails does so for a cause that could have been caught. -/
theorem Enterable.execute_keeps_rules [host.Lawful] (h : Enterable program functions entry) (w w' : World)
    {fuel : Nat} {fault : Fault} (hrun : program.execute host entry fuel w = .error fault w') :
    fault.cause.isCatchable := by
  obtain ⟨page, hpage, -⟩ := h.hosts
  unfold Program.execute at hrun
  rw [hpage] at hrun
  obtain ⟨m, hm, hm' | ⟨hactive, e, s, hturn, hm'⟩⟩ := Act.run_cases fuel (Machine.start entry w)
  · rw [hm'] at hrun
    cases h : m.frames.isEmpty <;> rw [h] at hrun <;> cases hrun
  · rw [hm'] at hrun
    cases hrun
    obtain ⟨V, hgoing⟩ := h.turns_going w hm hactive
    rcases turn_self host h.serves hgoing with ⟨t, ht, -⟩ | ⟨e, t, ht, hcatch⟩
    · cases hturn.symm.trans ht
    · cases hturn.symm.trans ht
      exact hcatch

/-! ## Compiled programs -/

namespace Compiler

variable {c c' : Compiler} {e : Expr} {index : UInt16}

/-- The page of an entry can be entered, also after later entries. -/
theorem Sound.enterable (hc : c.Sound) (h : c.enter e = (.ok index, c')) (es : List Expr) :
    Enterable (c'.addAll es).program (c'.addAll es).functions index := by
  have hc' := hc.enter_ok h
  have hlast : (c'.addAll es).Sound := addAll_induction Sound.enter es hc'
  have henters : c'.Enters e index := fun d hf => (hc.stable.enter h).2.2 d hf
  obtain ⟨page, hpage, hholds⟩ := henters.later (hc'.grows es) (entryDraft e) ((c'.addAll es).final _)
  refine ⟨fun id index hl => hlast.stable.functionPage hl, ⟨page, hpage, [], [], e.captured, true, e, rfl, hholds⟩, ?_⟩
  intro page' hpage'
  obtain rfl : page = page' := Option.some.inj (hpage.symm.trans hpage')
  exact hholds.1

/-- No step of a run breaks a rule of the machine, whatever entries came before and after the one that runs, under
whatever limits, and whatever the functions of the library do. So no run ends with such a fault. -/
theorem entries_keep_rules (es es' : List Expr) (h : (new.addAll es).enter e = (.ok index, c')) (host : Host)
    [host.Lawful] (w : World) :
    (∀ m fault s, Turns host (c'.addAll es').program Machine.Active (Machine.start index w) m → m.Active →
      Act.step host (c'.addAll es').program m = .error fault s → ∀ b, fault.cause ≠ .internal b) ∧
    ∀ fuel fault w', (c'.addAll es').program.execute host index fuel w = .error fault w' → ∀ b,
    fault.cause ≠ .internal b := by
  have hentry := (Sound.addAll es).enterable h es'
  refine ⟨fun m fault s hm hactive hstep b hb => ?_, fun fuel fault w' hrun b hb => ?_⟩
  · have := hentry.step_keeps_rules w hm hactive hstep
    rw [hb] at this
    cases this
  · have := hentry.execute_keeps_rules w w' hrun
    rw [hb] at this
    cases this

/-- Does an entry, between others, get through, and does its machine pass a test after so many turns? -/
def reaches (es : List Expr) (e : Expr) (es' : List Expr) (host : Host) (turns : Nat)
    (test : Program → Machine → Bool) : Bool :=
  match (new.addAll es).enter e with
  | (.ok index, c) => Act.reaches host (c.addAll es').program turns (Machine.start index default)
    (test (c.addAll es').program)
  | (.error _, _) => false

theorem turns_of_reaches {es es' : List Expr} {turns : Nat} {test : Program → Machine → Bool}
    (h : reaches es e es' host turns test = true) : ∃ index c' m, (new.addAll es).enter e = (.ok index, c') ∧
      Turns host (c'.addAll es').program Machine.Active (Machine.start index default) m ∧
      test (c'.addAll es').program m = true := by
  unfold reaches at h
  cases henter : (new.addAll es).enter e with
  | mk result c' =>
    rw [henter] at h
    cases result with
    | error error => cases h
    | ok index =>
      obtain ⟨m, hturns, hm⟩ := Act.turns_of_reaches h
      exact ⟨index, c', m, rfl, hturns, hm⟩

/-- A loop over two items, which is left with the second one, out of a region of its body. -/
def leaving : Expr :=
  .mk 2 (.each ["i"] (.mk 2 (.tuple [.mk 2 (.tuple []), .mk 2 (.literal .nil)]))
    (.mk 3 (.attempt (.mk 3 (.branch (.mk 3 (.binary .equal (.mk 3 (.variable "i")) (.mk 3 (.literal .nil))))
      (.mk 4 .break) none)) (some "e") (.mk 5 (.variable "e")))))

/-- The entry runs between two definitions of the same function. Where the machine stands, the second item has been
taken, and the break closes the region. -/
theorem entries_keep_rules_between_definitions : ∃ index c' m,
    (new.addAll [.mk 1 (.define 0 "f" ["x"] (.mk 1 (.variable "x")))]).enter leaving = (.ok index, c') ∧
    Turns {} (c'.addAll [.mk 6 (.define 0 "f" [] (.mk 6 (.block [])))]).program Machine.Active
      (Machine.start index default) m ∧
    m.next? (c'.addAll [.mk 6 (.define 0 "f" [] (.mk 6 (.block [])))]).program = some ⟨25, .endTry, []⟩ ∧
    m.iterators.length = 1 ∧ m.handlers.length = 1 ∧
    (∀ fault s, Act.step {} (c'.addAll [.mk 6 (.define 0 "f" [] (.mk 6 (.block [])))]).program m = .error fault s →
      ∀ b, fault.cause ≠ .internal b) ∧
    ∀ fuel fault w', (c'.addAll [.mk 6 (.define 0 "f" [] (.mk 6 (.block [])))]).program.execute {} index fuel default =
      .error fault w' → ∀ b, fault.cause ≠ .internal b := by
  have hrun : reaches [.mk 1 (.define 0 "f" ["x"] (.mk 1 (.variable "x")))] leaving
      [.mk 6 (.define 0 "f" [] (.mk 6 (.block [])))] {} 22 (fun program m =>
        decide (m.next? program = some ⟨25, .endTry, []⟩ ∧ m.iterators.length = 1 ∧ m.handlers.length = 1)) = true := by
    decide +kernel
  obtain ⟨index, c', m, h, hm, htest⟩ := turns_of_reaches hrun
  obtain ⟨hnext, hiterators, hhandlers⟩ := of_decide_eq_true htest
  obtain ⟨hstep, hexecute⟩ := entries_keep_rules _ [.mk 6 (.define 0 "f" [] (.mk 6 (.block [])))] h {} default
  exact ⟨index, c', m, h, hm, hnext, hiterators, hhandlers,
    fun fault s => hstep m fault s hm (Machine.active_of_next? hnext), hexecute⟩

end Compiler

end ShellVM
