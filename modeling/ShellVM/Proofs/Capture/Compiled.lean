import ShellVM.Proofs.Capture.Shared
import ShellVM.Proofs.Interning

/-!
# Compiled programs share captured variables

The runs of an entry do with variables what the sources of its pages say, with the very cells that they mean
(`Compiler.captured_variables_are_shared`).
-/

namespace ShellVM

variable {host : Host} {program : Program} {functions : List (Nat × UInt16)} {entry : UInt16} {m : Machine} {R : Ledger}
  {w : World}

/-- A run that has started in the world `w` has come to `m`, and its ledger to `R`: variables in cells are shared. -/
structure Machine.SharesVariables (host : Host) (program : Program) (functions : List (Nat × UInt16))
    (w : World) (m : Machine) (R : Ledger) : Prop where
  /-- Each time that a declaration was carried out it has made a cell of its own, which was not there before the run. -/
  fresh : R.made.Nodup ∧ ∀ a ∈ R.made, w.cells.size ≤ a
  /-- Of the page of every call it is known what its code is for. -/
  calls : ∀ f ∈ m.frames, ∃ page, program.page? f.page = some page ∧ Nonempty (Told program functions page)
  /-- If the next instruction is about variables, it is the code for a use of the source. Within the limits of the run
  it is carried out, and does what the use says. -/
  uses : ∀ f rest page i (T : Told program functions page), m.frames = f :: rest → program.page? f.page = some page →
    m.next? program = some i → i.op.usesVariable = true → ∃ u, (i.offset, u) ∈ T.uses ∧
      (host.exceeded? { m with steps := m.steps + 1 } = none → ∃ s, Act.step host program m = .ok () s ∧
        u.IsDone program functions i m s R (R.after host program m s))
  /-- Closures keep the cells that they were made with. -/
  environments : ∀ s, Act.turn host program m = .ok () s → ∃ more, s.world.environments = m.world.environments ++ more

theorem CallersKnown.told {handlers : List Handler} {frames : List Frame} {logs : List Log}
    (h : CallersKnown program functions handlers frames logs) :
    ∀ f ∈ frames, ∃ page, program.page? f.page = some page ∧ Nonempty (Told program functions page) := by
  induction frames generalizing logs with
  | nil => exact nofun
  | cons f rest ih =>
    cases logs with
    | nil => exact h.elim
    | cons log logs => exact List.forall_mem_cons.2 ⟨h.1.page, ih h.2⟩

theorem Machine.Known.told {logs : List Log} (hm : m.Known program functions logs) :
    ∀ f ∈ m.frames, ∃ page, program.page? f.page = some page ∧ Nonempty (Told program functions page) := by
  unfold Machine.Known at hm
  cases hframes : m.frames with
  | nil => exact nofun
  | cons f rest =>
    rw [hframes] at hm
    cases logs with
    | nil => exact hm.elim
    | cons log logs => exact List.forall_mem_cons.2 ⟨hm.1.page, hm.2.told⟩

theorem Enterable.shares_variables [host.Lawful] (hentry : Enterable program functions entry) (hw : w.Closed)
    (hm : Recorded host program (.start entry w) m R) : m.SharesVariables host program functions w R := by
  have hshares := hm.shares hentry hw
  refine ⟨⟨hshares.faithful.fresh, fun a ha => (hshares.faithful.bounds a ha).1⟩, hshares.known.told, ?_,
    fun s hs => Machine.turn_environments hs⟩
  intro f rest page i T hframes hpage hnext hop
  obtain ⟨_, _, -, -, hknown⟩ := hshares.known.innermost hframes
  obtain ⟨u, hu⟩ := hknown.uses hframes hpage hnext hop T
  refine ⟨u, hu, fun hlimits => ?_⟩
  obtain ⟨s, hstep⟩ := hentry.carries_on hm.turns hframes hpage hnext hop hlimits
  exact ⟨s, hstep, hshares.isDone hframes hpage hnext T hu hstep⟩

/-! ## Entries -/

namespace Compiler

variable {c c' : Compiler} {e : Expr} {index : UInt16}

theorem addAll_append : ∀ (es es' : List Expr) (c : Compiler), c.addAll (es ++ es') = (c.addAll es).addAll es'
  | [], _, _ => rfl
  | e :: es, es', c => addAll_append es es' (c.enter e).2

/-- The entry `e` of the compiler, which has the page `index`, runs in the world `w` with variables that are shared.
These are the entries that got through. -/
structure SharesVariables (c : Compiler) (entries : List Expr) (e : Expr) (index : UInt16) (host : Host) (w : World) :
    Prop where
  /-- The page of the entry is code of its source, -/
  entry : ∃ page, c.program.page? index = some page ∧
    Origin.IsCodeOf ⟨[], [], e.captured, true, e⟩ c.program c.functions page
  /-- and the page of a function is code of its last definition. Closures are made with pages that are code of
  theirs. -/
  functions : ∀ d, definition? d.id (entries.flatMap Expr.definitions) = some d → ∃ i page,
    c.functions.lookup d.id = some i ∧
    c.program.page? i = some page ∧ Origin.IsCodeOf ⟨d.parameters, [], d.body.captured, false, d.body⟩
    c.program c.functions page
  told : ∀ origin page, origin.IsCodeOf c.program c.functions page →
    ∃ T : Told c.program c.functions page, T.origin = origin
  runs : ∀ m R, Recorded host c.program (.start index w) m R → m.SharesVariables host c.program c.functions w R
  /-- Afterwards the next run can start. -/
  closed : ∀ fuel, Outcome (fun _ => World.Closed) World.Closed (c.program.execute host index fuel w)

/-- Captured variables are shared by the calls and closures that use them, and every time that a declaration is
carried out it makes a variable of its own, whatever entries came before and after the one that runs. -/
theorem captured_variables_are_shared (es es' : List Expr) (h : (new.addAll es).enter e = (.ok index, c'))
    (host : Host) [host.Lawful] (hw : w.Closed) :
    (c'.addAll es').SharesVariables (new.kept (es ++ e :: es')) e index host w := by
  have hc : (new.addAll es).Sound := .addAll es
  have hentry := hc.enterable h es'
  have henters : c'.Enters e index := fun d hf => (hc.stable.enter h).2.2 d hf
  have hall : new.addAll (es ++ e :: es') = c'.addAll es' := by
    rw [addAll_append]
    show ((new.addAll es).enter e).2.addAll es' = _
    rw [h]
  refine ⟨henters.later ((hc.enter_ok h).grows es') (entryDraft e) ((c'.addAll es').final _), fun d hd => ?_,
    fun origin page horigin => horigin.told, fun m R hm => hentry.shares_variables hw hm,
    fun fuel => hw.execute host index fuel⟩
  rw [← hall]
  exact functionPage_lies _ hd

/-! ## A closure that assigns to a captured variable -/

/-- A closure that assigns to the variable that it has captured. -/
def assigning : Expr := .mk 0 (.closure [] ["x"] (.mk 0 (.assign (.mk 0 (.variable "x")) (.mk 0 (.literal .nil)))))

/-- The closure is called, and then the variable is read. -/
def assigned : Expr :=
  .mk 0 (.block [.mk 0 (.declare ["x"] (.mk 0 (.tuple []))), .mk 0 (.call (.value assigning) [] false),
    .mk 0 (.variable "x")])

/-- The page of the closure. -/
def assigningPage : Page := { Page.empty "<closure>" 0 with code := #[4, 0, 0, 8, 0] }

/-- The compiler that has the entry. -/
def knowingAssigned : Compiler :=
  ⟨⟨#[⟨entryName, 0, #[35, 0, 0, 9, 0, 12, 0, 42, 0, 1, 1, 52, 0, 1, 10, 0, 3, 1], .ofList [.nil, .page 1], #[]⟩,
    assigningPage], #[]⟩, [], []⟩

theorem enter_assigned : new.enter assigned = (.ok 0, knowingAssigned) := by
  let writing (pages : List Page) (code : Array UInt8) (constants : List Constant)
    (locals : List Local) (height depth : Nat) :
      Workbench := ⟨⟨(.empty entryName 0 :: pages).toArray, #[]⟩, [], [], [],
    ⟨⟨entryName, 0, code, .ofList constants, #[]⟩, locals, [], ["x"], height, depth, [], [], true⟩, []⟩
  let x : Local := ⟨"x", 1, 0, true⟩
  let body : Emit Page := Emit.page "<closure>" [] ["x"] [] (Expr.mk 0 (.assign (.mk 0 (.variable "x"))
    (.mk 0 (.literal .nil)))).emitValue
  have hscope : Emit.beginScope (writing [] #[] [.nil] [] 0 0) = .ok () (writing [] #[] [.nil] [] 0 1) := rfl
  have hdeclare : Emit.declaration ["x"] (Emit.word .buildTuple 0 "collection items") (writing [] #[] [.nil] [] 0 1) =
      .ok () (writing [] #[35, 0, 0, 9, 0] [.nil] [x] 1 1) := by
    with_unfolding_all rfl
  have hcapture : Emit.captureAll ["x"] (writing [] #[35, 0, 0, 9, 0] [.nil] [x] 1 1) =
      .ok () (writing [] #[35, 0, 0, 9, 0, 12, 0] [.nil] [x] 1 1) := by
    with_unfolding_all rfl
  have hreserve : Emit.reservePage "<closure>" (writing [] #[35, 0, 0, 9, 0, 12, 0] [.nil] [x] 1 1) =
      .ok 1 (writing [.empty "<closure>" 0] #[35, 0, 0, 9, 0, 12, 0] [.nil] [x] 1 1) := rfl
  have hbody : body (writing [.empty "<closure>" 0] #[35, 0, 0, 9, 0, 12, 0] [.nil] [x] 1 1) =
      .ok assigningPage (writing [.empty "<closure>" 0] #[35, 0, 0, 9, 0, 12, 0] [.nil] [x] 1 1) := by
    with_unfolding_all rfl
  have hinstall :
      Emit.install 1 assigningPage (writing [.empty "<closure>" 0] #[35, 0, 0, 9, 0, 12, 0] [.nil] [x] 1 1) =
      .ok () (writing [assigningPage] #[35, 0, 0, 9, 0, 12, 0] [.nil] [x] 1 1) := rfl
  have hkey : Emit.constantKey (.page 1) (writing [assigningPage] #[35, 0, 0, 9, 0, 12, 0] [.nil] [x] 1 1) =
      .ok 1 (writing [assigningPage] #[35, 0, 0, 9, 0, 12, 0] [.nil, .page 1] [x] 1 1) :=
    Emit.constantKey_of_add (ConstantTable.add_ofList_new rfl (by decide) (by decide))
  have hclosure : Emit.closure ["x"] body (writing [] #[35, 0, 0, 9, 0] [.nil] [x] 1 1) =
      .ok () (writing [assigningPage] #[35, 0, 0, 9, 0, 12, 0, 42, 0, 1, 1] [.nil, .page 1] [x] 2 1) := by
    unfold Emit.closure
    rw [bind_run_ok hcapture]
    exact (bind_run_ok hreserve).trans
      ((bind_run_ok hbody).trans ((bind_run_ok hinstall).trans ((bind_run_ok hkey).trans rfl)))
  have hrest : (do Emit.call false 0 (pure ()); Emit.pop; Emit.load "x"; Emit.endScope true)
      (writing [assigningPage] #[35, 0, 0, 9, 0, 12, 0, 42, 0, 1, 1] [.nil, .page 1] [x] 2 1) =
      .ok () (writing [assigningPage] #[35, 0, 0, 9, 0, 12, 0, 42, 0, 1, 1, 52, 0, 1, 10, 0, 3, 1]
        [.nil, .page 1] [] 1 0) := by
    with_unfolding_all rfl
  have hcode : assigned.emitValue = (do
      Emit.beginScope
      Emit.declaration ["x"] (Emit.word .buildTuple 0 "collection items")
      Emit.closure ["x"] body
      Emit.call false 0 (pure ())
      Emit.pop
      Emit.load "x"
      Emit.endScope true) := by
    have hnested : assigned.emitValue = (do
        Emit.beginScope
        (do
          Emit.declaration ["x"] (Emit.word .buildTuple 0 "collection items")
          (do Emit.closure ["x"] body; Emit.call false 0 (pure ()))
          Emit.pop
          (do Emit.load "x"; pure ()))
        Emit.endScope true) := by
      with_unfolding_all rfl
    rw [hnested]
    simp only [bind_assoc, pure_bind]
  have hemit : assigned.emitValue (writing [] #[] [.nil] [] 0 0) = .ok ()
      (writing [assigningPage] #[35, 0, 0, 9, 0, 12, 0, 42, 0, 1, 1, 52, 0, 1, 10, 0, 3, 1]
        [.nil, .page 1] [] 1 0) := by
    rw [hcode, bind_run_ok hscope, bind_run_ok hdeclare, bind_run_ok hclosure, hrest]
  have hstart : (new.bench (entryDraft assigned)).reserve entryName = writing [] #[] [.nil] [] 0 0 := by
    with_unfolding_all rfl
  exact enter_of_emitValue (by decide) hstart hemit (by decide) rfl

/-- The variable is read by the entry after the closure has assigned to it. -/
theorem captured_variables_are_shared_assigned : ∃ m R i page, ∃ (T : Told knowingAssigned.program [] page)
    (u : Use) (s : Machine), Recorded {} knowingAssigned.program (.start 0 default) m R ∧
    m.next? knowingAssigned.program = some i ∧ i.op = .loadCell ∧
      (i.offset, u) ∈ T.uses ∧
      u.IsDone knowingAssigned.program [] i m s R (R.after {} knowingAssigned.program m s) := by
  obtain ⟨m, hturns, hm⟩ := Act.turns_of_reaches
    (show Act.reaches {} knowingAssigned.program 9 (.start 0 default) (fun m =>
      decide (m.next? knowingAssigned.program = some ⟨14, .loadCell, [0]⟩) &&
        (({} : Host).exceeded? { m with steps := m.steps + 1 }).isNone) = true by decide +kernel)
  obtain ⟨hnext, hlimits⟩ := Bool.and_eq_true_iff.1 hm
  have hnext := of_decide_eq_true hnext
  obtain ⟨R, hR⟩ := hturns.recorded
  have hclosed : World.Closed default := nofun
  have hshares : m.SharesVariables {} knowingAssigned.program [] default R :=
    (captured_variables_are_shared [] [] enter_assigned {} hclosed).runs m R hR
  obtain ⟨f, rest, page, -, hframes, hpage, -⟩ := Machine.next?_eq_some hnext
  obtain ⟨page', hpage', ⟨T⟩⟩ := hshares.calls f (hframes ▸ List.mem_cons_self)
  obtain rfl := Option.some.inj (hpage.symm.trans hpage')
  obtain ⟨u, hu, hdone⟩ := hshares.uses f rest page _ T hframes hpage hnext rfl
  obtain ⟨s, -, hdone⟩ := hdone (Option.isNone_iff_eq_none.1 hlimits)
  exact ⟨m, R, _, page, T, u, s, hR, hnext, rfl, hu, hdone⟩

end Compiler

end ShellVM
