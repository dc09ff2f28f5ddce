import ShellVM.Proofs.Calls
import ShellVM.Proofs.Capture.Run

/-!
# Captured variables are shared storage

Every instruction about variables is the code for a use of the source, and does what the use says with the very cells
that the source means (`Use.IsDone`). A cell that a declaration makes is new. Reads give what was written last,
through whatever names.
-/

namespace ShellVM

variable {host : Host} {program : Program} {functions : List (Nat × UInt16)} {page : Page} {i : Instruction}
  {m s : Machine} {R : Ledger} {f : Frame} {rest : List Frame} {log : Log} {floor : Nat}

/-! ## Instructions about variables break nothing -/

namespace Act

/-- If the act fails, it breaks a rule of the machine. -/
def OnlyBreaks {α : Type} (x : Act α) : Prop := ∀ m, match x m with
  | .ok .. => True
  | .error e _ => e.cause.isCatchable = false

namespace OnlyBreaks

variable {α β : Type} {x : Act α} {g : α → Act β}

theorem pure (a : α) : OnlyBreaks (Pure.pure a : Act α) := fun _ => trivial

theorem breach (b : Breach) : OnlyBreaks (Act.breach b : Act α) := fun _ => rfl

theorem bind (h : OnlyBreaks x) (h' : ∀ a, OnlyBreaks (g a)) : OnlyBreaks (x >>= g) := by
  intro m
  have hx := h m
  show match EStateM.bind x g m with | .ok .. => True | .error e _ => e.cause.isCatchable = false
  unfold EStateM.bind
  cases hrun : x m with
  | ok a t => exact h' a t
  | error e t =>
    rw [hrun] at hx
    exact hx

theorem get {g : Machine → Act β} (h : ∀ m, OnlyBreaks (g m)) : OnlyBreaks (get >>= g) := fun m => h m m

theorem modify (g : Machine → Machine) : OnlyBreaks (modify g : Act PUnit) := fun _ => trivial

theorem push (v : Value) : OnlyBreaks (Act.push v) := modify _

theorem frame : OnlyBreaks Act.frame := by
  intro m
  unfold Act.frame
  cases m.frames with
  | nil => exact rfl
  | cons => exact trivial

theorem peek : OnlyBreaks Act.peek := by
  intro m
  unfold Act.peek
  cases m.stack.back? with
  | none => exact rfl
  | some => exact trivial

theorem load (slot : UInt8) : OnlyBreaks (Act.load slot) := by
  intro m
  unfold Act.load
  cases m.slot slot with
  | error => exact rfl
  | ok => exact trivial

theorem store (slot : UInt8) : OnlyBreaks (Act.store slot) := by
  intro m
  unfold Act.store
  cases m.slot slot with
  | error => exact rfl
  | ok place =>
    dsimp only
    cases m.stack.back? with
    | none => exact rfl
    | some => exact trivial

theorem cell (slot : UInt8) : OnlyBreaks (Act.cell slot) := by
  refine frame.bind fun f => ?_
  cases f.cell? slot with
  | some a => exact pure a
  | none => exact breach _

theorem capture (index : UInt8) : OnlyBreaks (Act.capture index) := by
  refine frame.bind fun f => ?_
  cases f.environment? with
  | none => exact breach _
  | some e =>
    refine get fun m => ?_
    cases (m.world.environment e)[index.toNat]? with
    | some a => exact pure a
    | none => exact breach _

theorem readCell (a : Addr) : OnlyBreaks (Act.readCell a) := get fun _ => pure _

theorem newCell (v : Value) : OnlyBreaks (effect (Effect.newCell v)) := fun _ => trivial

theorem newEnvironment (cells : List Addr) : OnlyBreaks (effect (Effect.newEnvironment cells)) := fun _ => trivial

theorem writeCell (a : Addr) (v : Value) : OnlyBreaks (Act.writeCell a v) := fun _ => trivial

theorem makeCell (slot : UInt8) : OnlyBreaks (Act.makeCell slot) := by
  refine (load slot).bind fun v => (newCell v).bind fun a m => ?_
  unfold Act.modifyFrame
  cases m.frames with
  | nil => exact rfl
  | cons => exact trivial

theorem makeClosure (page : Page) (key : UInt16) (count : Nat) : OnlyBreaks (Act.makeClosure page key count) := by
  unfold Act.makeClosure
  split
  · refine get fun m => ?_
    dsimp only
    split
    · exact fun _ => rfl
    · exact (modify _).bind fun _ => (newEnvironment _).bind fun _ => push _
  · exact breach _

end OnlyBreaks

theorem perform_onlyBreaks (host : Host) (program : Program) (page : Page) (hop : i.op.usesVariable = true) :
    OnlyBreaks (perform host program page i) := by
  obtain ⟨p, op, operands⟩ := i
  cases op with
  | load => exact (OnlyBreaks.load _).bind fun _ => .push _
  | store => exact .store _
  | makeCell => exact .makeCell _
  | loadCell => exact (OnlyBreaks.cell _).bind fun a => (OnlyBreaks.readCell a).bind fun _ => .push _
  | loadCapture => exact (OnlyBreaks.capture _).bind fun a => (OnlyBreaks.readCell a).bind fun _ => .push _
  | storeCell => exact OnlyBreaks.peek.bind fun _ => (OnlyBreaks.cell _).bind fun _ => .writeCell _ _
  | storeCapture => exact OnlyBreaks.peek.bind fun _ => (OnlyBreaks.capture _).bind fun _ => .writeCell _ _
  | captureLocal => exact (OnlyBreaks.cell _).bind fun _ => .modify _
  | captureOuter => exact (OnlyBreaks.capture _).bind fun _ => .modify _
  | makeClosure => exact .makeClosure page _ _
  | _ => cases hop

end Act

/-! ## What the instructions of uses do -/

namespace Does

theorem of_load (h : Does page i m f rest s) (hop : i.op = .loadCell ∨ i.op = .loadCapture) : ∃ a,
    f.accessed? m.world i = some a ∧ s.stack = m.stack.push (m.world.cell a) := by
  cases h with
  | loads a _ place pushed _ => exact ⟨a, place, pushed⟩
  | _ => rcases hop with hop | hop <;> simp_all [Op.usesCell]

theorem of_store (h : Does page i m f rest s) (hop : i.op = .storeCell ∨ i.op = .storeCapture) : ∃ a v,
    f.accessed? m.world i = some a ∧ m.stack.back? = some v := by
  cases h with
  | stores a v _ place top _ => exact ⟨a, v, place, top⟩
  | _ => rcases hop with hop | hop <;> simp_all [Op.usesCell]

theorem of_make (h : Does page i m f rest s) (hop : i.op = .makeCell) : ∃ v,
    m.stack[f.base + (i.byte 0).toNat]? = some v ∧
      s.frames = { f with ip := i.next }.setCell (i.byte 0) m.world.cells.size :: rest := by
  cases h with
  | makes v _ value tracked => exact ⟨v, value, (Machine.of_tracked tracked).1⟩
  | _ => simp_all [Op.usesCell]

theorem of_put (h : Does page i m f rest s) (hop : i.op = .captureLocal ∨ i.op = .captureOuter) : ∃ a,
    f.accessed? m.world i = some a ∧ s.pending = a :: m.pending := by
  cases h with
  | puts a _ place tracked => exact ⟨a, place, (Machine.of_tracked tracked).2.2.1⟩
  | _ => rcases hop with hop | hop <;> simp_all [Op.usesCell]

theorem of_close (h : Does page i m f rest s) (hop : i.op = .makeClosure) : ∃ index,
    page.constants.get? (i.word 0) = some (.page index) ∧
      s.stack = m.stack.push (.function (.closure index m.world.environments.size)) ∧
      s.world.environments = m.world.environments.push (m.pending.take (i.byte 2).toNat).reverse := by
  cases h with
  | closes index _ constant _ pushed tracked => exact ⟨index, constant, pushed, (Machine.of_tracked tracked).2.2.2.2⟩
  | _ => simp_all [Op.usesCell]

theorem of_plain (h : Does page i m f rest s) (hop : i.op = .load ∨ i.op = .store) :
    s.world.variables = m.world.variables := by
  cases h with
  | goes q _ _ _ tracked => exact congrArg (fun x => x.2.2.2) tracked
  | enters g v _ _ _ _ _ _ _ _ tracked => exact congrArg (fun x => x.2.2.2) tracked
  | _ => rcases hop with hop | hop <;> simp_all

end Does

/-! ## Uses -/

/-- The instruction `i`, which is the code for the use, has led from `m` to `s`, and the ledger from `R` to `R'`. -/
def Use.IsDone (program : Program) (functions : List (Nat × UInt16)) (i : Instruction) (m s : Machine) (R R' : Ledger) :
    Use → Prop
  | .read | .write => s.world.cells = m.world.cells ∧ R'.writes = R.writes
  | .declare =>
    ∃ a v, Act.load (i.byte 0) m = .ok v m ∧ a ∉ R.made ∧ R'.made = a :: R.made ∧ R'.writes = (a, v) :: R.writes ∧
      s.denotes R' (.own i.offset) = some a
  | .load x =>
    ∃ a v, m.denotes R x = some a ∧ R.writes.lookup a = some v ∧ s.stack = m.stack.push v ∧ R'.writes = R.writes
  | .store x => ∃ a v, m.denotes R x = some a ∧ m.stack.back? = some v ∧ R'.writes = (a, v) :: R.writes
  | .put x => ∃ a, m.denotes R x = some a ∧ s.pending = a :: m.pending ∧ R'.writes = R.writes
  | .close parameters captures body xs => ∃ index page cells, program.page? index = some page ∧
      Origin.IsCodeOf ⟨parameters, captures, body.captured, false, body⟩ program functions page ∧
      xs.map (m.denotes R) = cells.map some ∧
      s.stack = m.stack.push (.function (.closure index m.world.environments.size)) ∧
      s.world.environments = m.world.environments.push cells ∧ R'.writes = R.writes

theorem Hold.Names.ops {σ : Hold} {cell capture : Op} {x : CellVariable} (h : σ.Names i cell capture x) :
    i.op = cell ∨ i.op = capture := by
  cases x with
  | own site => exact .inl h.1
  | outer index => exact .inr h.1

/-- A variable that is accessed is in the cell that its name stands for. -/
theorem Told.Holds.denotes {T : Told program functions page} {ips : List Nat} {σ : Hold} (hσ : T.Holds f log ips σ)
    {x : CellVariable} {a : Addr} (ha : f.accessed? m.world i = some a)
    (hx : σ.Names i .loadCell .loadCapture x ∨ σ.Names i .storeCell .storeCapture x ∨
      σ.Names i .captureLocal .captureOuter x) :
    f.denotes m.world log x = some a := by
  unfold Frame.accessed? at ha
  cases x with
  | own site =>
    obtain ⟨hcell, hmem⟩ : f.cell? (i.byte 0) = some a ∧ (i.byte 0, site) ∈ σ.cells := by
      rcases hx with ⟨hop, hmem⟩ | ⟨hop, hmem⟩ | ⟨hop, hmem⟩ <;> rw [hop] at ha <;> exact ⟨ha, hmem⟩
    obtain ⟨b, hb, hlog⟩ := hσ.cells _ hmem
    obtain rfl : b = a := Option.some.inj (hb.symm.trans hcell)
    exact hlog
  | outer index =>
    rcases hx with ⟨hop, rfl⟩ | ⟨hop, rfl⟩ | ⟨hop, rfl⟩ <;> rw [hop] at ha <;> exact ha

/-- The cells put aside, the first one first. -/
theorem PutAside.reverse {w : World} {pending : List Addr} {xs : List CellVariable}
    (h : PutAside f w log pending xs.reverse) :
    xs.map (f.denotes w log) = (pending.take xs.length).reverse.map some := by
  have := congrArg List.reverse h
  rwa [← List.map_reverse, List.reverse_reverse, List.length_reverse, ← List.map_reverse] at this

theorem Machine.denotes_eq {logs : List Log} (hframes : m.frames = f :: rest) (hlogs : R.logs = log :: logs) :
    m.denotes R = f.denotes m.world log := by
  funext x
  unfold Machine.denotes
  rw [hframes, hlogs]

/-- The innermost call has a log. -/
theorem Machine.Known.innermost {logs : List Log} (hm : m.Known program functions logs)
    (hframes : m.frames = f :: rest) : ∃ log outer, logs = log :: outer ∧ outer.length = rest.length ∧
      f.Known program functions log (catches m.handlers (rest.length + 1)) (PutAside f m.world log m.pending) := by
  unfold Machine.Known at hm
  rw [hframes] at hm
  cases logs with
  | nil => exact hm.elim
  | cons log outer => exact ⟨log, outer, rfl, hm.2.length, hm.1⟩

/-- Where a use stands, its instruction is the one that comes next, and what is told there is held. -/
theorem Frame.Known.shows {ips : List Nat} {P : List CellVariable → Prop} (hf : f.Known program functions log ips P)
    (hframes : m.frames = f :: rest) (hpage : program.page? f.page = some page) (hnext : m.next? program = some i)
    (T : Told program functions page) {u : Use} (hu : (i.offset, u) ∈ T.uses) :
    ∃ σ, P σ.put ∧ T.Holds f log ips σ ∧ (T.origin.sheet program functions page).Shows i σ u := by
  obtain ⟨hoffset, hread⟩ := Machine.reads_next hnext hframes hpage
  obtain ⟨σ, hput, hσ⟩ := hf.holds page hpage T
  obtain ⟨hpoint, -⟩ := hσ.place.follows hread hoffset
  obtain ⟨τ, op, operands, hτ, has, hshows⟩ := T.trace.shows hu
  obtain ⟨offset, op', operands'⟩ := i
  obtain rfl : offset = f.ip := hoffset
  obtain rfl : τ = σ := T.trace.functional hτ hpoint
  obtain ⟨rfl, rfl⟩ := has.unique hread
  exact ⟨τ, hput, hσ, hshows⟩

/-- Every instruction about variables is the code for a use. -/
theorem Frame.Known.uses {ips : List Nat} {P : List CellVariable → Prop} (hf : f.Known program functions log ips P)
    (hframes : m.frames = f :: rest) (hpage : program.page? f.page = some page) (hnext : m.next? program = some i)
    (hop : i.op.usesVariable = true) (T : Told program functions page) : ∃ u, (i.offset, u) ∈ T.uses := by
  obtain ⟨hoffset, hread⟩ := Machine.reads_next hnext hframes hpage
  obtain ⟨σ, -, hσ⟩ := hf.holds page hpage T
  obtain ⟨hpoint, -⟩ := hσ.place.follows hread hoffset
  obtain ⟨u, hu⟩ := T.trace.uses_of_has ⟨σ, hpoint⟩ hread hop
  exact ⟨u, hoffset ▸ hu⟩

/-- **Uses are done with the cells that the source means.** -/
theorem Machine.Shares.isDone [host.Lawful] (hm : m.Shares program functions floor R) (hframes : m.frames = f :: rest)
    (hpage : program.page? f.page = some page) (hnext : m.next? program = some i) (T : Told program functions page)
    {u : Use} (hu : (i.offset, u) ∈ T.uses) (hstep : Act.step host program m = .ok () s) :
    u.IsDone program functions i m s R (R.after host program m s) := by
  obtain ⟨log, logs, hlogs, hlength, hknown⟩ := hm.known.innermost hframes
  have hdoes := does_of_step hframes hpage hnext hstep
  obtain ⟨σ, hput, hσ, hshows⟩ := hknown.shows hframes hpage hnext T hu
  have hdenotes := denotes_eq hframes hlogs
  rw [Ledger.after_ok hstep hnext]
  have hwrites (hop : i.op.writesCell = false) : (R.note m i).writes = R.writes := by rw [Ledger.note_eq hop]
  cases u with
  | read =>
    have hop : i.op = .load := hshows
    exact ⟨congrArg Prod.fst (hdoes.of_plain (.inl hop)), hwrites (by rw [hop]; rfl)⟩
  | write =>
    have hop : i.op = .store := hshows
    exact ⟨congrArg Prod.fst (hdoes.of_plain (.inr hop)), hwrites (by rw [hop]; rfl)⟩
  | declare =>
    have hop : i.op = .makeCell := hshows
    obtain ⟨v, hv, hs⟩ := hdoes.of_make hop
    rw [Ledger.note_make hframes hlogs hop hv]
    refine ⟨m.world.cells.size, v, ?_, fun h => Nat.lt_irrefl _ (hm.faithful.bounds _ h).2, rfl, rfl, ?_⟩
    · exact Act.load_ok hframes rfl hv
    · have hfit : Log.fit s.frames.length (((i.offset, m.world.cells.size) :: log) :: logs) =
          ((i.offset, m.world.cells.size) :: log) :: logs :=
          Log.fit_same (by rw [hs, List.length_cons, List.length_cons, hlength])
      rw [denotes_eq hs hfit]
      simp [Frame.denotes]
  | load x =>
    have hx : σ.Names i .loadCell .loadCapture x := hshows
    have hop : i.op = .loadCell ∨ i.op = .loadCapture := hx.ops
    obtain ⟨a, ha, hpush⟩ := hdoes.of_load hop
    refine ⟨a, m.world.cell a, ?_, hm.faithful.latest a (hm.closed.accessed hframes ha), hpush, hwrites ?_⟩
    · rw [hdenotes]
      exact hσ.denotes ha (.inl hx)
    · rcases hop with hop | hop <;> rw [hop] <;> rfl
  | store x =>
    have hx : σ.Names i .storeCell .storeCapture x := hshows
    have hop : i.op = .storeCell ∨ i.op = .storeCapture := hx.ops
    obtain ⟨a, v, ha, hv⟩ := hdoes.of_store hop
    refine ⟨a, v, ?_, hv, ?_⟩
    · rw [hdenotes]
      exact hσ.denotes ha (.inr (.inl hx))
    · rw [Ledger.note_store hframes hlogs hop ha hv]
  | put x =>
    have hx : σ.Names i .captureLocal .captureOuter x := hshows
    have hop : i.op = .captureLocal ∨ i.op = .captureOuter := hx.ops
    obtain ⟨a, ha, hpending⟩ := hdoes.of_put hop
    refine ⟨a, ?_, hpending, hwrites ?_⟩
    · rw [hdenotes]
      exact hσ.denotes ha (.inr (.inr hx))
    · rcases hop with hop | hop <;> rw [hop] <;> rfl
  | close parameters captures body xs =>
    obtain ⟨hop, hxs, hcount, index, page', hconstant, hpage', hcode⟩ := hshows
    obtain ⟨index', hconstant', hpush, henvironments⟩ := hdoes.of_close hop
    obtain rfl : index = index' := Constant.page.inj (Option.some.inj (hconstant.symm.trans hconstant'))
    rw [hcount] at henvironments
    rw [hxs] at hput
    refine ⟨index, page', _, hpage', hcode, ?_, hpush, henvironments, hwrites (by rw [hop]; rfl)⟩
    rw [hdenotes]
    exact hput.reverse

/-! ## Environments -/

theorem Does.environments (h : Does page i m f rest s) :
    ∃ more, s.world.environments = m.world.environments ++ more := by
  have same (h : s.world.environments = m.world.environments) :
      ∃ more, s.world.environments = m.world.environments ++ more :=
    ⟨#[], h.trans Array.append_empty.symm⟩
  cases h with
  | closes _ _ _ _ _ tracked => exact ⟨#[_], (Machine.of_tracked tracked).2.2.2.2⟩
  | goes _ _ _ _ tracked | returns _ tracked | enters _ _ _ _ _ _ _ _ _ _ tracked | loads _ _ _ _ tracked
  | stores _ _ _ _ _ tracked | makes _ _ _ tracked | puts _ _ _ tracked | opens _ _ _ _ tracked
  | ends _ _ _ _ tracked =>
    exact same (Machine.of_tracked tracked).2.2.2.2

/-- The environments of closures stay as they are. -/
theorem Machine.turn_environments [host.Lawful] (hturn : Act.turn host program m = .ok () s) :
    ∃ more, s.world.environments = m.world.environments ++ more := by
  rcases turn_does hturn with ⟨f, rest, page, i, -, -, -, -, h⟩ | ⟨f, rest, -, -, -, h⟩ |
    ⟨e, t, h, outer, f, callers, -, -, -, h'⟩
  · exact h.environments
  · exact ⟨#[], (of_tracked h).2.2.2.2.trans Array.append_empty.symm⟩
  · exact ⟨#[], (of_tracked h').2.2.2.2.trans Array.append_empty.symm⟩

/-! ## Runs -/

/-- Within its limits, a run carries out its instructions about variables. -/
theorem Enterable.carries_on [host.Lawful] {entry : UInt16} {w : World} (hentry : Enterable program functions entry)
    (hm : Turns host program Machine.Active (.start entry w) m) (hframes : m.frames = f :: rest)
    (hpage : program.page? f.page = some page) (hnext : m.next? program = some i) (hop : i.op.usesVariable = true)
    (hlimits : host.exceeded? { m with steps := m.steps + 1 } = none) : ∃ s, Act.step host program m = .ok () s := by
  have hperform : Act.step host program m = Act.perform host program page i
      { m with steps := m.steps + 1, frames := { f with ip := i.next } :: rest } := by
    rw [Act.step_of_next hframes hpage hnext, hlimits]
  cases hstep : Act.step host program m with
  | ok _ s => exact ⟨s, rfl⟩
  | error fault s =>
    have hcatch := hentry.step_keeps_rules w hm (by rw [Machine.Active, hframes]; exact List.cons_ne_nil f rest) hstep
    have hbreaks := Act.perform_onlyBreaks host program page hop
      { m with steps := m.steps + 1, frames := { f with ip := i.next } :: rest }
    rw [← hperform, hstep] at hbreaks
    cases hcatch.symm.trans hbreaks

end ShellVM
