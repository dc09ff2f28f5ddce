import ShellVM.Proofs.Capture.Sharing
import ShellVM.Proofs.Safety

/-!
# Captured variables in runs

In every run of a compiled program the calls hold what their pages tell, and the latest value that was written to a
cell is what is in it (`Machine.Shares`). A run starts so in a world whose environments are closed, and leaves such a
world (`World.Closed.execute`).
-/

namespace ShellVM

variable {host : Host} {program : Program} {functions : List (Nat × UInt16)} {entry : UInt16} {m s : Machine}
  {R : Ledger} {floor : Nat} {w : World} {V : View}

/-! ## Functions run known pages -/

theorem Program.Laid.told {page : Page} {n : Nat} (h : program.Laid functions page n) :
    Nonempty (Told program functions page) := by
  obtain ⟨parameters, captures, captured, isEntry, body, -, hcode⟩ := h
  have horigin : Origin.IsCodeOf ⟨parameters, captures, captured, isEntry, body⟩ program functions page := hcode
  obtain ⟨T, -⟩ := horigin.told
  exact ⟨T⟩

theorem Program.Hosts.told {index : UInt16} {n : Nat} (h : program.Hosts functions index n) :
    ∃ page, program.page? index = some page ∧ Nonempty (Told program functions page) := by
  obtain ⟨page, hpage, hlaid⟩ := h
  exact ⟨page, hpage, hlaid.told⟩

theorem Going.callsKnown (hm : Going V program functions .empty m m) : m.CallsKnown program functions := by
  obtain ⟨A, q, σ, hA, -, hinside⟩ := hm
  obtain ⟨top, hstack, htop⟩ := hinside.stack
  have hself : ItemsAlike V m.stack m.stack := by
    rw [show m.stack = top from hstack.trans (Array.empty_append ..)] at htop ⊢
    exact htop
  intro v hv index environment? hruns
  have halike : v.Alike V v := List.forall₂_same.1 hself v (Array.mem_toList_iff.2 hv)
  rcases hruns with ⟨name, rfl, -⟩ | ⟨environment, rfl, -⟩
  · exact (hA.hosts ▸ halike.2 : program.Hosts functions index 0).told
  · obtain ⟨cells, -, hhosts, -⟩ := halike.2
    exact (hA.hosts ▸ hhosts : program.Hosts functions index cells.length).told

/-! ## What runs keep -/

/-- Calls hold what their pages tell, and cells what the ledger says. -/
structure Machine.Shares (program : Program) (functions : List (Nat × UInt16)) (floor : Nat)
    (m : Machine) (R : Ledger) : Prop where
  nested : m.Nested
  closed : m.Closed
  known : m.Known program functions R.logs
  faithful : R.Faithful floor m.world

namespace Machine.Shares

theorem start (hentry : Enterable program functions entry) (hw : w.Closed) :
    (Machine.start entry w).Shares program functions w.cells.size (.start w) where
  nested := .start entry w
  closed := ⟨hw, nofun, fun f hf => by
    obtain rfl := List.mem_singleton.1 hf
    exact nofun⟩
  known := ⟨⟨hentry.hosts.told, fun page _ T => ⟨⟨[], [], []⟩, .nil, T.start, nofun, trivial⟩⟩, trivial⟩
  faithful := .start w

theorem turn [host.Lawful] (hm : m.Shares program functions floor R) (hcalls : m.CallsKnown program functions)
    (hturn : Act.turn host program m = .ok () s) : s.Shares program functions floor (R.after host program m s) where
  nested := hm.nested.turn hturn
  closed := hm.closed.turn hturn
  known := hm.known.turn hm.nested hcalls hturn
  faithful := by
    have hidle (hs : s.world.variables = m.world.variables) : R.Faithful floor s.world := by
      have hcells : s.world.cells = m.world.cells := congrArg Prod.fst hs
      exact hm.faithful.congr hcells
    rcases turn_does hturn with ⟨f, rest, page, i, hframes, -, hnext, hstep, h⟩ | ⟨f, rest, -, hnext, -, h⟩ |
      ⟨e, t, h, outer, f, callers, hstep, -, -, h'⟩
    · have hlength := hm.known.length
      rw [Ledger.after_ok hstep hnext]
      cases hlogs : R.logs with
      | nil =>
        rw [hlogs, hframes] at hlength
        cases hlength
      | cons log logs => exact (h.faithful hframes hlogs hm.closed hm.faithful).relog _
    · rw [Ledger.after_end hnext]
      exact (hidle (congrArg (fun x => x.2.2.2) h)).relog _
    · rw [Ledger.after_error hstep]
      exact (hidle (congrArg (fun x => x.2.2.2) h')).relog _

end Machine.Shares

theorem Recorded.shares [host.Lawful] (hentry : Enterable program functions entry) (hw : w.Closed)
    (hm : Recorded host program (.start entry w) m R) : m.Shares program functions w.cells.size R := by
  induction hm with
  | start => exact .start hentry hw
  | turn before active next ih =>
    obtain ⟨V, hgoing⟩ := hentry.turns_going w before.turns active
    exact ih.turn hgoing.callsKnown next

/-! ## The worlds that runs leave -/

/-- A recovery does nothing in the world. -/
theorem Act.recover_preserves (program : Program) (fault : Fault) :
    Preserves Machine.world (Act.recover program fault) := by
  refine .get fun m => ?_
  dsimp only
  split
  · exact fun _ => rfl
  · cases m.handlers with
    | nil => exact .throw _
    | cons h rest =>
      have hclose : Preserves Machine.world (modify fun m => { m with handlers := rest } : Act PUnit) :=
        .modify fun _ => rfl
      have hunwind : Preserves Machine.world (Act.unwind h) := .modify fun _ => rfl
      have hjump : Preserves Machine.world (Act.jump h.catchIp) := fun m => by
        unfold Act.jump Act.modifyFrame
        cases m.frames <;> exact rfl
      exact hclose.bind fun _ => hunwind.bind fun _ => hjump.bind fun _ => Act.push_preserves (fun _ _ => rfl) _

theorem World.Closed.congr {w' : World} (h : w.Closed) (hvariables : w'.variables = w.variables) : w'.Closed := by
  obtain ⟨hcells, henvironments⟩ := Prod.mk.inj hvariables
  intro known hknown
  rw [hcells]
  exact h known (henvironments ▸ hknown)

/-- A turn that fails leaves what is in the world as it is. -/
theorem Machine.Closed.fails [host.Lawful] {e : Fault} (hm : m.Closed) (hturn : Act.turn host program m = .error e s) :
    s.world.Closed := by
  cases hstep : Act.step host program m with
  | ok _ t => cases hturn.symm.trans (Act.turn_of_ok hstep)
  | error fault t =>
    have hdoes := m.step_does host program
    rw [hstep] at hdoes
    have hworld := Act.recover_preserves program fault t
    rw [(Act.turn_of_error hstep).symm.trans hturn] at hworld
    have hs : s.world = t.world := hworld
    exact hs ▸ hm.world.congr hdoes.2.2.1

/-- A run leaves a closed world. -/
theorem World.Closed.execute (hw : w.Closed) (host : Host) [host.Lawful] (entry : UInt16) (fuel : Nat) :
    Outcome (fun _ => World.Closed) World.Closed (program.execute host entry fuel w) := by
  have hstart : (Machine.start entry w).Closed := ⟨hw, nofun, fun f hf => by
    obtain rfl := List.mem_singleton.1 hf
    exact nofun⟩
  obtain ⟨m, hm, hrun⟩ := @Act.run_cases host program fuel (Machine.start entry w)
  have hclosed : m.Closed := hm.keeps hstart fun _ _ h _ hturn => h.turn hturn
  unfold Program.execute
  split
  · exact hw
  · rcases hrun with hrun | ⟨-, fault, s, hturn, hrun⟩
    · rw [hrun]
      cases m.frames.isEmpty <;> exact hclosed.world
    · rw [hrun]
      exact hclosed.fails hturn

end ShellVM
