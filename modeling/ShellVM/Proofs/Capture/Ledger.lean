import ShellVM.Proofs.Capture.Step

/-!
# Ledgers of runs

What a run has done with variables in cells: which cells the declarations of each active call have made, all the cells
that were made, and all that was written to cells, the latest first (`Ledger`). A ledger belongs to the proof and is
no part of the machine. In every run the latest value that was written to a cell is what is in it
(`Recorded.faithful`).
-/

namespace ShellVM

/-- The cells that the declarations of a call have made, by their sites, the latest first. -/
abbrev Log := List (Nat × Addr)

structure Ledger where
  /-- One for each active call, innermost first. -/
  logs : List Log
  made : List Addr
  writes : List (Addr × Value)

/-- The cell that a variable stands for in a call. -/
def Frame.denotes (f : Frame) (w : World) (log : Log) : CellVariable → Option Addr
  | .own site => log.lookup site
  | .outer index => f.environment?.bind fun e => (w.environment e)[index]?

/-- The cell that a variable stands for in the innermost call. -/
def Machine.denotes (m : Machine) (R : Ledger) (x : CellVariable) : Option Addr :=
  match m.frames, R.logs with
  | f :: _, log :: _ => f.denotes m.world log x
  | _, _ => none

/-- One for each call: another call has an empty log, and the logs of calls that have ended are gone. -/
def Log.fit (count : Nat) (logs : List Log) : List Log := if logs.length < count then [] :: logs
    else keepLast count logs

namespace Ledger

/-- Before a run only what is in the world has been written. -/
def start (w : World) : Ledger := ⟨[[]], [], (List.range w.cells.size).map fun a => (a, w.cell a)⟩

/-- What an instruction adds. -/
def note (R : Ledger) (m : Machine) (i : Instruction) : Ledger :=
  match m.frames, R.logs with
  | f :: _, log :: logs =>
    match i.op with
    | .makeCell =>
      ⟨((i.offset, m.world.cells.size) :: log) :: logs, m.world.cells.size :: R.made,
        (m.world.cells.size, m.stack.getD (f.base + (i.byte 0).toNat) .nil) :: R.writes⟩
    | .storeCell | .storeCapture =>
      match f.accessed? m.world i, m.stack.back? with
      | some a, some v => { R with writes := (a, v) :: R.writes }
      | _, _ => R
    | _ => R
  | _, _ => R

/-- After a turn that leads from `m` to `s`. A step that fails adds nothing. -/
def after (R : Ledger) (host : Host) (program : Program) (m s : Machine) : Ledger :=
  let R := match Act.step host program m, m.next? program with
    | .ok .., some i => R.note m i
    | _, _ => R
  { R with logs := Log.fit s.frames.length R.logs }

end Ledger

/-- Turns lead from one machine to another, and this is their ledger. -/
inductive Recorded (host : Host) (program : Program) (m₀ : Machine) : Machine → Ledger → Prop where
  | start : Recorded host program m₀ m₀ (.start m₀.world)
  | turn {m s : Machine} {R : Ledger} (before : Recorded host program m₀ m R) (active : m.Active)
      (next : Act.turn host program m = .ok () s) : Recorded host program m₀ s (R.after host program m s)

section

variable {host : Host} {program : Program} {page : Page} {i : Instruction} {m₀ m s : Machine} {R : Ledger} {f : Frame}
  {rest : List Frame}

theorem Recorded.turns (h : Recorded host program m₀ m R) : Turns host program Machine.Active m₀ m := by
  induction h with
  | start => exact .refl
  | turn _ active next ih => exact .turn ih active next

/-- Every run has a ledger. -/
theorem Turns.recorded (h : Turns host program Machine.Active m₀ m) : ∃ R, Recorded host program m₀ m R := by
  induction h with
  | refl => exact ⟨_, .start⟩
  | turn _ here next ih =>
    obtain ⟨R, hR⟩ := ih
    exact ⟨_, hR.turn here next⟩

/-! ## Cells that exist -/

/-- The environments of closures consist of cells that exist. -/
def World.Closed (w : World) : Prop := ∀ known ∈ w.environments, ∀ a ∈ known, a < w.cells.size

/-- All that the machine refers to are cells that exist. -/
structure Machine.Closed (m : Machine) : Prop where
  world : m.world.Closed
  pending : ∀ a ∈ m.pending, a < m.world.cells.size
  frames : ∀ f ∈ m.frames, ∀ c ∈ f.cells, c.2 < m.world.cells.size

theorem World.Closed.environment {w : World} (h : w.Closed) {e : Addr} {n : Nat} {a : Addr}
    (ha : (w.environment e)[n]? = some a) : a < w.cells.size := by
  unfold World.environment at ha
  rw [Array.getD_eq_getD_getElem?] at ha
  cases hknown : w.environments[e]? with
  | none =>
    rw [hknown] at ha
    cases ha
  | some known =>
    rw [hknown] at ha
    exact h known (Array.mem_of_getElem? hknown) a (List.mem_of_getElem? ha)

theorem Frame.mem_of_cell? {slot : UInt8} {a : Addr} (h : f.cell? slot = some a) : (slot, a) ∈ f.cells := by
  obtain ⟨before, after, hcells, -⟩ := List.lookup_eq_some_iff.1 h
  rw [hcells]
  exact List.mem_append_right _ List.mem_cons_self

namespace Machine.Closed

theorem accessed (hm : m.Closed) (hframes : m.frames = f :: rest) {a : Addr} (ha : f.accessed? m.world i = some a) :
    a < m.world.cells.size := by
  have hcell {slot : UInt8} (h : f.cell? slot = some a) : a < m.world.cells.size :=
    hm.frames f (by rw [hframes]; exact List.mem_cons_self) _ (Frame.mem_of_cell? h)
  have hcapture {n : Nat} (h : (f.environment?.bind fun e => (m.world.environment e)[n]?) = some a) :
      a < m.world.cells.size := by
    obtain ⟨e, -, ha⟩ := Option.bind_eq_some_iff.1 h
    exact hm.world.environment ha
  unfold Frame.accessed? at ha
  split at ha
  · exact hcell ha
  · exact hcell ha
  · exact hcell ha
  · exact hcapture ha
  · exact hcapture ha
  · exact hcapture ha
  · cases ha

/-- With the same stores, and fewer references. -/
theorem less (hm : m.Closed) (hvariables : s.world.variables = m.world.variables) (hpending : s.pending ⊆ m.pending)
    (hframes : ∀ g ∈ s.frames, ∀ c ∈ g.cells, ∃ f ∈ m.frames, c ∈ f.cells) : s.Closed := by
  obtain ⟨hcells, henvironments⟩ := Prod.mk.inj hvariables
  refine ⟨fun known hknown => ?_, fun a ha => ?_, fun g hg c hc => ?_⟩
  · rw [hcells]
    exact hm.world known (henvironments ▸ hknown)
  · rw [hcells]
    exact hm.pending a (hpending ha)
  · obtain ⟨f, hf, hc⟩ := hframes g hg c hc
    rw [hcells]
    exact hm.frames f hf c hc

/-- A call that has gone on, and its callers, know the cells that they have known. -/
theorem frames_moved (hm : m.Closed) (hframes : m.frames = f :: rest) {ip : Nat} (hs : s.frames = { f with ip } :: rest)
    (hsize : m.world.cells.size ≤ s.world.cells.size) : ∀ g ∈ s.frames, ∀ c ∈ g.cells, c.2 < s.world.cells.size := by
  intro g hg c hc
  refine Nat.lt_of_lt_of_le ?_ hsize
  rw [hs] at hg
  rcases List.mem_cons.1 hg with rfl | hg
  · exact hm.frames f (hframes ▸ List.mem_cons_self) c hc
  · exact hm.frames g (hframes ▸ List.mem_cons_of_mem f hg) c hc

theorem moves (hm : m.Closed) (hframes : m.frames = f :: rest) {ip : Nat} {handlers : List Handler}
    (h : s.tracked = ({ f with ip } :: rest, handlers, m.pending, m.world.variables)) : s.Closed := by
  obtain ⟨hs, -, hpending, hcells, henvironments⟩ := Machine.of_tracked h
  refine ⟨fun known hknown => ?_, fun a ha => ?_,
    hm.frames_moved hframes hs (Nat.le_of_eq (congrArg Array.size hcells.symm))⟩
  · rw [hcells]
    exact hm.world known (henvironments ▸ hknown)
  · rw [hcells]
    exact hm.pending a (hpending ▸ ha)

/-- The frame of a call that starts knows no cells. -/
theorem enters (hm : m.Closed) (hframes : m.frames = f :: rest) {g : Frame} {ip : Nat} {handlers : List Handler}
    (hg : g.cells = []) (h : s.tracked = (g :: { f with ip } :: rest, handlers, m.pending, m.world.variables)) :
    s.Closed := by
  obtain ⟨hs, -, hpending, hcells, henvironments⟩ := Machine.of_tracked h
  refine hm.less (by unfold World.variables; rw [hcells, henvironments]) (hpending ▸ List.Subset.refl _) ?_
  rw [hs, hframes]
  intro g' hg' c hc
  rcases List.mem_cons.1 hg' with rfl | hg'
  · rw [hg] at hc
    cases hc
  rcases List.mem_cons.1 hg' with rfl | hg'
  · exact ⟨f, List.mem_cons_self, hc⟩
  · exact ⟨g', List.mem_cons_of_mem f hg', hc⟩

theorem stores (hm : m.Closed) (hframes : m.frames = f :: rest) {ip : Nat} {a : Addr} {v : Value}
    (h : s.tracked = ({ f with ip } :: rest, m.handlers, m.pending, (m.world.setCell a v).variables)) : s.Closed := by
  obtain ⟨hs, -, hpending, hcells, henvironments⟩ := Machine.of_tracked h
  have hsize : s.world.cells.size = m.world.cells.size := by rw [hcells]; exact Array.size_setIfInBounds
  refine ⟨fun known hknown => ?_, fun a ha => ?_, hm.frames_moved hframes hs (Nat.le_of_eq hsize.symm)⟩
  · rw [hsize]
    exact hm.world known (henvironments ▸ hknown)
  · rw [hsize]
    exact hm.pending a (hpending ▸ ha)

/-- A cell that is made comes behind all others. -/
theorem makes (hm : m.Closed) (hframes : m.frames = f :: rest) {ip : Nat} {slot : UInt8} {v : Value}
    (h : s.tracked = ({ f with ip }.setCell slot m.world.cells.size :: rest, m.handlers,
      m.pending, m.world.cells.push v, m.world.environments)) : s.Closed := by
  obtain ⟨hs, -, hpending, hcells, henvironments⟩ := Machine.of_tracked h
  have hsize : s.world.cells.size = m.world.cells.size + 1 := by rw [hcells]; exact Array.size_push _
  have hall := hm.frames
  rw [hframes] at hall
  refine ⟨fun known hknown a ha => ?_, fun a ha => ?_, fun g hg c hc => ?_⟩
  · rw [hsize]
    exact Nat.lt_succ_of_lt (hm.world known (henvironments ▸ hknown) a ha)
  · rw [hsize]
    exact Nat.lt_succ_of_lt (hm.pending a (hpending ▸ ha))
  · rw [hsize]
    rw [hs] at hg
    rcases List.mem_cons.1 hg with rfl | hg
    · rcases List.mem_cons.1 hc with rfl | hc
      · exact Nat.lt_succ_self _
      · exact Nat.lt_succ_of_lt (hall f List.mem_cons_self c (List.mem_filter.1 hc).1)
    · exact Nat.lt_succ_of_lt (hall g (List.mem_cons_of_mem f hg) c hc)

theorem puts (hm : m.Closed) (hframes : m.frames = f :: rest) {ip : Nat} {a : Addr} (ha : a < m.world.cells.size)
    (h : s.tracked = ({ f with ip } :: rest, m.handlers, a :: m.pending, m.world.variables)) : s.Closed := by
  obtain ⟨hs, -, hpending, hcells, henvironments⟩ := Machine.of_tracked h
  refine ⟨fun known hknown => ?_, fun b hb => ?_,
    hm.frames_moved hframes hs (Nat.le_of_eq (congrArg Array.size hcells.symm))⟩
  · rw [hcells]
    exact hm.world known (henvironments ▸ hknown)
  · rw [hcells]
    rw [hpending] at hb
    rcases List.mem_cons.1 hb with rfl | hb
    · exact ha
    · exact hm.pending b hb

/-- An environment takes over cells that were put aside. -/
theorem closes (hm : m.Closed) (hframes : m.frames = f :: rest) {ip count : Nat}
    (h : s.tracked = ({ f with ip } :: rest, m.handlers, m.pending.drop count, m.world.cells,
      m.world.environments.push (m.pending.take count).reverse)) : s.Closed := by
  obtain ⟨hs, -, hpending, hcells, henvironments⟩ := Machine.of_tracked h
  refine ⟨fun known hknown b hb => ?_, fun b hb => ?_,
    hm.frames_moved hframes hs (Nat.le_of_eq (congrArg Array.size hcells.symm))⟩
  · rw [hcells]
    rw [henvironments] at hknown
    rcases Array.mem_push.1 hknown with hknown | rfl
    · exact hm.world known hknown b hb
    · exact hm.pending b (List.mem_of_mem_take (List.mem_reverse.1 hb))
  · rw [hcells]
    rw [hpending] at hb
    exact hm.pending b (List.mem_of_mem_drop hb)

end Machine.Closed

theorem Does.closed (h : Does page i m f rest s) (hframes : m.frames = f :: rest) (hm : m.Closed) : s.Closed := by
  cases h with
  | goes q _ _ _ h => exact hm.moves hframes h
  | returns _ h => exact hm.moves hframes h
  | loads a _ _ _ h => exact hm.moves hframes h
  | opens h _ _ _ h => exact hm.moves hframes h
  | ends h outer _ _ h => exact hm.moves hframes h
  | enters g v _ _ _ _ _ _ hg _ h => exact hm.enters hframes hg h
  | stores a v _ _ _ h => exact hm.stores hframes h
  | makes v _ _ h => exact hm.makes hframes h
  | puts a _ place h => exact hm.puts hframes (hm.accessed hframes place) h
  | closes index _ _ _ _ h => exact hm.closes hframes h

theorem mem_of_keepLast {α : Type} {n : Nat} {x : α} {xs : List α} (h : x ∈ keepLast n xs) :
    x ∈ xs := List.mem_of_mem_drop h

theorem Machine.Closed.turn [host.Lawful] (hm : m.Closed) (hturn : Act.turn host program m = .ok () s) : s.Closed := by
  rcases Machine.turn_does hturn with ⟨f, rest, page, i, hframes, -, -, -, h⟩ | ⟨f, rest, hframes, -, -, h⟩ |
    ⟨e, t, h, outer, f, callers, -, -, hkeep, h⟩
  · exact h.closed hframes hm
  · obtain ⟨hs, -, hpending, hcells, henvironments⟩ := Machine.of_tracked h
    refine hm.less (by unfold World.variables; rw [hcells, henvironments]) (hpending ▸ List.Subset.refl _) ?_
    rw [hs, hframes]
    exact fun g hg c hc => ⟨g, List.mem_cons_of_mem f hg, hc⟩
  · obtain ⟨hs, -, hpending, hcells, henvironments⟩ := Machine.of_tracked h
    refine hm.less (by unfold World.variables; rw [hcells, henvironments]) (hpending ▸ List.Subset.refl _) ?_
    have hmem {g : Frame} (hg : g ∈ f :: callers) : g ∈ m.frames := mem_of_keepLast (hkeep ▸ hg)
    rw [hs]
    intro g hg c hc
    rcases List.mem_cons.1 hg with rfl | hg
    · exact ⟨f, hmem List.mem_cons_self, hc⟩
    · exact ⟨g, hmem (List.mem_cons_of_mem f hg), hc⟩

/-! ## What is in cells -/

/-- The latest value that was written to a cell is what is in it, and no cell was made twice. -/
structure Ledger.Faithful (R : Ledger) (floor : Nat) (w : World) : Prop where
  latest : ∀ a, a < w.cells.size → R.writes.lookup a = some (w.cell a)
  fresh : R.made.Nodup
  bounds : ∀ a ∈ R.made, floor ≤ a ∧ a < w.cells.size
  floor_le : floor ≤ w.cells.size

theorem lookup_map_self {α : Type} (g : Nat → α) {a : Nat} {xs : List Nat} (h : a ∈ xs) :
    (xs.map fun a => (a, g a)).lookup a = some (g a) := by
  induction xs with
  | nil => cases h
  | cons x xs ih =>
    by_cases hx : a = x
    · subst hx
      simp
    · rw [List.map_cons, List.lookup_cons, beq_eq_false_iff_ne.2 hx]
      exact ih ((List.mem_cons.1 h).resolve_left hx)

theorem Ledger.Faithful.start (w : World) : (Ledger.start w).Faithful w.cells.size w where
  latest := fun _ ha => lookup_map_self w.cell (List.mem_range.2 ha)
  fresh := .nil
  bounds := nofun
  floor_le := Nat.le_refl _

/-- The logs of calls say nothing about what is in cells. -/
theorem Ledger.Faithful.relog {floor : Nat} {w : World} (h : R.Faithful floor w) (logs : List Log) :
    ({ R with logs } : Ledger).Faithful floor w := ⟨h.latest, h.fresh, h.bounds, h.floor_le⟩

theorem Ledger.Faithful.congr {floor : Nat} {w w' : World} (h : R.Faithful floor w) (hcells : w'.cells = w.cells) :
    R.Faithful floor w' := by
  refine ⟨fun a ha => ?_, h.fresh, by rw [hcells]; exact h.bounds, by rw [hcells]; exact h.floor_le⟩
  unfold World.cell
  rw [hcells] at ha ⊢
  exact h.latest a ha

/-- Does the instruction write to a cell? -/
def Op.writesCell : Op → Bool
  | .makeCell | .storeCell | .storeCapture => true
  | _ => false

theorem Op.writesCell_of_usesCell {op : Op} (h : op.usesCell = false) : op.writesCell = false := by
  cases op <;> first | rfl | cases h

/-- Only instructions that write to cells add something. -/
theorem Ledger.note_eq (h : i.op.writesCell = false) : R.note m i = R := by
  unfold Ledger.note
  split
  · split
    · next hop => rw [hop] at h; cases h
    · next hop => rw [hop] at h; cases h
    · next hop => rw [hop] at h; cases h
    · rfl
  · rfl

theorem Ledger.note_make {log : Log} {logs : List Log} {v : Value} (hframes : m.frames = f :: rest)
    (hlogs : R.logs = log :: logs) (hop : i.op = .makeCell) (hv : m.stack[f.base + (i.byte 0).toNat]? = some v) :
    R.note m i = ⟨((i.offset, m.world.cells.size) :: log) :: logs, m.world.cells.size :: R.made,
      (m.world.cells.size, v) :: R.writes⟩ := by
  unfold Ledger.note
  rw [hframes, hlogs]
  simp only [hop]
  rw [Array.getD_eq_getD_getElem?, hv]
  rfl

theorem Ledger.note_store {log : Log} {logs : List Log} {a : Addr} {v : Value} (hframes : m.frames = f :: rest)
    (hlogs : R.logs = log :: logs) (hop : i.op = .storeCell ∨ i.op = .storeCapture)
    (ha : f.accessed? m.world i = some a) (hv : m.stack.back? = some v) :
    R.note m i = { R with writes := (a, v) :: R.writes } := by
  unfold Ledger.note
  rw [hframes, hlogs]
  rcases hop with hop | hop <;> simp only [hop, ha, hv]

theorem Does.faithful {floor : Nat} {log : Log} {logs : List Log} (h : Does page i m f rest s)
    (hframes : m.frames = f :: rest) (hlogs : R.logs = log :: logs) (hm : m.Closed) (hR : R.Faithful floor m.world) :
    (R.note m i).Faithful floor s.world := by
  have hsame (hop : i.op.writesCell = false) (hcells : s.world.cells = m.world.cells) :
      (R.note m i).Faithful floor s.world := by
    rw [Ledger.note_eq hop]
    exact hR.congr hcells
  cases h with
  | goes q _ hop _ h => exact hsame (Op.writesCell_of_usesCell hop) (Machine.of_tracked h).2.2.2.1
  | returns hop h => exact hsame (by rw [hop]; rfl) (Machine.of_tracked h).2.2.2.1
  | enters g v _ hop _ _ _ _ _ _ h => exact hsame (Op.writesCell_of_usesCell hop) (Machine.of_tracked h).2.2.2.1
  | loads a hop _ _ h => exact hsame (by rcases hop with hop | hop <;> rw [hop] <;> rfl) (Machine.of_tracked h).2.2.2.1
  | puts a hop _ h => exact hsame (by rcases hop with hop | hop <;> rw [hop] <;> rfl) (Machine.of_tracked h).2.2.2.1
  | closes index hop _ _ _ h => exact hsame (by rw [hop]; rfl) (Machine.of_tracked h).2.2.2.1
  | opens h hop _ _ h => exact hsame (by rw [hop]; rfl) (Machine.of_tracked h).2.2.2.1
  | ends h outer hop _ h => exact hsame (by rw [hop]; rfl) (Machine.of_tracked h).2.2.2.1
  | stores a v hop place top h =>
    have ha := hm.accessed hframes place
    have hcells : s.world.cells = m.world.cells.setIfInBounds a v := (Machine.of_tracked h).2.2.2.1
    rw [Ledger.note_store hframes hlogs hop place top]
    refine ⟨fun b hb => ?_, hR.fresh, ?_, ?_⟩
    · have hb' : b < m.world.cells.size := by rwa [hcells, Array.size_setIfInBounds] at hb
      unfold World.cell
      rw [hcells, Array.getD_eq_getD_getElem?, Array.getElem?_setIfInBounds]
      by_cases hab : a = b
      · subst hab
        rw [if_pos rfl, if_pos ha]
        simp
      · rw [if_neg hab, ← Array.getD_eq_getD_getElem?, List.lookup_cons, beq_eq_false_iff_ne.2 (Ne.symm hab)]
        exact hR.latest b hb'
    · rw [hcells, Array.size_setIfInBounds]
      exact hR.bounds
    · rw [hcells, Array.size_setIfInBounds]
      exact hR.floor_le
  | makes v hop value h =>
    have hcells : s.world.cells = m.world.cells.push v := (Machine.of_tracked h).2.2.2.1
    rw [Ledger.note_make hframes hlogs hop value]
    refine ⟨fun b hb => ?_, List.nodup_cons.2 ⟨fun hmem => ?_, hR.fresh⟩, fun b hb => ?_, ?_⟩
    · rw [hcells, Array.size_push] at hb
      unfold World.cell
      rw [hcells, Array.getD_eq_getD_getElem?, Array.getElem?_push]
      by_cases hnew : b = m.world.cells.size
      · subst hnew
        rw [if_pos rfl]
        simp
      · rw [if_neg hnew, ← Array.getD_eq_getD_getElem?, List.lookup_cons, beq_eq_false_iff_ne.2 hnew]
        exact hR.latest b (by omega)
    · exact Nat.lt_irrefl _ (hR.bounds _ hmem).2
    · rw [hcells, Array.size_push]
      rcases List.mem_cons.1 hb with rfl | hb
      · exact ⟨hR.floor_le, Nat.lt_succ_self _⟩
      · exact ⟨(hR.bounds b hb).1, Nat.lt_succ_of_lt (hR.bounds b hb).2⟩
    · rw [hcells, Array.size_push]
      exact Nat.le_succ_of_le hR.floor_le

end

end ShellVM
