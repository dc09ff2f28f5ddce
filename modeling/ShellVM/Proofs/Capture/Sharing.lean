import ShellVM.Proofs.Capture.Expression
import ShellVM.Proofs.Capture.Ledger

/-!
# Calls hold what their pages tell

In every run of a compiled program, what is told to be held at the place of a call is held: the cells that its frame
knows are those that its declarations have made, its handlers lead to the places that are told, and the cells put
aside are those that the variables put aside stand for (`Machine.Known`). Every turn keeps this
(`Machine.Known.turn`).
-/

namespace ShellVM

variable {host : Host} {program : Program} {functions : List (Nat × UInt16)} {page : Page} {i : Instruction}
  {m s : Machine} {R : Ledger} {f : Frame} {rest : List Frame} {log : Log} {logs : List Log}
  {handlers handlers' : List Handler}

namespace Told

variable (T : Told program functions page)

/-- What is told to be held at an offset. -/
def At (q : Nat) (σ : Hold) : Prop := (q, σ) ∈ T.points ∨ q = page.code.size ∧ σ = ⟨[], [], []⟩

/-- The handlers of open regions lead to these offsets. -/
def Catches : List (List (UInt8 × Nat)) → List Nat → Prop
  | [], [] => True
  | r :: regions, ip :: ips => T.At ip ⟨r, regions, []⟩ ∧ Catches regions ips
  | _, _ => False

/-- A call holds what is told. -/
structure Holds (f : Frame) (log : Log) (ips : List Nat) (σ : Hold) : Prop where
  place : T.At f.ip σ
  cells : ∀ c ∈ σ.cells, ∃ a, f.cell? c.1 = some a ∧ log.lookup c.2 = some a
  regions : T.Catches σ.regions ips

variable {T} {q : Nat} {σ : Hold} {ips : List Nat}

theorem start : T.At 0 ⟨[], [], []⟩ := T.trace.start (Λ := T.At) (fun _ hx => .inl hx) (.inr ⟨rfl, rfl⟩)

theorem At.sound (h : T.At q σ) : σ.Sound := by
  rcases h with h | ⟨-, rfl⟩
  · exact (T.moves _ h).1
  · exact nofun

/-- Where an instruction stands, it is told to lead on. -/
theorem At.follows (h : T.At q σ) (hread : Reads page.code q i.op i.operands) (hi : i.offset = q) :
    (q, σ) ∈ T.points ∧ i.Follows T.At σ := by
  rcases h with h | ⟨rfl, -⟩
  · obtain ⟨-, op, operands, has, hfollows⟩ := T.moves _ h
    obtain ⟨rfl, rfl⟩ := Sheet.Has.unique has hread
    obtain ⟨offset, op, operands⟩ := i
    obtain rfl : offset = q := hi
    exact ⟨h, hfollows⟩
  · exact absurd hread.lt (Nat.lt_irrefl _)

/-- A call goes on where less is held. -/
theorem Holds.lead (hlead : Leads T.At q σ)
    (hcells : ∀ c ∈ σ.cells, ∃ a, f.cell? c.1 = some a ∧ log.lookup c.2 = some a) (hregions : T.Catches σ.regions ips) :
    ∃ τ, τ.put = σ.put ∧ T.Holds { f with ip := q } log ips τ := by
  obtain ⟨cells, hsubset, hplace⟩ := hlead
  exact ⟨{ σ with cells }, rfl, hplace, fun c hc => hcells c (hsubset hc), hregions⟩

end Told

/-- The offsets at which the handlers of a call go on, innermost first. -/
def catches (handlers : List Handler) (depth : Nat) : List Nat :=
  (handlers.filter fun h => h.frameDepth == depth).map Handler.catchIp

/-- A call runs a known page, and holds what is told of it. What is put aside satisfies `P`. -/
structure Frame.Known (program : Program) (functions : List (Nat × UInt16)) (f : Frame) (log : Log) (ips : List Nat)
    (P : List CellVariable → Prop) : Prop where
  page : ∃ page, program.page? f.page = some page ∧ Nonempty (Told program functions page)
  holds : ∀ page, program.page? f.page = some page → ∀ T : Told program functions page, ∃ σ,
    P σ.put ∧ T.Holds f log ips σ

theorem Frame.Known.imp {ips : List Nat} {P Q : List CellVariable → Prop} (h : f.Known program functions log ips P)
    (hPQ : ∀ put, P put → Q put) : f.Known program functions log ips Q :=
  ⟨h.page, fun page hpage T => by
    obtain ⟨σ, hput, hσ⟩ := h.holds page hpage T
    exact ⟨σ, hPQ _ hput, hσ⟩⟩

/-- Calls that wait for a result are known, and have put nothing aside. -/
def CallersKnown (program : Program) (functions : List (Nat × UInt16)) (handlers : List Handler) :
    List Frame → List Log → Prop
  | [], [] => True
  | f :: rest, log :: logs => f.Known program functions log (catches handlers (rest.length + 1)) (· = []) ∧
      CallersKnown program functions handlers rest logs
  | _, _ => False

/-- The variables put aside stand for the cells that were put aside last. -/
def PutAside (f : Frame) (w : World) (log : Log) (pending : List Addr) (put : List CellVariable) : Prop :=
  put.map (f.denotes w log) = (pending.take put.length).map some

/-- All calls are known, and the innermost one has put aside what is told. -/
def Machine.Known (program : Program) (functions : List (Nat × UInt16)) (m : Machine) (logs : List Log) : Prop :=
  match m.frames, logs with
  | [], [] => True
  | f :: rest, log :: logs =>
    f.Known program functions log (catches m.handlers (rest.length + 1)) (PutAside f m.world log m.pending) ∧
      CallersKnown program functions m.handlers rest logs
  | _, _ => False

theorem PutAside.nil {w : World} {pending : List Addr} : PutAside f w log pending [] := rfl

namespace CallersKnown

theorem congr (h : CallersKnown program functions handlers rest logs)
    (hh : ∀ d, d ≤ rest.length → catches handlers' d = catches handlers d) :
    CallersKnown program functions handlers' rest logs := by
  induction rest generalizing logs with
  | nil => cases logs <;> exact h
  | cons f rest ih =>
    cases logs with
    | nil => exact h
    | cons log logs =>
      refine ⟨?_, ih h.2 fun d hd => hh d (Nat.le_succ_of_le hd)⟩
      rw [hh (rest.length + 1) (Nat.le_refl _)]
      exact h.1

theorem length (h : CallersKnown program functions handlers rest logs) : logs.length = rest.length := by
  induction rest generalizing logs with
  | nil => cases logs with
    | nil => rfl
    | cons log logs => exact h.elim
  | cons f rest ih => cases logs with
    | nil => exact h.elim
    | cons log logs => exact congrArg (· + 1) (ih h.2)

/-- The outermost of the callers. -/
theorem keepLast {n : Nat} {g : Frame} {callers : List Frame} (h : CallersKnown program functions handlers rest logs)
    (hn : n ≤ rest.length) (hkeep : keepLast n rest = g :: callers) :
    ∃ log' logs', ShellVM.keepLast n logs = log' :: logs' ∧
      g.Known program functions log' (catches handlers n) (· = []) ∧
      CallersKnown program functions handlers callers logs' := by
  induction rest generalizing logs with
  | nil => simp [ShellVM.keepLast] at hkeep
  | cons f rest ih =>
    cases logs with
    | nil => exact h.elim
    | cons log logs =>
      have hlength : logs.length = rest.length := h.2.length
      by_cases hdepth : n ≤ rest.length
      · rw [keepLast_cons hdepth] at hkeep
        rw [keepLast_cons (by omega)]
        exact ih h.2 hdepth hkeep
      · obtain rfl : n = rest.length + 1 := by
          rw [List.length_cons] at hn
          omega
        rw [show ShellVM.keepLast (rest.length + 1) (f :: rest) = f :: rest from
          keepLast_eq_self (Nat.le_refl _)] at hkeep
        rw [keepLast_eq_self (by simp [hlength])]
        obtain ⟨rfl, rfl⟩ := List.cons.inj hkeep
        exact ⟨log, logs, rfl, h⟩

end CallersKnown

namespace Log

theorem fit_same {n : Nat} (h : logs.length = n) : fit n logs = logs := by
  unfold fit
  rw [if_neg (by omega), keepLast_eq_self (by omega)]

theorem fit_more {n : Nat} (h : logs.length = n) : fit (n + 1) logs = [] :: logs := by
  unfold fit
  rw [if_pos (by omega)]

theorem fit_less {n : Nat} (h : n ≤ logs.length) : fit n logs = keepLast n logs := by
  unfold fit
  rw [if_neg (by omega)]

end Log

/-! ## What handlers there are -/

theorem catches_cons {h : Handler} {depth : Nat} : catches (h :: handlers) depth =
    if h.frameDepth = depth then h.catchIp :: catches handlers depth else catches handlers depth := by
  unfold catches
  rw [List.filter_cons]
  by_cases hd : h.frameDepth = depth <;> simp [hd]

theorem catches_filter {depth n : Nat} (h : depth ≤ n) :
    catches (handlers.filter fun h => h.frameDepth ≤ n) depth = catches handlers depth := by
  unfold catches
  rw [List.filter_filter]
  congr 2
  funext x
  by_cases hx : x.frameDepth = depth
  · simp [hx, h]
  · simp [hx]

theorem Machine.Nested.catches_above (hm : m.Nested) {depth : Nat} (h : m.frames.length < depth) :
    catches m.handlers depth = [] := by
  unfold catches
  rw [List.map_eq_nil_iff, List.filter_eq_nil_iff]
  intro x hx heq
  have := (hm.bounded x hx).2
  have := eq_of_beq heq
  omega

/-- If the innermost call has a handler, the innermost handler is one. -/
theorem Machine.Nested.depth_eq (hm : m.Nested) {h : Handler} {outer : List Handler}
    (hhandlers : m.handlers = h :: outer) (hcatches : catches m.handlers m.frames.length ≠ []) :
    h.frameDepth = m.frames.length := by
  obtain ⟨ip, hip⟩ := List.exists_mem_of_ne_nil _ hcatches
  obtain ⟨x, hx, -⟩ := List.mem_map.1 hip
  obtain ⟨hmem, hdepth⟩ := List.mem_filter.1 hx
  have hdepth : x.frameDepth = m.frames.length := eq_of_beq hdepth
  have hbound := (hm.bounded h (hhandlers ▸ List.mem_cons_self)).2
  have hsorted := hm.sorted
  rw [hhandlers] at hmem hsorted
  rcases List.mem_cons.1 hmem with rfl | hmem
  · exact hdepth
  · have := (List.pairwise_cons.1 hsorted).1 x hmem
    omega

/-! ## Instructions -/

/-- The functions on the stack run known pages. -/
def Machine.CallsKnown (program : Program) (functions : List (Nat × UInt16)) (m : Machine) : Prop :=
  ∀ v ∈ m.stack, ∀ index environment?, v.Runs index environment? →
    ∃ page, program.page? index = some page ∧ Nonempty (Told program functions page)

theorem Ledger.logs_note (h : i.op ≠ .makeCell) : (R.note m i).logs = R.logs := by
  unfold Ledger.note
  split
  · split
    · next hop => exact absurd hop h
    · split <;> rfl
    · split <;> rfl
    · rfl
  · rfl

theorem lookup_filter_ne {α β : Type} [BEq α] [LawfulBEq α] {a b : α} (h : a ≠ b) (xs : List (α × β)) :
    (xs.filter fun x => x.1 != b).lookup a = xs.lookup a := by
  induction xs with
  | nil => rfl
  | cons x xs ih =>
    by_cases hx : x.1 = b
    · rw [List.filter_cons, if_neg (by simp [hx]), ih, List.lookup_cons, beq_eq_false_iff_ne.2 (by rwa [hx])]
    · rw [List.filter_cons, if_pos (bne_iff_ne.2 hx), List.lookup_cons, List.lookup_cons, ih]

theorem Frame.cell?_setCell (f : Frame) (slot slot' : UInt8) (a : Addr) :
    (f.setCell slot a).cell? slot' = if slot' = slot then some a else f.cell? slot' := by
  unfold Frame.setCell Frame.cell?
  by_cases h : slot' = slot
  · subst h
    simp
  · rw [if_neg h, List.lookup_cons, beq_eq_false_iff_ne.2 h]
    exact lookup_filter_ne h f.cells

/-! ## Single steps -/

/-- The innermost call is about to carry out an instruction of its page, and all calls are known. -/
structure Machine.Poised (program : Program) (functions : List (Nat × UInt16)) (page : Page)
    (i : Instruction) (m : Machine) (f : Frame) (rest : List Frame) (log : Log) (logs : List Log) : Prop where
  frames : m.frames = f :: rest
  runs : program.page? f.page = some page
  read : Reads page.code f.ip i.op i.operands
  offset : i.offset = f.ip
  known : f.Known program functions log (catches m.handlers (rest.length + 1)) (PutAside f m.world log m.pending)
  callers : CallersKnown program functions m.handlers rest logs

namespace Machine.Poised

/-- What is told of the place of the instruction is held, and the instruction follows from it. -/
theorem holds (hm : m.Poised program functions page i f rest log logs) (T : Told program functions page) :
    ∃ σ, PutAside f m.world log m.pending σ.put ∧ T.Holds f log (catches m.handlers (rest.length + 1)) σ ∧
      i.Follows T.At σ := by
  obtain ⟨σ, hput, hσ⟩ := hm.known.holds page hm.runs T
  exact ⟨σ, hput, hσ, (hσ.place.follows hm.read hm.offset).2⟩

/-- The call goes on in another place, while its callers wait as they did. -/
theorem moves (hm : m.Poised program functions page i f rest log logs) {g : Frame} {log' : Log} (hg : g.page = f.page)
    (hs : s.frames = g :: rest) (hh : ∀ d, d ≤ rest.length → catches s.handlers d = catches m.handlers d)
    (hT : ∀ (T : Told program functions page) (σ : Hold), PutAside f m.world log m.pending σ.put →
      T.Holds f log (catches m.handlers (rest.length + 1)) σ → i.Follows T.At σ →
      ∃ τ, PutAside g s.world log' s.pending τ.put ∧ T.Holds g log' (catches s.handlers (rest.length + 1)) τ) :
    s.Known program functions (Log.fit s.frames.length (log' :: logs)) := by
  rw [hs, Log.fit_same (by rw [List.length_cons, List.length_cons, hm.callers.length])]
  unfold Machine.Known
  rw [hs]
  refine ⟨⟨hg ▸ hm.known.page, fun page' hpage' T => ?_⟩, hm.callers.congr hh⟩
  rw [hg] at hpage'
  obtain rfl : page = page' := Option.some.inj (hm.runs.symm.trans hpage')
  obtain ⟨σ, hput, hσ, hfollows⟩ := hm.holds T
  exact hT T σ hput hσ hfollows

/-- The call goes on where as much is held as before, and nothing is put aside. -/
theorem leads (hm : m.Poised program functions page i f rest log logs) {q : Nat}
    (hs : s.frames = { f with ip := q } :: rest) (hhandlers : s.handlers = m.handlers)
    (hT : ∀ (T : Told program functions page) (σ : Hold), i.Follows T.At σ → Leads T.At q { σ with put := [] }) :
    s.Known program functions (Log.fit s.frames.length (log :: logs)) := by
  refine hm.moves (g := { f with ip := q }) rfl hs (fun _ _ => by rw [hhandlers]) fun T σ _ hσ hfollows => ?_
  obtain ⟨τ, hτ, hholds⟩ := Told.Holds.lead (hT T σ hfollows) hσ.cells hσ.regions
  rw [hhandlers]
  exact ⟨τ, hτ ▸ .nil, hholds⟩

theorem common (hm : m.Poised program functions page i f rest log logs) (hop : i.op.isCommon = true) {q : Nat}
    (place : i.op.falls = true ∧ q = i.next ∨ i.target? = some q) (hs : s.frames = { f with ip := q } :: rest)
    (hhandlers : s.handlers = m.handlers) : s.Known program functions (Log.fit s.frames.length (log :: logs)) := by
  refine hm.leads hs hhandlers fun T σ hfollows => ?_
  obtain ⟨hput, hnext, hjump⟩ := (Instruction.follows_common hop).1 hfollows
  rw [← hput]
  rcases place with ⟨hfalls, rfl⟩ | htarget
  · exact hnext hfalls
  · exact hjump q htarget

/-- Reading or writing a variable leads to the next instruction. -/
theorem accesses (hm : m.Poised program functions page i f rest log logs)
    (hop : (i.op = .loadCell ∨ i.op = .loadCapture) ∨ i.op = .storeCell ∨ i.op = .storeCapture)
    (hs : s.frames = { f with ip := i.next } :: rest) (hhandlers : s.handlers = m.handlers) :
    s.Known program functions (Log.fit s.frames.length (log :: logs)) := by
  have hcommon : i.op.isCommon = true ∧ i.op.falls = true := by
    rcases hop with (hop | hop) | hop | hop <;> rw [hop] <;> exact ⟨rfl, rfl⟩
  exact hm.common hcommon.1 (.inl ⟨hcommon.2, rfl⟩) hs hhandlers

theorem returns (hm : m.Poised program functions page i f rest log logs) (hop : i.op = .ret)
    (hs : s.frames = { f with ip := page.code.size } :: rest) (hhandlers : s.handlers = m.handlers) :
    s.Known program functions (Log.fit s.frames.length (log :: logs)) := by
  refine hm.moves (g := { f with ip := page.code.size }) rfl hs (fun _ _ => by rw [hhandlers])
    fun T σ _ hσ hfollows => ?_
  unfold Instruction.Follows at hfollows
  rw [hop] at hfollows
  have hregions := hσ.regions
  rw [hfollows.2] at hregions
  rw [hhandlers]
  exact ⟨⟨[], [], []⟩, .nil, .inr ⟨rfl, rfl⟩, nofun, hregions⟩

/-- A call starts, and the one that it is made from waits for it behind its instruction. -/
theorem enters (hm : m.Poised program functions page i f rest log logs) (hnested : m.Nested)
    (hop : i.op.isCommon = true) (falls : i.op.falls = true) {g : Frame}
    (hg : ∃ page, program.page? g.page = some page ∧ Nonempty (Told program functions page)) (start : g.ip = 0)
    (hs : s.frames = g :: { f with ip := i.next } :: rest) (hhandlers : s.handlers = m.handlers) :
    s.Known program functions (Log.fit s.frames.length (log :: logs)) := by
  rw [hs, List.length_cons, Log.fit_more (by rw [List.length_cons, List.length_cons, hm.callers.length])]
  unfold Machine.Known
  rw [hs, hhandlers]
  refine ⟨⟨hg, fun _ _ T => ⟨⟨[], [], []⟩, .nil, ?_, nofun, ?_⟩⟩, ⟨⟨hm.known.page, ?_⟩, hm.callers⟩⟩
  · rw [start]
    exact T.start
  · rw [hnested.catches_above (by rw [hm.frames]; exact Nat.lt_succ_self _)]
    trivial
  · intro page' hpage' T
    obtain rfl : page = page' := Option.some.inj (hm.runs.symm.trans hpage')
    obtain ⟨σ, -, hσ, hfollows⟩ := hm.holds T
    obtain ⟨hput, hnext, -⟩ := (Instruction.follows_common hop).1 hfollows
    obtain ⟨τ, hτ, hholds⟩ := Told.Holds.lead (hnext falls) hσ.cells hσ.regions
    exact ⟨τ, hτ.trans hput, hholds⟩

/-- A declaration makes a cell, which the log and the frame know from then on. -/
theorem makes (hm : m.Poised program functions page i f rest log logs) (hop : i.op = .makeCell) {a : Addr}
    (hs : s.frames = { f with ip := i.next }.setCell (i.byte 0) a :: rest) (hhandlers : s.handlers = m.handlers) :
    s.Known program functions (Log.fit s.frames.length (((i.offset, a) :: log) :: logs)) := by
  refine hm.moves (g := { f with ip := i.next }.setCell (i.byte 0) a) rfl hs (fun _ _ => by rw [hhandlers])
    fun T σ _ hσ hfollows => ?_
  unfold Instruction.Follows at hfollows
  rw [hop] at hfollows
  obtain ⟨hput, hfresh, hlead⟩ := hfollows
  have hcells : ∀ c ∈ (i.byte 0, i.offset) :: σ.cells, ∃ b, (f.setCell (i.byte 0) a).cell? c.1 = some b ∧
      List.lookup c.2 ((i.offset, a) :: log) = some b := by
    intro c hc
    rw [Frame.cell?_setCell]
    rcases List.mem_cons.1 hc with rfl | hc
    · exact ⟨_, if_pos rfl, by simp⟩
    · obtain ⟨hslot, hsite⟩ := hfresh c hc
      obtain ⟨b, hcell, hlog⟩ := hσ.cells c hc
      rw [if_neg hslot, List.lookup_cons, beq_eq_false_iff_ne.2 hsite]
      exact ⟨b, hcell, hlog⟩
  obtain ⟨τ, hτ, hholds⟩ := Told.Holds.lead hlead hcells hσ.regions
  rw [hhandlers]
  exact ⟨τ, by rw [hτ, hput]; exact .nil, hholds⟩

/-- The cell that is put aside is the one that the variable put aside stands for. -/
theorem denotes {a : Addr} {T : Told program functions page} {σ : Hold} {ips : List Nat}
    (hop : i.op = .captureLocal ∨ i.op = .captureOuter) (place : f.accessed? m.world i = some a)
    (hσ : T.Holds f log ips σ) (hfollows : i.Follows T.At σ) :
    ∃ x, f.denotes m.world log x = some a ∧ Leads T.At i.next { σ with put := x :: σ.put } := by
  unfold Instruction.Follows at hfollows
  unfold Frame.accessed? at place
  rcases hop with hop | hop <;> rw [hop] at hfollows place
  · obtain ⟨site, hmem, hlead⟩ := hfollows
    obtain ⟨b, hcell, hlog⟩ := hσ.cells _ hmem
    obtain rfl : b = a := Option.some.inj (hcell.symm.trans place)
    exact ⟨.own site, hlog, hlead⟩
  · exact ⟨.outer (i.byte 0).toNat, place, hfollows⟩

theorem puts (hm : m.Poised program functions page i f rest log logs) {a : Addr}
    (hop : i.op = .captureLocal ∨ i.op = .captureOuter) (place : f.accessed? m.world i = some a)
    (hs : s.frames = { f with ip := i.next } :: rest) (hhandlers : s.handlers = m.handlers)
    (hpending : s.pending = a :: m.pending) (henvironments : s.world.environments = m.world.environments) :
    s.Known program functions (Log.fit s.frames.length (log :: logs)) := by
  refine hm.moves (g := { f with ip := i.next }) rfl hs (fun _ _ => by rw [hhandlers]) fun T σ hput hσ hfollows => ?_
  obtain ⟨x, hx, hlead⟩ := denotes hop place hσ hfollows
  obtain ⟨τ, hτ, hholds⟩ := Told.Holds.lead hlead hσ.cells hσ.regions
  rw [hhandlers]
  refine ⟨τ, ?_, hholds⟩
  have hsame : Frame.denotes { f with ip := i.next } s.world log = f.denotes m.world log := by
    funext y
    unfold Frame.denotes World.environment
    rw [henvironments]
  unfold PutAside at hput ⊢
  rw [hτ, hsame, hpending, List.map_cons, hx, hput, List.length_cons, List.take_succ_cons, List.map_cons]

theorem closes (hm : m.Poised program functions page i f rest log logs) (hop : i.op = .makeClosure)
    (hs : s.frames = { f with ip := i.next } :: rest) (hhandlers : s.handlers = m.handlers) :
    s.Known program functions (Log.fit s.frames.length (log :: logs)) := by
  refine hm.leads hs hhandlers fun T σ hfollows => ?_
  unfold Instruction.Follows at hfollows
  rw [hop] at hfollows
  exact hfollows

/-- A region is opened, whose handler leads to a place where what is held now will do. -/
theorem opens (hm : m.Poised program functions page i f rest log logs) {h : Handler} (hop : i.op = .enterTry)
    (depth : h.frameDepth = m.frames.length) (target : i.target? = some h.catchIp)
    (hs : s.frames = { f with ip := i.next } :: rest) (hhandlers : s.handlers = h :: m.handlers) :
    s.Known program functions (Log.fit s.frames.length (log :: logs)) := by
  rw [hm.frames, List.length_cons] at depth
  refine hm.moves (g := { f with ip := i.next }) rfl hs
    (fun d hd => by rw [hhandlers, catches_cons, if_neg (by omega)]) fun T σ _ hσ hfollows => ?_
  unfold Instruction.Follows at hfollows
  rw [hop] at hfollows
  obtain ⟨hput, r, t, -, htarget, hcatch, hlead⟩ := hfollows
  obtain rfl : h.catchIp = t := Option.some.inj (target.symm.trans htarget)
  have hregions : T.Catches (r :: σ.regions) (h.catchIp :: catches m.handlers (rest.length + 1)) := ⟨hcatch, hσ.regions⟩
  obtain ⟨τ, hτ, hholds⟩ := Told.Holds.lead hlead hσ.cells hregions
  rw [hhandlers, catches_cons, if_pos depth]
  exact ⟨τ, by rw [hτ, hput]; exact .nil, hholds⟩

/-- The handler of a region that ends is one of the innermost call. -/
theorem ending (hm : m.Poised program functions page i f rest log logs) (hnested : m.Nested) {h : Handler}
    {outer : List Handler} (hop : i.op = .endTry) (hinner : m.handlers = h :: outer) :
    h.frameDepth = rest.length + 1 := by
  obtain ⟨page', hpage', ⟨T⟩⟩ := hm.known.page
  obtain rfl : page = page' := Option.some.inj (hm.runs.symm.trans hpage')
  obtain ⟨σ, -, hσ, hfollows⟩ := hm.holds T
  unfold Instruction.Follows at hfollows
  rw [hop] at hfollows
  obtain ⟨-, r, regions, hregions, -⟩ := hfollows
  have hcatches := hσ.regions
  rw [hregions] at hcatches
  have hne : catches m.handlers m.frames.length ≠ [] := by
    intro hnil
    rw [hm.frames, List.length_cons] at hnil
    rw [hnil] at hcatches
    exact hcatches
  rw [hnested.depth_eq hinner hne, hm.frames, List.length_cons]

theorem ends (hm : m.Poised program functions page i f rest log logs) (hnested : m.Nested) {h : Handler}
    {outer : List Handler} (hop : i.op = .endTry) (hinner : m.handlers = h :: outer)
    (hs : s.frames = { f with ip := i.next } :: rest) (hhandlers : s.handlers = outer) :
    s.Known program functions (Log.fit s.frames.length (log :: logs)) := by
  have hdepth := hm.ending hnested hop hinner
  refine hm.moves (g := { f with ip := i.next }) rfl hs
    (fun d hd => by rw [hhandlers, hinner, catches_cons, if_neg (by omega)]) fun T σ _ hσ hfollows => ?_
  unfold Instruction.Follows at hfollows
  rw [hop] at hfollows
  obtain ⟨hput, r, regions, hregions, hlead⟩ := hfollows
  have hcatches := hσ.regions
  rw [hregions, hinner, catches_cons, if_pos hdepth] at hcatches
  obtain ⟨τ, hτ, hholds⟩ := Told.Holds.lead hlead hσ.cells hcatches.2
  rw [hhandlers]
  exact ⟨τ, by rw [hτ, hput]; exact .nil, hholds⟩

end Machine.Poised

/-- All calls are known after an instruction was carried out. -/
theorem Does.known (h : Does page i m f rest s) (hm : m.Poised program functions page i f rest log logs)
    (hnested : m.Nested) (hlogs : R.logs = log :: logs) (hcalls : m.CallsKnown program functions) :
    s.Known program functions (Log.fit s.frames.length (R.note m i).logs) := by
  have hsame (hop : i.op ≠ .makeCell) : (R.note m i).logs = log :: logs := (Ledger.logs_note hop).trans hlogs
  cases h with
  | goes q common hop place h =>
    obtain ⟨hs, hhandlers, -⟩ := Machine.of_tracked h
    rw [Ledger.note_eq (Op.writesCell_of_usesCell hop), hlogs]
    exact hm.common common place hs hhandlers
  | loads a hop place _ h =>
    obtain ⟨hs, hhandlers, -⟩ := Machine.of_tracked h
    rw [hsame (by rcases hop with hop | hop <;> rw [hop] <;> exact nofun)]
    exact hm.accesses (.inl hop) hs hhandlers
  | stores a v hop place _ h =>
    obtain ⟨hs, hhandlers, -⟩ := Machine.of_tracked h
    rw [hsame (by rcases hop with hop | hop <;> rw [hop] <;> exact nofun)]
    exact hm.accesses (.inr hop) hs hhandlers
  | returns hop h =>
    obtain ⟨hs, hhandlers, -⟩ := Machine.of_tracked h
    rw [hsame (by rw [hop]; exact nofun)]
    exact hm.returns hop hs hhandlers
  | enters g v common hop falls callee runs start cells _ h =>
    obtain ⟨hs, hhandlers, -⟩ := Machine.of_tracked h
    rw [Ledger.note_eq (Op.writesCell_of_usesCell hop), hlogs]
    exact hm.enters hnested common falls (hcalls v callee _ _ runs) start hs hhandlers
  | makes v hop value h =>
    obtain ⟨hs, hhandlers, -⟩ := Machine.of_tracked h
    rw [Ledger.note_make hm.frames hlogs hop value]
    exact hm.makes hop hs hhandlers
  | puts a hop place h =>
    obtain ⟨hs, hhandlers, hpending, -, henvironments⟩ := Machine.of_tracked h
    rw [hsame (by rcases hop with hop | hop <;> rw [hop] <;> exact nofun)]
    exact hm.puts hop place hs hhandlers hpending henvironments
  | closes index hop constant enough _ h =>
    obtain ⟨hs, hhandlers, -⟩ := Machine.of_tracked h
    rw [hsame (by rw [hop]; exact nofun)]
    exact hm.closes hop hs hhandlers
  | opens h hop depth target htracked =>
    obtain ⟨hs, hhandlers, -⟩ := Machine.of_tracked htracked
    rw [hsame (by rw [hop]; exact nofun)]
    exact hm.opens hop depth target hs hhandlers
  | ends h outer hop hinner htracked =>
    obtain ⟨hs, hhandlers, -⟩ := Machine.of_tracked htracked
    rw [hsame (by rw [hop]; exact nofun)]
    exact hm.ends hnested hop hinner hs hhandlers

/-! ## Turns -/

/-- A call goes on at its innermost handler. -/
theorem Frame.Known.caught {ip : Nat} {ips : List Nat} {P Q : List CellVariable → Prop}
    (h : f.Known program functions log (ip :: ips) P) (hQ : Q []) :
    Frame.Known program functions { f with ip } log ips Q := by
  refine ⟨h.page, fun page hpage T => ?_⟩
  obtain ⟨σ, -, hσ⟩ := h.holds page hpage T
  have hsound := hσ.place.sound
  obtain ⟨cells, regions, put⟩ := σ
  cases regions with
  | nil => exact hσ.regions.elim
  | cons r regions =>
    have hr : r ⊆ cells := hsound r List.mem_cons_self
    exact ⟨⟨r, regions, []⟩, hQ, hσ.regions.1, fun c hc => hσ.cells c (hr hc), hσ.regions.2⟩

/-- A call goes on when the call that it has waited for is over. -/
theorem CallersKnown.known (h : CallersKnown program functions m.handlers m.frames logs) :
    m.Known program functions logs := by
  unfold Machine.Known
  cases hframes : m.frames with
  | nil =>
    rw [hframes] at h
    cases logs <;> exact h
  | cons f rest =>
    rw [hframes] at h
    cases logs with
    | nil => exact h
    | cons log logs => exact ⟨h.1.imp fun _ hput => hput ▸ .nil, h.2⟩

/-- The call that has opened the innermost region, and its callers. -/
theorem Machine.Known.keepLast {n : Nat} {g : Frame} {callers : List Frame} (hm : m.Known program functions logs)
    (hn : n ≤ m.frames.length) (hkeep : keepLast n m.frames = g :: callers) :
    ∃ log' logs', ShellVM.keepLast n logs = log' :: logs' ∧
      (∃ P, g.Known program functions log' (catches m.handlers n) P) ∧
      CallersKnown program functions m.handlers callers logs' := by
  unfold Machine.Known at hm
  cases hframes : m.frames with
  | nil =>
    rw [hframes] at hkeep
    simp [ShellVM.keepLast] at hkeep
  | cons f rest =>
    rw [hframes] at hm hn hkeep
    cases logs with
    | nil => exact hm.elim
    | cons log logs =>
      obtain ⟨hknown, hcallers⟩ := hm
      have hlength := hcallers.length
      by_cases hdepth : n ≤ rest.length
      · rw [keepLast_cons hdepth] at hkeep
        obtain ⟨log', logs', hlogs, hg, h⟩ := hcallers.keepLast hdepth hkeep
        exact ⟨log', logs', by rw [keepLast_cons (by omega), hlogs], ⟨_, hg⟩, h⟩
      · obtain rfl : n = rest.length + 1 := by
          rw [List.length_cons] at hn
          omega
        rw [show ShellVM.keepLast (rest.length + 1) (f :: rest) = f :: rest from
          keepLast_eq_self (Nat.le_refl _)] at hkeep
        obtain ⟨rfl, rfl⟩ := List.cons.inj hkeep
        exact ⟨log, logs, keepLast_eq_self (Nat.succ_le_succ (Nat.le_of_eq hlength)), ⟨_, hknown⟩, hcallers⟩

theorem Machine.Known.length (hm : m.Known program functions logs) : logs.length = m.frames.length := by
  unfold Machine.Known at hm
  cases hframes : m.frames with
  | nil =>
    rw [hframes] at hm
    cases logs with
    | nil => rfl
    | cons => exact hm.elim
  | cons f rest =>
    rw [hframes] at hm
    cases logs with
    | nil => exact hm.elim
    | cons log logs => exact congrArg (· + 1) hm.2.length

theorem Ledger.after_ok (hstep : Act.step host program m = .ok () s) (hnext : m.next? program = some i) :
    R.after host program m s = { R.note m i with logs := Log.fit s.frames.length (R.note m i).logs } := by
  unfold Ledger.after
  rw [hstep, hnext]

theorem Ledger.after_end (hnext : m.next? program = none) :
    R.after host program m s = { R with logs := Log.fit s.frames.length R.logs } := by
  unfold Ledger.after
  rw [hnext]
  cases Act.step host program m <;> rfl

theorem Ledger.after_error {e : Fault} {t : Machine} (hstep : Act.step host program m = .error e t) :
    R.after host program m s = { R with logs := Log.fit s.frames.length R.logs } := by
  unfold Ledger.after
  rw [hstep]

/-- **Calls go on holding what their pages tell.** -/
theorem Machine.Known.turn [host.Lawful] (hm : m.Known program functions R.logs) (hnested : m.Nested)
    (hcalls : m.CallsKnown program functions) (hturn : Act.turn host program m = .ok () s) :
    s.Known program functions (R.after host program m s).logs := by
  have hlength := hm.length
  rcases Machine.turn_does hturn with ⟨f, rest, page, i, hframes, hpage, hnext, hstep, h⟩ |
    ⟨f, rest, hframes, hnext, -, h⟩ |
    ⟨e, t, h, outer, f, callers, hstep, hhandlers, hkeep, h'⟩
  · obtain ⟨hoffset, hread⟩ := Machine.reads_next hnext hframes hpage
    rw [Ledger.after_ok hstep hnext]
    cases hlogs : R.logs with
    | nil =>
      rw [hlogs, hframes] at hlength
      cases hlength
    | cons log logs =>
      unfold Machine.Known at hm
      rw [hframes, hlogs] at hm
      exact h.known ⟨hframes, hpage, hread, hoffset, hm.1, hm.2⟩ hnested hlogs hcalls
  · obtain ⟨hs, hhandlers, -⟩ := Machine.of_tracked h
    rw [Ledger.after_end hnext]
    unfold Machine.Known at hm
    rw [hframes] at hm hlength
    cases hlogs : R.logs with
    | nil =>
      rw [hlogs] at hm
      exact hm.elim
    | cons log logs =>
      rw [hlogs] at hm
      obtain ⟨-, hcallers⟩ := hm
      have hcount := hcallers.length
      have hfit : Log.fit s.frames.length (log :: logs) = logs := by
        rw [hs, ← hcount, Log.fit_less (Nat.le_succ _), keepLast_cons (Nat.le_refl _), keepLast_eq_self (Nat.le_refl _)]
      rw [hfit]
      refine CallersKnown.known ?_
      rw [hs]
      exact hcallers.congr fun d hd => by rw [hhandlers, catches_filter hd]
  · obtain ⟨hs, hhandlers', -⟩ := Machine.of_tracked h'
    obtain ⟨-, hbound⟩ := hnested.bounded h (hhandlers ▸ List.mem_cons_self)
    have hdepth : h.frameDepth = callers.length + 1 := by
      have := length_keepLast hbound
      rw [hkeep] at this
      exact this.symm
    obtain ⟨log', logs', hlogs, ⟨P, hf⟩, hcallers⟩ := hm.keepLast hbound hkeep
    rw [hhandlers, catches_cons, if_pos rfl] at hf
    have hfit : Log.fit s.frames.length R.logs = log' :: logs' := by
      rw [hs, List.length_cons, ← hdepth, Log.fit_less (by rw [hlength]; exact hbound), hlogs]
    rw [Ledger.after_error hstep]
    show s.Known program functions (Log.fit s.frames.length R.logs)
    rw [hfit]
    unfold Machine.Known
    rw [hs]
    refine ⟨?_, hcallers.congr fun d hd => ?_⟩
    · rw [hhandlers', ← hdepth]
      exact hf.caught .nil
    · rw [hhandlers', hhandlers, catches_cons, if_neg (by omega)]

end ShellVM
