import ShellVM.Proofs.Balance.Declared
import ShellVM.Proofs.Bookkeeping.Compiler
import ShellVM.Proofs.Flow.Page
import ShellVM.Proofs.Interning
import ShellVM.Proofs.Rooted.Frames
import ShellVM.Proofs.Safety

/-!
# What traces tell

The trace of a fault has a place for every call. A call that is not the innermost one waits for what it has called
(`Frame.WaitsAt`), and its place is on the line of the call instruction. The place of the innermost call is on the
line of the instruction that has failed. It is not if a limit was exceeded (`Compiler.traces_tell_places`): then the
next instruction is still to be fetched, and the line is that of the byte in front of it, which behind a jump may be
the line of neither the instruction that comes next nor the one that came last
(`Compiler.limit_blames_line_before_loop`).

In a compiled page a line begins only where an instruction starts, so all bytes of an instruction are on its line
(`Page.Lined.lineAt?_inside`): the line of a place can be told from any byte of the instruction there. Control is only
where instructions start (`Sheet.Chart.starts`).
-/

namespace ShellVM

/-! ## The lines of instructions -/

section Lines

variable {code : Array UInt8} {page : Page} {q r : Nat} {o : Op} {operands : List UInt8}

/-- The byte and the room of an instruction that can be read. -/
theorem Reads.stands (h : Reads code q o operands) : code[q]? = some o.toByte ∧ q + 1 + o.width ≤ code.size := by
  have hbyte := h.bytes 0 (Nat.zero_lt_succ _)
  exact ⟨hbyte, h.length ▸ h.le⟩

theorem Starts.read (h : Starts code q) (hreads : Reads code q o operands) : Starts code (q + 1 + operands.length) := by
  rw [hreads.length]
  exact .next h hreads.stands.1 hreads.stands.2

namespace Sheet

variable {S : Sheet} {points : List (Nat × Shape)} {p p' : Nat} {σ τ σ' : Shape}

/-- The points of a row are where instructions start, and so is its end. -/
theorem Track.starts (h : S.Track points p σ p' σ') (hp : Starts S.page.code p) :
    (∀ x ∈ points, Starts S.page.code x.1) ∧ Starts S.page.code p' := by
  induction h with
  | done => exact ⟨fun x hx => absurd hx List.not_mem_nil, hp⟩
  | more has _ ih =>
    obtain ⟨hpoints, hend⟩ := ih (hp.read has)
    exact ⟨List.forall_mem_cons.2 ⟨hp, hpoints⟩, hend⟩

theorem Chart.starts (c : S.Chart) (h : c.At q τ) : Starts S.page.code q := by
  obtain ⟨hpoints, hend⟩ := c.track.starts .zero
  rcases h with h | ⟨rfl, -⟩
  · exact hpoints _ h
  · exact hend

end Sheet

/-- Where the same lines have begun, there is the same line. -/
theorem Page.lineAt?_congr (hq : q < 4294967296) (hr : r < 4294967296)
    (h : ∀ entry ∈ page.lines.toList, entry.1.toNat ≤ r ↔ entry.1.toNat ≤ q) : page.lineAt? r = page.lineAt? q := by
  unfold lineAt?
  rw [if_pos hq, if_pos hr]
  refine congrArg (fun holds => let after := partitionPoint holds page.lines.size
    if after = 0 then none else (page.lines[after - 1]?).map Prod.snd) (funext fun i => ?_)
  cases hi : page.lines[i]? with
  | none => rfl
  | some entry => exact decide_eq_decide.2 (h entry (Array.mem_toList_iff.2 (Array.mem_of_getElem? hi)))

/-- Every byte of an instruction is on the line of the instruction. -/
theorem Page.Lined.lineAt?_inside (h : page.Lined) (hsize : page.code.size ≤ 4294967296) (hstart : Starts page.code q)
    (hreads : Reads page.code q o operands) (hqr : q ≤ r) (hr : r < q + 1 + operands.length) :
    page.lineAt? r = page.lineAt? q := by
  obtain ⟨hbyte, hfits⟩ := hreads.stands
  rw [hreads.length] at hr
  refine lineAt?_congr (by omega) (by omega) fun entry hentry => ⟨fun hle => ?_, fun hle => Nat.le_trans hle hqr⟩
  refine Nat.le_of_not_lt fun hlt => ?_
  have := (h.starts entry hentry).apart hstart hbyte hlt
  omega

end Lines

variable {host : Host} {program : Program} {functions : List (Nat × UInt16)} {page : Page} {i : Instruction}
  {m s : Machine} {f : Frame} {rest : List Frame} {V : View} {fault : Fault}

/-! ## Calls that wait -/

/-- The call waits for what it has called by an instruction of its page. -/
structure Frame.WaitsAt (program : Program) (f : Frame) (page : Page) (i : Instruction) : Prop where
  known : program.page? f.page = some page
  starts : Starts page.code i.offset
  reads : Reads page.code i.offset i.op i.operands
  calls : i.op.callsValue = true
  next : i.next = f.ip

/-- All calls but the innermost wait for what they have called. -/
def Machine.Waiting (program : Program) (m : Machine) : Prop := ∀ f ∈ m.frames.tail, ∃ page i, f.WaitsAt program page i

/-- No other instruction than a call starts a call. -/
theorem Act.perform_depth [host.Lawful] (h : Act.perform host program page i m = .ok () s)
    (hlonger : m.frames.length < s.frames.length) : i.op.callsValue = true := by
  cases hcalls : i.op.callsValue with
  | true => rfl
  | false =>
    -- such an instruction does not depend on how deep calls may be nested
    have hsame : Act.perform host program page i = Act.perform { host with callDepth := 0 } program page i := by
      obtain ⟨p, op, operands⟩ := i
      cases op with
      | call | rootCall | maybeRootCall => cases hcalls
      | _ => rfl
    have houtgrows : Outgrows { host with callDepth := 0 } m
        ((Act.perform { host with callDepth := 0 } program page i).after m) := Act.perform_outgrows page i m
    have hdepth := houtgrows.depth
    rw [← hsame, Act.after_of_ok h] at hdepth
    simp only [Nat.max_zero] at hdepth
    omega

/-- The innermost call of a compiled program is where an instruction starts. -/
theorem Going.starts (hm : Going V program functions .empty m m) : ∃ f rest page, m.frames = f :: rest ∧
    program.page? f.page = some page ∧ Starts page.code f.ip ∧
    ((∃ i, m.next? program = some i) ∨ page.code[f.ip]? = none) := by
  obtain ⟨A, q, σ, hA, hq, hinside⟩ := hm
  obtain ⟨cells, own, hframes, -⟩ := hinside.shaped.active
  refine ⟨A.frame q cells, A.callers, A.sheet.page, hframes, hA.fits.page, A.chart.starts hq, ?_⟩
  rcases hq with hq | ⟨hend, -⟩
  · obtain ⟨op, operands, ⟨byte, hbyte, hread⟩, -⟩ := A.chart.goes _ hq
    refine .inl ⟨⟨q, op, operands⟩, ?_⟩
    unfold Machine.next?
    rw [hframes]
    show (program.page? A.page).bind _ = _
    rw [hA.fits.page]
    show (A.sheet.page.code[q]?).bind _ = _
    rw [hbyte]
    show (readInstruction A.sheet.page.code q byte).toOption = _
    rw [hread]
    rfl
  · exact .inr (Array.getElem?_eq_none (Nat.le_of_eq hend.symm))

theorem Machine.Waiting.turn [host.Lawful] (hm : m.Waiting program) (hgoing : Going V program functions .empty m m)
    (hturn : Act.turn host program m = .ok () s) : s.Waiting program := by
  rcases turn_does hturn with ⟨f, rest, page, i, hframes, hpage, hnext, hstep, hdoes⟩ | ⟨f, rest, hframes, -, -, ht⟩ |
    ⟨e, t, h, outer, f, callers, -, -, hkeep, ht⟩
  · have hrest : ∀ g ∈ rest, ∃ page i, g.WaitsAt program page i := fun g hg => hm g (by rw [hframes]; exact hg)
    rcases hdoes.frames with ⟨f', hs, -⟩ | ⟨g, v, hs, -⟩
    · intro g hg
      rw [hs] at hg
      exact hrest g hg
    · obtain ⟨f', rest', page', hframes', hpage', hstarts, -⟩ := hgoing.starts
      obtain ⟨rfl, rfl⟩ := List.cons.inj (hframes.symm.trans hframes')
      obtain rfl := Option.some.inj (hpage.symm.trans hpage')
      obtain ⟨hoffset, hreads⟩ := reads_next hnext hframes hpage
      have hcalls : i.op.callsValue = true := by
        rw [Act.step_of_next hframes hpage hnext] at hstep
        cases hlimit : host.exceeded? { m with steps := m.steps + 1 } with
        | some l =>
          rw [hlimit] at hstep
          cases hstep
        | none =>
          rw [hlimit] at hstep
          refine Act.perform_depth hstep ?_
          rw [hs]
          exact Nat.lt_succ_self _
      intro g' hg'
      rw [hs] at hg'
      rcases List.mem_cons.1 hg' with rfl | hg'
      · exact ⟨page, i, hpage, hoffset ▸ hstarts, hoffset ▸ hreads, hcalls, rfl⟩
      · exact hrest g' hg'
  · obtain hs : s.frames = rest := congrArg Prod.fst ht
    intro g hg
    rw [hs] at hg
    refine hm g ?_
    rw [hframes]
    exact List.mem_of_mem_tail hg
  · obtain hs : s.frames = { f with ip := h.catchIp } :: callers := congrArg Prod.fst ht
    intro g hg
    rw [hs] at hg
    refine hm g ?_
    obtain ⟨inner, hinner⟩ : f :: callers <:+ m.frames := hkeep ▸ List.drop_suffix ..
    rw [← hinner]
    cases inner with
    | nil => exact hg
    | cons f' inner => exact List.mem_append_right inner (List.mem_cons_of_mem f hg)

/-! ## Faults -/

/-- Why a step fails: a limit is exceeded, or the instruction that it has fetched fails. -/
theorem Going.step_error [host.Lawful] (hm : Going V program functions .empty m m)
    (hstep : Act.step host program m = .error fault s) :
    ∃ f rest page, m.frames = f :: rest ∧ program.page? f.page = some page ∧ fault.trace = [] ∧
      if (host.exceeded? { m with steps := m.steps + 1 }).isSome then s.frames = m.frames
      else ∃ i : Instruction, Starts page.code i.offset ∧ Reads page.code i.offset i.op i.operands ∧ i.offset = f.ip ∧
        s.frames = { f with ip := i.next } :: rest := by
  obtain ⟨f, rest, page, hframes, hpage, hstarts, hnext⟩ := hm.starts
  refine ⟨f, rest, page, hframes, hpage, ?_⟩
  have hsteps := Act.step_eq host program m
  cases hlimit : host.exceeded? { m with steps := m.steps + 1 } with
  | some l =>
    rw [hlimit, hstep] at hsteps
    cases hsteps
    exact ⟨rfl, rfl⟩
  | none =>
    rcases hnext with ⟨i, hnext⟩ | hend
    · obtain ⟨hoffset, hreads⟩ := Machine.reads_next hnext hframes hpage
      rw [Act.step_of_next hframes hpage hnext, hlimit] at hstep
      refine ⟨Act.perform_fresh hstep, i, hoffset ▸ hstarts, hoffset ▸ hreads, hoffset, ?_⟩
      have hcarries : Act.Carries page i m f rest (Act.perform host program page i (m.fetched f rest i)) :=
        Act.perform_carries hframes
      rw [show Act.perform host program page i (m.fetched f rest i) = .error fault s from hstep] at hcarries
      exact congrArg Prod.fst (show s.tracked = (m.fetched f rest i).tracked from hcarries)
    · rw [hlimit, hstep] at hsteps
      have hadvance : Act.advance host program { m with steps := m.steps + 1 } = _ := Act.advance_eq hframes hpage rfl
      rw [hend] at hadvance
      cases hsteps.trans hadvance

/-- A trace has a place for every call. -/
theorem Machine.trace_forall₂ {P : Frame → CallSite → Prop}
    (h : ∀ f ∈ m.frames, ∃ page, program.page? f.page = some page ∧ P f ⟨page.name, page.lineAt? (f.ip - 1)⟩) :
    List.Forall₂ P m.frames (m.trace program) := by
  unfold trace
  rw [List.forall₂_map_right_iff, List.forall₂_same]
  intro f hf
  obtain ⟨page, hpage, hsite⟩ := h f hf
  rw [hpage]
  exact hsite

theorem Machine.trace_cons (hframes : m.frames = f :: rest) (hpage : program.page? f.page = some page) :
    m.trace program = ⟨page.name, page.lineAt? (f.ip - 1)⟩ :: ({ m with frames := rest } : Machine).trace program := by
  unfold trace
  rw [hframes, List.map_cons, hpage]

/-- The place of a call that waits is on the line of the call instruction. -/
theorem Frame.WaitsAt.line (h : f.WaitsAt program page i) (hlined : page.Lined) (hsize : page.code.size ≤ 4294967296) :
    page.lineAt? (f.ip - 1) = page.lineAt? i.offset := by
  have hnext : i.offset + 1 + i.operands.length = f.ip := h.next
  exact hlined.lineAt?_inside hsize h.starts h.reads (by omega) (by omega)

/-- What a fault that is not caught takes along, and what a handler finds on the stack. -/
theorem Going.turn_error [host.Lawful]
    (hserves : ∀ id index, functions.lookup id = some index → program.Hosts functions index 0)
    (hm : Going V program functions .empty m m) (hstep : Act.step host program m = .error fault s)
    (hfresh : fault.trace = []) :
    (∃ e, Act.turn host program m = .error e s ∧ e.trace = s.trace program) ∨
      ∃ t, Act.turn host program m = .ok () t ∧
        t.stack.back? = some (.error (.string fault.cause.message) (some (s.trace program))) := by
  have htrace : (fault.withTrace (s.trace program)).trace = s.trace program := by
    unfold Fault.withTrace
    rw [hfresh]
    rfl
  rw [Act.turn_of_error hstep]
  rcases step_self host hserves hm with ⟨t, hok, -⟩ | ⟨e, t, herror, hcatch, hs⟩
  · cases hstep.symm.trans hok
  · cases hstep.symm.trans herror
    rcases hs.recovers (e := fault) rfl hcatch with hnil | ⟨t, -, ht, -, -⟩
    · exact .inl ⟨_, Act.recover_fails hnil, htrace⟩
    · obtain ⟨h, outer, f, callers, -, hhandlers, hkeep, -⟩ := Act.recover_ok ht
      refine .inr ⟨_, Act.recover_run hcatch hhandlers hkeep, ?_⟩
      rw [htrace]
      exact Array.back?_push ..

/-- The lines on which the calls are, innermost first. -/
def Machine.lines (program : Program) (m : Machine) : List (Option UInt32) :=
  m.frames.map fun f => (program.page? f.page).bind (·.lineAt? f.ip)

/-- The lines of the trace of the fault by which a turn ends the run, if it does. -/
def Act.blames? (host : Host) (program : Program) (m : Machine) : Option (List (Option UInt32)) :=
  match turn host program m with
  | .ok .. => none
  | .error fault _ => some (fault.trace.map CallSite.line?)

theorem Act.exists_of_blames? {lines : List (Option UInt32)} (h : Act.blames? host program m = some lines) :
    ∃ fault s e t, Act.step host program m = .error fault s ∧ Act.turn host program m = .error e t ∧
      e.trace.map CallSite.line? = lines := by
  unfold blames? at h
  split at h
  · cases h
  · next e t hturn =>
    cases hstep : Act.step host program m with
    | ok _ s => cases hturn.symm.trans (Act.turn_of_ok hstep)
    | error fault s => exact ⟨fault, s, e, t, rfl, hturn, Option.some.inj h⟩

namespace Compiler

variable {c c' : Compiler} {e : Expr} {index : UInt16}

/-- The trace of a fault has a place for each call, innermost first, whether the fault is caught or not. Callers are
on the line of the instruction by which they have called. The innermost call is on the line of the instruction that
the step has started with, unless a limit has kept the step from fetching it. -/
theorem traces_tell_places (es es' : List Expr) (h : (new.addAll es).enter e = (.ok index, c')) (host : Host)
    [host.Lawful] (w : World) (hsize : ∀ page ∈ (c'.addAll es').program.pages, page.code.size ≤ 4294967296)
    (hm : Turns host (c'.addAll es').program Machine.Active (Machine.start index w) m) (hactive : m.Active)
    (hstep : Act.step host (c'.addAll es').program m = .error fault s) :
    ∃ f rest site sites, m.frames = f :: rest ∧
      (∃ page, (c'.addAll es').program.page? f.page = some page ∧ site = ⟨page.name, page.lineAt?
        (if (host.exceeded? { m with steps := m.steps + 1 }).isSome then f.ip - 1 else f.ip)⟩) ∧
      List.Forall₂ (fun g site => ∃ page i, g.WaitsAt (c'.addAll es').program page i ∧
        site = ⟨page.name, page.lineAt? i.offset⟩) rest sites ∧
      ((∃ e, Act.turn host (c'.addAll es').program m = .error e s ∧ e.trace = site :: sites) ∨
        ∃ t, Act.turn host (c'.addAll es').program m = .ok () t ∧
          t.stack.back? = some (.error (.string fault.cause.message) (some (site :: sites)))) := by
  have hentry := (Sound.addAll es).enterable h es'
  obtain ⟨V, hgoing⟩ := hentry.turns_going w hm hactive
  have hsteady : (c'.addAll es').Steady := by
    have hc' := (Steady.new.addAll .new es).entered (Sound.addAll es) e
    rw [h] at hc'
    exact hc'.addAll ((Sound.addAll es).enter_ok h) es'
  have hlined {index : UInt16} {page : Page} (hpage : (c'.addAll es').program.page? index = some page) :
      page.Lined ∧ page.code.size ≤ 4294967296 := by
    have hmem : page ∈ (c'.addAll es').program.pages := Array.mem_of_getElem? hpage
    exact ⟨hsteady.lined page hmem, hsize page hmem⟩
  have hwaiting : m.Waiting (c'.addAll es').program := by
    refine (hm.keeps (I := fun m => m.Waiting (c'.addAll es').program ∧
      Turns host (c'.addAll es').program Machine.Active (Machine.start index w) m) ⟨?_, .refl⟩ ?_).1
    · intro f hf
      cases hf
    · rintro s s' ⟨hs, hturns⟩ hactive hturn
      obtain ⟨V, hgoing⟩ := hentry.turns_going w hturns hactive
      exact ⟨hs.turn hgoing hturn, .turn hturns hactive hturn⟩
  obtain ⟨f, rest, page, hframes, hpage, hfresh, hwhy⟩ := hgoing.step_error hstep
  have hrest : List.Forall₂ (fun g site => ∃ page i, g.WaitsAt (c'.addAll es').program page i ∧
      site = ⟨page.name, page.lineAt? i.offset⟩) rest
      (({ m with frames := rest } : Machine).trace (c'.addAll es').program) := by
    refine Machine.trace_forall₂ (m := { m with frames := rest }) fun g hg => ?_
    obtain ⟨page, i, hwaits⟩ := hwaiting g (by rw [hframes]; exact hg)
    obtain ⟨hpage', hsize'⟩ := hlined hwaits.known
    exact ⟨page, hwaits.known, page, i, hwaits, by rw [hwaits.line hpage' hsize']⟩
  have hturn := hgoing.turn_error hentry.serves hstep hfresh
  -- where the innermost call is when the step has failed
  have htop : s.trace (c'.addAll es').program = ⟨page.name, page.lineAt?
      (if (host.exceeded? { m with steps := m.steps + 1 }).isSome then f.ip - 1 else f.ip)⟩ ::
        ({ m with frames := rest } : Machine).trace (c'.addAll es').program := by
    split at hwhy
    · next hlimit =>
      rw [if_pos hlimit]
      exact Machine.trace_cons (hwhy.trans hframes) hpage
    · next hlimit =>
      obtain ⟨i, hstarts, hreads, hoffset, hs⟩ := hwhy
      obtain ⟨hpage', hsize'⟩ := hlined hpage
      have hline : page.lineAt? (i.next - 1) = page.lineAt? f.ip := by
        have hnext : i.next = i.offset + 1 + i.operands.length := rfl
        rw [← hoffset]
        exact hpage'.lineAt?_inside hsize' hstarts hreads (by omega) (by omega)
      rw [if_neg hlimit, ← hline]
      exact Machine.trace_cons hs hpage
  rw [htop] at hturn
  exact ⟨f, rest, _, _, hframes, ⟨page, hpage, rfl⟩, hrest, hturn⟩

/-! ## Runs that fail -/

/-- A function that negates its argument, on the second line. -/
def negating : Expr := .mk 1 (.define 0 "negative" ["x"] (.mk 2 (.unary .negate (.mk 2 (.variable "x")))))

/-- A call of it with an empty tuple, on the fifth line. -/
def negated : Expr :=
  .mk 4 (.block [.mk 4 (.literal .nil), .mk 5 (.call (.function 0) [.mk 5 (.tuple [])] false)])

/-- The compiler that has the function. -/
def knowingNegating : Compiler :=
  ⟨⟨#[{ Page.empty entryName 0 with code := #[4, 0, 0], lines := #[(0, 1)] },
    { Page.empty "negative" 1 with code := #[5, 0, 22, 3, 1], lines := #[(0, 2)] }], #[]⟩, [(0, 1)], [0]⟩

/-- The code of the page with the call. -/
def negatedCode : List UInt8 := [4, 0, 0, 1, 4, 0, 1, 35, 0, 0, 52, 1]

/-- The compiler that has the call as well. -/
def knowingNegated : Compiler :=
  ⟨⟨knowingNegating.program.pages.push
    ⟨entryName, 0, negatedCode.toArray, .ofList [.nil, .page 1], #[(0, 4), (4, 5)]⟩, #[]⟩, [(0, 1)], [0]⟩

theorem addAll_negating : new.addAll [negating] = knowingNegating := by
  with_unfolding_all rfl

theorem enter_negated : knowingNegating.enter negated = (.ok 2, knowingNegated) := by
  let writing (size : Nat) (constants : List Constant) (lines : Array (UInt32 × UInt32))
      (height depth : Nat) : Workbench :=
    ⟨⟨knowingNegating.program.pages.push (.empty entryName 0), #[]⟩, [(0, 1)], [0], [],
      ⟨⟨entryName, 0, (negatedCode.take size).toArray, .ofList constants, lines⟩, [], [], [], height,
        depth, [], [], true⟩, []⟩
  have hfirst : (do Emit.markLine 4; Emit.beginScope; Emit.markLine 4; Emit.constant .nil; Emit.pop; Emit.markLine 5)
      (writing 0 [.nil] #[] 0 0) = .ok () (writing 4 [.nil] #[(0, 4), (4, 5)] 0 1) := by
    with_unfolding_all rfl
  have hpage : Emit.functionPage 0 (writing 4 [.nil] #[(0, 4), (4, 5)] 0 1) =
      .ok 1 (writing 4 [.nil] #[(0, 4), (4, 5)] 0 1) := rfl
  have hcallee : Emit.constant (.page 1) (writing 4 [.nil] #[(0, 4), (4, 5)] 0 1) =
      .ok () (writing 7 [.nil, .page 1] #[(0, 4), (4, 5)] 1 1) :=
    (ConstantTable.constant_new rfl rfl (by decide) (by decide)).trans rfl
  have hrest : (do
      Emit.call false 1 (do Emit.markLine 5; Emit.word .buildTuple 0 "collection items")
      Emit.endScope true) (writing 7 [.nil, .page 1] #[(0, 4), (4, 5)] 1 1) =
      .ok () (writing 12 [.nil, .page 1] #[(0, 4), (4, 5)] 1 0) := by
    with_unfolding_all rfl
  have hcode : negated.emitValue = (do
      (do Emit.markLine 4; Emit.beginScope; Emit.markLine 4; Emit.constant .nil; Emit.pop; Emit.markLine 5)
      let page ← Emit.functionPage 0
      Emit.constant (.page page)
      Emit.call false 1 (do Emit.markLine 5; Emit.word .buildTuple 0 "collection items")
      Emit.endScope true) := by
    have hnested : negated.emitValue = (do
        Emit.markLine 4
        (do
          Emit.beginScope
          (do
            (do Emit.markLine 4; Emit.constant .nil)
            Emit.pop
            (do
              (do
                Emit.markLine 5
                (do
                  let page ← Emit.functionPage 0
                  Emit.constant (.page page)
                  Emit.call false 1 (do (do Emit.markLine 5; Emit.word .buildTuple 0 "collection items"); pure ())))
              pure ()))
          Emit.endScope true)) := by
      with_unfolding_all rfl
    rw [hnested]
    simp only [bind_assoc, bind_pure_unit]
  have hemit : negated.emitValue (writing 0 [.nil] #[] 0 0) =
      .ok () (writing 12 [.nil, .page 1] #[(0, 4), (4, 5)] 1 0) := by
    rw [hcode, bind_run_ok hfirst, bind_run_ok hpage, bind_run_ok hcallee, hrest]
  have hstart : (knowingNegating.bench (entryDraft negated)).reserve entryName = writing 0 [.nil] #[] 0 0 := by
    with_unfolding_all rfl
  exact enter_of_emitValue (by decide) hstart hemit (by decide) rfl

/-- The function fails on the second line, and has been called on the fifth one. -/
theorem traces_tell_places_of_negation : ∃ m fault s e f g site site',
    Turns {} knowingNegated.program Machine.Active (Machine.start 2 default) m ∧
    Act.step {} knowingNegated.program m = .error fault s ∧ m.frames = [f, g] ∧
    (∃ page, knowingNegated.program.page? f.page = some page ∧ site = ⟨page.name, page.lineAt? f.ip⟩) ∧
    (∃ page i, g.WaitsAt knowingNegated.program page i ∧ site' = ⟨page.name, page.lineAt? i.offset⟩) ∧
    Act.turn {} knowingNegated.program m = .error e s ∧ e.trace = [site, site'] ∧
    site.line? = some 2 ∧ site'.line? = some 5 := by
  obtain ⟨m, hturns, hm⟩ := Act.turns_of_reaches
    (show Act.reaches {} knowingNegated.program 6 (.start 2 default) (fun m =>
      decide (m.frames.length = 2 ∧ (({} : Host).exceeded? { m with steps := m.steps + 1 }).isNone ∧
        Act.blames? {} knowingNegated.program m = some [some 2, some 5])) = true by decide +kernel)
  obtain ⟨hlength, hlimit, hblames⟩ := of_decide_eq_true hm
  obtain ⟨fault, s, e, t, hstep, hturn, hlines⟩ := Act.exists_of_blames? hblames
  have henter : (new.addAll [negating]).enter negated = (.ok 2, knowingNegated) := by
    rw [addAll_negating, enter_negated]
  have hactive : m.Active := fun hnil => by
    rw [hnil] at hlength
    cases hlength
  obtain ⟨f, rest, site, sites, hframes, hsite, hsites, ⟨e', hfails, htrace⟩ | ⟨t, hcaught, -⟩⟩ :=
    traces_tell_places [negating] [] henter {} default (by decide) hturns hactive hstep
  · cases hturn.symm.trans hfails
    obtain ⟨g, rfl⟩ : ∃ g, rest = [g] := List.length_eq_one_iff.1 (by simpa [hframes] using hlength)
    obtain ⟨site', _, hsite', hnil, rfl⟩ := List.forall₂_cons_left_iff.1 hsites
    obtain rfl := List.forall₂_nil_left_iff.1 hnil
    rw [htrace] at hlines
    obtain ⟨hline, hlines⟩ := List.cons.inj hlines
    rw [Option.isNone_iff_eq_none.1 hlimit] at hsite
    exact ⟨m, fault, s, e, f, g, site, site', hturns, hstep, hframes, hsite, hsite', hturn, htrace, hline,
      (List.cons.inj hlines).1⟩
  · cases hturn.symm.trans hcaught

/-- Behind a jump back a limit is exceeded: the trace tells the line in front of the loop, where no instruction has
been carried out since the loop started, and none is about to be. -/
theorem limit_blames_line_before_loop : ∃ index c' m fault s, new.enter (.mk 1 (.block [.mk 1 (.literal .nil),
      .mk 2 (.loop (.mk 2 (.unary .not (.mk 2 (.literal .nil)))) (.mk 3 (.literal .nil)))])) = (.ok index, c') ∧
    Turns { steps? := some 8 } c'.program Machine.Active (Machine.start index default) m ∧
    Act.step { steps? := some 8 } c'.program m = .error fault s ∧
    m.lines c'.program = [some 2] ∧ Act.blames? { steps? := some 8 } c'.program m = some [some 1] := by
  have hrun : reaches [] (.mk 1 (.block [.mk 1 (.literal .nil),
      .mk 2 (.loop (.mk 2 (.unary .not (.mk 2 (.literal .nil)))) (.mk 3 (.literal .nil)))])) [] { steps? := some 8 } 8
      (fun program m => decide (m.lines program = [some 2] ∧
        Act.blames? { steps? := some 8 } program m = some [some 1])) = true := by
    decide +kernel
  obtain ⟨index, c', m, henter, hturns, htest⟩ := turns_of_reaches hrun
  obtain ⟨hlines, hblames⟩ := of_decide_eq_true htest
  obtain ⟨fault, s, -, -, hstep, -⟩ := Act.exists_of_blames? hblames
  exact ⟨index, c', m, fault, s, henter, hturns, hstep, hlines, hblames⟩

end Compiler

end ShellVM
