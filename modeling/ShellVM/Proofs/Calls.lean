import ShellVM.Proofs.Safety
import ShellVM.Proofs.Window.Quiet

/-!
# Calls

A call leaves nothing behind but its value, and what becomes of it does not depend on what lies below it. Both follow
from one fact: when a page is entered, the machine is the machine that would run the call by itself, on top of all that
there was (`Inside.enters`). The context stays as it is for the whole call (`Act.During.cases`).
-/

namespace ShellVM

variable {V : View} {k : Context} {A : Activation} {q : Nat} {σ : Shape} {m s : Machine} {program : Program}
  {functions : List (Nat × UInt16)} {host : Host} {limits' : Limits} {i : Instruction}

/-! ## What happens to a call -/

/-- The instruction that comes next stands where the innermost call is. -/
theorem Machine.reads_next {f : Frame} {rest : List Frame} {page : Page} (h : m.next? program = some i)
    (hframes : m.frames = f :: rest) (hpage : program.page? f.page = some page) :
    i.offset = f.ip ∧ Reads page.code f.ip i.op i.operands := by
  obtain ⟨f', rest', page', byte, hframes', hpage', hbyte, hread⟩ := next?_eq_some h
  obtain ⟨rfl, rfl⟩ := List.cons.inj (hframes.symm.trans hframes')
  obtain rfl := Option.some.inj (hpage.symm.trans hpage')
  obtain ⟨offset, op, operands⟩ := i
  obtain rfl : offset = f.ip := readInstruction_offset hread
  exact ⟨rfl, byte, hbyte, hread⟩

/-- A step carries out the instruction that comes next, if no limit is exceeded. -/
theorem Act.step_of_next {f : Frame} {rest : List Frame} {page : Page} (hframes : m.frames = f :: rest)
    (hpage : program.page? f.page = some page) (hnext : m.next? program = some i) : Act.step host program m =
      match host.exceeded? { m with steps := m.steps + 1 } with
      | none =>
        Act.perform host program page i { m with steps := m.steps + 1, frames := { f with ip := i.next } :: rest }
      | some (limit, max) => .error (.ofCause (.limitExceeded limit max)) { m with steps := m.steps + 1 } := by
  obtain ⟨hoffset, byte, hbyte, hread⟩ := Machine.reads_next hnext hframes hpage
  have hjump : Act.jump i.next { m with steps := m.steps + 1 } = .ok ()
      { m with steps := m.steps + 1, frames := { f with ip := i.next } :: rest } := by
    unfold Act.jump Act.modifyFrame
    rw [hframes]
  rw [Act.step_eq]
  cases host.exceeded? { m with steps := m.steps + 1 } with
  | some l => rfl
  | none =>
    simp only
    refine (Act.advance_eq (m := { m with steps := m.steps + 1 }) hframes hpage rfl).trans ?_
    rw [hbyte]
    simp only [hread]
    obtain ⟨offset, op, operands⟩ := i
    obtain rfl : offset = f.ip := hoffset
    exact bind_run_ok hjump

/-- Does the instruction call a value? -/
def Op.callsValue : Op → Bool
  | .call | .rootCall | .maybeRootCall => true
  | _ => false

namespace Act

/-- A machine, and those that turns lead to as long as more calls are active than it has. -/
inductive During (host : Host) (program : Program) (m : Machine) : Machine → Prop where
  | here : During host program m m
  | turn {s s' : Machine} (before : During host program m s) (next : Act.turn host program s = .ok () s')
      (deeper : m.frames.length < s'.frames.length) : During host program m s'

/-- The instruction of `m`, and all that it calls, gets to its end. -/
def Returns (host : Host) (program : Program) (m s : Machine) : Prop :=
  ∃ s', During host program m s' ∧ step host program s' = .ok () s ∧ s.frames.length = m.frames.length

/-- The instruction of `m`, or something that it calls, fails, and no handler is there for it but those that `m` has. -/
def Raises (host : Host) (program : Program) (m : Machine) (e : Fault) : Prop :=
  ∃ s t, During host program m s ∧ step host program s = .error e t ∧ ∀ h ∈ t.handlers, h.frameDepth ≤ m.frames.length

end Act

/-! ## Calls on top of a context -/

/-- A machine that has entered a page and does nothing else. -/
def Machine.entered (index : UInt16) (environment? : Option Addr) (isRoot : Bool) (arguments : Array Value)
    (world : World) : Machine := { idle arguments world with frames := [.new index 0 isRoot environment?] }

theorem Inside.bounded (hm : Inside V k A q σ m s) (hA : Stands V program functions A) :
    ∀ h ∈ s.handlers, h.frameDepth ≤ s.frames.length := by
  obtain ⟨cells, own, hframes, -, hopen, hown⟩ := hm.shaped.active
  intro h hh
  rw [hframes, List.length_cons]
  rw [hown] at hh
  rcases List.mem_append.1 hh with hh | hh
  · exact Nat.le_of_eq (hopen.depth_eq h hh)
  · exact Nat.le_succ_of_le (hA.callers.depth_le h hh)

/-- A machine that enters a page is the machine that does nothing else, on top of what there was. -/
theorem Inside.enters (hserves : ∀ id index, functions.lookup id = some index → program.Hosts functions index 0)
    (hA : Stands V program functions A) (hm : Inside V .empty A q σ m m) {below arguments : Array Value}
    (hstack : m.stack = below ++ arguments) {index : UInt16} {environment? : Option Addr} (isRoot : Bool)
    (hcallee : V.Supplies index environment?) {page : Page} (hpage : program.page? index = some page)
    (harity : arguments.size = page.arity.toNat) :
    Going V program functions ⟨below, m.frames, m.iterators, m.handlers, m.pending, hm.bounded hA⟩
      { m with frames := .new index below.size isRoot environment? :: m.frames }
      (.entered index environment? isRoot arguments m.world) := by
  obtain ⟨top, htop, hitems⟩ := hm.stack
  rw [← show m.stack = top from htop.trans (Array.empty_append ..)] at hitems
  have harguments : ItemsAlike V arguments arguments := by
    have := List.forall₂_drop below.size hitems
    rwa [hstack, Array.toList_append, List.drop_left' (Array.length_toList ..)] at this
  obtain ⟨B, hB, rfl, hbase, rfl, rfl, hcallers, hiterators, hhandlers⟩ :=
    activation hserves hA.hosts hcallee 0 isRoot [] 0 []
  obtain rfl : B.sheet.page = page := Option.some.inj (hB.page.symm.trans hpage)
  have hstands : Stands V program functions B :=
    ⟨hA.hosts, hB, by rw [hcallers, hbase, hiterators, hhandlers]; exact ⟨rfl, rfl, rfl⟩⟩
  have hframe : [Frame.new B.page 0 B.isRoot B.environment?] = B.frame 0 [] :: B.callers := by
    rw [hcallers, Activation.frame, hbase]
    rfl
  have hopen : Open V.cells B [] [] 0 [] := hiterators ▸ .none
  exact ⟨B, 0, _, hstands, B.chart.start, {
    stack := ⟨arguments, hstack, harguments⟩
    frames := rfl
    iterators := ⟨[], rfl, .nil⟩
    handlers := rfl
    pending := rfl
    world := hm.world
    shaped := {
      active := ⟨[], [], hframe, fun c hc => absurd hc List.not_mem_nil, hopen, hhandlers.symm⟩
      height := by
        show arguments.size = B.base + B.sheet.page.arity.toNat
        rw [hbase, harity, Nat.zero_add]
      floor := Nat.zero_le _
      pending := Nat.zero_le _
      stored := fun _ ha => absurd ha List.not_mem_nil } }⟩

/-! ## Machines that are about to call -/

/-- A row of more than `n` values: one of them, what is below it, and the `n` above it. -/
theorem exists_callee {xs : Array Value} {n : Nat} (h : n < xs.size) :
    ∃ (below arguments : Array Value) (callee : Value), xs = below.push callee ++ arguments ∧ arguments.size = n := by
  have hi : xs.size - (n + 1) < xs.toList.length := by
    rw [Array.length_toList]
    omega
  refine ⟨(xs.toList.take (xs.size - (n + 1))).toArray, (xs.toList.drop (xs.size - (n + 1) + 1)).toArray,
    xs.toList[xs.size - (n + 1)], Array.ext' ?_, ?_⟩
  · simp only [Array.toList_append, Array.toList_push, List.append_assoc, List.singleton_append]
    rw [← List.drop_eq_getElem_cons hi, List.take_append_drop]
  · simp only [List.size_toArray, List.length_drop, Array.length_toList]
    omega

theorem Act.takeCallee_eq {below arguments : Array Value} {callee : Value}
    (h : m.stack = below.push callee ++ arguments) :
    Act.takeCallee arguments.size m = .ok callee { m with stack := below ++ arguments } := by
  obtain ⟨stack, frames, iterators, handlers, pending, steps, world⟩ := m
  obtain rfl : stack = below.push callee ++ arguments := h
  have hsize : (below.push callee ++ arguments).size = below.size + 1 + arguments.size := by
    rw [Array.size_append, Array.size_push]
  have hi : (below.push callee ++ arguments).size - (arguments.size + 1) = below.size := by omega
  unfold Act.takeCallee
  rw [dif_pos (by simp only [hsize]; omega)]
  simp only [hi]
  have hget : (below.push callee ++ arguments)[below.size] = callee := by
    rw [Array.getElem_append_left (by rw [Array.size_push]; exact Nat.lt_succ_self _), Array.getElem_push_eq]
  have herase : (below.push callee ++ arguments).eraseIdx below.size (by omega) = below ++ arguments := by
    apply Array.ext'
    simp only [Array.toList_eraseIdx, Array.toList_append, Array.toList_push, List.append_assoc, List.singleton_append]
    rw [List.eraseIdx_append_of_length_le (by simp), Array.length_toList, Nat.sub_self, List.eraseIdx_cons_zero]
  rw [hget, herase]

theorem Act.callValue_eq {below arguments : Array Value} {callee : Value} {r : Act.Rootness} {isRoot : Bool}
    (hstack : m.stack = below.push callee ++ arguments) (hroot : Act.root r m = .ok isRoot m) :
    Act.callValue host program r arguments.size m =
      Act.call host program callee arguments.size isRoot { m with stack := below ++ arguments } := by
  unfold Act.callValue
  rw [bind_run_ok hroot, bind_run_ok (Act.takeCallee_eq hstack)]

/-- The machine behind a call instruction, without the callee. -/
def Machine.calling (m : Machine) (i : Instruction) (f : Frame) (rest : List Frame) (below arguments : Array Value) :
    Machine :=
  { m with steps := m.steps + 1, frames := { f with ip := i.next } :: rest, stack := below ++ arguments }

/-- The machine calls `callee`, which lies under `arguments` and on top of `below`. -/
structure Calls (V : View) (program : Program) (functions : List (Nat × UInt16)) (m : Machine)
    (i : Instruction) (f : Frame)
    (rest : List Frame) (below arguments : Array Value) (callee : Value) (isRoot : Bool) : Prop where
  frames : m.frames = f :: rest
  stack : m.stack = below.push callee ++ arguments
  count : arguments.size = (i.byte 0).toNat
  root : i.op = .call → isRoot = false
  alike : callee.Alike V callee
  /-- A step takes the callee out and calls it. -/
  step : ∀ host, Act.step host program m = match host.exceeded? { m with steps := m.steps + 1 } with
    | none => Act.call host program callee arguments.size isRoot (m.calling i f rest below arguments)
    | some (limit, max) => .error (.ofCause (.limitExceeded limit max)) { m with steps := m.steps + 1 }
  inside : ∃ A q σ, Stands V program functions A ∧
    Inside V .empty A q σ (m.calling i f rest below arguments) (m.calling i f rest below arguments)

/-- The instruction that comes next is one that the chart of the page allows, and a step carries it out. -/
theorem Inside.next (hA : Stands V program functions A) (hq : A.chart.At q σ) (hm : Inside V .empty A q σ m m)
    (hnext : m.next? program = some i) : A.sheet.Allows A.chart.At i σ ∧ ∃ f rest, m.frames = f :: rest ∧
      ∀ host, Act.step host program m = match host.exceeded? { m with steps := m.steps + 1 } with
        | none => Act.perform host program A.sheet.page i
            { m with steps := m.steps + 1, frames := { f with ip := i.next } :: rest }
        | some (limit, max) => .error (.ofCause (.limitExceeded limit max)) { m with steps := m.steps + 1 } := by
  obtain ⟨f, rest, page, byte, hframes, hpage, -⟩ := Machine.next?_eq_some hnext
  obtain ⟨cells, own, hframes', -⟩ := Acts.frames hm
  obtain ⟨hf, -⟩ := List.cons.inj (hframes.symm.trans hframes')
  have hip : f.ip = q := by rw [hf]; rfl
  have hpage' : program.page? f.page = some A.sheet.page := by rw [hf]; exact hA.fits.page
  obtain rfl : A.sheet.page = page := Option.some.inj (hpage'.symm.trans hpage)
  obtain ⟨hoffset, hreads⟩ := Machine.reads_next hnext hframes hpage
  obtain rfl : i.offset = q := hoffset.trans hip
  exact ⟨A.chart.allows hq (hip ▸ hreads), f, rest, hframes, fun host => Act.step_of_next hframes hpage hnext⟩

/-- The place of the callee is fixed by the instruction. -/
theorem Sheet.Allows.calls {S : Sheet} {Λ : Nat → Shape → Prop} (h : S.Allows Λ i σ) (hop : i.op.callsValue) :
    σ.Admits ((i.byte 0).toNat + 1) ∧ ∃ r : Act.Rootness, (i.op = .call → r = .fixed false) ∧ ∀ host program page,
      Act.perform host program page i = Act.callValue host program r (i.byte 0).toNat := by
  obtain ⟨p, op, operands⟩ := i
  obtain ⟨-, pops, pushes, heffect, hσ, -⟩ := h
  cases op with
  | call => cases of_byte? heffect; exact ⟨hσ, .fixed false, fun _ => rfl, fun _ _ _ => rfl⟩
  | rootCall => cases of_byte? heffect; exact ⟨hσ, .fixed true, nofun, fun _ _ _ => rfl⟩
  | maybeRootCall => cases of_byte? heffect; exact ⟨hσ, .inherited, nofun, fun _ _ _ => rfl⟩
  | _ => cases hop

/-- Whether a call from the frame is a root call. -/
def Act.Rootness.of (f : Frame) : Act.Rootness → Bool
  | .fixed b => b
  | .inherited => f.isRoot

theorem Going.calls (hm : Going V program functions .empty m m) (hnext : m.next? program = some i)
    (hop : i.op.callsValue) :
    ∃ f rest below arguments callee isRoot, Calls V program functions m i f rest below arguments callee isRoot := by
  obtain ⟨A, q, σ, hA, hq, hm⟩ := hm
  obtain ⟨hallows, f, rest, hframes, hstep⟩ := hm.next hA hq hnext
  obtain ⟨hadmits, r, hr, hperform⟩ := hallows.calls hop
  obtain ⟨below, arguments, callee, hstack, hcount⟩ : ∃ (below arguments : Array Value) (callee : Value),
      m.stack = below.push callee ++ arguments ∧ arguments.size = (i.byte 0).toNat := by
    refine exists_callee ?_
    have hheight := hm.shaped.height
    unfold Shape.Admits at hadmits
    omega
  -- the machine behind the call instruction, and without the callee
  have hjump : Act.jump i.next { m with steps := m.steps + 1 } =
      .ok () { m with steps := m.steps + 1, frames := { f with ip := i.next } :: rest } := by
    unfold Act.jump Act.modifyFrame
    rw [hframes]
  have hjumped := Acts.jump i.next (hm.count (m.steps + 1) (m.steps + 1))
  rw [hjump] at hjumped
  have htake :
      Act.takeCallee (i.byte 0).toNat { m with steps := m.steps + 1, frames := { f with ip := i.next } :: rest } =
        .ok callee
        { m with steps := m.steps + 1, frames := { f with ip := i.next } :: rest, stack := below ++ arguments } :=
    hcount ▸ Act.takeCallee_eq hstack
  have htaken := Acts.takeCallee hadmits hjumped.2
  rw [htake] at htaken
  refine ⟨f, rest, below, arguments, callee, r.of f, hframes, hstack, hcount,
    fun h => by rw [hr h]; rfl, htaken.1, fun host => ?_, A, _, _, hA, htaken.2⟩
  rw [hstep]
  cases host.exceeded? { m with steps := m.steps + 1 } with
  | some l => rfl
  | none =>
    simp only
    rw [hperform, ← hcount]
    exact Act.callValue_eq hstack (by cases r <;> rfl)

/-! ## What calling a value does -/

/-- What calling a value does, wherever the arguments lie and whatever the limits are: it fails, or it gives a value at
once, or it enters a page. -/
inductive CallOutcome (host : Host) (V : View) (program : Program) (callee : Value) (arguments : Array Value)
    (world : World) : Prop where
  | fails (e : Fault) (h : ∀ (limits : Limits) (isRoot : Bool) (below : Array Value) (s : Machine),
      s.stack = below ++ arguments → s.world = world → ∃ t, t.frames = s.frames ∧ t.handlers = s.handlers ∧
        Act.call (host.under limits) program callee arguments.size isRoot s = .error e t)
  | gives (v : Value) (world' : World) (h : ∀ (limits : Limits) (isRoot : Bool) (below : Array Value) (s : Machine),
      s.stack = below ++ arguments → s.world = world →
        Act.call (host.under limits) program callee arguments.size isRoot s = .ok ()
          { s with stack := below.push v, world := world' })
  | enters (index : UInt16) (environment? : Option Addr) (page : Page) (supplies : V.Supplies index environment?)
      (found : program.page? index = some page) (arity : arguments.size = page.arity.toNat)
      (h : ∀ (limits : Limits) (isRoot : Bool) (below : Array Value) (s : Machine),
        s.stack = below ++ arguments → Act.call (host.under limits) program callee arguments.size isRoot s =
          if limits.callDepth ≤ s.frames.length then .error (.ofCause (.limitExceeded .callDepth limits.callDepth)) s
          else .ok () { s with frames := .new index below.size isRoot environment? :: s.frames })

theorem View.Supplies.page (hhosts : V.hosts = program.Hosts functions) {index : UInt16} {environment? : Option Addr}
    (h : V.Supplies index environment?) : ∃ page, program.page? index = some page := by
  cases environment? with
  | none =>
    have h : V.hosts index 0 := h
    rw [hhosts] at h
    exact h.imp fun _ h => h.1
  | some e =>
    obtain ⟨cells, -, h, -⟩ := h
    rw [hhosts] at h
    exact h.imp fun _ h => h.1

theorem callOutcome_enter (hhosts : V.hosts = program.Hosts functions) {index : UInt16} {environment? : Option Addr}
    (hsupplies : V.Supplies index environment?) {callee : Value} (arguments : Array Value) (world : World)
    (h : ∀ limits isRoot, Act.call (host.under limits) program callee arguments.size isRoot =
      Act.enter (host.under limits) program index environment? arguments.size isRoot) :
    CallOutcome host V program callee arguments world := by
  obtain ⟨page, hpage⟩ := hsupplies.page hhosts
  have henter (limits : Limits) (isRoot : Bool) (s : Machine) :
      Act.call (host.under limits) program callee arguments.size isRoot s =
      (if arguments.size ≠ page.arity.toNat then
        Act.fail (.argumentCount page.name page.arity.toNat.repr arguments.size)
      else if limits.callDepth ≤ s.frames.length then Act.fail (.limitExceeded .callDepth limits.callDepth)
      else if s.stack.size < arguments.size then Act.breach .stackUnderflow
      else modify fun m => { m with
        frames := .new index (m.stack.size - arguments.size) isRoot environment? :: m.frames } : Act Unit) s := by
    rw [h]
    unfold Act.enter
    rw [hpage]
    rfl
  by_cases harity : arguments.size = page.arity.toNat
  · refine .enters index environment? page hsupplies hpage harity fun limits isRoot below s hstack => ?_
    have hsize : s.stack.size = below.size + arguments.size := by rw [hstack, Array.size_append]
    rw [henter, if_neg (Decidable.not_not.2 harity), if_neg (by omega : ¬s.stack.size < arguments.size)]
    split
    · rfl
    · show EStateM.Result.ok () { s with
        frames := .new index (s.stack.size - arguments.size) isRoot environment? :: s.frames } = _
      rw [hsize, Nat.add_sub_cancel]
  · refine .fails (.ofCause (.argumentCount page.name page.arity.toNat.repr arguments.size))
      fun limits isRoot _ s _ _ => ⟨s, rfl, rfl, ?_⟩
    rw [henter, if_pos harity]
    rfl

theorem Act.pop_eq {v : Value} {below : Array Value} (h : s.stack = below.push v) :
    pop s = .ok v { s with stack := below } := by
  obtain ⟨stack, frames, iterators, handlers, pending, steps, world⟩ := s
  obtain rfl : stack = below.push v := h
  unfold pop
  simp only [Array.back?_push, Array.pop_push]

theorem Act.popMany_eq {below arguments : Array Value} (h : s.stack = below ++ arguments) :
    Act.popMany arguments.size s = .ok arguments { s with stack := below } := by
  obtain ⟨stack, frames, iterators, handlers, pending, steps, world⟩ := s
  obtain rfl : stack = below ++ arguments := h
  have hsize : (below ++ arguments).size = below.size + arguments.size := Array.size_append
  have htaken : (below ++ arguments).extract ((below ++ arguments).size - arguments.size) (below ++ arguments).size =
      arguments := by
    rw [hsize, Nat.add_sub_cancel]
    exact (@extract_append_top _ below arguments 0 _).trans Array.extract_size
  have hrest : (below ++ arguments).shrink ((below ++ arguments).size - arguments.size) = below := by
    rw [hsize, Nat.add_sub_cancel]
    exact (@shrink_append _ below arguments 0).trans (by simp)
  unfold Act.popMany
  simp only
  rw [if_neg (by omega), htaken, hrest]

theorem callOutcome_library (f : LibraryFunction) (arguments : Array Value) (world : World) :
    CallOutcome host V program (.function (.library f)) arguments world := by
  cases hcall : f.callWith host.carryOut arguments.toList world with
  | ok v world' =>
    refine .gives v world' fun limits isRoot below s hstack hworld => ?_
    have heffect : Act.effect (f.callWith host.carryOut arguments.toList) { s with stack := below } =
        .ok v { s with stack := below, world := world' } := by
      unfold Act.effect
      simp only [hworld, hcall]
    exact (bind_run_ok (Act.popMany_eq hstack)).trans (bind_run_ok heffect)
  | error e world' =>
    refine .fails e fun limits isRoot below s hstack hworld =>
      ⟨{ s with stack := below, world := world' }, rfl, rfl, ?_⟩
    have heffect : Act.effect (f.callWith host.carryOut arguments.toList) { s with stack := below } =
        .error e { s with stack := below, world := world' } := by
      unfold Act.effect
      simp only [hworld, hcall]
    exact (bind_run_ok (Act.popMany_eq hstack)).trans (bind_run_error heffect)

/-- What calling a value does. -/
theorem callOutcome (hhosts : V.hosts = program.Hosts functions) {callee : Value} (hcallee : callee.Alike V callee)
    (arguments : Array Value) (world : World) : CallOutcome host V program callee arguments world := by
  have hfail (h : ∀ (limits : Limits) (isRoot : Bool),
    Act.call (host.under limits) program callee arguments.size isRoot =
      Act.fail (.notCallable callee.kind)) : CallOutcome host V program callee arguments world :=
    .fails (.ofCause (.notCallable callee.kind)) fun limits isRoot _ s _ _ => ⟨s, rfl, rfl, by rw [h]; rfl⟩
  cases callee with
  | function f =>
    cases f with
    | page index name =>
      exact callOutcome_enter hhosts (show V.Supplies index none from hcallee.2) arguments world fun _ _ => rfl
    | closure index environment =>
      exact callOutcome_enter hhosts (show V.Supplies index (some environment) from hcallee.2)
        arguments world fun _ _ => rfl
    | library f => exact callOutcome_library f arguments world
  | _ => exact hfail fun _ _ => rfl

/-! ## The run of a call -/

section

variable {f : Frame} {rest : List Frame} {below arguments : Array Value} {callee : Value} {isRoot : Bool} {m₁ : Machine}

/-- What lies below the call. -/
def Calls.context (h : Calls V program functions m i f rest below arguments callee isRoot) : Context where
  stack := below
  frames := { f with ip := i.next } :: rest
  iterators := m.iterators
  handlers := m.handlers
  pending := m.pending
  bounded := by
    obtain ⟨A, q, σ, hA, hm⟩ := h.inside
    exact hm.bounded hA

theorem Calls.length (h : Calls V program functions m i f rest below arguments callee isRoot) :
    h.context.frames.length = m.frames.length := by
  rw [h.frames]
  rfl

theorem Going.length {m' : Machine} (h : Going V program functions k m m') :
    m.frames.length = m'.frames.length + k.frames.length ∧ m'.Active := by
  obtain ⟨A, q, σ, -, -, hm⟩ := h
  obtain ⟨cells, own, hframes, -⟩ := hm.shaped.active
  refine ⟨by rw [hm.frames, List.length_append, List.length_map], ?_⟩
  unfold Machine.Active
  rw [hframes]
  exact nofun

theorem Going.deeper {m' : Machine} (h : Going V program functions k m m') : k.frames.length < m.frames.length := by
  have hactive := List.length_pos_iff.2 h.length.2
  have := h.length.1
  omega

namespace Act

/-- A fault for which there are only handlers of outer calls leads back to one of these. -/
theorem length_of_step_error {e : Fault} {t : Machine} {n : Nat} (hstep : step host program m = .error e t)
    (hhandlers : ∀ h ∈ t.handlers, h.frameDepth ≤ n) (hturn : turn host program m = .ok () s) :
    s.frames.length ≤ n := by
  rw [turn_of_error hstep] at hturn
  obtain ⟨h, rest, f, callers, -, hcons, hkeep, hframes⟩ := recover_ok hturn
  have hlength := length_keepLast_le h.frameDepth t.frames
  rw [hkeep] at hlength
  rw [hframes]
  exact Nat.le_trans hlength (hhandlers h (by rw [hcons]; exact List.mem_cons_self ..))

/-- Nothing happens during an instruction that calls nothing. -/
theorem During.eq (hturn : ∀ t, Act.turn host program m = .ok () t → t.frames.length ≤ m.frames.length)
    (h : During host program m s) : s = m := by
  induction h with
  | here => rfl
  | turn _ next deeper ih =>
    subst ih
    exact absurd deeper (Nat.not_lt.2 (hturn _ next))

/-- The context of a call stays as it is. -/
theorem During.cases [host.Lawful]
    (hserves : ∀ id index, functions.lookup id = some index → program.Hosts functions index 0) {m₁' : Machine}
    (hstep : step host program m = .ok () m₁) (hgoing : Going V program functions k m₁ m₁')
    (hlength : k.frames.length = m.frames.length) (h : During host program m s) :
    s = m ∨ ∃ V s', Going V program functions k s s' := by
  induction h with
  | here => exact .inl rfl
  | @turn s t _ next deeper ih =>
    rcases ih with rfl | ⟨V', s', hs⟩
    · cases next.symm.trans (turn_of_ok hstep)
      exact .inr ⟨V, m₁', hgoing⟩
    · obtain ⟨t', t'', hturn, V'', hgoing | hdone⟩ | ⟨e, t', t'', hstep', -, ⟨A, q, σ, -, hinside⟩, hnil⟩ :
          (∃ s s', Act.turn host program _ = .ok () s ∧ Onward program functions k s s') ∨
          _ := turn_cases host hserves hs
      · cases next.symm.trans hturn
        exact .inr ⟨V'', t'', hgoing⟩
      · cases next.symm.trans hturn
        rw [hdone.frames, hdone.returned, ← hlength] at deeper
        exact absurd deeper (Nat.lt_irrefl _)
      · refine absurd deeper (Nat.not_lt.2 (length_of_step_error hstep' (fun h hh => ?_) next))
        rw [hinside.handlers, hnil] at hh
        rw [← hlength]
        exact k.bounded h hh

end Act

/-! ## What a call leaves -/

/-- Only the value of a call is left, in place of the callee and the arguments. -/
structure Replaces (m : Machine) (i : Instruction) (f : Frame) (rest : List Frame) (below : Array Value) (s : Machine) :
    Prop where
  stack : ∃ v, s.stack = below.push v
  frames : s.frames = { f with ip := i.next } :: rest
  iterators : s.iterators = m.iterators
  handlers : s.handlers = m.handlers

theorem Done.replaces (h : Calls V program functions m i f rest below arguments callee isRoot) {V' : View}
    {s' : Machine} (hs : Done V' h.context s s') : Replaces m i f rest below s := by
  obtain ⟨top, hstack, htop⟩ := hs.stack
  obtain ⟨its, hiterators, hits⟩ := hs.iterators
  rw [hs.exhausted] at hits
  cases hits
  have hone : top.size = 1 := htop.size.symm.trans hs.result
  obtain ⟨v, rfl⟩ := Array.size_eq_one_iff.1 hone
  refine ⟨⟨v, hstack⟩, ?_, hiterators, ?_⟩
  · rw [hs.frames, hs.returned]
    rfl
  · rw [hs.handlers, hs.closed]
    rfl

theorem Calls.step_cases (h : Calls V program functions m i f rest below arguments callee isRoot) (host : Host) :
    (∃ l max, l ≠ .repeatedLength ∧ Act.step host program m = .error (.ofCause (.limitExceeded l max))
      { m with steps := m.steps + 1 }) ∨
      Act.step host program m =
        Act.call host program callee arguments.size isRoot (m.calling i f rest below arguments) := by
  have hstep := h.step host
  cases hlimits : host.exceeded? { m with steps := m.steps + 1 } with
  | none =>
    rw [hlimits] at hstep
    exact .inr hstep
  | some l =>
    rw [hlimits] at hstep
    exact .inl ⟨l.1, l.2, Host.exceeded?_ne hlimits, hstep⟩

theorem Calls.bounded (h : Calls V program functions m i f rest below arguments callee isRoot) :
    ∀ h ∈ m.handlers, h.frameDepth ≤ m.frames.length := by
  have := h.context.bounded
  rwa [h.length] at this

/-- An instruction that fails calls nothing. -/
theorem Calls.during_of_error (h : Calls V program functions m i f rest below arguments callee isRoot) {e : Fault}
    {t : Machine} (hstep : Act.step host program m = .error e t) (hhandlers : t.handlers = m.handlers)
    (hs : Act.During host program m s) : s = m :=
  hs.eq fun _ hturn => Act.length_of_step_error hstep (fun h' hh => h.bounded h' (hhandlers ▸ hh)) hturn

/-- The page that a call enters runs on top of the context of the call. -/
theorem Calls.entered_going (hserves : ∀ id index, functions.lookup id = some index → program.Hosts functions index 0)
    (h : Calls V program functions m i f rest below arguments callee isRoot) {index : UInt16}
    {environment? : Option Addr} {page : Page} (hsupplies : V.Supplies index environment?)
    (hfound : program.page? index = some page) (harity : arguments.size = page.arity.toNat) :
    Going V program functions h.context
      { m.calling i f rest below arguments with
        frames := .new index below.size isRoot environment? :: (m.calling i f rest below arguments).frames }
      (.entered index environment? isRoot arguments m.world) := by
  obtain ⟨A, q, σ, hA, hm⟩ := h.inside
  exact hm.enters hserves hA rfl isRoot hsupplies hfound harity

/-- When a call returns, only its value is left. -/
theorem Calls.replaces [host.Lawful]
    (hserves : ∀ id index, functions.lookup id = some index → program.Hosts functions index 0)
    (h : Calls V program functions m i f rest below arguments callee isRoot) (hs : Act.Returns host program m s) :
    Replaces m i f rest below s := by
  obtain ⟨s', hduring, hlast, hlength⟩ := hs
  have herror {e : Fault} {t : Machine} (hstep : Act.step host program m = .error e t)
      (hhandlers : t.handlers = m.handlers) : Replaces m i f rest below s := by
    obtain rfl := h.during_of_error hstep hhandlers hduring
    cases hstep.symm.trans hlast
  obtain ⟨A, q, σ, hA, -⟩ := h.inside
  rcases h.step_cases host with ⟨l, max, -, hstep⟩ | hstep
  · exact herror hstep rfl
  cases callOutcome hA.hosts h.alike arguments m.world with
  | fails e hcall =>
    obtain ⟨t, -, hhandlers, ht⟩ := hcall host.toLimits isRoot below (m.calling i f rest below arguments) rfl rfl
    exact herror (hstep.trans ht) hhandlers
  | gives v world hcall =>
    have hgives := hstep.trans (hcall host.toLimits isRoot below (m.calling i f rest below arguments) rfl rfl)
    have hflat : s' = m := hduring.eq fun t hturn => by
      cases hturn.symm.trans (Act.turn_of_ok hgives)
      exact Nat.le_of_eq h.length
    subst hflat
    cases hlast.symm.trans hgives
    exact ⟨⟨v, rfl⟩, rfl, rfl, rfl⟩
  | enters index environment? page hsupplies hfound harity hcall =>
    rw [hcall host.toLimits isRoot below (m.calling i f rest below arguments) rfl] at hstep
    split at hstep
    · exact herror hstep rfl
    · have hgoing := h.entered_going hserves hsupplies hfound harity
      rcases hduring.cases hserves hstep hgoing h.length with rfl | ⟨V', s'', hs⟩
      · have hdeeper : s'.frames.length < s.frames.length := by
          cases hlast.symm.trans hstep
          exact h.length ▸ hgoing.deeper
        omega
      · rcases ShellVM.step_cases host hserves hs with ⟨t, t', ht, V'', hgoing' | hdone⟩ | ⟨e, t, t', ht, -⟩
        · have hdeeper : m.frames.length < s.frames.length := by
            cases hlast.symm.trans ht
            exact h.length ▸ hgoing'.deeper
          omega
        · cases hlast.symm.trans ht
          exact hdone.replaces h
        · cases hlast.symm.trans ht

end

end ShellVM
