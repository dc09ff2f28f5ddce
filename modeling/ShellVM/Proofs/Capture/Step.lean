import ShellVM.Proofs.Capture.Act
import ShellVM.Proofs.Region.Handlers

/-!
# What steps do to variables in cells

`Does` says all that an instruction can do to the calls, the handlers, the cells put aside, and the stores of cells and
environments. A step carries out an instruction, ends a call or fails (`Machine.step_does`).
-/

namespace ShellVM

variable {host : Host} {program : Program} {page : Page} {i : Instruction} {m s : Machine} {f : Frame}
  {rest : List Frame}

/-- The value is a function whose calls run a page with an environment. -/
def Value.Runs (v : Value) (index : UInt16) (environment? : Option Addr) : Prop :=
  (∃ name, v = .function (.page index name) ∧ environment? = none) ∨
    ∃ environment, v = .function (.closure index environment) ∧ environment? = some environment

/-- The variable in a cell that an instruction is about. -/
def Frame.accessed? (f : Frame) (w : World) (i : Instruction) : Option Addr :=
  match i.op with
  | .loadCell | .storeCell | .captureLocal => f.cell? (i.byte 0)
  | .loadCapture | .storeCapture | .captureOuter => f.environment?.bind fun e => (w.environment e)[(i.byte 0).toNat]?
  | _ => none

/-- A call that the instruction of the call `f` starts is a root call only if the instruction says so, or if it leaves
that to `f`, which is one. -/
def Instruction.Roots (i : Instruction) (f : Frame) (isRoot : Bool) : Prop :=
  isRoot = true → i.op = .rootCall ∨ i.op = .maybeRootCall ∧ f.isRoot = true

/-- The innermost call `f` of `m` has carried out the instruction `i` of its page. -/
inductive Does (page : Page) (i : Instruction) (m : Machine) (f : Frame) (rest : List Frame) : Machine → Prop where
  /-- The call goes on somewhere. -/
  | goes {s : Machine} (q : Nat) (common : i.op.isCommon = true) (notAccess : i.op.usesCell = false)
      (place : i.op.falls = true ∧ q = i.next ∨ i.target? = some q)
      (tracked : s.tracked = ({ f with ip := q } :: rest, m.handlers, m.pending, m.world.variables)) :
        Does page i m f rest s
  /-- The call goes to its end. -/
  | returns {s : Machine} (hop : i.op = .ret)
      (tracked : s.tracked = ({ f with ip := page.code.size } :: rest, m.handlers, m.pending, m.world.variables)) :
      Does page i m f rest s
  | enters {s : Machine} (g : Frame) (v : Value) (common : i.op.isCommon = true) (notAccess : i.op.usesCell = false)
      (falls : i.op.falls = true) (callee : v ∈ m.stack) (runs : v.Runs g.page g.environment?) (start : g.ip = 0)
      (cells : g.cells = []) (roots : i.Roots f g.isRoot)
      (tracked : s.tracked = (g :: { f with ip := i.next } :: rest, m.handlers, m.pending, m.world.variables)) :
      Does page i m f rest s
  | loads {s : Machine} (a : Addr) (hop : i.op = .loadCell ∨ i.op = .loadCapture)
      (place : f.accessed? m.world i = some a) (pushed : s.stack = m.stack.push (m.world.cell a))
      (tracked : s.tracked = ({ f with ip := i.next } :: rest, m.handlers, m.pending, m.world.variables)) :
      Does page i m f rest s
  | stores {s : Machine} (a : Addr) (v : Value) (hop : i.op = .storeCell ∨ i.op = .storeCapture)
      (place : f.accessed? m.world i = some a) (top : m.stack.back? = some v)
      (tracked : s.tracked = ({ f with ip := i.next } :: rest, m.handlers, m.pending,
        (m.world.setCell a v).variables)) : Does page i m f rest s
  | makes {s : Machine} (v : Value) (hop : i.op = .makeCell) (value : m.stack[f.base + (i.byte 0).toNat]? = some v)
      (tracked :
        s.tracked = ({ f with ip := i.next }.setCell (i.byte 0) m.world.cells.size :: rest, m.handlers, m.pending,
        m.world.cells.push v, m.world.environments)) : Does page i m f rest s
  | puts {s : Machine} (a : Addr) (hop : i.op = .captureLocal ∨ i.op = .captureOuter)
      (place : f.accessed? m.world i = some a)
      (tracked : s.tracked = ({ f with ip := i.next } :: rest, m.handlers, a :: m.pending, m.world.variables)) :
      Does page i m f rest s
  | closes {s : Machine} (index : UInt16) (hop : i.op = .makeClosure)
      (constant : page.constants.get? (i.word 0) = some (.page index)) (enough : (i.byte 2).toNat ≤ m.pending.length)
      (pushed : s.stack = m.stack.push (.function (.closure index m.world.environments.size)))
      (tracked : s.tracked = ({ f with ip := i.next } :: rest, m.handlers, m.pending.drop (i.byte 2).toNat,
        m.world.cells, m.world.environments.push (m.pending.take (i.byte 2).toNat).reverse)) : Does page i m f rest s
  | opens {s : Machine} (h : Handler) (hop : i.op = .enterTry) (depth : h.frameDepth = m.frames.length)
      (target : i.target? = some h.catchIp)
      (tracked : s.tracked = ({ f with ip := i.next } :: rest, h :: m.handlers, m.pending, m.world.variables)) :
      Does page i m f rest s
  | ends {s : Machine} (h : Handler) (outer : List Handler) (hop : i.op = .endTry) (handlers : m.handlers = h :: outer)
      (tracked : s.tracked = ({ f with ip := i.next } :: rest, outer, m.pending, m.world.variables)) :
        Does page i m f rest s

namespace Act

/-- The act fails without having changed anything, or has carried out the instruction. -/
def Carries (page : Page) (i : Instruction) (m : Machine) (f : Frame) (rest : List Frame)
    (r : EStateM.Result Fault Machine Unit) : Prop :=
  Outcome (fun _ s => Does page i m f rest s) (fun s => s.tracked = (m.fetched f rest i).tracked) r

namespace Carries

theorem ofError {e : Fault} (h : s.tracked = (m.fetched f rest i).tracked) : Carries page i m f rest (.error e s) := h

/-- An act that changes nothing, behind others that change nothing. -/
theorem ofSpares {x : Act Unit} (h : x.Spares) (common : i.op.isCommon = true) (notAccess : i.op.usesCell = false)
    (falls : i.op.falls = true) (hs : s.tracked = (m.fetched f rest i).tracked) : Carries page i m f rest (x s) := by
  have hx := h s
  cases hrun : x s with
  | ok _ t =>
    rw [hrun] at hx
    exact .goes i.next common notAccess (.inl ⟨falls, rfl⟩) (Eq.trans (show t.tracked = s.tracked from hx) hs)
  | error e t =>
    rw [hrun] at hx
    exact ofError (Eq.trans (show t.tracked = s.tracked from hx) hs)

/-- A jump behind acts that change nothing. -/
theorem jumpTo (common : i.op.isCommon = true) (notAccess : i.op.usesCell = false)
    (h : s.tracked = (m.fetched f rest i).tracked) : Carries page i m f rest (Act.jumpTo i s) := by
  unfold Act.jumpTo
  cases htarget : i.target? with
  | none => exact h
  | some t =>
    obtain ⟨hframes, hhandlers, hpending, hvariables⟩ :
        s.frames = (m.fetched f rest i).frames ∧ s.handlers = m.handlers ∧ s.pending = m.pending ∧
          s.world.variables = m.world.variables := by
      simp only [Machine.tracked, Prod.mk.injEq] at h
      exact h
    show Carries page i m f rest (modifyFrame _ s)
    unfold modifyFrame
    rw [hframes]
    refine .goes t common notAccess (.inr htarget) ?_
    show ({ f with ip := t } :: rest, s.handlers, s.pending, s.world.variables) = _
    rw [hhandlers, hpending, hvariables]

/-- What comes behind an act that changes nothing. -/
theorem bind {α : Type} {x : Act α} {g : α → Act Unit} (hx : x.Spares) (hs : s.tracked = (m.fetched f rest i).tracked)
    (h : ∀ a t, t.tracked = (m.fetched f rest i).tracked → Carries page i m f rest (g a t)) :
    Carries page i m f rest ((x >>= g) s) := by
  have hxs := hx s
  refine bind_run_cases (fun a t hrun => ?_) fun e t hrun => ?_
  · rw [hrun] at hxs
    exact h a t (Eq.trans (show t.tracked = s.tracked from hxs) hs)
  · rw [hrun] at hxs
    exact ofError (Eq.trans (show t.tracked = s.tracked from hxs) hs)

theorem jumpIf (common : i.op.isCommon = true) (notAccess : i.op.usesCell = false) (falls : i.op.falls = true)
    {x : Act Value} (hx : x.Spares) (expected : Bool) :
    Carries page i m f rest ((do Act.jumpIf expected (← x) i) (m.fetched f rest i)) := by
  refine bind hx rfl fun v t ht => bind (effect_spares v.truth_contained) ht fun b u hu => ?_
  show Carries page i m f rest ((if b == expected then Act.jumpTo i else pure ()) u)
  split
  · exact jumpTo common notAccess hu
  · exact .goes i.next common notAccess (.inl ⟨falls, rfl⟩) hu

theorem iterate (hop : i.op = .forIter) : Carries page i m f rest (Act.iterate i (m.fetched f rest i)) := by
  have common : i.op.isCommon = true := by rw [hop]; rfl
  have notAccess : i.op.usesCell = false := by rw [hop]; rfl
  have falls : i.op.falls = true := by rw [hop]; rfl
  unfold Act.iterate
  rw [get_bind_run]
  cases (m.fetched f rest i).iterators with
  | nil => exact ofError rfl
  | cons it its =>
    refine bind (effect_spares it.next_contained) rfl fun ⟨item?, it'⟩ t ht => ?_
    have hmoved : ({ t with iterators := it' :: its } : Machine).tracked = (m.fetched f rest i).tracked := ht
    cases item? with
    | some v => exact .goes i.next common notAccess (.inl ⟨falls, rfl⟩) hmoved
    | none => exact jumpTo common notAccess hmoved

theorem enter {index : UInt16} {environment? : Option Addr} {count : Nat} {isRoot : Bool} {v : Value}
    (common : i.op.isCommon = true) (notAccess : i.op.usesCell = false) (falls : i.op.falls = true)
    (callee : v ∈ m.stack) (runs : v.Runs index environment?) (roots : i.Roots f isRoot)
    (hs : s.tracked = (m.fetched f rest i).tracked) :
    Carries page i m f rest (Act.enter host program index environment? count isRoot s) := by
  unfold Act.enter
  cases program.page? index with
  | none => exact ofError hs
  | some page' =>
    show Carries page i m f rest
      ((if count ≠ page'.arity.toNat then _ else if host.callDepth ≤ s.frames.length then _ else
      if s.stack.size < count then _ else _ : Act Unit) s)
    split
    · exact ofError hs
    split
    · exact ofError hs
    split
    · exact ofError hs
    · obtain ⟨hframes, hothers⟩ := Prod.mk.inj hs
      refine .enters (.new index (s.stack.size - count) isRoot environment?) v common notAccess falls
        callee runs rfl rfl roots ?_
      show (Frame.new index (s.stack.size - count) isRoot environment? :: s.frames, _) = _
      rw [hframes]
      exact congrArg _ hothers

theorem callValue [host.Lawful] {r : Rootness} (common : i.op.isCommon = true) (notAccess : i.op.usesCell = false)
    (falls : i.op.falls = true) (roots : ∀ b s, root r (m.fetched f rest i) = .ok b s → i.Roots f b) (count : Nat) :
    Carries page i m f rest (Act.callValue host program r count (m.fetched f rest i)) := by
  unfold Act.callValue
  rcases root_eq r (m.fetched f rest i) with ⟨b, hb⟩ | hb
  · rw [bind_run_ok hb]
    have htake := takeCallee_spares count (m.fetched f rest i)
    cases hcallee : takeCallee count (m.fetched f rest i) with
    | error e t =>
      rw [hcallee] at htake
      rw [bind_run_error hcallee]
      exact htake
    | ok v t =>
      rw [hcallee] at htake
      rw [bind_run_ok hcallee]
      have hv : v ∈ m.stack := by
        unfold takeCallee at hcallee
        split at hcallee <;> cases hcallee
        exact Array.getElem_mem _
      unfold Act.call
      split
      · exact enter common notAccess falls hv (.inl ⟨_, rfl, rfl⟩) (roots b _ hb) htake
      · exact enter common notAccess falls hv (.inr ⟨_, rfl, rfl⟩) (roots b _ hb) htake
      · next g => exact ofSpares (callLibrary_spares g count) common notAccess falls htake
      · exact ofError htake
  · rw [bind_run_error hb]
    exact ofError rfl

/-! ## Variables in cells -/

theorem cell_run (m : Machine) (f : Frame) (rest : List Frame) (i : Instruction) (slot : UInt8) :
    Act.cell slot (m.fetched f rest i) = match f.cell? slot with
    | some a => .ok a (m.fetched f rest i)
    | none => .error (.ofBreach (.slotNotBoxed slot.toNat)) (m.fetched f rest i) := by
  show (match f.cell? slot with | some a => pure a | none => breach _ : Act Addr) _ = _
  cases f.cell? slot <;> rfl

theorem capture_run (m : Machine) (f : Frame) (rest : List Frame) (i : Instruction) (index : UInt8) :
    (∃ e, Act.capture index (m.fetched f rest i) = .error e (m.fetched f rest i)) ∨
    ∃ a, (f.environment?.bind fun e => (m.world.environment e)[index.toNat]?) = some a ∧
      Act.capture index (m.fetched f rest i) = .ok a (m.fetched f rest i) := by
  have hframe : Act.frame (m.fetched f rest i) = .ok { f with ip := i.next } (m.fetched f rest i) := rfl
  have hworld : (m.fetched f rest i).world = m.world := rfl
  unfold Act.capture
  rw [bind_run_ok hframe]
  dsimp only
  cases f.environment? with
  | none => exact .inl ⟨_, rfl⟩
  | some e =>
    dsimp only [Option.bind_some]
    rw [get_bind_run, hworld]
    cases (m.world.environment e)[index.toNat]? with
    | none => exact .inl ⟨_, rfl⟩
    | some a => exact .inr ⟨a, rfl, rfl⟩

/-- The address of the variable that the instruction is about, if the instruction finds it. -/
theorem accessed (x : Act Addr)
    (hx : i.op = .loadCell ∨ i.op = .storeCell ∨ i.op = .captureLocal → x = Act.cell (i.byte 0))
    (hx' : i.op = .loadCapture ∨ i.op = .storeCapture ∨ i.op = .captureOuter → x = Act.capture (i.byte 0))
    (hop : (i.op = .loadCell ∨ i.op = .storeCell ∨ i.op = .captureLocal) ∨
      i.op = .loadCapture ∨ i.op = .storeCapture ∨ i.op = .captureOuter) {g : Addr → Act Unit}
    (h : ∀ a, f.accessed? m.world i = some a → Carries page i m f rest (g a (m.fetched f rest i))) :
    Carries page i m f rest ((x >>= g) (m.fetched f rest i)) := by
  have herror {e : Fault} (hrun : x (m.fetched f rest i) = .error e (m.fetched f rest i)) :
      Carries page i m f rest ((x >>= g) (m.fetched f rest i)) := by
    rw [bind_run_error hrun]
    exact ofError rfl
  rcases hop with hop | hop
  · obtain rfl := hx hop
    have hplace : f.accessed? m.world i = f.cell? (i.byte 0) := by
      unfold Frame.accessed?
      rcases hop with hop | hop | hop <;> rw [hop]
    have hrun := cell_run m f rest i (i.byte 0)
    cases ha : f.cell? (i.byte 0) with
    | none =>
      rw [ha] at hrun
      exact herror hrun
    | some a =>
      rw [ha] at hrun
      rw [bind_run_ok hrun]
      exact h a (hplace.trans ha)
  · obtain rfl := hx' hop
    have hplace : f.accessed? m.world i =
        f.environment?.bind fun e => (m.world.environment e)[(i.byte 0).toNat]? := by
      unfold Frame.accessed?
      rcases hop with hop | hop | hop <;> rw [hop]
    rcases capture_run m f rest i (i.byte 0) with ⟨e, hrun⟩ | ⟨a, ha, hrun⟩
    · exact herror hrun
    · rw [bind_run_ok hrun]
      exact h a (hplace.trans ha)

theorem load (hop : i.op = .loadCell ∨ i.op = .loadCapture) {a : Addr} (ha : f.accessed? m.world i = some a) :
    Carries page i m f rest ((do Act.push (← Act.readCell a)) (m.fetched f rest i)) := .loads a hop ha rfl rfl

theorem store (hop : i.op = .storeCell ∨ i.op = .storeCapture) {a : Addr} {v : Value}
    (ha : f.accessed? m.world i = some a) (hv : m.stack.back? = some v) :
    Carries page i m f rest (Act.writeCell a v (m.fetched f rest i)) := .stores a v hop ha hv rfl

theorem peek {g : Value → Act Unit}
    (h : ∀ v, m.stack.back? = some v → Carries page i m f rest (g v (m.fetched f rest i))) :
    Carries page i m f rest ((Act.peek >>= g) (m.fetched f rest i)) := by
  show Carries page i m f rest (EStateM.bind Act.peek g _)
  unfold EStateM.bind
  have hstack : (m.fetched f rest i).stack = m.stack := rfl
  unfold Act.peek
  rw [hstack]
  cases hv : m.stack.back? with
  | some v => exact h v hv
  | none => exact ofError rfl

theorem makeCell (hop : i.op = .makeCell) : Carries page i m f rest (Act.makeCell (i.byte 0) (m.fetched f rest i)) := by
  show Carries page i m f rest (EStateM.bind (Act.load (i.byte 0)) _ _)
  unfold EStateM.bind Act.load
  by_cases hslot : f.base + (i.byte 0).toNat < m.stack.size
  · have hplace : (m.fetched f rest i).slot (i.byte 0) = .ok ⟨f.base + (i.byte 0).toNat, hslot⟩ := dif_pos hslot
    rw [hplace]
    exact .makes m.stack[f.base + (i.byte 0).toNat] hop (Array.getElem?_eq_getElem hslot) rfl
  · have hplace : (m.fetched f rest i).slot (i.byte 0) = .error (.slotOffStack (i.byte 0).toNat) := dif_neg hslot
    rw [hplace]
    exact ofError rfl

theorem makeClosure (hop : i.op = .makeClosure) :
    Carries page i m f rest (Act.makeClosure page (i.word 0) (i.byte 2).toNat (m.fetched f rest i)) := by
  unfold Act.makeClosure
  cases hkey : page.constants.get? (i.word 0) with
  | none => exact ofError rfl
  | some c =>
    cases c with
    | page index =>
      show Carries page i m f rest
        ((if m.pending.length < (i.byte 2).toNat then _ else _ : Act Unit) (m.fetched f rest i))
      split
      · exact ofError rfl
      · next henough => exact .closes index hop hkey (Nat.le_of_not_lt henough) rfl rfl
    | _ => exact ofError rfl

theorem openTry (hframes : m.frames = f :: rest) (hop : i.op = .enterTry) :
    Carries page i m f rest (Act.openTry i (m.fetched f rest i)) := by
  unfold Act.openTry
  cases htarget : i.target? with
  | none => exact ofError rfl
  | some t =>
    have hdepth : (m.fetched f rest i).frames.length = m.frames.length := by rw [hframes]; rfl
    exact .opens ⟨(m.fetched f rest i).frames.length, m.stack.size, m.iterators.length, t⟩ hop hdepth htarget rfl

theorem closeTry (hop : i.op = .endTry) : Carries page i m f rest (Act.closeTry (m.fetched f rest i)) := by
  have hfetched : (m.fetched f rest i).handlers = m.handlers := rfl
  unfold Act.closeTry
  rw [get_bind_run, hfetched]
  cases hhandlers : m.handlers with
  | nil => exact ofError rfl
  | cons h outer => exact .ends h outer hop hhandlers rfl

end Carries

/-- What an instruction of any page does. -/
theorem perform_carries [host.Lawful] (hframes : m.frames = f :: rest) :
    Carries page i m f rest (perform host program page i (m.fetched f rest i)) := by
  obtain ⟨p, op, operands⟩ := i
  cases op with
  | nop => exact .ofSpares (.pure _) rfl rfl rfl rfl
  | pop => exact .ofSpares (pop_spares.bind fun _ => .pure _) rfl rfl rfl rfl
  | popN => exact .ofSpares ((popMany_spares _).bind fun _ => .pure _) rfl rfl rfl rfl
  | unwind =>
    exact .ofSpares (pop_spares.bind fun v => (popMany_spares _).bind fun _ => push_spares v) rfl rfl rfl rfl
  | const => exact .ofSpares ((constant_spares program page _).bind fun v => push_spares v) rfl rfl rfl rfl
  | load => exact .ofSpares ((load_spares _).bind fun v => push_spares v) rfl rfl rfl rfl
  | store => exact .ofSpares (store_spares _) rfl rfl rfl rfl
  | loadCell => exact .accessed _ (fun _ => rfl) (by simp) (by simp) fun a ha => .load (.inl rfl) ha
  | loadCapture => exact .accessed _ (by simp) (fun _ => rfl) (by simp) fun a ha => .load (.inr rfl) ha
  | storeCell =>
    exact .peek fun v hv => .accessed _ (fun _ => rfl) (by simp) (by simp) fun a ha => .store (.inl rfl) ha hv
  | storeCapture =>
    exact .peek fun v hv => .accessed _ (by simp) (fun _ => rfl) (by simp) fun a ha => .store (.inr rfl) ha hv
  | captureLocal => exact .accessed _ (fun _ => rfl) (by simp) (by simp) fun a ha => .puts a (.inl rfl) ha rfl
  | captureOuter => exact .accessed _ (by simp) (fun _ => rfl) (by simp) fun a ha => .puts a (.inr rfl) ha rfl
  | makeCell => exact .makeCell rfl
  | makeClosure => exact .makeClosure rfl
  | index => exact .ofSpares index_spares rfl rfl rfl rfl
  | indexStore => exact .ofSpares indexStore_spares rfl rfl rfl rfl
  | add | sub | mul | div | mod | pow | equal | notEqual | less | lessEqual | greater | greaterEqual
  | and | or | contains =>
    exact .ofSpares (binary_spares _) rfl rfl rfl rfl
  | negate | not => exact .ofSpares (unary_spares _) rfl rfl rfl rfl
  | cast => exact .ofSpares (cast_spares _) rfl rfl rfl rfl
  | buildList => exact .ofSpares (buildList_spares _) rfl rfl rfl rfl
  | buildTuple => exact .ofSpares (buildTuple_spares _) rfl rfl rfl rfl
  | buildSet => exact .ofSpares (buildSet_spares _) rfl rfl rfl rfl
  | buildDict => exact .ofSpares (buildDictionary_spares _) rfl rfl rfl rfl
  | buildString => exact .ofSpares (buildString_spares _) rfl rfl rfl rfl
  | buildRange => exact .ofSpares (buildRange_spares _) rfl rfl rfl rfl
  | buildStruct => exact .ofSpares (buildStruct_spares page _) rfl rfl rfl rfl
  | unpack => exact .ofSpares (unpack_spares _) rfl rfl rfl rfl
  | getIter => exact .ofSpares startIteration_spares rfl rfl rfl rfl
  | endFor => exact .ofSpares endIteration_spares rfl rfl rfl rfl
  | jump => exact Carries.jumpTo rfl rfl rfl
  | jumpBackward => exact Carries.jumpTo rfl rfl rfl
  | jumpIf => exact Carries.jumpIf rfl rfl rfl peek_spares true
  | jumpIfNot => exact Carries.jumpIf rfl rfl rfl peek_spares false
  | popJumpIf => exact Carries.jumpIf rfl rfl rfl pop_spares true
  | popJumpIfNot => exact Carries.jumpIf rfl rfl rfl pop_spares false
  | forIter => exact Carries.iterate rfl
  | call => exact .callValue rfl rfl rfl (fun _ _ h hroot => by cases h; cases hroot) _
  | rootCall => exact .callValue rfl rfl rfl (fun _ _ _ _ => .inl rfl) _
  | maybeRootCall => exact .callValue rfl rfl rfl (fun _ _ h hroot => by cases h; exact .inr ⟨rfl, hroot⟩) _
  | callStd => exact .ofSpares (callStandard_spares program page _ _) rfl rfl rfl rfl
  | callProgram | rootCallProgram | maybeRootCallProgram => exact .ofSpares (callProgram_spares _ _) rfl rfl rfl rfl
  | ret => exact .returns rfl rfl
  | enterTry => exact .openTry hframes rfl
  | endTry => exact .closeTry rfl

end Act

/-- A step carries out an instruction, or ends the innermost call, or fails and changes nothing but where that call
is. -/
theorem Machine.step_does (host : Host) [host.Lawful] (program : Program) (m : Machine) :
    match Act.step host program m with
    | .ok _ s => ∃ f rest, m.frames = f :: rest ∧
        ((∃ page i, program.page? f.page = some page ∧ m.next? program = some i ∧ Does page i m f rest s) ∨
          m.next? program = none ∧ s = { m with
            steps := m.steps + 1, frames := rest, handlers := m.handlers.filter fun h => h.frameDepth ≤ rest.length })
    | .error _ s => s.handlers = m.handlers ∧ s.pending = m.pending ∧ s.world.variables = m.world.variables ∧
        (s.frames = m.frames ∨ ∃ f rest ip, m.frames = f :: rest ∧ s.frames = { f with ip } :: rest) := by
  rcases Act.step_reads host program m with
    ⟨-, ⟨f, rest, page, i, hframes, hpage, hnext, hstep⟩ | ⟨hactive, hnext, hleave⟩⟩ |
    ⟨e, hfail⟩
  · have hcarries : Act.Carries page i m f rest (Act.perform host program page i (m.fetched f rest i)) :=
      Act.perform_carries hframes
    rw [hstep]
    cases hrun : Act.perform host program page i (m.fetched f rest i) with
    | ok _ s =>
      rw [hrun] at hcarries
      exact ⟨f, rest, hframes, .inl ⟨page, i, hpage, hnext, hcarries⟩⟩
    | error e s =>
      rw [hrun] at hcarries
      have htracked : s.tracked = (m.fetched f rest i).tracked := hcarries
      simp only [Machine.tracked, Prod.mk.injEq] at htracked
      obtain ⟨hs, hhandlers, hpending, hvariables⟩ := htracked
      exact ⟨hhandlers, hpending, hvariables, .inr ⟨f, rest, i.next, hframes, hs⟩⟩
  · rw [hleave]
    cases hframes : m.frames with
    | nil => exact absurd hframes hactive
    | cons f rest =>
      exact ⟨f, rest, rfl, .inr ⟨hnext, rfl⟩⟩
  · rw [hfail]
    exact ⟨rfl, rfl, rfl, .inl rfl⟩

/-- A step that succeeds carries out the instruction that comes next. -/
theorem Machine.does_of_step [host.Lawful] (hframes : m.frames = f :: rest) (hpage : program.page? f.page = some page)
    (hnext : m.next? program = some i) (hstep : Act.step host program m = .ok () s) : Does page i m f rest s := by
  have hdoes := m.step_does host program
  rw [hstep] at hdoes
  obtain ⟨f', rest', hframes', ⟨page', i', hpage', hnext', h⟩ | ⟨hnone, -⟩⟩ := hdoes
  · obtain ⟨rfl, rfl⟩ := List.cons.inj (hframes.symm.trans hframes')
    obtain rfl := Option.some.inj (hpage.symm.trans hpage')
    obtain rfl := Option.some.inj (hnext.symm.trans hnext')
    exact h
  · cases hnext.symm.trans hnone

/-- A turn carries out an instruction, or ends the innermost call, or goes back to the innermost handler. -/
theorem Machine.turn_does [host.Lawful] {t : Machine} (hturn : Act.turn host program m = .ok () t) :
    (∃ f rest page i, m.frames = f :: rest ∧ program.page? f.page = some page ∧ m.next? program = some i ∧
      Act.step host program m = .ok () t ∧ Does page i m f rest t) ∨
    (∃ f rest, m.frames = f :: rest ∧ m.next? program = none ∧ Act.step host program m = .ok () t ∧
      t.tracked = (rest, m.handlers.filter fun h => h.frameDepth ≤ rest.length, m.pending, m.world.variables)) ∨
    ∃ e s h outer f callers, Act.step host program m = .error e s ∧ m.handlers = h :: outer ∧
      keepLast h.frameDepth m.frames = f :: callers ∧
      t.tracked = ({ f with ip := h.catchIp } :: callers, outer, m.pending, m.world.variables) := by
  have hdoes := m.step_does host program
  cases hstep : Act.step host program m with
  | ok _ s =>
    cases hturn.symm.trans (Act.turn_of_ok hstep)
    rw [hstep] at hdoes
    obtain ⟨f, rest, hframes, ⟨page, i, hpage, hnext, h⟩ | ⟨hnext, rfl⟩⟩ := hdoes
    · exact .inl ⟨f, rest, page, i, hframes, hpage, hnext, rfl, h⟩
    · exact .inr (.inl ⟨f, rest, hframes, hnext, rfl, rfl⟩)
  | error e s =>
    rw [hstep] at hdoes
    obtain ⟨hhandlers, hpending, hvariables, hframes⟩ := hdoes
    have hrecover := (Act.turn_of_error hstep).symm.trans hturn
    obtain ⟨h, outer, g, callers, hcatch, hs, hkeep, -⟩ := Act.recover_ok hrecover
    obtain ⟨trace, hrecovered⟩ := Act.recover_eq hcatch hs hkeep
    cases hrecover.symm.trans hrecovered
    obtain ⟨f, hf, hg⟩ : ∃ f, keepLast h.frameDepth m.frames = f :: callers ∧
        ({ g with ip := h.catchIp } : Frame) = { f with ip := h.catchIp } := by
      rcases hframes with hframes | ⟨f, rest, ip, hm, hframes⟩
      · exact ⟨g, hframes ▸ hkeep, rfl⟩
      · rw [hframes] at hkeep
        rw [hm]
        by_cases hdepth : h.frameDepth ≤ rest.length
        · rw [keepLast_cons hdepth] at hkeep ⊢
          exact ⟨g, hkeep, rfl⟩
        · rw [keepLast_eq_self (by rw [List.length_cons]; omega)] at hkeep ⊢
          obtain ⟨rfl, rfl⟩ := List.cons.inj hkeep
          exact ⟨f, rfl, rfl⟩
    refine .inr (.inr ⟨e, s, h, outer, f, callers, rfl, hhandlers.symm.trans hs, hf, ?_⟩)
    show ({ g with ip := h.catchIp } :: callers, outer, s.pending, s.world.variables) = _
    rw [hg, hpending, hvariables]

/-- What the parts of a machine are. -/
theorem Machine.of_tracked {frames : List Frame} {handlers : List Handler} {pending : List Addr} {cells : Array Value}
    {environments : Array (List Addr)} (h : s.tracked = (frames, handlers, pending, cells, environments)) :
    s.frames = frames ∧ s.handlers = handlers ∧ s.pending = pending ∧ s.world.cells = cells ∧
      s.world.environments = environments := by
  simpa [Machine.tracked, World.variables] using h

end ShellVM
