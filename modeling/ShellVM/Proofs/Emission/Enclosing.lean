import ShellVM.Compile.Compiler
import ShellVM.Proofs.Computation

/-!
# Pages inside pages

The body of a function or a closure is emitted while the page around it waits. However an emitter ends, the drafts
that wait are those that waited before (`Tidy`), so the page that a body was put into is always followed by the one
around it (`page_run`): it is never missing. This holds for whatever constructs take the differences of heights, as
long as these are tidy themselves.
-/

namespace ShellVM.Emit

/-- However the emitter ends, the drafts of the pages around the one at hand are as they were. -/
def Tidy {α : Type} (m : Emit α) : Prop := Preserves Workbench.enclosing m

namespace Tidy

variable {α β : Type} {m m' m'' : Emit Unit}

theorem pure (a : α) : Tidy (Pure.pure a : Emit α) := Preserves.pure a

theorem throw (e : CompileError) : Tidy (MonadExcept.throw e : Emit α) := Preserves.throw e

theorem bind {m : Emit α} {f : α → Emit β} (h : Tidy m) (h' : ∀ a, Tidy (f a)) : Tidy (m >>= f) := Preserves.bind h h'

theorem get {f : Workbench → Emit α} (h : ∀ s, Tidy (f s)) : Tidy (get >>= f) := Preserves.get h

theorem modify {f : Workbench → Workbench} (h : ∀ s, (f s).enclosing = s.enclosing) : Tidy (modify f : Emit PUnit) :=
  Preserves.modify h

theorem ite {p : Prop} [Decidable p] {m m' : Emit α} (h : Tidy m) (h' : Tidy m') : Tidy (if p then m else m') :=
  Preserves.ite h h'

theorem check {p : Prop} [Decidable p] {e : CompileError} {g : Unit → Emit α} (h : Tidy (g ())) :
    Tidy (if p then (MonadExcept.throw e : Emit Unit) >>= g else g ()) :=
  .ite (.bind (.throw e) fun _ => h) h

theorem draft (f : Draft → Draft) : Tidy (modifyDraft f) := .modify fun _ => rfl

/-! ## Instructions -/

theorem size : Tidy Emit.size := .get fun _ => .pure _

theorem height : Tidy Emit.height := .get fun _ => .pure _

theorem popHeight (n : Nat) : Tidy (popHeight n) := .get fun _ => .check (.draft _)

theorem op (o : Op) (operands : List UInt8) : Tidy (op o operands) := by
  refine .bind (.draft _) fun _ => ?_
  split
  · exact .bind (.popHeight _) fun _ => .draft _
  · exact .pure _

theorem byte (o : Op) (n : Nat) (what : String) : Tidy (byte o n what) := by
  unfold Emit.byte
  exact .check (.op _ _)

theorem word (o : Op) (n : Nat) (what : String) : Tidy (word o n what) := by
  unfold Emit.word
  exact .check (.op _ _)

theorem constantKey (c : Constant) : Tidy (constantKey c) := by
  refine .bind (Preserves.modifyGet fun s => rfl) fun key? => ?_
  cases key? with
  | some key => exact .pure _
  | none => exact .get fun _ => .throw _

theorem constant (c : Constant) : Tidy (constant c) := .bind (.constantKey c) fun _ => .op _ _

theorem markLine (line : UInt32) : Tidy (markLine line) := .ite (.draft _) (.pure _)

/-! ## Jumps -/

theorem jump (o : Op) : Tidy (jump o) := .bind .size fun _ => .bind (.op _ _) fun _ => .pure _

theorem distance (n : Nat) : Tidy (distance n) := .ite (.get fun _ => .throw _) (.pure _)

theorem land (site : Nat) : Tidy (land site) :=
  .bind .size fun _ => .bind (.distance _) fun _ => .draft _

theorem landAll : ∀ sites : List Nat, Tidy (landAll sites)
  | [] => .pure _
  | site :: rest => .bind (.land site) fun _ => landAll rest

theorem jumpBack (target : Nat) : Tidy (jumpBack target) :=
  .bind .size fun _ => .bind (.distance _) fun _ => .op _ _

/-! ## Regions, scopes and variables -/

theorem opAll : ∀ os : List Op, Tidy (opAll os)
  | [] => .pure _
  | o :: rest => .bind (.op o []) fun _ => opAll rest

theorem closeRegions (n : Nat) : Tidy (closeRegions n) := .get fun _ => .opAll _

theorem endScope (keep : Bool) : Tidy (endScope keep) :=
  .get fun _ => .bind (.draft _) fun _ => .ite (.byte _ _ _) (.pure _)

theorem declare (name : String) (slot : Nat) : Tidy (declare name slot) := by
  unfold Emit.declare
  exact .check (.get fun _ => .ite (.bind (.op _ _) fun _ => .draft _) (.draft _))

theorem declareAll : ∀ (names : List String) (slot : Nat), Tidy (declareAll names slot)
  | [], _ => .pure _
  | name :: rest, slot => .bind (.declare name slot) fun _ => declareAll rest (slot + 1)

theorem resolve (name : String) : Tidy (resolve name) := by
  refine .get fun s => ?_
  split
  · exact .pure _
  · split
    · exact .check (.pure _)
    · exact .throw _

theorem load (name : String) : Tidy (load name) := by
  refine .bind (.resolve name) fun place => ?_
  cases place <;> exact .op _ _

theorem store (place : Place) : Tidy (store place) := by
  cases place <;> exact .op _ _

theorem capture (name : String) : Tidy (capture name) := by
  refine .bind (.resolve name) fun place => ?_
  cases place with
  | slot => exact .throw _
  | cell => exact .op _ _
  | capture => exact .op _ _

theorem captureAll : ∀ names : List String, Tidy (captureAll names)
  | [] => .pure _
  | name :: rest => .bind (.capture name) fun _ => captureAll rest

/-! ## Constructs -/

theorem valued (producesValue : Bool) (h : Tidy m) : Tidy (valued producesValue m) :=
  .ite h (.bind (.draft _) fun _ => h.bind fun _ => .bind (.op _ _) fun _ => .endScope true)

theorem shortCircuit (o : Op) (h : Tidy m) (h' : Tidy m') : Tidy (shortCircuit o m m') :=
  h.bind fun _ => .bind (.jump o) fun _ => .bind (.op _ _) fun _ => h'.bind fun _ =>
    .bind (.land _) fun _ => .op _ _

theorem branch (h : Tidy m) (h' : Tidy m') (h'' : Tidy m'') : Tidy (branch m m' m'') :=
  h.bind fun _ => .bind (.jump _) fun _ => .bind .height fun _ => h'.bind fun _ =>
    .bind (.jump _) fun _ => .bind (.land _) fun _ => .bind (.draft _) fun _ =>
    h''.bind fun _ => .land _

theorem unpack (names : List String) (slot : Nat) : Tidy (unpack names slot) := by
  unfold Emit.unpack
  split
  · exact .declare _ _
  · exact .bind (.byte _ _ _) fun _ => .declareAll _ _

theorem inLoop (start height : Nat) (h : Tidy m) : Tidy (inLoop start height m) := by
  refine .bind (.draft _) fun _ => h.bind fun _ => .get fun s => ?_
  cases s.draft.loops with
  | nil => exact .throw _
  | cons context rest => exact .bind (.draft _) fun _ => .pure _

theorem loop (h : Tidy m) (h' : Tidy m') : Tidy (loop m m') :=
  .bind .height fun _ => .bind .size fun _ => h.bind fun _ => .bind (.jump _) fun _ =>
    (inLoop _ _ (h'.bind fun _ => .bind (.op _ _) fun _ => .jumpBack _)).bind fun _ =>
    .bind (.land _) fun _ => .landAll _

theorem each (names : List String) (h : Tidy m) (h' : Tidy m') : Tidy (each names m m') :=
  have hround (start h : Nat) : Tidy (do
      Emit.beginScope
      Emit.unpack names h
      m'
      Emit.pop
      Emit.endScope false
      Emit.jumpBack start) :=
    .bind (.draft _) fun _ => .bind (.unpack _ _) fun _ => h'.bind fun _ => .bind (.op _ _) fun _ =>
      .bind (.endScope _) fun _ => .jumpBack _
  h.bind fun _ => .bind (.op _ _) fun _ => .bind .height fun _ => .bind (.jump _) fun _ =>
    .bind (.draft _) fun _ => (inLoop _ _ (hround _ _)).bind fun _ => .bind (.draft _) fun _ =>
    .bind (.land _) fun _ => .bind (.landAll _) fun _ => .op _ _

theorem attempt (binding? : Option String) (h : Tidy m) (h' : Tidy m') : Tidy (attempt m binding? m') := by
  refine .bind .height fun _ => .bind (.jump _) fun _ => .bind (.draft _) fun _ => h.bind fun _ =>
    .bind (.draft _) fun _ => .bind (.op _ _) fun _ => .bind (.jump _) fun _ =>
    .bind (.land _) fun _ => .bind (.draft _) fun _ => ?_
  cases binding? with
  | some name =>
    exact .bind (.draft _) fun _ => .bind (.declare _ _) fun _ => h'.bind fun _ =>
      .bind (.endScope _) fun _ => .land _
  | none => exact .bind (.op _ _) fun _ => h'.bind fun _ => .land _

/-! ## Ways out -/

theorem declaration (names : List String) (h : Tidy m) : Tidy (declaration names m) :=
  h.bind fun _ => .bind .height fun _ => .unpack _ _

theorem unwindToLoop (keyword : String) : Tidy (unwindToLoop keyword) := by
  refine .get fun s => ?_
  cases s.draft.loops with
  | nil => exact .throw _
  | cons context rest =>
    exact .bind (.closeRegions _) fun _ => .bind .height fun _ => .ite (.bind (.byte _ _ _) fun _ => .pure _) (.pure _)

theorem leaveLoop : Tidy leaveLoop :=
  .bind .height fun _ => .bind (.unwindToLoop _) fun _ => .bind (.jump _) fun _ => .bind (.draft _) fun _ => .draft _

theorem nextRound : Tidy nextRound :=
  .bind .height fun _ => .bind (.unwindToLoop _) fun _ => .bind (.jumpBack _) fun _ => .draft _

theorem leavePage (h : Tidy m) : Tidy (leavePage m) :=
  .bind .height fun _ => h.bind fun _ => .bind (.closeRegions _) fun _ => .bind .height fun _ =>
    .ite (.bind (.byte _ _ _) fun _ => .bind (.op _ _) fun _ => .draft _) (.bind (.op _ _) fun _ => .draft _)

/-! ## Calls -/

theorem argumentCount (n : Nat) : Tidy (argumentCount n) := by
  unfold Emit.argumentCount
  exact .check (.pure _)

theorem callOp (root : Bool) (plain rooted inherited : Op) : Tidy (callOp root plain rooted inherited) :=
  .ite (.get fun _ => .ite (.pure _) (.pure _)) (.pure _)

theorem call (root : Bool) (n : Nat) (h : Tidy m) : Tidy (call root n m) :=
  h.bind fun _ => .bind (.callOp _ _ _ _) fun _ => .bind (.argumentCount _) fun _ => .op _ _

theorem libraryIndex (f : LibraryFunction) : Tidy (libraryIndex f) := by
  refine .get fun s => ?_
  dsimp only
  split
  · exact .check (.pure _)
  · exact .check (.bind (.modify fun _ => rfl) fun _ => .pure _)

theorem libraryCall (f : LibraryFunction) (n : Nat) (h : Tidy m) : Tidy (libraryCall f n m) :=
  .bind (.libraryIndex f) fun _ => .bind (.constantKey _) fun _ => h.bind fun _ =>
    .bind (.argumentCount _) fun _ => .op _ _

theorem programCall (settings : ProgramSettings) (root : Bool) (count pairs : Nat) {piped? : Option (Emit Unit)}
    {environment : Emit Unit} (hname : Tidy m) (harguments : Tidy m') (hpiped : Tidy (piped?.getD (Pure.pure ())))
    (henvironment : Tidy environment) : Tidy (programCall settings root count pairs m m' piped? environment) :=
  hname.bind fun _ => harguments.bind fun _ => hpiped.bind fun _ => henvironment.bind fun _ =>
    .check (.bind (.callOp _ _ _ _) fun _ => .bind (.argumentCount _) fun _ => .op _ _)

/-! ## Pages -/

theorem reservePage (name : String) : Tidy (reservePage name) :=
  .get fun _ => .check (.bind (.modify fun _ => rfl) fun _ => .pure _)

theorem functionPage (id : Nat) : Tidy (functionPage id) := by
  refine .get fun s => ?_
  split
  · exact .pure _
  · exact .bind (.reservePage _) fun _ => .bind (.modify fun _ => rfl) fun _ => .pure _

theorem modifyPage (index : UInt16) (f : Page → Page) : Tidy (modifyPage index f) :=
  .get fun _ => .check (.modify fun _ => rfl)

theorem replacePage (index : UInt16) (page : Page) : Tidy (replacePage index page) := by
  refine .get fun s => ?_
  split
  · exact .throw _
  · exact .bind (.modify fun _ => rfl) fun _ => .modifyPage _ _

theorem define (id : Nat) {m : Emit Page} (h : Tidy m) : Tidy (define id m) :=
  .bind (.functionPage id) fun _ => h.bind fun _ => .get fun _ =>
    .ite (.replacePage _ _) (.bind (.modify fun _ => rfl) fun _ => .modifyPage _ _)

theorem closure (captures : List String) {m : Emit Page} (h : Tidy m) : Tidy (closure captures m) :=
  .bind (.captureAll _) fun _ => .check (.bind (.reservePage _) fun _ => h.bind fun _ =>
    .bind (.modifyPage _ _) fun _ => .bind (.constantKey _) fun _ => .op _ _)

theorem pageBody (parameters : List String) (h : Tidy m) : Tidy (pageBody parameters m) :=
  .bind (.declareAll _ _) fun _ => .bind (.draft _) fun _ => h.bind fun _ => .ite (.byte _ _ _) (.pure _)

end Tidy

/-- Back at the page that waits, with what has become of the rest of the workbench. -/
def Resumed (s : Workbench) : EStateM.Result CompileError Workbench Unit → EStateM.Result CompileError Workbench Page
  | .ok _ t => .ok t.draft.page { t with draft := s.draft, enclosing := s.enclosing }
  | .error e t => .error e { t with draft := s.draft, enclosing := s.enclosing }

theorem page_count {body : Emit Unit} {name : String} {parameters captures captured : List String} {s s' : Workbench}
    {p : Page} (h : page name parameters captures captured body s = .ok p s') : parameters.length ≤ 255 := by
  unfold page at h
  exact Nat.not_lt.1 (check_ok h).1

/-- The page around a body is there at its end, however that is. -/
theorem page_run {body : Emit Unit} {name : String} {parameters captures captured : List String} (h : Tidy body)
    (hcount : parameters.length ≤ 255) (s : Workbench) : page name parameters captures captured body s =
      Resumed s (pageBody parameters body { s with
        draft := pageDraft name parameters captures captured, enclosing := s.draft :: s.enclosing }) := by
  have hend {t : Workbench} (ht : t.enclosing = s.draft :: s.enclosing) :
      endPage t = .ok t.draft.page { t with draft := s.draft, enclosing := s.enclosing } := by
    unfold endPage
    rw [get_bind_run, ht]
    rfl
  have hbody := Tidy.pageBody parameters h { s with
    draft := pageDraft name parameters captures captured, enclosing := s.draft :: s.enclosing }
  unfold page
  rw [if_neg (Nat.not_lt.2 hcount)]
  refine (bind_run_ok (show beginPage _ s = .ok ⟨⟩ _ from rfl)).trans ?_
  cases hrun : pageBody parameters body { s with
    draft := pageDraft name parameters captures captured, enclosing := s.draft :: s.enclosing } with
  | ok _ t =>
    rw [hrun] at hbody
    rw [finally_run_ok hrun, hend hbody]
    rfl
  | error e t =>
    rw [hrun] at hbody
    rw [finally_run_error hrun, hend hbody]
    rfl

theorem Tidy.page {body : Emit Unit} (h : Tidy body) (name : String) (parameters captures captured : List String) :
    Tidy (page name parameters captures captured body) := by
  intro s
  by_cases hcount : 255 < parameters.length
  · unfold Emit.page
    rw [if_pos hcount]
    rfl
  · rw [page_run h (Nat.not_lt.1 hcount)]
    cases Emit.pageBody parameters body _ <;> rfl

/-! ## Expressions -/

/-- The constructs leave the pages around the one at hand alone. -/
structure Differences.Tidy (x : Differences) : Prop where
  declaration : ∀ names {m}, Emit.Tidy m → Emit.Tidy (x.declaration names m)
  leaveLoop : Emit.Tidy x.leaveLoop
  nextRound : Emit.Tidy x.nextRound
  leavePage : ∀ {m}, Emit.Tidy m → Emit.Tidy (x.leavePage m)

variable {x : Differences}

open Tidy

mutual

theorem Differences.Tidy.expr (hx : x.Tidy) : ∀ e : Expr, Emit.Tidy (x.expr e)
  | .mk line node => .bind (.markLine line) fun _ => hx.node node line

theorem Differences.Tidy.node (hx : x.Tidy) : ∀ (node : Node) (line : UInt32), Emit.Tidy (x.node node line)
  | .literal _, _ => .constant _
  | .interpolation items, _ | .list items, _ | .tuple items, _ | .set items, _ =>
    (hx.values items).bind fun _ => .word _ _ _
  | .dictionary entries, _ => (hx.entries entries).bind fun _ => .word _ _ _
  | .range first? last? _, _ => (hx.part? first?).bind fun _ => (hx.part? last?).bind fun _ => .op _ _
  | .struct _ fields, _ => (hx.fields fields).bind fun _ => .bind (.constantKey _) fun _ => .bind (.op _ _) fun _ =>
    .bind (.popHeight _) fun _ => .bind .height fun _ => .draft _
  | .variable _, _ => .load _
  | .declare names v, _ => hx.declaration names (.valued _ (hx.expr v))
  | .assign (.mk _ target) v, _ => by
    have hv := Tidy.valued v.producesValue (hx.expr v)
    cases target with
    | «variable» name => exact .bind (.resolve _) fun _ => hv.bind fun _ => .store _
    | index container index =>
      exact hv.bind fun _ => .bind (.valued _ (hx.expr container)) fun _ => .bind (.valued _ (hx.expr index)) fun _ =>
        .op _ _
    | field container name =>
      exact hv.bind fun _ => .bind (.valued _ (hx.expr container)) fun _ => .bind (.constant _) fun _ => .op _ _
    | _ => exact .throw _
  | .binary o left right, _ => by
    have hleft := Tidy.valued left.producesValue (hx.expr left)
    have hright := Tidy.valued right.producesValue (hx.expr right)
    cases o with
    | and | or => exact .shortCircuit _ hleft hright
    | _ => exact hleft.bind fun _ => hright.bind fun _ => .op _ _
  | .unary _ operand, _ => .bind (.valued _ (hx.expr operand)) fun _ => .op _ _
  | .cast v _, _ => .bind (.valued _ (hx.expr v)) fun _ => .op _ _
  | .index target index, _ =>
    .bind (.valued _ (hx.expr target)) fun _ => .bind (.valued _ (hx.expr index)) fun _ => .op _ _
  | .field target _, _ =>
    .bind (.valued _ (hx.expr target)) fun _ => .bind (.constant _) fun _ => .op _ _
  | .block items, _ => .bind (.draft _) fun _ => (hx.items items).bind fun _ => .endScope _
  | .branch condition yes (some no), _ =>
    .branch (.valued _ (hx.expr condition)) (.valued _ (hx.expr yes)) (.valued _ (hx.expr no))
  | .branch condition yes none, _ => .branch (.valued _ (hx.expr condition)) (.valued _ (hx.expr yes)) (.op _ _)
  | .loop condition body, _ => .loop (.valued _ (hx.expr condition)) (.valued _ (hx.expr body))
  | .each names iterable body, _ => .each names (.valued _ (hx.expr iterable)) (.valued _ (hx.expr body))
  | .break, _ => hx.leaveLoop
  | .continue, _ => hx.nextRound
  | .return (some v), _ => hx.leavePage (.valued _ (hx.expr v))
  | .return none, _ => hx.leavePage (.op _ _)
  | .attempt body binding? handler, _ => .attempt binding? (.valued _ (hx.expr body)) (.valued _ (hx.expr handler))
  | .define id name parameters body, _ => .define id (.page (.valued _ (hx.expr body)) _ _ _ _)
  | .closure parameters captures body, _ => .closure captures (.page (.valued _ (hx.expr body)) _ _ _ _)
  | .call target arguments root, _ => hx.target target arguments.length root (hx.values arguments)

theorem Differences.Tidy.target (hx : x.Tidy) : ∀ (target : Target) (count : Nat) (root : Bool)
    {m : Emit Unit}, Emit.Tidy m → Emit.Tidy (x.target target count root m)
  | .function id, count, root, _, h =>
    .bind (.functionPage id) fun _ => .bind (.constant _) fun _ => .call root count h
  | .value callee, count, root, _, h => .bind (.valued _ (hx.expr callee)) fun _ => .call root count h
  | .library f, count, _, _, h => .libraryCall f count h
  | .program name (some piped) environment settings, count, root, _, h =>
    .programCall settings root count environment.length (.valued _ (hx.expr name)) h (.valued _ (hx.expr piped))
      (hx.bindings environment)
  | .program name none environment settings, count, root, _, h =>
    .programCall settings root count environment.length (.valued _ (hx.expr name)) h (.pure _)
      (hx.bindings environment)

theorem Differences.Tidy.part? (hx : x.Tidy) : ∀ e? : Option Expr, Emit.Tidy (x.part? e?)
  | none => .pure _
  | some e => .valued _ (hx.expr e)

theorem Differences.Tidy.values (hx : x.Tidy) : ∀ es : List Expr, Emit.Tidy (x.values es)
  | [] => .pure _
  | e :: rest => .bind (.valued _ (hx.expr e)) fun _ => hx.values rest

theorem Differences.Tidy.entries (hx : x.Tidy) : ∀ es : List (Expr × Expr), Emit.Tidy (x.entries es)
  | [] => .pure _
  | (k, v) :: rest =>
    .bind (.valued _ (hx.expr k)) fun _ => .bind (.valued _ (hx.expr v)) fun _ => hx.entries rest

theorem Differences.Tidy.fields (hx : x.Tidy) : ∀ es : List (String × Expr), Emit.Tidy (x.fields es)
  | [] => .pure _
  | (_, v) :: rest => .bind (.valued _ (hx.expr v)) fun _ => hx.fields rest

theorem Differences.Tidy.bindings (hx : x.Tidy) : ∀ es : List (String × Expr), Emit.Tidy (x.bindings es)
  | [] => .pure _
  | (_, v) :: rest =>
    .bind (.constant _) fun _ => .bind (.valued _ (hx.expr v)) fun _ => hx.bindings rest

theorem Differences.Tidy.items (hx : x.Tidy) : ∀ es : List Expr, Emit.Tidy (x.items es)
  | [] => .op _ _
  | [e] => .bind (hx.expr e) fun _ => .ite (.pure _) (.op _ _)
  | e :: e' :: rest => .bind (hx.expr e) fun _ =>
    .ite (.bind (.op _ _) fun _ => hx.items (e' :: rest)) (hx.items (e' :: rest))

end

theorem Differences.plain_tidy : plain.Tidy where
  declaration := fun names _ h => .declaration names h
  leaveLoop := .leaveLoop
  nextRound := .nextRound
  leavePage := .leavePage

/-- The code of a value leaves the pages around the one at hand alone. -/
theorem Tidy.value (e : Expr) : Emit.Tidy (Emit.valued e.producesValue e.emit) :=
    .valued _ (Differences.plain_tidy.expr e)

end ShellVM.Emit
