import ShellVM.Proofs.Rollback.Pages

/-!
# What the parts of expressions change

The emitters of instructions, jumps, scopes and variables change nothing but the draft. A construct changes what its
parts change, one after the other; a definition and a closure complete pages besides.
-/

namespace ShellVM.Traces

variable {c : Compiler} {ds ds' ds'' : List Definition}

/-! ## Instructions -/

theorem size : Traces c [] Emit.size := .get fun _ => .pure _

theorem height : Traces c [] Emit.height := .get fun _ => .pure _

theorem setHeight (h : Nat) : Traces c [] (Emit.setHeight h) := .draft fun _ => rfl

theorem popHeight (n : Nat) : Traces c [] (Emit.popHeight n) := .get fun _ => .check (.setHeight _)

theorem op (o : Op) (operands : List UInt8) : Traces c [] (Emit.op o operands) := by
  refine .seq (.draft fun _ => rfl) fun _ => ?_
  split
  · exact .seq (.popHeight _) fun _ => .draft fun _ => rfl
  · exact .pure _

theorem byte (o : Op) (n : Nat) (what : String) : Traces c [] (Emit.byte o n what) :=
  .ite (.seq (.throw _) fun _ => .op ..) (.op ..)

theorem word (o : Op) (n : Nat) (what : String) : Traces c [] (Emit.word o n what) :=
  .ite (.seq (.throw _) fun _ => .op ..) (.op ..)

theorem constant {k : Constant} (hk : k.Plain) : Traces c [] (Emit.constant k) := .seq (.constantKey hk) fun _ => .op ..

theorem nil : Traces c [] Emit.nil := .op ..

theorem pop : Traces c [] Emit.pop := .op ..

theorem markLine (line : UInt32) : Traces c [] (Emit.markLine line) := by
  refine .ite (.draft fun d => ?_) (.pure _)
  obtain ⟨lines, h⟩ := Page.markLine_eq d.page line
  rw [h]

/-! ## Jumps -/

theorem jump (o : Op) : Traces c [] (Emit.jump o) := .seq .size fun _ => .seq (.op ..) fun _ => .pure _

theorem distance (n : Nat) : Traces c [] (Emit.distance n) := .ite (.get fun _ => .throw _) (.pure _)

theorem land (site : Nat) : Traces c [] (Emit.land site) :=
  .seq .size fun _ => .seq (.distance _) fun _ => .draft fun _ => rfl

theorem landAll : ∀ sites : List Nat, Traces c [] (Emit.landAll sites)
  | [] => .pure _
  | site :: rest => .seq (.land site) fun _ => landAll rest

theorem jumpBack (target : Nat) : Traces c [] (Emit.jumpBack target) :=
  .seq .size fun _ => .seq (.distance _) fun _ => .op ..

/-! ## Regions, scopes and variables -/

theorem opAll : ∀ os : List Op, Traces c [] (Emit.opAll os)
  | [] => .pure _
  | o :: rest => .seq (.op o []) fun _ => opAll rest

theorem closeRegions (n : Nat) : Traces c [] (Emit.closeRegions n) := .get fun _ => .opAll _

theorem beginScope : Traces c [] Emit.beginScope := .draft fun _ => rfl

theorem openRegion (r : Region) : Traces c [] (Emit.openRegion r) := .draft fun _ => rfl

theorem leaveRegion : Traces c [] Emit.leaveRegion := .draft fun _ => rfl

theorem endScope (keep : Bool) : Traces c [] (Emit.endScope keep) :=
  .get fun _ => .seq (.draft fun _ => rfl) fun _ => .ite (.byte ..) (.pure _)

theorem declare (name : String) (slot : Nat) : Traces c [] (Emit.declare name slot) := by
  refine .ite (.seq (.throw _) fun _ => ?_) ?_
  all_goals exact .get fun _ => .ite (.seq (.op ..) fun _ => .draft fun _ => rfl) (.draft fun _ => rfl)

theorem declareAll : ∀ (names : List String) (slot : Nat), Traces c [] (Emit.declareAll names slot)
  | [], _ => .pure _
  | name :: rest, slot => .seq (.declare name slot) fun _ => declareAll rest (slot + 1)

theorem resolve (name : String) : Traces c [] (Emit.resolve name) := by
  refine .get fun s => ?_
  split
  · exact .pure _
  · split
    · exact .check (.pure _)
    · exact .throw _

theorem load (name : String) : Traces c [] (Emit.load name) := by
  refine .seq (.resolve name) fun place => ?_
  cases place <;> exact .op ..

theorem store (place : Emit.Place) : Traces c [] (Emit.store place) := by
  cases place <;> exact .op ..

theorem capture (name : String) : Traces c [] (Emit.capture name) := by
  refine .seq (.resolve name) fun place => ?_
  cases place with
  | slot => exact .throw _
  | cell => exact .op ..
  | capture => exact .op ..

theorem captureAll : ∀ names : List String, Traces c [] (Emit.captureAll names)
  | [] => .pure _
  | name :: rest => .seq (.capture name) fun _ => captureAll rest

/-! ## Constructs -/

section Constructs

variable {m m' m'' : Emit Unit}

theorem valued (producesValue : Bool) (h : Traces c ds m) : Traces c ds (Emit.valued producesValue m) :=
  .ite h (.seq .beginScope fun _ => h.then' fun _ => .seq .nil fun _ => .endScope true)

theorem shortCircuit (o : Op) (h : Traces c ds m) (h' : Traces c ds' m') :
    Traces c (ds ++ ds') (Emit.shortCircuit o m m') :=
  h.bind fun _ => .seq (.jump o) fun _ => .seq .pop fun _ => h'.then' fun _ => .seq (.land _) fun _ => .op ..

theorem branch (h : Traces c ds m) (h' : Traces c ds' m') (h'' : Traces c ds'' m'') :
    Traces c (ds ++ (ds' ++ ds'')) (Emit.branch m m' m'') :=
  h.bind fun _ => .seq (.jump _) fun _ => .seq .height fun _ => h'.bind fun _ => .seq (.jump _) fun _ =>
    .seq (.land _) fun _ => .seq (.setHeight _) fun _ => h''.then' fun _ => .land _

theorem unpack (names : List String) (slot : Nat) : Traces c [] (Emit.unpack names slot) := by
  unfold Emit.unpack
  split
  · exact .declare ..
  · exact .seq (.byte ..) fun _ => .declareAll ..

theorem declaration (names : List String) (h : Traces c ds m) : Traces c ds (Emit.declaration names m) :=
  h.then' fun _ => .seq .height fun _ => .unpack ..

theorem inLoop (start height : Nat) (h : Traces c ds m) : Traces c ds (Emit.inLoop start height m) := by
  refine .seq (.draft fun _ => rfl) fun _ => h.then' fun _ => .get fun s => ?_
  cases s.draft.loops with
  | nil => exact .throw _
  | cons context rest => exact .seq (.draft fun _ => rfl) fun _ => .pure _

theorem loop (h : Traces c ds m) (h' : Traces c ds' m') : Traces c (ds ++ ds') (Emit.loop m m') :=
  .seq .height fun _ => .seq .size fun _ => h.bind fun _ => .seq (.jump _) fun _ =>
    (inLoop _ _ (h'.then' fun _ => .seq .pop fun _ => .jumpBack _)).then' fun _ => .seq (.land _) fun _ => .landAll _

theorem each (names : List String) (h : Traces c ds m) (h' : Traces c ds' m') :
    Traces c (ds ++ ds') (Emit.each names m m') :=
  h.bind fun _ => .seq (.op ..) fun _ => .seq .height fun _ => .seq (.jump _) fun _ =>
    .seq (.openRegion _) fun _ => (inLoop _ _ (.seq .beginScope fun _ => .seq (.unpack ..) fun _ =>
      h'.then' fun _ => .seq .pop fun _ => .seq (.endScope _) fun _ => .jumpBack _)).then' fun _ =>
    .seq .leaveRegion fun _ => .seq (.land _) fun _ => .seq (.landAll _) fun _ => .op ..

theorem unwindToLoop (keyword : String) : Traces c [] (Emit.unwindToLoop keyword) := by
  refine .get fun s => ?_
  cases s.draft.loops with
  | nil => exact .throw _
  | cons context rest =>
    refine .seq (.closeRegions _) fun _ => .seq .height fun _ => ?_
    exact .ite (.seq (.byte ..) fun _ => .pure _) (.pure _)

theorem leaveLoop : Traces c [] Emit.leaveLoop :=
  .seq .height fun _ => .seq (.unwindToLoop _) fun _ => .seq (.jump _) fun site => .seq (.draft fun d => by
    unfold Emit.addBreak
    split <;> rfl) fun _ => .setHeight _

theorem nextRound : Traces c [] Emit.nextRound :=
  .seq .height fun _ => .seq (.unwindToLoop _) fun _ => .seq (.jumpBack _) fun _ => .setHeight _

theorem leavePage (h : Traces c ds m) : Traces c ds (Emit.leavePage m) := by
  refine .seq .height fun _ => h.then' fun _ => .seq (.closeRegions _) fun _ => .seq .height fun _ => ?_
  refine .ite (.seq (.byte ..) fun _ => ?_) ?_
  all_goals exact .seq (.op ..) fun _ => .setHeight _

theorem attempt (binding? : Option String) (h : Traces c ds m) (h' : Traces c ds' m') :
    Traces c (ds ++ ds') (Emit.attempt m binding? m') := by
  refine .seq .height fun _ => .seq (.jump _) fun _ => .seq (.openRegion _) fun _ => h.bind fun _ =>
    .seq .leaveRegion fun _ => .seq (.op ..) fun _ => .seq (.jump _) fun _ => .seq (.land _) fun _ =>
    .seq (.setHeight _) fun _ => ?_
  cases binding? with
  | some name =>
    exact .seq .beginScope fun _ => .seq (.declare ..) fun _ => h'.then' fun _ =>
      .seq (.endScope _) fun _ => .land _
  | none => exact .seq .pop fun _ => h'.then' fun _ => .land _

end Constructs

/-! ## Pages of functions and closures -/

theorem pageBody (parameters : List String) {body : Emit Unit} (h : Traces c ds body) :
    Traces c ds (Emit.pageBody parameters body) :=
  .seq (.declareAll ..) fun _ => .seq (.setHeight _) fun _ => h.then' fun _ => .ite (.byte ..) (.pure _)

/-- A page is begun with an empty table of constants, and behind it the draft is what it was. -/
theorem page (name : String) (parameters captures captured : List String) {body : Emit Unit} (htidy : body.Tidy)
    (h : Traces c ds body) : TracesPage c ds (Emit.page name parameters captures captured body) := by
  intro s hs
  by_cases hcount : 255 < parameters.length
  · unfold Emit.page
    rw [if_pos hcount]
    exact hs
  let s₀ : Workbench := { s with
    draft := Emit.pageDraft name parameters captures captured, enclosing := s.draft :: s.enclosing }
  have hclosed {apart : Nat → Prop} (hc : s.Closed apart) : s₀.Closed apart := hc.redraft rfl rfl .empty
  have hbody := pageBody parameters h (s := s₀) (hs.congr rfl rfl rfl rfl)
  rw [Emit.page_run htidy (Nat.not_lt.1 hcount)]
  cases hrun : Emit.pageBody parameters body s₀ with
  | error e t =>
    rw [hrun] at hbody
    exact Undoable.congr hbody rfl rfl rfl rfl
  | ok _ t =>
    rw [hrun] at hbody
    obtain ⟨hu, hm⟩ := hbody
    refine ⟨hu.congr rfl rfl rfl rfl, hm.redraft fun ha hc => ?_, rfl, fun ha hc => (hm.closed ha (hclosed hc)).draft⟩
    exact (hm.closed ha (hclosed hc)).redraft rfl rfl (hc.draft.mono hm.grows.count hm.library)

theorem closure (hc : c.Whole) (captures : List String) {m : Emit Page} (h : TracesPage c ds m) :
    Traces c ds (Emit.closure captures m) := by
  refine .seq (.captureAll _) fun _ => .check fun s hs => ?_
  refine (reservePage_traces hs _).bind ?_
  rintro index _ - ⟨rfl, hi⟩
  refine (h (hs.reserve _)).bind ?_
  rintro page s₂ - ⟨hu, hm, _, hfits⟩
  have hlt : index.toNat < s₂.program.pages.size := Reserved.lt ⟨hi, hm.grows⟩
  have hrun : Emit.install index page s₂ = .ok () (s₂.install index page) := Emit.modifyPage_eq hlt
  have hinstall : Outcome (fun _ s' => Undoable c s' ∧ Moves c ds s s' ∧ index.toNat < s'.program.pages.size)
      (Undoable c) (Emit.install index page s₂) := by
    rw [hrun]
    refine ⟨hu.modify (by have := hs.count; omega) hu.defined hu.known, ?_, ?_⟩
    · exact .install hc hs hi hm fun ha hc => hfits ha ((Moves.reserve s hs _).closed ha hc)
    · simpa [Workbench.install] using hlt
  refine hinstall.bind ?_
  rintro _ s₃ - ⟨hu₃, hm₃, hlt₃⟩
  have hfresh {apart : Nat → Prop} (ha : c.Has apart) : ¬apart index.toNat := by
    intro hindex
    have := ha _ hindex
    have := hs.count
    omega
  refine (constantKey_traces (k := .page index) hu₃ hlt₃ fun ha _ => hfresh ha).bind ?_
  rintro key s₄ - ⟨hu₄, hm₄⟩
  refine (op _ _ hu₄).mono ?_
  rintro _ s₅ ⟨hu₅, hm₅⟩
  refine ⟨hu₅, ?_⟩
  have : Moves c (ds ++ []) s s₅ := hm₃.trans (hm₄.trans hm₅)
  rwa [List.append_nil] at this

/-! ## Calls -/

section Calls

variable {m m' m'' : Emit Unit}

theorem argumentCount (n : Nat) :
    Traces c [] (Emit.argumentCount n) := .ite (.seq (.throw _) fun _ => .pure _) (.pure _)

theorem callOp (root : Bool) (plain rooted inherited : Op) : Traces c [] (Emit.callOp root plain rooted inherited) := by
  refine .ite (.get fun _ => ?_) (.pure _)
  exact .ite (.pure _) (.pure _)

theorem call (root : Bool) (n : Nat) (h : Traces c ds m) : Traces c ds (Emit.call root n m) :=
  h.then' fun _ => .seq (.callOp ..) fun _ => .seq (.argumentCount _) fun _ => .op ..

theorem libraryCall (f : LibraryFunction) (n : Nat) (h : Traces c ds m) : Traces c ds (Emit.libraryCall f n m) := by
  intro s hs
  refine (libraryIndex_traces hs f).bind fun index s₁ _ ⟨⟨hu₁, hm₁⟩, hlt⟩ =>
    (constantKey_traces (k := .libraryFunction index) hu₁ hlt fun _ _ => trivial).bind fun key s₂ _ ⟨hu₂, hm₂⟩ => ?_
  have hrest : Traces c ds (do
      m
      Emit.op .callStd (wordBytes key ++ [← Emit.argumentCount n])) :=
    h.then' fun _ => .seq (.argumentCount _) fun _ => .op ..
  exact (hrest hu₂).mono fun _ s₃ ⟨hu₃, hm₃⟩ => ⟨hu₃, hm₁.trans (hm₂.trans hm₃)⟩

theorem functionCall (hc : c.Whole) (id : Nat) (root : Bool) (n : Nat) (h : Traces c ds m) :
    Traces c ds (do
      Emit.constant (.page (← Emit.functionPage id))
      Emit.call root n m) := by
  intro s hs
  refine (functionPage_traces hs hc id).bind fun index s₁ _ ⟨⟨hu₁, hm₁⟩, hl⟩ => ?_
  have hkey : Outcome (fun _ s' => Undoable c s' ∧ Moves c [] s₁ s') (Undoable c)
      (Emit.constant (.page index) s₁) := by
    refine (constantKey_traces (k := .page index) hu₁ (hu₁.lookup hc hl).1
      fun _ h => h.functions id index hl).bind fun key s₂ _ ⟨hu₂, hm₂⟩ => ?_
    exact (op _ _ hu₂).mono fun _ s₃ ⟨hu₃, hm₃⟩ => ⟨hu₃, hm₂.trans hm₃⟩
  refine hkey.bind fun _ s₂ _ ⟨hu₂, hm₂⟩ => ?_
  exact (call root n h hu₂).mono fun _ s₃ ⟨hu₃, hm₃⟩ => ⟨hu₃, hm₁.trans (hm₂.trans hm₃)⟩

theorem programCall (settings : ProgramSettings) (root : Bool) (count pairs : Nat) {ds₃ : List Definition}
    {piped? : Option (Emit Unit)} {environment : Emit Unit} (hname : Traces c ds m) (harguments : Traces c ds' m')
    (hpiped : Traces c ds'' (piped?.getD (Pure.pure ()))) (henvironment : Traces c ds₃ environment) :
    Traces c (ds ++ (ds' ++ (ds'' ++ ds₃))) (Emit.programCall settings root count pairs m m' piped? environment) := by
  refine hname.bind fun _ => harguments.bind fun _ => hpiped.bind fun _ => henvironment.then' fun _ => .check ?_
  exact .seq (.callOp ..) fun _ => .seq (.argumentCount _) fun _ => .op ..

end Calls

end ShellVM.Traces
