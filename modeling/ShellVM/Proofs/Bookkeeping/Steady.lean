import ShellVM.Proofs.Bookkeeping.Checked
import ShellVM.Proofs.Bookkeeping.Starts

/-!
# What the compiler keeps track of

The `Outline` of a draft is what the compiler believes about the machine at the end of the code. A workbench is
`Steady` if the locals that closures capture are in cells, the code is a row of instructions, and the functions that
are known have pages. An emitter `Advances` a steady workbench to another one with a given outline; `Settles` says
that two emitters run alike, and that all they can fail for is the program that is compiled.
-/

namespace ShellVM

/-- The compiler says that it has broken a rule of its own, or was given something that breaks one. -/
def CompileError.isInternal : CompileError → Bool
  | .internal _ => true
  | _ => false

/-- The fault lies with the program that is compiled, which names a variable or a function that is not there, or asks
for too much. -/
def CompileError.Permitted (e : CompileError) : Prop :=
  ∀ d, e = .internal d → (∃ name, d = .unresolvedVariable name) ∨ ∃ id, d = .undefinedFunction id

theorem CompileError.Permitted.external {e : CompileError} (h : e.isInternal = false) : e.Permitted := by
  rintro d rfl
  cases h

/-- Two runs have the same outcome, which is a result as it should be, or a failure that is not the compiler's. -/
inductive Settles {α : Type} (Q : α → Workbench → Prop) :
    EStateM.Result CompileError Workbench α → EStateM.Result CompileError Workbench α → Prop where
  | ok {a : α} {s : Workbench} (h : Q a s) : Settles Q (.ok a s) (.ok a s)
  | error {e : CompileError} {s : Workbench} (h : e.Permitted) : Settles Q (.error e s) (.error e s)

namespace Settles

variable {α β : Type} {x y : Emit α} {f g : α → Emit β} {Q Q' : α → Workbench → Prop} {R : β → Workbench → Prop}
  {s : Workbench}

theorem bind (h : Settles Q (x s) (y s)) (h' : ∀ a t, Q a t → Settles R (f a t) (g a t)) :
    Settles R ((x >>= f) s) ((y >>= g) s) := by
  generalize hx : x s = r at h
  generalize hy : y s = r' at h
  cases h with
  | ok hq =>
    rw [bind_run_ok hx, bind_run_ok hy]
    exact h' _ _ hq
  | error he =>
    rw [bind_run_error hx, bind_run_error hy]
    exact .error he

theorem mono {r r' : EStateM.Result CompileError Workbench α} (h : Settles Q r r') (hQ : ∀ a t, Q a t → Q' a t) :
    Settles Q' r r' := by
  cases h with
  | ok hq => exact .ok (hQ _ _ hq)
  | error he => exact .error he

/-- A check in front of an emitter. -/
theorem check {c : Prop} [Decidable c] {e : CompileError} {f g : Unit → Emit α} (hfails : c → e.Permitted)
    (h : ¬ c → Settles Q (f () s) (g () s)) :
    Settles Q ((if c then (throw e : Emit Unit) >>= f else f ()) s)
      ((if c then (throw e : Emit Unit) >>= g else g ()) s) := by
  by_cases hc : c
  · rw [if_pos hc, if_pos hc]
    exact .error (hfails hc)
  · rw [if_neg hc, if_neg hc]
    exact h hc

end Settles

/-! ## Steady workbenches -/

/-- A loop, without the jumps out of it. -/
def LoopContext.bare (c : LoopContext) : LoopContext := { c with breaks := [] }

/-- What the compiler believes about the machine at the end of the code. -/
structure Outline where
  locals : List Local
  depth : Nat
  height : Nat
  loops : List LoopContext
  regions : List Region

/-- The outline with so many values on the stack. -/
def Outline.at (o : Outline) (height : Nat) : Outline := { o with height }

def Draft.outline (d : Draft) : Outline := ⟨d.locals, d.depth, d.height, d.loops.map LoopContext.bare, d.regions⟩

/-- The draft is what the compiler would have made of it. -/
structure Draft.Steady (d : Draft) : Prop where
  boxed : ∀ l ∈ d.locals, l.boxed = d.captured.contains l.name
  whole : Starts d.page.code d.size
  sites : ∀ c ∈ d.loops, ∀ site ∈ c.breaks, Site d.page.code site
  lined : d.page.Lined

/-- So is the program, and the functions that are known have pages. -/
structure Workbench.Steady (s : Workbench) : Prop where
  draft : s.draft.Steady
  functions : ∀ f ∈ s.functions, f.2.toNat < s.program.pages.size
  lined : ∀ page ∈ s.program.pages, page.Lined

/-- The locals and the loops are those of a machine that has come to the end of the code. -/
structure Outline.Fits (o : Outline) : Prop where
  depths : ∀ l ∈ o.locals, l.depth ≤ o.depth
  loops : ∀ c ∈ o.loops, c.height ≤ o.height ∧ c.regions ≤ o.regions.length

/-- An expression can be emitted whose closures capture nothing but the names. -/
structure Workbench.Ready (names : List String) (s : Workbench) : Prop where
  steady : s.Steady
  captured : s.draft.captured = names
  fits : s.draft.outline.Fits

/-- The workbench `s` has become `s'`, at an outline. -/
structure Advances (s : Workbench) (o : Outline) (s' : Workbench) : Prop where
  steady : s'.Steady
  outline : s'.draft.outline = o
  captured : s'.draft.captured = s.draft.captured
  continues : Continues s.draft.page.code s'.draft.page.code
  pages : s.program.pages.size ≤ s'.program.pages.size

variable {s s' s'' t : Workbench} {o o' : Outline} {names : List String}

namespace Advances

theorem refl (h : s.Steady) : Advances s s.draft.outline s := ⟨h, rfl, rfl, .refl _, Nat.le_refl _⟩

theorem trans (h : Advances s o s') (h' : Advances s' o' s'') : Advances s o' s'' :=
  ⟨h'.steady, h'.outline, h'.captured.trans h.captured, h.continues.trans h'.continues, Nat.le_trans h.pages h'.pages⟩

theorem height (h : Advances s o s') : s'.draft.height = o.height := congrArg Outline.height h.outline

theorem locals (h : Advances s o s') : s'.draft.locals = o.locals := congrArg Outline.locals h.outline

theorem depth (h : Advances s o s') : s'.draft.depth = o.depth := congrArg Outline.depth h.outline

theorem regions (h : Advances s o s') : s'.draft.regions = o.regions := congrArg Outline.regions h.outline

theorem loops (h : Advances s o s') : s'.draft.loops.map LoopContext.bare = o.loops := congrArg Outline.loops h.outline

theorem ready (h : Advances s o s') (hs : s.Ready names) (ho : o.Fits) : s'.Ready names :=
  ⟨h.steady, h.captured.trans hs.captured, h.outline ▸ ho⟩

end Advances

theorem Outline.Fits.at (h : o.Fits) {n : Nat} (hn : o.height ≤ n) : (o.at n).Fits where
  depths := h.depths
  loops := fun c hc => ⟨Nat.le_trans (h.loops c hc).1 hn, (h.loops c hc).2⟩

/-! ## Changes of the draft -/

/-- A draft with the same locals and loops, and with more code. -/
theorem Draft.Steady.write {d d' : Draft} (hd : d.Steady) (hlocals : d'.locals = d.locals)
    (hcaptured : d'.captured = d.captured) (hloops : d'.loops = d.loops) (hlines : d'.page.lines = d.page.lines)
    (hcontinues : Continues d.page.code d'.page.code) (hwhole : Starts d'.page.code d'.size) : d'.Steady where
  boxed := by rw [hlocals, hcaptured]; exact hd.boxed
  whole := hwhole
  sites := fun c hc site hsite => (hd.sites c (hloops ▸ hc) site hsite).continue hcontinues
  lined := hd.lined.continue hlines hcontinues

/-- A draft with the same code. -/
theorem Draft.Steady.same {d d' : Draft} (hd : d.Steady) (hpage : d'.page = d.page)
    (hboxed : ∀ l ∈ d'.locals, l.boxed = d'.captured.contains l.name)
    (hsites : ∀ c ∈ d'.loops, ∀ site ∈ c.breaks, Site d.page.code site) : d'.Steady where
  boxed := hboxed
  whole := by unfold Draft.size; rw [hpage]; exact hd.whole
  sites := by rw [hpage]; exact hsites
  lined := by rw [hpage]; exact hd.lined

/-- The workbench itself is where it is. -/
theorem Advances.here (h : Advances s o t) : Advances t o t := ⟨h.steady, h.outline, rfl, .refl _, Nat.le_refl _⟩

/-- A workbench at which nothing has been done yet. -/
theorem Workbench.Ready.start {names : List String} (h : s.Ready names) :
    Advances s (s.draft.outline.at s.draft.height) s :=
  .refl h.steady

/-- There is room for more values. -/
theorem Workbench.Ready.room {names : List String} {n : Nat} (h : s.Ready names) (hn : s.draft.height ≤ n) :
    (s.draft.outline.at n).Fits := h.fits.at hn

namespace Emit

variable {n k : Nat}

/-- The draft becomes another one. -/
theorem modifyDraft_settles {g : Draft → Draft} (h : Advances s o t) (hd : (g t.draft).Steady)
    (hcaptured : (g t.draft).captured = t.draft.captured)
    (hcontinues : Continues t.draft.page.code (g t.draft).page.code) (ho : (g t.draft).outline = o') :
    Settles (fun _ t' => Advances s o' t') (modifyDraft g t) (modifyDraft g t) :=
  .ok {
    steady := ⟨hd, h.steady.functions, h.steady.lined⟩
    outline := ho
    captured := hcaptured.trans h.captured
    continues := h.continues.trans hcontinues
    pages := h.pages }

/-- The compiler changes what it believes, and no code. -/
theorem believe_settles {g : Draft → Draft} (h : Advances s o t) (hpage : (g t.draft).page = t.draft.page)
    (hcaptured : (g t.draft).captured = t.draft.captured)
    (hboxed : ∀ l ∈ (g t.draft).locals, l.boxed = t.draft.captured.contains l.name)
    (hsites : ∀ c ∈ (g t.draft).loops, ∀ site ∈ c.breaks, Site t.draft.page.code site) (ho : (g t.draft).outline = o') :
    Settles (fun _ t' => Advances s o' t') (modifyDraft g t) (modifyDraft g t) := by
  refine modifyDraft_settles h (h.steady.draft.same hpage ?_ hsites) hcaptured ?_ ho
  · rw [hcaptured]
    exact hboxed
  · rw [hpage]
    exact .refl _

/-! ## Instructions -/

theorem setHeight_settles (h : Advances s (o.at k) t) (n : Nat) :
    Settles (fun _ t' => Advances s (o.at n) t') (setHeight n t) (setHeight n t) := by
  refine believe_settles h rfl rfl h.steady.draft.boxed h.steady.draft.sites ?_
  show { t.draft.outline with height := n } = o.at n
  rw [h.outline]
  rfl

theorem popHeight_eq {count : Nat} (h : count ≤ s.draft.height) :
    popHeight count s = .ok () { s with draft := { s.draft with height := s.draft.height - count } } := by
  unfold popHeight
  rw [get_bind_run, if_neg (Nat.not_lt.2 h)]
  rfl

theorem popHeight_settles {count : Nat} (h : Advances s (o.at k) t) (hcount : count ≤ k) :
    Settles (fun _ t' => Advances s (o.at (k - count)) t') (popHeight count t) (popHeight count t) := by
  have hheight : t.draft.height = k := h.height
  have hset := setHeight_settles h (k - count)
  rw [popHeight_eq (hheight ▸ hcount), hheight]
  exact hset

theorem op_eq {p : Op} {operands : List UInt8} {a b : Nat} (heffect : p.stackEffect? operands = some (a, b))
    (ha : a ≤ s.draft.height) : op p operands s = .ok () { s with
      draft := { s.draft.append (p.toByte :: operands) with height := s.draft.height - a + b } } := by
  unfold op
  rw [heffect]
  have happend : modifyDraft (·.append (p.toByte :: operands)) s =
      .ok () { s with draft := s.draft.append (p.toByte :: operands) } := rfl
  rw [bind_run_ok happend]
  refine (bind_run_ok (popHeight_eq ?_)).trans rfl
  exact ha

/-- An instruction is appended, and the height follows its effect. -/
theorem op_writes {p : Op} {operands : List UInt8} {a b : Nat} (hwidth : operands.length = p.width)
    (heffect : p.stackEffect? operands = some (a, b)) (ha : a ≤ k) (hn : n = k - a + b)
    (h : Advances s (o.at k) t) : Settles (fun _ t' => Advances s (o.at n) t' ∧
      t'.draft.page.code = (t.draft.append (p.toByte :: operands)).page.code) (op p operands t) (op p operands t) := by
  have hheight : t.draft.height = k := h.height
  have hcontinues := t.draft.continues_append (p.toByte :: operands)
  have hdraft : ({ t.draft.append (p.toByte :: operands) with height := n } : Draft).Steady :=
    h.steady.draft.write rfl rfl rfl rfl hcontinues (Draft.starts_append h.steady.draft.whole hwidth)
  rw [op_eq heffect (hheight ▸ ha), hheight, ← hn]
  refine .ok ⟨?_, rfl⟩
  exact {
    steady := ⟨hdraft, h.steady.functions, h.steady.lined⟩
    outline := by
      show { t.draft.outline with height := n } = o.at n
      rw [h.outline]
      rfl
    captured := h.captured
    continues := h.continues.trans hcontinues
    pages := h.pages }

theorem op_settles {p : Op} {operands : List UInt8} {a b : Nat} (hwidth : operands.length = p.width)
    (heffect : p.stackEffect? operands = some (a, b)) (ha : a ≤ k) (hn : n = k - a + b)
    (h : Advances s (o.at k) t) : Settles (fun _ t' => Advances s (o.at n) t') (op p operands t) (op p operands t) :=
  (op_writes hwidth heffect ha hn h).mono fun _ _ h' => h'.1

/-- An instruction whose effect is not known leaves the height to those who know it. -/
theorem untold_settles {p : Op} {operands : List UInt8} (hwidth : operands.length = p.width)
    (heffect : p.stackEffect? operands = none) (h : Advances s (o.at k) t) :
    Settles (fun _ t' => Advances s (o.at k) t') (op p operands t) (op p operands t) := by
  have hcontinues := t.draft.continues_append (p.toByte :: operands)
  have hdraft : (t.draft.append (p.toByte :: operands)).Steady :=
    h.steady.draft.write rfl rfl rfl rfl hcontinues (Draft.starts_append h.steady.draft.whole hwidth)
  unfold op
  rw [heffect]
  exact (modifyDraft_settles h hdraft rfl hcontinues h.outline).bind fun _ _ h₁ => .ok h₁

theorem byte_settles {p : Op} {value a b : Nat} {what : String} (hwidth : p.width = 1)
    (heffect : value ≤ 255 → p.stackEffect? [value.toUInt8] = some (a, b)) (ha : a ≤ k)
    (hn : n = k - a + b) (h : Advances s (o.at k) t) :
    Settles (fun _ t' => Advances s (o.at n) t') (byte p value what t) (byte p value what t) := by
  unfold byte
  refine .check (fun _ => .external rfl) fun hle => ?_
  exact op_settles hwidth.symm (heffect (by omega)) ha hn h

theorem word_settles {p : Op} {value a b : Nat} {what : String} (hwidth : p.width = 2)
    (heffect : value ≤ 65535 → p.stackEffect? (wordBytes value.toUInt16) = some (a, b)) (ha : a ≤ k)
    (hn : n = k - a + b) (h : Advances s (o.at k) t) :
    Settles (fun _ t' => Advances s (o.at n) t') (word p value what t) (word p value what t) := by
  unfold word
  refine .check (fun _ => .external rfl) fun hle => ?_
  exact op_settles hwidth.symm (heffect (by omega)) ha hn h

theorem constantKey_settles (h : Advances s o t) (c : Constant) :
    Settles (fun _ t' => Advances s o t') (constantKey c t) (constantKey c t) := by
  have hadd : Settles (fun _ t' => Advances s o t') ((modifyGet (·.addConstant c) : Emit _) t)
      ((modifyGet (·.addConstant c) : Emit _) t) := by
    refine .ok { h with steady := ⟨?_, h.steady.functions, h.steady.lined⟩ }
    exact ⟨h.steady.draft.boxed, h.steady.draft.whole, h.steady.draft.sites, h.steady.draft.lined.ascending,
      h.steady.draft.lined.starts⟩
  refine hadd.bind fun key? t₁ h₁ => ?_
  cases key? with
  | some key => exact .ok h₁
  | none => exact .error (.external rfl)

theorem constant_settles (h : Advances s (o.at k) t) (c : Constant) :
    Settles (fun _ t' => Advances s (o.at (k + 1)) t') (constant c t) (constant c t) :=
  (constantKey_settles h c).bind fun _ _ h₁ => op_settles rfl rfl (Nat.zero_le _) rfl h₁

theorem nil_settles (h : Advances s (o.at k) t) : Settles (fun _ t' => Advances s (o.at (k + 1)) t') (nil t) (nil t) :=
  op_settles rfl rfl (Nat.zero_le _) rfl h

theorem pop_settles (h : Advances s (o.at (k + 1)) t) : Settles (fun _ t' => Advances s (o.at k) t') (pop t) (pop t) :=
  op_settles rfl rfl (Nat.le_add_left ..) rfl h

theorem markLine_settles (h : Advances s o t) (line : UInt32) :
    Settles (fun _ t' => Advances s o t') (markLine line t) (markLine line t) := by
  unfold markLine
  split
  · obtain ⟨lines, hlines⟩ := t.draft.page.markLine_eq line
    have hlined := h.steady.draft.lined.markLine h.steady.draft.whole line
    rw [hlines] at hlined
    refine modifyDraft_settles h ?_ rfl ?_ h.outline
    · rw [hlines]
      exact ⟨h.steady.draft.boxed, h.steady.draft.whole, h.steady.draft.sites, hlined⟩
    · rw [hlines]
      exact .refl _
  · exact .ok h

/-! ## Jumps -/

/-- A jump waits for its distance. -/
theorem jump_settles {p : Op} {a b : Nat} (hwidth : p.width = 2) (heffect : p.stackEffect? [0, 0] = some (a, b))
    (ha : a ≤ k) (hn : n = k - a + b) (h : Advances s (o.at k) t) :
    Settles (fun site t' => Advances s (o.at n) t' ∧ Site t'.draft.page.code site) (jump p t) (jump p t) := by
  have hsite := Draft.site_append h.steady.draft.whole hwidth
  have hoperands : ([0, 0] : List UInt8).length = p.width := hwidth.symm
  refine (op_writes hoperands heffect ha hn h).bind fun _ t₁ ⟨h₁, hcode⟩ => .ok ⟨h₁, ?_⟩
  rw [hcode]
  exact hsite

theorem distance_settles (h : Advances s o t) (distance : Nat) :
    Settles (fun _ t' => Advances s o t') (Emit.distance distance t) (Emit.distance distance t) := by
  unfold Emit.distance
  by_cases hfar : 65535 < distance
  · rw [if_pos hfar]
    exact .error (.external rfl)
  · rw [if_neg hfar]
    exact .ok h

/-- A distance is filled in. -/
theorem land_settles {site : Nat} (h : Advances s o t) (hsite : Site t.draft.page.code site) :
    Settles (fun _ t' => Advances s o t') (land site t) (land site t) := by
  refine (distance_settles h.here (t.draft.size - (site + 2))).bind fun w t₁ h₁ => ?_
  have hcontinues := Draft.continues_patch (hsite.continue h₁.continues) w
  have hwhole : Starts (t₁.draft.patch site w).page.code (t₁.draft.patch site w).size := by
    rw [Draft.size_patch]
    exact h₁.steady.draft.whole.continue hcontinues
  exact modifyDraft_settles (h.trans h₁) (h₁.steady.draft.write rfl rfl rfl rfl hcontinues hwhole)
    rfl hcontinues h₁.outline

theorem landAll_settles (sites : List Nat) (h : Advances s o t) (hsites : ∀ site ∈ sites, Site t.draft.page.code site) :
    Settles (fun _ t' => Advances s o t') (landAll sites t) (landAll sites t) := by
  induction sites generalizing t with
  | nil => exact .ok h
  | cons site rest ih =>
    refine (land_settles h.here (hsites site List.mem_cons_self)).bind fun _ t₁ h₁ =>
      ih (h.trans h₁) fun site' hsite' => ?_
    exact (hsites site' (List.mem_cons_of_mem _ hsite')).continue h₁.continues

theorem jumpBack_settles (h : Advances s (o.at k) t) (target : Nat) :
    Settles (fun _ t' => Advances s (o.at k) t') (jumpBack target t) (jumpBack target t) :=
  (distance_settles h _).bind fun _ _ h₁ => op_settles rfl rfl (Nat.zero_le _) rfl h₁

end Emit

end ShellVM
