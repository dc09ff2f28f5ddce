import ShellVM.Proofs.Bookkeeping.Steady

/-!
# Scopes, variables and pages

Regions and scopes are closed as they were opened: as many values are dropped at the end of a scope as locals were
declared in it. A name that closures capture is never found in a slot, and a page that is filled in was reserved.
-/

namespace ShellVM

variable {s t : Workbench} {o : Outline} {names : List String} {n k : Nat}

/-- More locals are in scope. -/
def Outline.declare (o : Outline) (new : List Local) : Outline := { o with locals := new ++ o.locals }

/-- A scope inside. -/
def Outline.inner (o : Outline) : Outline := { o with depth := o.depth + 1 }

/-- A region inside. -/
def Outline.enclose (o : Outline) (r : Region) : Outline := { o with regions := r :: o.regions }

namespace Emit

theorem draft_bind_run {α : Type} (f : Draft → Emit α) (s : Workbench) : (Emit.draft >>= f) s = f s.draft s := rfl

theorem height_bind_run {α : Type} (f : Nat → Emit α) (s : Workbench) :
    (Emit.height >>= f) s = f s.draft.height s := rfl

/-! ## Regions -/

theorem opAll_settles (regions : List Region) (h : Advances s (o.at k) t) :
    Settles (fun _ t' => Advances s (o.at k) t') (opAll (regions.map Region.closing) t)
      (opAll (regions.map Region.closing) t) := by
  induction regions generalizing t with
  | nil => exact .ok h
  | cons r rest ih =>
    have hclose : Settles (fun _ t' => Advances s (o.at k) t') (op r.closing [] t) (op r.closing [] t) := by
      cases r with
      | attempt => exact op_settles rfl rfl (Nat.zero_le _) rfl h
      | each => exact op_settles rfl rfl (Nat.zero_le _) rfl h
    exact hclose.bind fun _ _ h₁ => ih h₁

theorem closeRegions_settles (count : Nat) (h : Advances s (o.at k) t) :
    Settles (fun _ t' => Advances s (o.at k) t') (closeRegions count t) (closeRegions count t) :=
  opAll_settles _ h

theorem openRegion_settles (r : Region) (h : Advances s (o.at k) t) :
    Settles (fun _ t' => Advances s ((o.enclose r).at k) t') (openRegion r t) (openRegion r t) := by
  refine believe_settles h rfl rfl h.steady.draft.boxed h.steady.draft.sites ?_
  show { t.draft.outline with regions := r :: t.draft.outline.regions } = (o.enclose r).at k
  rw [h.outline]
  rfl

theorem leaveRegion_settles {r : Region} (h : Advances s ((o.enclose r).at k) t) :
    Settles (fun _ t' => Advances s (o.at k) t') (leaveRegion t) (leaveRegion t) := by
  refine believe_settles h rfl rfl h.steady.draft.boxed h.steady.draft.sites ?_
  show { t.draft.outline with regions := t.draft.outline.regions.drop 1 } = o.at k
  rw [h.outline]
  rfl

/-! ## Scopes -/

theorem beginScope_settles (h : Advances s (o.at k) t) :
    Settles (fun _ t' => Advances s (o.inner.at k) t') (beginScope t) (beginScope t) := by
  refine believe_settles h rfl rfl h.steady.draft.boxed h.steady.draft.sites ?_
  show { t.draft.outline with depth := t.draft.outline.depth + 1 } = o.inner.at k
  rw [h.outline]
  rfl

/-- The locals of the innermost scope stand in front of the others. -/
theorem takeWhile_depth {new old : List Local} {depth : Nat} (hnew : ∀ l ∈ new, l.depth = depth + 1)
    (hold : ∀ l ∈ old, l.depth ≤ depth) : (new ++ old).takeWhile (fun l => l.depth == depth + 1) = new := by
  rw [List.takeWhile_append_of_pos fun l hl => beq_iff_eq.2 (hnew l hl)]
  cases old with
  | nil => exact List.append_nil _
  | cons l rest =>
    have hl : l.depth ≤ depth := hold l List.mem_cons_self
    rw [List.takeWhile_cons_of_neg, List.append_nil]
    rw [beq_iff_eq]
    omega

/-- At the end of a scope its locals are dropped. -/
theorem endScope_settles {new : List Local} (keep : Bool) (hnew : ∀ l ∈ new, l.depth = o.depth + 1)
    (hold : ∀ l ∈ o.locals, l.depth ≤ o.depth) (hn : n = k + new.length)
    (h : Advances s ((o.inner.declare new).at (n + keep.toNat)) t) :
    Settles (fun _ t' => Advances s (o.at (k + keep.toNat)) t') (endScope keep t) (endScope keep t) := by
  have hlocals : t.draft.locals = new ++ o.locals := h.locals
  have hdepth : t.draft.depth = o.depth + 1 := h.depth
  have hcount : scopeCount t.draft = new.length := by
    unfold scopeCount
    rw [hlocals, hdepth, takeWhile_depth hnew hold]
  have hrest : t.draft.locals.drop (scopeCount t.draft) = o.locals := by rw [hcount, hlocals, List.drop_left]
  have hleave : Settles (fun _ t' => Advances s (o.at (n + keep.toNat)) t')
      (modifyDraft (fun d => { d with locals := d.locals.drop (scopeCount t.draft), depth := d.depth - 1 }) t)
      (modifyDraft (fun d => { d with locals := d.locals.drop (scopeCount t.draft), depth := d.depth - 1 }) t) := by
    refine believe_settles h rfl rfl (fun l hl => ?_) h.steady.draft.sites ?_
    · exact h.steady.draft.boxed l (List.mem_of_mem_drop hl)
    · show { t.draft.outline with
        locals := t.draft.locals.drop (scopeCount t.draft), depth := t.draft.depth - 1 } = o.at (n + keep.toNat)
      rw [hrest, hdepth, h.outline]
      rfl
  unfold endScope
  rw [draft_bind_run]
  refine hleave.bind fun _ t₁ h₁ => ?_
  unfold scopeCount at hcount
  rw [hcount]
  by_cases hpos : 0 < new.length
  · rw [if_pos hpos]
    have hbyte (hle : new.length ≤ 255) : new.length.toUInt8.toNat = new.length := by
      rw [Nat.toUInt8, UInt8.toNat_ofNat', Nat.mod_eq_of_lt (by omega)]
    cases keep with
    | true =>
      refine byte_settles rfl (a := new.length + 1) (b := 1) (fun hle => ?_) ?_ ?_ h₁
      · show some (new.length.toUInt8.toNat + 1, 1) = _
        rw [hbyte hle]
      · show _ ≤ n + 1
        omega
      · show k + 1 = n + 1 - _ + 1
        omega
    | false =>
      refine byte_settles rfl (a := new.length) (b := 0) (fun hle => ?_) ?_ ?_ h₁
      · show some (new.length.toUInt8.toNat, 0) = _
        rw [hbyte hle]
      · show _ ≤ n + 0
        omega
      · show k + 0 = n + 0 - _ + 0
        omega
  · rw [if_neg hpos]
    obtain rfl : n = k := by omega
    exact .ok h₁

/-- A value on the stack becomes a local. -/
theorem declare_settles (name : String) (slot : Nat) (h : Advances s (o.at k) t) :
    Settles (fun _ t' => ∃ l : Local, l.depth = o.depth ∧ Advances s ((o.declare [l]).at k) t')
      (declare name slot t) (declare name slot t) := by
  have hpush {t₁ : Workbench} (h₁ : Advances s (o.at k) t₁) :
      Settles (fun _ t' => ∃ l : Local, l.depth = o.depth ∧ Advances s ((o.declare [l]).at k) t')
        (modifyDraft (fun d => { d with
          locals := ⟨name, d.depth, slot.toUInt8, t.draft.captured.contains name⟩ :: d.locals }) t₁)
        (modifyDraft (fun d => { d with
          locals := ⟨name, d.depth, slot.toUInt8, t.draft.captured.contains name⟩ :: d.locals }) t₁) := by
    let l : Local := ⟨name, t₁.draft.depth, slot.toUInt8, t.draft.captured.contains name⟩
    have ho : { t₁.draft.outline with locals := l :: t₁.draft.outline.locals } = (o.declare [l]).at k := by
      rw [h₁.outline]
      rfl
    refine Settles.mono (?_ : Settles (fun _ t' => Advances s ((o.declare [l]).at k) t') _ _) fun _ t₂ h₂ =>
      ⟨l, h₁.depth, h₂⟩
    refine believe_settles h₁ rfl rfl (fun l' hl' => ?_) h₁.steady.draft.sites ho
    rcases List.mem_cons.1 hl' with rfl | hl'
    · rw [h₁.captured.trans h.captured.symm]
    · exact h₁.steady.draft.boxed l' hl'
  unfold declare
  refine .check (fun _ => .external rfl) fun hslot => ?_
  dsimp only
  rw [get_bind_run]
  by_cases hboxed : t.draft.captured.contains name
  · rw [if_pos hboxed]
    exact (op_settles (n := k) rfl rfl (Nat.zero_le _) rfl h).bind fun _ _ h₁ => hpush h₁
  · rw [if_neg hboxed]
    exact hpush h

theorem declareAll_settles (names : List String) (slot : Nat) (h : Advances s (o.at k) t) :
    Settles (fun _ t' => ∃ new : List Local, new.length = names.length ∧ (∀ l ∈ new, l.depth = o.depth) ∧
      Advances s ((o.declare new).at k) t') (declareAll names slot t) (declareAll names slot t) := by
  induction names generalizing slot t o with
  | nil => exact .ok ⟨[], rfl, (fun l hl => absurd hl List.not_mem_nil), h⟩
  | cons name rest ih =>
    refine (declare_settles name slot h).bind fun _ t₁ ⟨l, hl, h₁⟩ =>
      (ih (slot + 1) h₁).mono fun _ t₂ ⟨new, hlength, hnew, h₂⟩ => ?_
    refine ⟨new ++ [l], ?_, fun l' hl' => ?_, ?_⟩
    · rw [List.length_append, hlength]
      rfl
    · rcases List.mem_append.1 hl' with hl' | hl'
      · exact hnew l' hl'
      · obtain rfl : l' = l := by simpa using hl'
        exact hl
    · have ho : (o.declare (new ++ [l])).at k = ((o.declare [l]).declare new).at k := by
        unfold Outline.declare
        rw [List.append_assoc]
      rw [ho]
      exact h₂

/-- A value on the stack becomes a local, or its items do. -/
theorem unpack_settles (names : List String) (slot : Nat) (h : Advances s (o.at (k + 1)) t) :
    Settles (fun _ t' => ∃ new : List Local, (∀ l ∈ new, l.depth = o.depth) ∧
      Advances s ((o.declare new).at (k + new.length)) t') (unpack names slot t) (unpack names slot t) := by
  unfold unpack
  split
  · next name =>
    refine (declare_settles name slot h).mono fun _ t' ⟨l, hl, h'⟩ => ⟨[l], fun l' hl' => ?_, h'⟩
    obtain rfl : l' = l := by simpa using hl'
    exact hl
  · have hunpack : Settles (fun _ t' => Advances s (o.at (k + names.length)) t')
        (byte .unpack names.length "unpacked names" t) (byte .unpack names.length "unpacked names" t) := by
      refine byte_settles rfl (a := 1) (b := names.length) (fun hle => ?_) (Nat.le_add_left ..) rfl h
      show some (1, names.length.toUInt8.toNat) = _
      rw [Nat.toUInt8, UInt8.toNat_ofNat', Nat.mod_eq_of_lt (by omega)]
    refine hunpack.bind fun _ t₁ h₁ => (declareAll_settles names slot h₁).mono fun _ t₂ ⟨new, hlength, hnew, h₂⟩ => ?_
    exact ⟨new, hnew, hlength ▸ h₂⟩

/-! ## Variables -/

/-- What closures capture is not in a slot. -/
theorem resolve_settles (name : String) (h : Advances s o t) :
    Settles (fun place t' => Advances s o t' ∧ ∀ slot, place = .slot slot → name ∉ s.draft.captured)
      (resolve name t) (resolve name t) := by
  unfold resolve
  rw [draft_bind_run]
  cases hfind : t.draft.locals.find? (·.name == name) with
  | some l =>
    dsimp only
    have hname : l.name = name := by simpa using List.find?_some hfind
    have hboxed := h.steady.draft.boxed l (List.mem_of_find?_eq_some hfind)
    refine .ok ⟨h, fun slot hslot hcaptured => ?_⟩
    have hcontains : t.draft.captured.contains l.name = true := by
      rw [hname, List.contains_iff_mem, h.captured]
      exact hcaptured
    rw [hcontains] at hboxed
    rw [if_pos hboxed] at hslot
    cases hslot
  | none =>
    dsimp only
    cases hindex : t.draft.captures.findIdx? (· == name) with
    | none =>
      refine .error fun d hd => .inl ⟨name, ?_⟩
      cases hd
      rfl
    | some i =>
      refine .check (fun _ => .external rfl) fun _ => .ok ⟨h, fun slot hslot => ?_⟩
      cases hslot

theorem load_settles (name : String) (h : Advances s (o.at k) t) :
    Settles (fun _ t' => Advances s (o.at (k + 1)) t') (load name t) (load name t) := by
  refine (resolve_settles name h).bind fun place t₁ hplace => ?_
  obtain ⟨h₁, -⟩ := hplace
  cases place with
  | slot u => exact op_settles rfl rfl (Nat.zero_le _) rfl h₁
  | cell u => exact op_settles rfl rfl (Nat.zero_le _) rfl h₁
  | capture u => exact op_settles rfl rfl (Nat.zero_le _) rfl h₁

theorem store_settles (place : Place) (h : Advances s (o.at (k + 1)) t) :
    Settles (fun _ t' => Advances s (o.at (k + 1)) t') (store place t) (store place t) := by
  cases place with
  | slot u => exact op_settles rfl rfl (Nat.le_add_left ..) rfl h
  | cell u => exact op_settles rfl rfl (Nat.le_add_left ..) rfl h
  | capture u => exact op_settles rfl rfl (Nat.le_add_left ..) rfl h

theorem captureAll_settles (captures : List String) (hcaptures : ∀ name ∈ captures, name ∈ s.draft.captured)
    (h : Advances s (o.at k) t) :
    Settles (fun _ t' => Advances s (o.at k) t') (captureAll captures t) (captureAll captures t) := by
  induction captures generalizing t with
  | nil => exact .ok h
  | cons name rest ih =>
    have hcapture : Settles (fun _ t' => Advances s (o.at k) t') (capture name t) (capture name t) := by
      refine (resolve_settles name h).bind fun place t₁ ⟨h₁, hplace⟩ => ?_
      cases place with
      | slot u => exact absurd (hcaptures name List.mem_cons_self) (hplace u rfl)
      | cell u => exact op_settles rfl rfl (Nat.zero_le _) rfl h₁
      | capture u => exact op_settles rfl rfl (Nat.zero_le _) rfl h₁
    exact hcapture.bind fun _ t₁ h₁ => ih (fun name hname => hcaptures name (List.mem_cons_of_mem _ hname)) h₁

/-! ## Pages -/

theorem reservePage_settles (name : String) (h : Advances s o t) :
    Settles (fun index t' => Advances s o t' ∧ index.toNat < t'.program.pages.size) (reservePage name t)
      (reservePage name t) := by
  unfold reservePage
  rw [get_bind_run]
  refine .check (fun _ => .external rfl) fun hcount => .ok ⟨?_, ?_⟩
  · have hsize : (t.program.pages.push (.empty name 0)).size = t.program.pages.size + 1 := Array.size_push ..
    refine { h with steady := ⟨h.steady.draft, fun f hf => ?_, fun page hpage => ?_⟩, pages := ?_ }
    · exact Nat.lt_of_lt_of_eq (Nat.lt_succ_of_lt (h.steady.functions f hf)) hsize.symm
    · rcases Array.mem_push.1 hpage with hpage | rfl
      · exact h.steady.lined page hpage
      · exact .of_lines_eq_empty rfl
    · exact Nat.le_trans h.pages (Nat.le_of_lt (Nat.lt_of_lt_of_eq (Nat.lt_succ_self _) hsize.symm))
  · show t.program.pages.size.toUInt16.toNat < (t.program.pages.push (.empty name 0)).size
    rw [Array.size_push, Nat.toUInt16, UInt16.toNat_ofNat', Nat.mod_eq_of_lt (by omega)]
    exact Nat.lt_succ_self _

theorem functionPage_settles (id : Nat) (h : Advances s o t) :
    Settles (fun index t' => Advances s o t' ∧ index.toNat < t'.program.pages.size) (functionPage id t)
      (functionPage id t) := by
  unfold functionPage
  rw [get_bind_run]
  cases hlookup : t.functions.lookup id with
  | some index =>
    obtain ⟨before, after, hfunctions, -⟩ := List.lookup_eq_some_iff.1 hlookup
    refine .ok ⟨h, h.steady.functions (id, index) ?_⟩
    rw [hfunctions]
    exact List.mem_append_right _ List.mem_cons_self
  | none =>
    refine (reservePage_settles ("<function " ++ id.repr ++ ">") h).bind fun index t₁ ⟨h₁, hindex⟩ => .ok ⟨?_, hindex⟩
    refine { h₁ with steady := ⟨h₁.steady.draft, fun f hf => ?_, h₁.steady.lined⟩ }
    rcases List.mem_cons.1 hf with rfl | hf
    · exact hindex
    · exact h₁.steady.functions f hf

/-- A page that was reserved changes. -/
theorem modifyPage_settles {index : UInt16} {f : Page → Page} (h : Advances s o t)
    (hindex : index.toNat < t.program.pages.size) (hf : ∀ page : Page, page.Lined → (f page).Lined) :
    Settles (fun _ t' => Advances s o t') (modifyPage index f t) (modifyPage index f t) := by
  unfold modifyPage
  rw [get_bind_run]
  refine .check (fun hle => absurd hle (Nat.not_le.2 hindex)) fun _ => .ok ?_
  have hsize : (t.program.pages.modify index.toNat f).size = t.program.pages.size := Array.size_modify ..
  refine { h with steady := ⟨h.steady.draft, fun g hg => ?_, fun page hpage => ?_⟩, pages := ?_ }
  · exact Nat.lt_of_lt_of_eq (h.steady.functions g hg) hsize.symm
  · obtain ⟨i, hi⟩ := Array.mem_iff_getElem?.1 hpage
    rw [Array.getElem?_modify] at hi
    split at hi
    · obtain ⟨old, hold, rfl⟩ := Option.map_eq_some_iff.1 hi
      exact hf old (h.steady.lined old (Array.mem_of_getElem? hold))
    · exact h.steady.lined page (Array.mem_of_getElem? hi)
  · exact Nat.le_trans h.pages (Nat.le_of_eq hsize.symm)

theorem install_settles {index : UInt16} {page : Page} (h : Advances s o t)
    (hindex : index.toNat < t.program.pages.size) (hpage : page.Lined) :
    Settles (fun _ t' => Advances s o t') (install index page t) (install index page t) :=
  modifyPage_settles h hindex fun _ _ => hpage

theorem replacePage_settles {index : UInt16} {page : Page} (h : Advances s o t)
    (hindex : index.toNat < t.program.pages.size) (hpage : page.Lined) :
    Settles (fun _ t' => Advances s o t') (replacePage index page t) (replacePage index page t) := by
  unfold replacePage
  rw [get_bind_run]
  cases hold : t.program.pages[index.toNat]? with
  | none => exact absurd (Array.getElem?_eq_none_iff.1 hold) (Nat.not_le.2 hindex)
  | some old =>
    have hremember : Settles (fun _ t' => Advances s o t' ∧ t'.program = t.program)
        ((modify fun t => { t with replaced := (index, old) :: t.replaced } : Emit PUnit) t)
        ((modify fun t => { t with replaced := (index, old) :: t.replaced } : Emit PUnit) t) :=
      .ok ⟨{ h with steady := ⟨h.steady.draft, h.steady.functions, h.steady.lined⟩ }, rfl⟩
    refine hremember.bind fun _ t₁ ⟨h₁, hprogram⟩ => modifyPage_settles h₁ (hprogram ▸ hindex) fun _ _ => ?_
    exact ⟨hpage.ascending, hpage.starts⟩

theorem libraryIndex_settles (f : LibraryFunction) (h : Advances s o t) :
    Settles (fun _ t' => Advances s o t') (libraryIndex f t) (libraryIndex f t) := by
  unfold libraryIndex
  rw [get_bind_run]
  dsimp only
  cases t.program.library.findIdx? (fun e => e.function? = some f) with
  | some i => exact .check (fun _ => .external rfl) fun _ => .ok h
  | none =>
    refine .check (fun _ => .external rfl) fun _ => .ok ?_
    exact { h with steady := ⟨h.steady.draft, h.steady.functions, h.steady.lined⟩ }

end Emit

end ShellVM
