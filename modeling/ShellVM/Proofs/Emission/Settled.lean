import ShellVM.Proofs.Constants
import ShellVM.Proofs.Emission.Basic
import ShellVM.Proofs.Layout.Expression

/-!
# What becomes of what is written

A page under construction is read against the finished one. `Settled` says that the code of a stretch, the constants,
the functions and the pages of a workbench are final, up to holes: distances of jumps that are filled in later, so that
the jumps reach their targets. It is carried backwards: across a step that only adds (`Settled.back`), and across the
filling of a hole (`Settled.back_land`). Along the way every page that is completed is laid out (`Stocked`).
-/

namespace ShellVM

/-- No function has the page `i`. -/
def Workbench.NoFunction (s : Workbench) (i : Nat) : Prop :=
  ∀ id j, s.functions.lookup id = some j → j.toNat ≠ i

/-- The functions that were seen have pages. -/
def Workbench.Known (s : Workbench) : Prop := ∀ id i, s.functions.lookup id = some i → i.toNat < s.program.pages.size

/-- Between two workbenches the program only grew, apart from pages of functions. -/
structure Grows (s s' : Workbench) : Prop where
  known : s.Known → s'.Known
  functions : ∀ id i, s.functions.lookup id = some i → s'.functions.lookup id = some i
  fresh : ∀ id i, s'.functions.lookup id = some i → s.functions.lookup id = some i ∨ s.program.pages.size ≤ i.toNat
  count : s.program.pages.size ≤ s'.program.pages.size
  pages : ∀ i, i < s.program.pages.size → s.NoFunction i → s'.program.pages[i]? = s.program.pages[i]?
  library : ∀ (i : Nat) e, s.program.library[i]? = some e → s'.program.library[i]? = some e

/-- Adds jumps out of the innermost loop. -/
def addBreaks (new : List Nat) : List LoopContext → List LoopContext
  | [] => []
  | context :: rest => { context with breaks := new ++ context.breaks } :: rest

/-- Between two drafts only new code, constants and jumps out of the innermost loop came in. -/
structure Draft.Grows (d d' : Draft) : Prop where
  size : d.size ≤ d'.size
  code : ∀ j, j < d.size → d'.page.code[j]? = d.page.code[j]?
  constants : ∀ key c, d.page.constants.get? key = some c → d'.page.constants.get? key = some c
  arity : d'.page.arity = d.page.arity
  captures : d'.captures = d.captures
  captured : d'.captured = d.captured
  isEntry : d'.isEntry = d.isEntry
  loops : ∃ new, d'.loops = addBreaks new d.loops ∧ (∀ site ∈ new, d.size ≤ site ∧ site + 2 ≤ d'.size) ∧
    new.Pairwise fun later earlier => earlier + 2 ≤ later

/-- The functions, the library and the pages from `n` on of a workbench are those of a finished program. -/
structure Final (program : Program) (functions : List (Nat × UInt16)) (n : Nat) (s : Workbench) : Prop where
  functions : ∀ id i, s.functions.lookup id = some i → functions.lookup id = some i
  pages : ∀ i, n ≤ i → i < s.program.pages.size → s.NoFunction i → program.pages[i]? = s.program.pages[i]?
  library : ∀ (i : Nat) e, s.program.library[i]? = some e → program.library[i]? = some e

/-- The page `i` is laid out; if it is none of the entries, as the page of a function or a closure. -/
def Program.LaidAt (program : Program) (functions : List (Nat × UInt16)) (entries : Nat → Prop) (i : Nat) (page : Page)
    (n : Nat) : Prop := program.LaidBody functions page n ∨ entries i ∧ program.Laid functions page n

theorem Program.LaidAt.laid {program : Program} {functions : List (Nat × UInt16)} {entries : Nat → Prop} {i : Nat}
    {page : Page} {n : Nat} (h : program.LaidAt functions entries i page n) : program.Laid functions page n :=
  h.elim LaidBody.laid And.right

/-- Every page of the workbench is laid out in the finished program, unless it is open or waits for the definition of
its function. The pages of functions have no environment. -/
structure Stocked (program : Program) (functions : List (Nat × UInt16)) (entries : Nat → Prop) (opens : List Nat)
    (s : Workbench) : Prop where
  defined : ∀ id ∈ s.defined, (s.functions.lookup id).isSome
  pages : ∀ i page, s.program.pages[i]? = some page → i ∈ opens ∨
    (∃ id j, s.functions.lookup id = some j ∧ j.toNat = i ∧ id ∉ s.defined) ∨
    ∃ n, program.LaidAt functions entries i page n ∧ (n = 0 ∨ s.NoFunction i)

/-- A step that only adds; the pages that it completes are laid out in every finished program. -/
structure Extends (s s' : Workbench) : Prop where
  draft : s.draft.Grows s'.draft
  program : Grows s s'
  stocks : ∀ {program : Program} {functions : List (Nat × UInt16)} {entries : Nat → Prop} {opens : List Nat}, s.Known →
    Final program functions s.program.pages.size s' → Stocked program functions entries opens s →
    Stocked program functions entries opens s'

/-- The distance at `site` is to be filled in so that the jump goes to `target`. -/
structure Hole where
  site : Nat
  target : Nat

/-- A stretch of code does not touch a hole. -/
def Hole.Off (h : Hole) (p q : Nat) : Prop := h.site + 2 ≤ p ∨ q ≤ h.site

/-- The hole is filled in. -/
def Hole.Filled (h : Hole) (code : Array UInt8) : Prop :=
  ∃ w, HasBytes code h.site (wordBytes w) ∧ h.site + 2 + w.toNat = h.target

/-- The jumps out of the innermost loop that wait for its end. -/
def Draft.holes (d : Draft) : Option Loop → List Hole
  | some l => d.breaks.map fun site => ⟨site, l.exit⟩
  | none => []

/-- What a workbench has between `p` and `q` up to holes, and its pages from `n` on, are final in a sheet. -/
structure Settled (S : Sheet) (holes : List Hole) (p q n : Nat) (s : Workbench) : Prop where
  code : ∀ j, p ≤ j → j < q → (∀ h ∈ holes, h.Off j (j + 1)) → S.page.code[j]? = s.draft.page.code[j]?
  filled : ∀ h ∈ holes, h.Filled S.page.code
  constants : ∀ key c, s.draft.page.constants.get? key = some c → S.page.constants.get? key = some c
  captures : S.captures = s.draft.captures
  captured : S.captured = s.draft.captured
  isEntry : S.isEntry = s.draft.isEntry
  program : Final S.program S.functions n s

/-! ## Growing programs -/

section Grows

variable {n : Nat} {s s' s'' : Workbench}

theorem Grows.noFunction (h : Grows s s') {i : Nat} (hi : i < s.program.pages.size) (hn : s.NoFunction i) :
    s'.NoFunction i := by
  intro id j hj
  rcases h.fresh id j hj with h' | h'
  · exact hn id j h'
  · omega

theorem Grows.of_eq (hp : s'.program = s.program) (hf : s'.functions = s.functions) : Grows s s' where
  known := by
    unfold Workbench.Known
    rw [hp, hf]
    exact id
  functions := fun id i h => by rw [hf]; exact h
  fresh := fun id i h => by rw [hf] at h; exact .inl h
  count := Nat.le_of_eq (by rw [hp])
  pages := fun i _ _ => by rw [hp]
  library := fun i e h => by rw [hp]; exact h

theorem Grows.trans (h : Grows s s') (h' : Grows s' s'') : Grows s s'' where
  known := fun hk => h'.known (h.known hk)
  functions := fun id i hi => h'.functions id i (h.functions id i hi)
  fresh := fun id i hi => by
    rcases h'.fresh id i hi with hi' | hi'
    · exact h.fresh id i hi'
    · exact .inr (Nat.le_trans h.count hi')
  count := Nat.le_trans h.count h'.count
  pages := fun i hi hf => by
    rw [h'.pages i (Nat.lt_of_lt_of_le hi h.count) (h.noFunction hi hf), h.pages i hi hf]
  library := fun i e hi => h'.library i e (h.library i e hi)

/-- What is final at the end was final before. -/
theorem Final.back {program : Program} {functions : List (Nat × UInt16)} (h : Final program functions n s')
    (hg : Grows s s') : Final program functions n s where
  functions := fun id i hi => h.functions id i (hg.functions id i hi)
  pages := fun i hn hi hf => by
    rw [h.pages i hn (Nat.lt_of_lt_of_le hi hg.count) (hg.noFunction hi hf), hg.pages i hi hf]
  library := fun i e he => h.library i e (hg.library i e he)

theorem Final.redraft {program : Program} {functions : List (Nat × UInt16)} {d : Draft} {ds : List Draft}
    (h : Final program functions n { s with draft := d, enclosing := ds }) : Final program functions n s := { h with }

theorem Final.mono {program : Program} {functions : List (Nat × UInt16)} {m : Nat} (h : Final program functions n s)
    (hm : n ≤ m) : Final program functions m s :=
  { h with pages := fun i hi => h.pages i (Nat.le_trans hm hi) }

end Grows

/-! ## Growing drafts -/

section Extends

variable {d d' d'' : Draft} {s s' s'' : Workbench}

theorem addBreaks_nil (loops : List LoopContext) : addBreaks [] loops = loops := by
  cases loops <;> rfl

theorem addBreaks_append (new new' : List Nat) (loops : List LoopContext) :
    addBreaks new' (addBreaks new loops) = addBreaks (new' ++ new) loops := by
  cases loops with
  | nil => rfl
  | cons c rest => simp [addBreaks]

theorem Draft.Grows.trans (h : d.Grows d') (h' : d'.Grows d'') : d.Grows d'' where
  size := Nat.le_trans h.size h'.size
  code := fun j hj => by rw [h'.code j (Nat.lt_of_lt_of_le hj h.size), h.code j hj]
  constants := fun key c hc => h'.constants key c (h.constants key c hc)
  arity := h'.arity.trans h.arity
  captures := h'.captures.trans h.captures
  captured := h'.captured.trans h.captured
  isEntry := h'.isEntry.trans h.isEntry
  loops := by
    obtain ⟨new, hn, hb, ha⟩ := h.loops
    obtain ⟨new', hn', hb', ha'⟩ := h'.loops
    have hsize := h.size
    have hsize' := h'.size
    refine ⟨new' ++ new, by rw [hn', hn, addBreaks_append], fun site hs => ?_, ?_⟩
    · rcases List.mem_append.1 hs with hs | hs
      · have := hb' site hs
        omega
      · have := hb site hs
        omega
    · refine List.pairwise_append.2 ⟨ha', ha, fun later hl earlier he => ?_⟩
      have := hb' later hl
      have := hb earlier he
      omega

/-- Jumps out of the loop that are there stay there. -/
theorem Draft.Grows.mem_breaks (h : d.Grows d') {site : Nat} (hs : site ∈ d.breaks) : site ∈ d'.breaks := by
  obtain ⟨new, hn, -⟩ := h.loops
  unfold breaks at hs ⊢
  rw [hn]
  cases hl : d.loops with
  | nil => rw [hl] at hs; cases hs
  | cons c rest => rw [hl] at hs; exact List.mem_append_right _ hs

/-- Jumps out of the loop that are there later were there before, or come later in the code. -/
theorem Draft.Grows.breaks_or (h : d.Grows d') {site : Nat} (hs : site ∈ d'.breaks) :
    site ∈ d.breaks ∨ d.size ≤ site ∧ site + 2 ≤ d'.size := by
  obtain ⟨new, hn, hb, -⟩ := h.loops
  unfold breaks at hs ⊢
  rw [hn] at hs
  cases hl : d.loops with
  | nil => rw [hl] at hs; cases hs
  | cons c rest =>
    rw [hl] at hs
    rcases List.mem_append.1 hs with h | h
    · exact .inr (hb site h)
    · exact .inl h

theorem Draft.Grows.refl (d : Draft) : d.Grows d :=
  ⟨Nat.le_refl _, fun _ _ => rfl, fun _ _ h => h, rfl, rfl, rfl, rfl, [], (addBreaks_nil _).symm, by simp, .nil⟩

theorem Extends.trans (h : Extends s s') (h' : Extends s' s'') : Extends s s'' :=
  ⟨h.draft.trans h'.draft, h.program.trans h'.program,
    fun hk hf hs => h'.stocks (h.program.known hk) (hf.mono h.program.count) (h.stocks hk (hf.back h'.program) hs)⟩

/-- Only the pages and the functions matter. -/
theorem Stocked.congr {program : Program} {functions : List (Nat × UInt16)} {entries : Nat → Prop} {opens : List Nat}
    (h : Stocked program functions entries opens s) (hp : s'.program.pages = s.program.pages)
    (hf : s'.functions = s.functions) (hd : s'.defined = s.defined) : Stocked program functions entries opens s' := by
  have hn (i : Nat) : s'.NoFunction i ↔ s.NoFunction i := by unfold Workbench.NoFunction; rw [hf]
  refine ⟨?_, ?_⟩
  · rw [hd, hf]
    exact h.defined
  · simp only [hn]
    rw [hp, hf, hd]
    exact h.pages

/-- A step that does nothing but to the page at hand. -/
theorem Extends.of_draft (h : s.draft.Grows s'.draft) (hp : s'.program = s.program) (hf : s'.functions = s.functions)
    (hd : s'.defined = s.defined) : Extends s s' where
  draft := h
  program := .of_eq hp hf
  stocks := fun _ _ hs => hs.congr (by rw [hp]) hf hd

/-- For the program it does not matter with which drafts a step starts and ends. -/
theorem Extends.redraft {d d' : Draft} {ds ds' : List Draft} (h : Extends { s with draft := d, enclosing := ds } s')
    (hd : s.draft.Grows d') : Extends s { s' with draft := d', enclosing := ds' } :=
  ⟨hd, { h.program with }, fun hk hf hst => (h.stocks hk hf.redraft (hst.congr rfl rfl rfl)).congr rfl rfl rfl⟩

/-- A jump that was written since may be filled in. -/
theorem Extends.land {site : Nat} (h : Extends s s') (hl : Emit.land site s' = .ok () s'')
    (hs : s.draft.size ≤ site) : Extends s s'' := by
  obtain ⟨-, rfl⟩ := Emit.land_ok hl
  refine ⟨?_, h.program.trans (.of_eq rfl rfl), fun hk hf hst => ?_⟩
  · have hsize := s'.draft.size_patch site (s'.draft.size - (site + 2)).toUInt16
    refine { h.draft with size := ?_, code := ?_, loops := ?_ }
    · exact Nat.le_trans h.draft.size (Nat.le_of_eq hsize.symm)
    · intro j hj
      rw [← h.draft.code j hj]
      exact Draft.getElem?_patch_of_ne (by omega) (by omega)
    · obtain ⟨new, hn, hb, ha⟩ := h.draft.loops
      refine ⟨new, hn, fun site' hs' => ?_, ha⟩
      have := hb site' hs'
      exact ⟨this.1, Nat.le_trans this.2 (Nat.le_of_eq hsize.symm)⟩
  · exact (h.stocks hk (hf.back (.of_eq rfl rfl)) hst).congr rfl rfl rfl

end Extends

/-! ## Settled code -/

section Settled

variable {S : Sheet} {loop? : Option Loop} {H : List Hole} {p q n : Nat} {s s' : Workbench}

/-- Later code has no holes in earlier one. -/
theorem Draft.Grows.holes_or {d d' : Draft} (h : d.Grows d') {x : Hole} (hx : x ∈ d'.holes loop?) :
    x ∈ d.holes loop? ∨ d.size ≤ x.site := by
  cases loop? with
  | none => cases hx
  | some l =>
    obtain ⟨site, hs, rfl⟩ := List.mem_map.1 hx
    rcases h.breaks_or hs with hs | hs
    · exact .inl (List.mem_map.2 ⟨site, hs, rfl⟩)
    · exact .inr hs.1

theorem Draft.Grows.mem_holes {d d' : Draft} (h : d.Grows d') {x : Hole} (hx : x ∈ d.holes loop?) :
    x ∈ d'.holes loop? := by
  cases loop? with
  | none => cases hx
  | some l =>
    obtain ⟨site, hs, rfl⟩ := List.mem_map.1 hx
    exact List.mem_map.2 ⟨site, h.mem_breaks hs, rfl⟩

/-- The jumps out of the innermost loop lie in the code. -/
def Draft.HolesIn (loop? : Option Loop) (d : Draft) : Prop := ∀ x ∈ d.holes loop?, x.site + 2 ≤ d.size

theorem Draft.Grows.holesIn {d d' : Draft} (h : d.Grows d') (hd : d.HolesIn loop?) : d'.HolesIn loop? := by
  intro x hx
  cases loop? with
  | none => cases hx
  | some l =>
    obtain ⟨site, hs, rfl⟩ := List.mem_map.1 hx
    rcases h.breaks_or hs with hs | hs
    · exact Nat.le_trans (hd _ (List.mem_map.2 ⟨site, hs, rfl⟩)) h.size
    · exact hs.2

/-- A stretch of what is settled is settled, and holes outside of it do not matter. -/
theorem Settled.part {K : List Hole} {p' q' n' : Nat} (h : Settled S H p q n s) (hp : p ≤ p') (hq : q' ≤ q)
    (hn : n ≤ n') (hK : ∀ x ∈ K, x ∈ H) (hH : ∀ x ∈ H, x ∈ K ∨ x.Off p' q') : Settled S K p' q' n' s :=
  { h with
    code := by
      intro j h₁ h₂ hj
      refine h.code j (Nat.le_trans hp h₁) (Nat.lt_of_lt_of_le h₂ hq) fun x hx => ?_
      rcases hH x hx with hx | hx
      · exact hj x hx
      · unfold Hole.Off at *
        omega
    filled := fun x hx => h.filled x (hK x hx)
    program := h.program.mono hn }

/-- What is open at the end of the code does not matter for what is settled. -/
theorem Settled.reframe {loops : List LoopContext} {regions : List Region} {height : Nat}
    (h : Settled S H p q n { s with draft := { s.draft with loops, regions, height } }) : Settled S H p q n s :=
  { h with program := h.program.redraft }

/-- What is settled after a step that only adds was settled before. -/
theorem Settled.back (h : Settled S (H ++ s'.draft.holes loop?) p q n s') (he : Extends s s')
    (hq : s'.draft.size ≤ q) : Settled S (H ++ s.draft.holes loop?) p s.draft.size n s where
  code := by
    intro j hp hj hx
    rw [h.code j hp (by have := he.draft.size; omega) ?_, he.draft.code j hj]
    intro x hx'
    rcases List.mem_append.1 hx' with hx' | hx'
    · exact hx x (List.mem_append_left _ hx')
    · rcases he.draft.holes_or hx' with hx' | hx'
      · exact hx x (List.mem_append_right _ hx')
      · exact .inr (by omega)
  filled := by
    intro x hx
    rcases List.mem_append.1 hx with hx | hx
    · exact h.filled x (List.mem_append_left _ hx)
    · exact h.filled x (List.mem_append_right _ (he.draft.mem_holes hx))
  constants := fun key c hc => h.constants key c (he.draft.constants key c hc)
  captures := h.captures.trans he.draft.captures
  captured := h.captured.trans he.draft.captured
  isEntry := h.isEntry.trans he.draft.isEntry
  program := h.program.back he.program

/-- Filling in a hole: what is settled after it was settled before, up to the hole. -/
theorem Settled.back_land {site : Nat} (h : Settled S H p q n s') (hl : Emit.land site s = .ok () s')
    (hs : site + 2 ≤ s.draft.size) (hp : p ≤ site) (hq : s.draft.size ≤ q)
    (hH : ∀ x ∈ H, x.Off site (site + 2)) : Settled S (⟨site, s.draft.size⟩ :: H) p q n s := by
  obtain ⟨hd, rfl⟩ := Emit.land_ok hl
  refine { h with code := ?_, filled := ?_, program := ⟨h.program.functions, h.program.pages, h.program.library⟩ }
  · intro j h₁ h₂ hj
    rw [h.code j h₁ h₂ fun x hx => hj x (List.mem_cons_of_mem _ hx)]
    have : site + 2 ≤ j ∨ j + 1 ≤ site := hj _ (List.mem_cons_self ..)
    exact Draft.getElem?_patch_of_ne (by omega) (by omega)
  · intro x hx
    rcases List.mem_cons.1 hx with rfl | hx
    · refine ⟨(s.draft.size - (site + 2)).toUInt16, ?_, ?_⟩
      · intro k hk
        have hk : k < 2 := hk
        rw [h.code (site + k) (by omega) (by omega) ?_, Draft.getElem?_patch_site hs k hk]
        intro x hx
        have := hH x hx
        unfold Hole.Off at *
        omega
      · show site + 2 + (s.draft.size - (site + 2)).toUInt16.toNat = s.draft.size
        rw [UInt16.toNat_ofNat', Nat.mod_eq_of_lt (by omega)]
        omega
    · exact h.filled x hx

/-- Bytes of a workbench that hold no hole stand in the sheet. -/
theorem Settled.bytes (h : Settled S H p q n s) {offset : Nat} {bytes : List UInt8} (hp : p ≤ offset)
    (hq : offset + bytes.length ≤ q) (hH : ∀ x ∈ H, x.Off offset (offset + bytes.length))
    (hb : HasBytes s.draft.page.code offset bytes) : HasBytes S.page.code offset bytes := by
  intro k hk
  rw [h.code (offset + k) (by omega) (by omega), hb k hk]
  intro x hx
  have := hH x hx
  unfold Hole.Off at *
  omega

end Settled

end ShellVM
