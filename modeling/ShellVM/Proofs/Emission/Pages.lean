import ShellVM.Proofs.Emission.Enclosing
import ShellVM.Proofs.Emission.Straight

/-!
# Emitters of pages

The body of a function or of a closure gets a page of its own. `Composes` says that such a page is what it should be in
every finished program; it becomes the page of its function (`Emits.define`), or the page of a closure, whose cells are
put aside in front of it (`Emits.closure`).
-/

namespace ShellVM

/-- The emitter gives a page with these parameters and captures, whose body lies as `B` says. -/
def Composes (m : Emit Page) (parameters captures captured : List String) (B : Sheet → Part) : Prop :=
  ∀ ⦃s s' : Workbench⦄ ⦃page : Page⦄, m s = .ok page s' → Extends s s' ∧ s'.draft = s.draft ∧
    ∀ {S : Sheet}, s.Known → S.page.code = page.code → S.page.constants = page.constants →
      S.page.arity = page.arity → S.captures = captures → S.captured = captured → S.isEntry = false →
      Final S.program S.functions s.program.pages.size s' → S.Holds parameters (B S)

/-! ## Reserved pages -/

section Reserved

variable {program : Program} {functions : List (Nat × UInt16)} {entries : Nat → Prop} {opens : List Nat}
  {s s' : Workbench} {name : String} {index : UInt16} {n : Nat}

/-- The workbench with one more page, which is empty. -/
def Workbench.reserve (s : Workbench) (name : String) : Workbench :=
  { s with program := { s.program with pages := s.program.pages.push (.empty name 0) } }

/-- The workbench with another page in place of one that is there. -/
def Workbench.install (s : Workbench) (index : UInt16) (page : Page) : Workbench :=
  { s with program := { s.program with pages := s.program.pages.modify index.toNat fun _ => page } }

/-- A page was reserved, and then things were added. -/
structure Reserved (s s' : Workbench) (name : String) (index : UInt16) : Prop where
  index : index.toNat = s.program.pages.size
  adds : Grows (s.reserve name) s'

theorem Workbench.Known.reserve (hk : s.Known) : (s.reserve name).Known := by
  intro id i h
  have := hk id i h
  simp only [Workbench.reserve, Array.size_push]
  omega

theorem Stocked.reserve (h : Stocked program functions entries opens s) :
    Stocked program functions entries (s.program.pages.size :: opens) (s.reserve name) := by
  refine ⟨h.defined, fun i old hp => ?_⟩
  simp only [Workbench.reserve, Array.getElem?_push] at hp
  split at hp
  · exact .inl (List.mem_cons.2 (.inl (by omega)))
  · rcases h.pages i old hp with h | h
    · exact .inl (List.mem_cons_of_mem _ h)
    · exact .inr h

theorem Workbench.getElem?_install {i : Nat} (page : Page) (hi : i ≠ index.toNat) :
    (s.install index page).program.pages[i]? = s.program.pages[i]? := by
  simp [Workbench.install, Array.getElem?_modify, Ne.symm hi]

namespace Reserved

theorem lt (h : Reserved s s' name index) : index.toNat < s'.program.pages.size := by
  have := h.adds.count
  simp only [Workbench.reserve, Array.size_push] at this
  have := h.index
  omega

theorem getElem?_install (h : Reserved s s' name index) (page : Page) :
    (s'.install index page).program.pages[index.toNat]? = some page := by
  simp [Workbench.install, Array.getElem?_modify, Array.getElem?_eq_getElem h.lt]

/-- Functions get other pages. -/
theorem noFunction (h : Reserved s s' name index) (hk : s.Known) : s'.NoFunction index.toNat := by
  intro id j hj
  have hi := h.index
  rcases h.adds.fresh id j hj with hj | hj
  · have := hk id j hj
    omega
  · simp only [Workbench.reserve, Array.size_push] at hj
    omega

theorem grows (h : Reserved s s' name index) (page : Page) : Grows s (s'.install index page) := by
  have hi := h.index
  have hsize : (s.reserve name).program.pages.size = s.program.pages.size + 1 := Array.size_push _
  have hcount := h.adds.count
  refine ⟨fun hk id i hl => ?_, h.adds.functions, fun id i hl => ?_, ?_, fun i hlt hn => ?_, h.adds.library⟩
  · simpa [Workbench.install] using h.adds.known hk.reserve id i hl
  · rcases h.adds.fresh id i hl with hl | hl
    · exact .inl hl
    · exact .inr (by omega)
  · simp only [Workbench.install, Array.size_modify]
    omega
  · rw [Workbench.getElem?_install page (by omega), h.adds.pages i (by omega) hn]
    simp only [Workbench.reserve, Array.getElem?_push]
    rw [if_neg (by omega)]

theorem final {page : Page} (h : Reserved s s' name index)
    (hf : Final program functions s.program.pages.size (s'.install index page)) :
    Final program functions (s.reserve name).program.pages.size s' := by
  have hi := h.index
  refine ⟨hf.functions, fun i hn hlt hno => ?_, hf.library⟩
  simp only [Workbench.reserve, Array.size_push] at hn
  rw [hf.pages i (by omega) (by simpa [Workbench.install] using hlt) hno]
  exact Workbench.getElem?_install page (by omega)

/-- The page stays as it was installed. -/
theorem page {page : Page} (h : Reserved s s' name index) (hk : s.Known)
    (hf : Final program functions s.program.pages.size (s'.install index page)) :
    program.page? index = some page := by
  have hi := h.index
  have hlt := h.lt
  show program.pages[index.toNat]? = some page
  rw [hf.pages index.toNat (by omega) (by simpa [Workbench.install] using hlt) (h.noFunction hk)]
  exact h.getElem?_install page

theorem stocked {page : Page} (h : Reserved s s' name index) (hk : s.Known)
    (hst : Stocked program functions entries (s.program.pages.size :: opens) s')
    (hl : program.LaidAt functions entries index.toNat page n) :
    Stocked program functions entries opens (s'.install index page) := by
  refine ⟨hst.defined, fun i new hp => ?_⟩
  by_cases hne : i = index.toNat
  · subst hne
    obtain rfl : page = new := Option.some.inj ((h.getElem?_install page).symm.trans hp)
    exact .inr (.inr ⟨n, hl, .inr (h.noFunction hk)⟩)
  · rw [Workbench.getElem?_install page hne] at hp
    rcases hst.pages i new hp with hi | hi
    · rcases List.mem_cons.1 hi with hi | hi
      · exact absurd (hi.trans h.index.symm) hne
      · exact .inl hi
    · exact .inr hi

end Reserved

end Reserved

/-! ## The functions that were seen -/

theorem mem_of_lookup_eq {id : Nat} {i : UInt16} {functions : List (Nat × UInt16)} (h : functions.lookup id = some i) :
    (id, i) ∈ functions := by
  obtain ⟨before, after, rfl, -⟩ := List.lookup_eq_some_iff.1 h
  exact List.mem_append_right before List.mem_cons_self

theorem lookup_cons_ite (functions : List (Nat × UInt16)) (id id' : Nat) (index : UInt16) :
    List.lookup id' ((id, index) :: functions) = if id' = id then some index else functions.lookup id' := by
  by_cases h : id' = id
  · rw [if_pos h, h, List.lookup_cons_self]
  · rw [if_neg h, List.lookup_cons, beq_eq_false_iff_ne.2 h]

namespace Emits

/-- Parameters, the body and the end of a page. -/
theorem pageBody {body : Emit Unit} {B : Sheet → Part} (parameters : List String)
    (h : Emits body fun _ S => (B S).layout) : Emits (Emit.pageBody parameters body) fun _ S Γ p _ p' => ∃ new p₁ p₂,
      S.declaresAll Γ.depth parameters 0 p new p₁ ∧
        B S { Γ with locals := new ++ Γ.locals, height := parameters.length } p₁ p₂ ∧
        S.drops .unwind parameters.length p₂ p' := by
  have hdrops : (if !parameters.isEmpty then Emit.byte .unwind parameters.length "parameters" else pure ()) =
      if 0 < parameters.length then Emit.byte .unwind parameters.length "parameters" else pure () := by
    cases parameters <;> rfl
  unfold Emit.pageBody
  rw [hdrops]
  refine ((declareAll parameters 0).bind fun _ => (setHeight parameters.length).bind fun _ => h.bind fun _ =>
    drops true parameters.length "parameters").weaken ?_
  rintro _ S Γ p Γ' p' - ⟨_, _, p₁, ⟨new, hnew, rfl⟩, _, _, _, ⟨rfl, rfl⟩, _, _, p₂, ⟨hB, rfl⟩, hdrops, -, rfl⟩
  exact ⟨new, _, p₂, hnew, hB, hdrops⟩

theorem page {body : Emit Unit} {B : Sheet → Part} (name : String) (parameters captures captured : List String)
    (htidy : body.Tidy) (h : Emits body fun _ S => (B S).layout) :
    Composes (Emit.page name parameters captures captured body) parameters captures captured B := by
  intro s s' page hm
  have hc := Emit.page_count hm
  rw [Emit.page_run htidy hc] at hm
  let s₀ : Workbench := { s with
    draft := Emit.pageDraft name parameters captures captured, enclosing := s.draft :: s.enclosing }
  cases hrun : Emit.pageBody parameters body s₀ with
  | error e t =>
    rw [hrun] at hm
    cases hm
  | ok _ t =>
    rw [hrun] at hm
    cases hm
    have hdraws := pageBody parameters h hrun
    have harity : t.draft.page.arity = parameters.length.toUInt8 := hdraws.adds.draft.arity
    refine ⟨hdraws.adds.redraft (.refl _), rfl, ?_⟩
    intro S hk hcode hconstants harity' hcaptures hcaptured hentry hf
    have hd : Scope.Describes ⟨[], 0, 0, [], none⟩ (Emit.pageDraft name parameters captures captured) :=
      ⟨rfl, rfl, rfl, rfl, by simp [Emit.pageDraft, Draft.new], by simp [Emit.pageDraft, Draft.new, Draft.breaks],
        by simp [Emit.pageDraft, Draft.new], .empty⟩
    have hs : Settled S [] 0 t.draft.size s.program.pages.size t := by
      refine ⟨fun j _ _ _ => by rw [hcode], by simp, fun key c hc => by rwa [hconstants], ?_, ?_, ?_, hf.redraft⟩
      · rw [hcaptures, hdraws.adds.draft.captures]
        rfl
      · rw [hcaptured, hdraws.adds.draft.captured]
        rfl
      · rw [hentry, hdraws.adds.draft.isEntry]
        rfl
    obtain ⟨Γ', -, -, new, p₁, p₂, hnew, hB, hdrops⟩ := hdraws.lies hk hd hs
    refine ⟨?_, new, p₁, p₂, hnew, ?_, ?_⟩
    · rw [harity', harity, UInt8.toNat_ofNat', Nat.mod_eq_of_lt (by omega)]
    · rwa [List.append_nil] at hB
    · rwa [hcode]

/-! ## Functions -/

/-- The page of a function is known from when it is first seen. -/
theorem functionPage (id : Nat) : Emits (Emit.functionPage id) fun index S Γ p Γ' p' =>
    S.functions.lookup id = some index ∧ p' = p ∧ Γ' = Γ := by
  intro s s' index h
  rcases Emit.functionPage_ok h with ⟨hl, rfl⟩ | ⟨hl, hi, name, rfl⟩
  · exact ⟨.of_draft (.refl _) rfl rfl rfl,
      fun _ hd hs => ⟨_, hd, rfl, hs.program.functions id index hl, rfl, rfl⟩⟩
  · have hlookup (id' : Nat) := lookup_cons_ite s.functions id id' index
    have hold {id' : Nat} {i : UInt16} (h' : s.functions.lookup id' = some i) :
        List.lookup id' ((id, index) :: s.functions) = some i := by
      rw [hlookup, if_neg, h']
      rintro rfl
      rw [hl] at h'
      cases h'
    have hnew {id' : Nat} {i : UInt16} (h : List.lookup id' ((id, index) :: s.functions) = some i) :
        id' = id ∧ i = index ∨ s.functions.lookup id' = some i := by
      rw [hlookup] at h
      split at h
      · next hid => cases h; exact .inl ⟨hid, rfl⟩
      · exact .inr h
    refine ⟨⟨.refl _, ⟨?_, fun _ _ => hold, ?_, ?_, ?_, fun _ _ h => h⟩, ?_⟩,
      fun _ hd hs => ⟨_, hd, rfl, hs.program.functions id index (by simp [hlookup]), rfl, rfl⟩⟩
    · intro hk id' i h
      simp only [Array.size_push]
      rcases hnew h with ⟨-, rfl⟩ | h
      · omega
      · have := hk id' i h
        omega
    · intro id' i h
      rcases hnew h with ⟨-, rfl⟩ | h
      · exact .inr (Nat.le_of_eq hi.symm)
      · exact .inl h
    · simp
    · intro i hlt _
      simp [Array.getElem?_push, Nat.ne_of_lt hlt]
    · rintro program functions entries opens - - hst
      refine ⟨fun id' hid' => ?_, fun i page hp => ?_⟩
      · obtain ⟨i, h⟩ := Option.isSome_iff_exists.1 (hst.defined id' hid')
        rw [show List.lookup id' ((id, index) :: s.functions) = some i from hold h]
        rfl
      · simp only [Array.getElem?_push] at hp
        split at hp
        · next heq =>
          refine .inr (.inl ⟨id, index, by simp [hlookup], by omega, fun hd => ?_⟩)
          have := hst.defined id hd
          rw [hl] at this
          cases this
        · next hne =>
          rcases hst.pages i page hp with h | ⟨id', j, h, hj, hu⟩ | ⟨n, hlaid, hn⟩
          · exact .inl h
          · exact .inr (.inl ⟨id', j, hold h, hj, hu⟩)
          · refine .inr (.inr ⟨n, hlaid, hn.imp_right fun hn id' j h => ?_⟩)
            rcases hnew h with ⟨-, rfl⟩ | h
            · omega
            · exact hn id' j h

/-- A page of a function may be replaced by one that is laid out, too. -/
theorem modifyPage {s s' : Workbench} {index : UInt16} {f : Page → Page} {id : Nat} {defined : List Nat}
    {replaced : List (UInt16 × Page)} (h : Emit.modifyPage index f { s with defined, replaced } = .ok () s')
    (hid : s.functions.lookup id = some index) (hdefined : defined = s.defined ∨ defined = id :: s.defined) :
    Grows s s' ∧ s'.draft = s.draft ∧
      ∀ {program : Program} {functions : List (Nat × UInt16)} {entries : Nat → Prop} {opens : List Nat},
        Stocked program functions entries opens s → (∀ page, program.LaidBody functions (f page) 0) →
          Stocked program functions entries opens s' := by
  obtain ⟨hlt, rfl⟩ := Emit.modifyPage_ok h
  refine ⟨⟨?_, fun _ _ h => h, fun _ _ h => .inl h, ?_, ?_, fun _ _ h => h⟩, rfl, ?_⟩
  · intro hk id' i h
    simpa using hk id' i h
  · simp
  · intro i _ hn
    have hne : index.toNat ≠ i := hn id index hid
    simp [Array.getElem?_modify, hne]
  · intro program functions entries opens hst hlaid
    refine ⟨fun id' hid' => ?_, fun i page hp => ?_⟩
    · have hid' : id' ∈ defined := hid'
      rcases hdefined with rfl | rfl
      · exact hst.defined id' hid'
      · rcases List.mem_cons.1 hid' with rfl | hid'
        · show (s.functions.lookup _).isSome
          rw [hid]
          rfl
        · exact hst.defined id' hid'
    · simp only [Array.getElem?_modify] at hp
      split at hp
      · obtain ⟨old, -, rfl⟩ := Option.map_eq_some_iff.1 hp
        exact .inr (.inr ⟨0, .inl (hlaid old), .inl rfl⟩)
      · next hne =>
        rcases hst.pages i page hp with hopen | ⟨id', j, hl, hj, hu⟩ | hlaid
        · exact .inl hopen
        · refine .inr (.inl ⟨id', j, hl, hj, fun hu' => hu ?_⟩)
          rcases hdefined with rfl | rfl
          · exact hu'
          · rcases List.mem_cons.1 hu' with rfl | hu'
            · rw [hid] at hl
              cases hl
              exact absurd hj hne
            · exact hu'
        · exact .inr (.inr hlaid)

theorem define {m : Emit Page} {parameters captured : List String} {body : Expr} (id : Nat)
    (h : Composes m parameters [] captured fun S => S.valued body.producesValue (body.Lies S)) :
    Emits (Emit.define id m) fun _ _ Γ p Γ' p' => p' = p ∧ Γ' = Γ := by
  intro s s' _ hm
  obtain ⟨index, s₁, h₁, hm⟩ := bind_ok.1 hm
  obtain ⟨page, s₂, h₂, hm⟩ := bind_ok.1 hm
  obtain ⟨_, _, hg, hm⟩ := bind_ok.1 hm
  cases hg
  have d₁ := functionPage id h₁
  have hs₁ : s₁.draft = s.draft ∧ s₁.functions.lookup id = some index := by
    rcases Emit.functionPage_ok h₁ with ⟨hl, rfl⟩ | ⟨-, -, name, rfl⟩
    · exact ⟨rfl, hl⟩
    · exact ⟨rfl, by simp⟩
  obtain ⟨e₂, hdraft, hholds⟩ := h h₂
  have hid : s₂.functions.lookup id = some index := e₂.program.functions id index hs₁.2
  -- either way the page of the function becomes the new one, up to its name
  obtain ⟨f, hf, hmod⟩ : ∃ f : Page → Page, (∀ old, (f old).code = page.code ∧ (f old).constants = page.constants ∧
      (f old).arity = page.arity) ∧ ∃ defined replaced, (defined = s₂.defined ∨ defined = id :: s₂.defined) ∧
        Emit.modifyPage index f { s₂ with defined, replaced } = .ok () s' := by
    split at hm
    · obtain ⟨_, -, hm⟩ := Emit.replacePage_ok hm
      exact ⟨fun old => old.replaceBody page, fun _ => ⟨rfl, rfl, rfl⟩, s₂.defined, _, .inl rfl, hm⟩
    · obtain ⟨_, _, hd, hm⟩ := bind_ok.1 hm
      cases hd
      exact ⟨fun _ => page, fun _ => ⟨rfl, rfl, rfl⟩, _, _, .inr rfl, hm⟩
  obtain ⟨defined, _, hdefined, hmod⟩ := hmod
  obtain ⟨g₃, hdraft₃, hstock⟩ := modifyPage hmod hid hdefined
  have hdraft' : s'.draft = s.draft := by rw [hdraft₃, hdraft, hs₁.1]
  refine ⟨⟨by rw [hdraft']; exact .refl _, (d₁.adds.program.trans e₂.program).trans g₃, ?_⟩, ?_⟩
  · intro program functions entries opens hk hfinal hst
    have hfinal₂ := hfinal.back g₃
    have hk₁ := d₁.adds.program.known hk
    have hn₁ := hfinal₂.mono d₁.adds.program.count
    refine hstock (e₂.stocks hk₁ hn₁ (d₁.adds.stocks hk (hfinal₂.back e₂.program) hst)) fun old => ?_
    exact ⟨parameters, [], captured, body, rfl,
      hholds (S := ⟨program, functions, f old, [], captured, false⟩) hk₁ (hf old).1 (hf old).2.1 (hf old).2.2 rfl rfl
        rfl hn₁⟩
  · intro S Γ hk hd hs
    rw [hdraft']
    exact ⟨Γ, hd, rfl, rfl, rfl⟩

/-! ## Closures -/

theorem capture (name : String) : Emits (Emit.capture name) fun _ S Γ p Γ' p' =>
    S.puts Γ name p ∧ p' = p + 2 ∧ Γ' = Γ := by
  refine Emits.weaken (Emits.bind (resolve name) (?_ : ∀ place, Emits _ fun _ S Γ p Γ' p' =>
    ((∃ slot, place = .cell slot ∧ S.Has p .captureLocal [slot]) ∨
      ∃ i, place = .capture i ∧ S.Has p .captureOuter [i]) ∧ p' = p + 2 ∧ Γ' = Γ)) ?_
  · intro place
    cases place with
    | slot s =>
      intro s s' _ h
      cases h
    | cell slot =>
      refine (op rfl rfl).weaken ?_
      rintro _ S Γ p Γ' p' - ⟨ho, rfl, -, rfl⟩
      exact ⟨.inl ⟨slot, rfl, ho⟩, rfl, rfl⟩
    | capture i =>
      refine (op rfl rfl).weaken ?_
      rintro _ S Γ p Γ' p' - ⟨ho, rfl, -, rfl⟩
      exact ⟨.inr ⟨i, rfl, ho⟩, rfl, rfl⟩
  rintro _ S Γ p Γ' p' - ⟨place, _, _, ⟨hp, rfl, rfl⟩, hput, rfl, rfl⟩
  refine ⟨?_, rfl, rfl⟩
  rcases hput with ⟨slot, rfl, ho⟩ | ⟨i, rfl, ho⟩
  · exact .inl ⟨slot, hp, ho⟩
  · exact .inr ⟨i, hp, ho⟩

theorem captureAll : ∀ names : List String, Emits (Emit.captureAll names) fun _ S Γ p Γ' p' =>
    S.putsAll Γ names p p' ∧ Γ' = Γ
  | [] => by
    refine (skip ()).weaken ?_
    rintro _ S Γ p Γ' p' - ⟨-, rfl, rfl⟩
    exact ⟨rfl, rfl⟩
  | name :: names => by
    refine ((capture name).bind fun _ => captureAll names).weaken ?_
    rintro _ S Γ p Γ' p' - ⟨_, _, _, ⟨hput, rfl, rfl⟩, hputs, rfl⟩
    exact ⟨⟨hput, hputs⟩, rfl⟩

/-- A closure gets a page that no function has, so it stays as it is. -/
theorem closurePage {m : Emit Page} {parameters captures captured : List String} {body : Expr}
    (h : Composes m parameters captures captured fun S => S.valued body.producesValue (body.Lies S)) :
    Emits (do
      let index ← Emit.reservePage "<closure>"
      let page ← m
      Emit.install index page
      return index) fun index S Γ p Γ' p' => p' = p ∧ Γ' = Γ ∧ ∃ page, S.program.page? index = some page ∧
        (S.other page captures captured).Holds parameters
          ((S.other page captures captured).valued body.producesValue
            (body.Lies (S.other page captures captured))) := by
  intro s s' index hm
  obtain ⟨index', s₁, h₁, hm⟩ := bind_ok.1 hm
  obtain ⟨page, s₂, h₂, hm⟩ := bind_ok.1 hm
  obtain ⟨_, s₃, h₃, hm⟩ := bind_ok.1 hm
  cases hm
  obtain ⟨hi, rfl⟩ := Emit.reservePage_ok h₁
  obtain ⟨e₂, hdraft, hholds⟩ := h h₂
  obtain ⟨-, rfl⟩ := Emit.modifyPage_ok h₃
  have hdraft : s₂.draft = s.draft := hdraft
  have hr : Reserved s s₂ "<closure>" index := ⟨hi, e₂.program⟩
  refine ⟨⟨?_, hr.grows page, fun hk hf hst => ?_⟩, fun {S Γ} hk hd hs => ?_⟩
  · show s.draft.Grows s₂.draft
    rw [hdraft]
    exact .refl _
  · refine hr.stocked hk (e₂.stocks hk.reserve (hr.final hf) hst.reserve) (.inl ⟨parameters, captures, captured, body,
      rfl, hholds (S := ⟨_, _, page, captures, captured, false⟩) hk.reserve rfl rfl rfl rfl rfl rfl (hr.final hf)⟩)
  · refine ⟨Γ, ?_, rfl, ?_, rfl, page, hr.page hk hs.program,
      hholds hk.reserve rfl rfl rfl rfl rfl rfl (hr.final hs.program)⟩
    · show Γ.Describes s₂.draft
      rw [hdraft]
      exact hd
    · show s₂.draft.size = s.draft.size
      rw [hdraft]

theorem closure {m : Emit Page} {parameters captures captured : List String} {body : Expr}
    (h : Composes m parameters captures captured fun S => S.valued body.producesValue (body.Lies S)) :
    Emits (Emit.closure captures m) fun _ S => (S.closure captures fun page =>
      (S.other page captures captured).Holds parameters
        ((S.other page captures captured).valued body.producesValue
          (body.Lies (S.other page captures captured)))).layout := by
  intro s s' _ hm
  obtain ⟨_, s₁, h₁, hm⟩ := bind_ok.1 hm
  obtain ⟨hc, hm⟩ := check_ok hm
  have hm : (do
      let index ← (do
        let index ← Emit.reservePage "<closure>"
        let page ← m
        Emit.install index page
        return index)
      let key ← Emit.constantKey (.page index)
      Emit.op .makeClosure (wordBytes key ++ [captures.length.toUInt8])) s₁ = .ok () s' := by
    simp only [bind_assoc, pure_bind]
    exact hm
  have hpage := ((closurePage h).bind fun index => (constantKey (.page index)).bind fun key =>
    op (o := .makeClosure) rfl rfl) hm
  refine ((captureAll captures h₁).trans hpage).weaken ?_
  rintro S Γ p Γ' p' - ⟨_, p₁, ⟨hputs, rfl⟩, index, _, _, ⟨rfl, rfl, page, hp, hholds⟩, key, _, _, ⟨hk, rfl, rfl⟩, ho,
    rfl, -, rfl⟩
  exact ⟨⟨_, key, index, page, hputs, by omega, hk, ho, rfl, hp, hholds⟩, rfl⟩

end Emits

end ShellVM
