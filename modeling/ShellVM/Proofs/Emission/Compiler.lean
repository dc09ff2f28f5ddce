import ShellVM.Compile.Compiler
import ShellVM.Proofs.Emission.Expression

/-!
# Compiled programs are laid out

A compiler is `Stable` if its pages are laid out in every program that it may grow into. Every entry keeps it stable,
so every page of a compiled program is laid out (`Compiler.Stable.laid`), and the page of an entry holds the code of its
expression, whatever entries come after it (`Compiler.Enters.later`).
-/

namespace ShellVM

namespace Compiler

/-- From one compiler to a later one. -/
def Grows (c c' : Compiler) : Prop := ∀ d d', ShellVM.Grows (c.bench d) (c'.bench d')

/-- What the compiler has is laid out in all programs that it may become, and no function waits for its definition.
Pages other than those of `entries` are the pages of functions and closures. -/
structure StableBut (entries : Nat → Prop) (c : Compiler) : Prop where
  known : ∀ d, (c.bench d).Known
  defined : ∀ id i, c.functions.lookup id = some i → id ∈ c.defined
  stocked : ∀ {program : Program} {functions : List (Nat × UInt16)} (d : Draft), Final program functions 0 (c.bench d) →
    Stocked program functions entries [] (c.bench d)

/-- What the compiler has is laid out in all programs that it may become, and no function waits for its definition. -/
abbrev Stable (c : Compiler) : Prop := c.StableBut fun _ => True

/-- The page holds the code of an entry in all programs that the compiler may become. -/
def Enters (c : Compiler) (e : Expr) (index : UInt16) : Prop :=
  ∀ {program : Program} {functions : List (Nat × UInt16)} (d : Draft), Final program functions 0 (c.bench d) →
    ∃ page, program.page? index = some page ∧
      (⟨program, functions, page, [], e.captured, true⟩ : Sheet).Holds []
        ((⟨program, functions, page, [], e.captured, true⟩ : Sheet).valued e.producesValue
          (e.Lies ⟨program, functions, page, [], e.captured, true⟩))

variable {c c' c'' : Compiler} {e : Expr} {index : UInt16} {entries : Nat → Prop}

theorem Grows.refl (c : Compiler) : c.Grows c := fun _ _ => .of_eq rfl rfl

theorem Grows.trans (h : c.Grows c') (h' : c'.Grows c'') : c.Grows c'' := fun d d' => (h d d).trans (h' d d')

theorem Enters.later (h : c.Enters e index) (hg : c.Grows c') : c'.Enters e index :=
  fun d hf => h d (hf.back (hg d d))

theorem StableBut.new : new.StableBut entries where
  known := fun _ _ _ h => by cases h
  defined := fun _ _ h => by cases h
  stocked := fun _ _ => ⟨by simp [bench, Compiler.new], by simp [bench, Compiler.new, Program.empty]⟩

theorem Stable.new : new.Stable := StableBut.new

theorem StableBut.mono {entries' : Nat → Prop} (hc : c.StableBut entries) (h : ∀ i, entries i → entries' i) :
    c.StableBut entries' where
  known := hc.known
  defined := hc.defined
  stocked := fun d hf => ⟨(hc.stocked d hf).defined, fun i page hp => by
    rcases (hc.stocked d hf).pages i page hp with hopen | hwaits | ⟨n, hlaid, hn⟩
    · exact .inl hopen
    · exact .inr (.inl hwaits)
    · exact .inr (.inr ⟨n, hlaid.imp_right (.imp_left (h i)), hn⟩)⟩

theorem undefined?_eq_none {functions : List (Nat × UInt16)} {defined : List Nat} {id : Nat} {i : UInt16}
    (h : undefined? functions defined = none) (hi : functions.lookup id = some i) : id ∈ defined := by
  have := List.find?_eq_none.1 h id (List.mem_map_of_mem (mem_of_lookup_eq hi))
  simpa using this

/-- What the emitter of an entry does: a page is reserved, the code is written, and the page is installed. -/
theorem emitEntry_ok {s s' : Workbench} (hdraft : s.draft = entryDraft e) (henclosing : s.enclosing = [])
    (h : emitEntry e s = .ok index s') :
    ∃ s₁, e.emitValue (s.reserve entryName) = .ok () s₁ ∧ Reserved s s₁ entryName index ∧
      s' = s₁.install index s₁.draft.page ∧ undefined? s'.functions s'.defined = none := by
  obtain ⟨_, _, h₁, h⟩ := bind_ok.1 h
  obtain ⟨_, _, h₂, h⟩ := bind_ok.1 h
  obtain ⟨_, s₁, h₃, h⟩ := bind_ok.1 h
  obtain ⟨_, _, h₄, h⟩ := bind_ok.1 h
  obtain ⟨_, s₂, h₅, h⟩ := bind_ok.1 h
  obtain ⟨_, _, h₆, h⟩ := bind_ok.1 h
  cases h₄
  cases h₆
  obtain ⟨hi, rfl⟩ := Emit.reservePage_ok h₁
  cases h₂
  have hs : { s.reserve entryName with draft := entryDraft e, enclosing := [] } = s.reserve entryName := by
    rw [← hdraft, ← henclosing]
    rfl
  replace h₃ : e.emitValue (s.reserve entryName) = .ok () s₁ := by rwa [← hs]
  have hadds := (Emits.value e.emits h₃).adds.program
  obtain ⟨-, rfl⟩ := Emit.modifyPage_ok h₅
  cases hu : undefined? s₁.functions s₁.defined with
  | some id => rw [hu] at h; cases h
  | none =>
    rw [hu] at h
    cases h
    exact ⟨s₁, h₃, ⟨hi, hadds⟩, rfl, hu⟩

/-- An entry that gets through is what was emitted for it. -/
theorem enter_ok (h : c.enter e = (.ok index, c')) : ∃ s, emitEntry e (c.bench (entryDraft e)) = .ok index s ∧
    c' = ⟨s.program, s.functions, s.defined⟩ := by
  rw [enter_eq] at h
  cases he : emitEntry e (c.bench (entryDraft e)) with
  | error error s => rw [he] at h; cases h
  | ok index' s => rw [he] at h; cases h; exact ⟨s, rfl, rfl⟩

/-- If the code of an entry is written, and the functions in it are defined, then the entry gets through. -/
theorem enter_of_emitValue {s s' : Workbench} (hroom : c.program.pages.size ≤ 65535)
    (hstart : (c.bench (entryDraft e)).reserve entryName = s') (hemit : e.emitValue s' = .ok () s)
    (hreserved : c.program.pages.size.toUInt16.toNat < s.program.pages.size)
    (hdefined : undefined? s.functions s.defined = none) : c.enter e = (.ok c.program.pages.size.toUInt16,
      ⟨(s.install c.program.pages.size.toUInt16 s.draft.page).program, s.functions, s.defined⟩) := by
  subst hstart
  have hreserve : Emit.reservePage entryName (c.bench (entryDraft e)) =
      .ok c.program.pages.size.toUInt16 ((c.bench (entryDraft e)).reserve entryName) := by
    show (if 65535 < c.program.pages.size then _ else _ : Emit UInt16) _ = _
    rw [if_neg (Nat.not_lt.2 hroom)]
    rfl
  have hbegin : Emit.beginEntry (entryDraft e) ((c.bench (entryDraft e)).reserve entryName) =
      .ok () ((c.bench (entryDraft e)).reserve entryName) := rfl
  have hvalue : Emit.valued e.producesValue (Emit.Differences.plain.expr e) _ = _ := hemit
  have hdraft : Emit.draft s = .ok s.draft s := rfl
  have hinstall : Emit.install c.program.pages.size.toUInt16 s.draft.page s =
      .ok () (s.install c.program.pages.size.toUInt16 s.draft.page) := by
    show (if s.program.pages.size ≤ _ then _ else _ : Emit Unit) s = _
    rw [if_neg (Nat.not_le.2 hreserved)]
    rfl
  have hundefined : undefined? (s.install c.program.pages.size.toUInt16 s.draft.page).functions
      (s.install c.program.pages.size.toUInt16 s.draft.page).defined = none := hdefined
  have hentry : emitEntry e (c.bench (entryDraft e)) = .ok c.program.pages.size.toUInt16
      (s.install c.program.pages.size.toUInt16 s.draft.page) := by
    unfold emitEntry emitEntryWith
    rw [bind_run_ok hreserve, bind_run_ok hbegin, bind_run_ok hvalue, bind_run_ok hdraft,
      bind_run_ok hinstall, get_bind_run, hundefined]
    rfl
  rw [enter_eq, hentry]
  rfl

theorem add_ok : c.add e = .ok (index, c') ↔ c.enter e = (.ok index, c') := by
  unfold Compiler.add
  obtain ⟨result, c₁⟩ := c.enter e
  cases result <;> simp

theorem entryDraft_describes (e : Expr) : Scope.Describes ⟨[], 0, 0, [], none⟩ (entryDraft e) :=
  ⟨rfl, rfl, rfl, rfl, by simp [entryDraft, Draft.new], by simp [entryDraft, Draft.new, Draft.breaks],
    by simp [entryDraft, Draft.new], .empty⟩

/-- The page of an entry is final in the programs that have it. -/
theorem settled_entry {s s₁ : Workbench} {program : Program} {functions : List (Nat × UInt16)}
    (hdraft : s.draft = entryDraft e) (hemit : e.emitValue (s.reserve entryName) = .ok () s₁)
    (hr : Reserved s s₁ entryName index) (hf : Final program functions 0 (s₁.install index s₁.draft.page)) :
    Settled ⟨program, functions, s₁.draft.page, [], e.captured, true⟩ (s₁.draft.holes none)
      (s.reserve entryName).draft.size
      s₁.draft.size (s.reserve entryName).program.pages.size s₁ := by
  have hgrows := (Emits.value e.emits hemit).adds.draft
  have hentry : (s.reserve entryName).draft = entryDraft e := hdraft
  rw [hentry] at hgrows
  exact ⟨fun _ _ _ _ => rfl, by simp [Draft.holes], fun _ _ h => h, hgrows.captures.symm, hgrows.captured.symm,
    hgrows.isEntry.symm, hr.final (hf.mono (Nat.zero_le _))⟩

/-- One more entry. -/
theorem StableBut.enter (hc : c.StableBut entries) (h : c.enter e = (.ok index, c')) :
    c'.StableBut (fun i => entries i ∨ i = index.toNat) ∧ c.Grows c' ∧ c'.Enters e index := by
  obtain ⟨s', he, rfl⟩ := enter_ok h
  obtain ⟨s₁, hemit, hr, rfl, hu⟩ := emitEntry_ok rfl rfl he
  have hk := hc.known (entryDraft e)
  have hdraws := Emits.value e.emits hemit
  have hgrows : ∀ d d', ShellVM.Grows (c.bench d)
      ⟨(s₁.install index s₁.draft.page).program, s₁.functions, s₁.defined, [], d', []⟩ := fun d d' =>
    { hr.grows s₁.draft.page with }
  have hholds {program : Program} {functions : List (Nat × UInt16)} (hf : Final program functions 0
      (s₁.install index s₁.draft.page)) : (⟨program, functions, s₁.draft.page, [], e.captured, true⟩ : Sheet).Holds []
      ((⟨program, functions, s₁.draft.page, [], e.captured, true⟩ : Sheet).valued e.producesValue
        (e.Lies ⟨program, functions, s₁.draft.page, [], e.captured, true⟩)) := by
    obtain ⟨_, -, -, hlies, -⟩ := hdraws.lies hk.reserve (entryDraft_describes e) (settled_entry rfl hemit hr hf)
    refine ⟨?_, [], 0, _, ⟨rfl, rfl⟩, hlies, rfl⟩
    show s₁.draft.page.arity.toNat = 0
    rw [hdraws.adds.draft.arity]
    rfl
  refine ⟨⟨?_, ?_, ?_⟩, hgrows, ?_⟩
  · intro d
    exact (hgrows (entryDraft e) d).known hk
  · exact fun id i hi => undefined?_eq_none hu hi
  · intro program functions d hf
    have hf' : Final program functions 0 (s₁.install index s₁.draft.page) := { hf with }
    have hwider : c.StableBut fun i => entries i ∨ i = index.toNat := hc.mono fun _ => .inl
    have hst := hwider.stocked (entryDraft e) (hf'.back (hr.grows _))
    have hst' := hdraws.adds.stocks hk.reserve (hr.final (hf'.mono (Nat.zero_le _))) hst.reserve
    have hlaid : program.Laid functions s₁.draft.page 0 := ⟨[], [], e.captured, true, e, rfl, hholds hf'⟩
    exact (hr.stocked hk hst' (.inr ⟨.inr rfl, hlaid⟩)).congr rfl rfl rfl
  · intro program functions d hf
    have hf' : Final program functions 0 (s₁.install index s₁.draft.page) := { hf with }
    exact ⟨s₁.draft.page, hr.page hk (hf'.mono (Nat.zero_le _)), hholds hf'⟩

theorem Stable.enter (hc : c.Stable) (h : c.enter e = (.ok index, c')) :
    c'.Stable ∧ c.Grows c' ∧ c'.Enters e index := by
  obtain ⟨hc', h⟩ := StableBut.enter hc h
  exact ⟨hc'.mono fun _ _ => trivial, h⟩

theorem Stable.add (hc : c.Stable) (h : c.add e = .ok (index, c')) : c'.Stable ∧ c.Grows c' ∧ c'.Enters e index :=
  hc.enter (add_ok.1 h)

/-- A compiler's own program is one that it may become. -/
theorem final (c : Compiler) (d : Draft) : Final c.program c.functions 0 (c.bench d) :=
  ⟨fun _ _ h => h, fun _ _ _ _ => rfl, fun _ _ h => h⟩

/-- Every page is laid out; those of functions have no environment. -/
theorem StableBut.laidAt (hc : c.StableBut entries) {i : Nat} {page : Page} (hp : c.program.pages[i]? = some page) :
    ∃ n, c.program.LaidAt c.functions entries i page n ∧ (n = 0 ∨ (c.bench (entryDraft e)).NoFunction i) := by
  rcases (hc.stocked (entryDraft e) (c.final _)).pages i page hp with h | ⟨id, j, hl, -, hn⟩ | h
  · cases h
  · exact absurd (hc.defined id j hl) hn
  · exact h

theorem Stable.laid (hc : c.Stable) {i : Nat} {page : Page} (hp : c.program.pages[i]? = some page) :
    ∃ n, c.program.Laid c.functions page n ∧ (n = 0 ∨ (c.bench (entryDraft e)).NoFunction i) := by
  obtain ⟨n, hlaid, hn⟩ := hc.laidAt (e := e) hp
  exact ⟨n, hlaid.laid, hn⟩

theorem Stable.functionPage (hc : c.Stable) {id : Nat} {i : UInt16} (h : c.functions.lookup id = some i) :
    ∃ page, c.program.page? i = some page ∧ c.program.Laid c.functions page 0 := by
  have hlt : i.toNat < c.program.pages.size := hc.known (entryDraft default) id i h
  have hp : c.program.pages[i.toNat]? = some c.program.pages[i.toNat] := Array.getElem?_eq_getElem hlt
  obtain ⟨n, hlaid, hn⟩ := hc.laid (e := default) hp
  obtain rfl : n = 0 := hn.resolve_right fun hn => hn id i h rfl
  exact ⟨_, hp, hlaid⟩

end Compiler

end ShellVM
