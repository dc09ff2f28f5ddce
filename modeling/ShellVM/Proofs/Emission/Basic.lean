import ShellVM.Compile.Compiler
import ShellVM.Proofs.Computation
import ShellVM.Proofs.Constants

/-!
# What the single steps of the compiler do

Each step that ends well changes the workbench in one way; the lemmas here say how, once for every step, so that
nothing later has to look into them.
-/

namespace ShellVM

namespace Draft

/-- The break jumps of the innermost loop that wait for its end. -/
def breaks (d : Draft) : List Nat :=
  match d.loops with
  | [] => []
  | context :: _ => context.breaks

theorem code_append (d : Draft) (bytes : List UInt8) : (d.append bytes).page.code = d.page.code ++ bytes.toArray :=
  List.foldl_push_eq_append'

@[simp] theorem size_append (d : Draft) (bytes : List UInt8) : (d.append bytes).size = d.size + bytes.length := by
  show (d.append bytes).page.code.size = d.page.code.size + bytes.length
  simp only [code_append, Array.size_append, List.size_toArray]

theorem getElem?_append_of_lt {d : Draft} {bytes : List UInt8} {j : Nat} (h : j < d.size) :
    (d.append bytes).page.code[j]? = d.page.code[j]? := by
  rw [code_append, Array.getElem?_append_left h]

theorem getElem?_append_size_add {d : Draft} {bytes : List UInt8} (k : Nat) :
    (d.append bytes).page.code[d.size + k]? = bytes[k]? := by
  show (d.append bytes).page.code[d.page.code.size + k]? = bytes[k]?
  rw [code_append, Array.getElem?_append_right (Nat.le_add_right ..), Nat.add_sub_cancel_left, List.getElem?_toArray]

@[simp] theorem size_patch (d : Draft) (site : Nat) (w : UInt16) : (d.patch site w).size = d.size := by
  simp [patch, size]

theorem getElem?_patch_of_ne {d : Draft} {site j : Nat} {w : UInt16} (h₁ : j ≠ site) (h₂ : j ≠ site + 1) :
    (d.patch site w).page.code[j]? = d.page.code[j]? := by
  simp [patch, Ne.symm h₁, Ne.symm h₂]

theorem getElem?_patch_site {d : Draft} {site : Nat} {w : UInt16} (h : site + 2 ≤ d.size) (k : Nat) (hk : k < 2) :
    (d.patch site w).page.code[site + k]? = (wordBytes w)[k]? := by
  simp only [size] at h
  rcases (by omega : k = 0 ∨ k = 1) with rfl | rfl
  · simp [patch, wordBytes, Array.getElem?_setIfInBounds]
    omega
  · simp [patch, wordBytes, Array.getElem?_setIfInBounds]
    omega

end Draft

/-- Marking a line changes nothing but the line table. -/
theorem Page.markLine_eq (page : Page) (line : UInt32) : ∃ lines, page.markLine line = { page with lines } := by
  unfold markLine
  split
  · simp only
    split
    · split
      · exact ⟨_, rfl⟩
      · split <;> exact ⟨_, rfl⟩
    · exact ⟨_, rfl⟩
  · exact ⟨_, rfl⟩

namespace Emit

variable {s s' : Workbench}

theorem popHeight_ok {n : Nat} (h : popHeight n s = .ok () s') :
    n ≤ s.draft.height ∧ s' = { s with draft := { s.draft with height := s.draft.height - n } } := by
  obtain ⟨_, _, h₁, h⟩ := bind_ok.1 h
  cases h₁
  obtain ⟨hc, h⟩ := check_ok h
  cases h
  exact ⟨by omega, rfl⟩

/-- An instruction is appended and the height follows its effect, if that is known. -/
theorem op_ok {o : Op} {operands : List UInt8} (h : op o operands s = .ok () s') :
    ∃ height, s' = { s with draft := { s.draft.append (o.toByte :: operands) with height } } ∧
      match o.stackEffect? operands with
      | some (pops, pushes) => pops ≤ s.draft.height ∧ height = s.draft.height - pops + pushes
      | none => height = s.draft.height := by
  obtain ⟨_, _, h₁, h⟩ := bind_ok.1 h
  cases h₁
  cases he : o.stackEffect? operands with
  | some effect =>
    obtain ⟨pops, pushes⟩ := effect
    rw [he] at h
    obtain ⟨_, s₂, h₂, h⟩ := bind_ok.1 h
    obtain ⟨hp, rfl⟩ := popHeight_ok h₂
    cases h
    exact ⟨_, rfl, hp, rfl⟩
  | none =>
    rw [he] at h
    cases h
    exact ⟨_, rfl, rfl⟩

theorem byte_ok {o : Op} {n : Nat} {what : String} (h : byte o n what s = .ok () s') :
    n ≤ 255 ∧ op o [n.toUInt8] s = .ok () s' := by
  unfold byte at h
  obtain ⟨hc, h⟩ := check_ok h
  exact ⟨by omega, h⟩

theorem word_ok {o : Op} {n : Nat} {what : String} (h : word o n what s = .ok () s') :
    n ≤ 65535 ∧ op o (wordBytes n.toUInt16) s = .ok () s' := by
  unfold word at h
  obtain ⟨hc, h⟩ := check_ok h
  exact ⟨by omega, h⟩

theorem constantKey_of_add {c : Constant} {key : UInt16} {table : ConstantTable}
    (h : s.draft.page.constants.add c = (some key, table)) : constantKey c s = .ok key { s with
      draft := { s.draft with page := { s.draft.page with constants := table } } } := by
  refine bind_ok.2 ⟨some key, _, ?_, rfl⟩
  show (match s.addConstant c with | (a, s) => EStateM.Result.ok a s) = _
  unfold Workbench.addConstant
  rw [h]

theorem constantKey_ok {c : Constant} {key : UInt16} (h : constantKey c s = .ok key s') :
    (s.draft.page.constants.add c).1 = some key ∧
      s' = { s with draft := { s.draft with
        page := { s.draft.page with constants := (s.draft.page.constants.add c).2 } } } := by
  obtain ⟨key?, s₁, h₁, h⟩ := bind_ok.1 h
  have hs := modifyGet_ok h₁
  cases key? with
  | some k =>
    cases h
    exact ⟨congrArg Prod.fst hs, (congrArg Prod.snd hs).symm⟩
  | none =>
    obtain ⟨_, _, h₂, h⟩ := bind_ok.1 h
    cases h

theorem jump_ok {o : Op} {site : Nat} (h : jump o s = .ok site s') :
    site = s.draft.size + 1 ∧ op o [0, 0] s = .ok () s' := by
  obtain ⟨_, _, h₁, h⟩ := bind_ok.1 h
  cases h₁
  obtain ⟨_, _, h₂, h⟩ := bind_ok.1 h
  cases h
  exact ⟨rfl, h₂⟩

theorem distance_ok {n : Nat} {w : UInt16} (h : distance n s = .ok w s') : n ≤ 65535 ∧ w = n.toUInt16 ∧ s' = s := by
  unfold distance at h
  split at h
  · obtain ⟨_, _, h₁, h⟩ := bind_ok.1 h
    obtain ⟨_, _, h₂, _⟩ := bind_ok.1 h
    cases h₂
  · next hc => cases h; exact ⟨by omega, rfl, rfl⟩

theorem land_ok {site : Nat} (h : land site s = .ok () s') : s.draft.size - (site + 2) ≤ 65535 ∧
    s' = { s with draft := s.draft.patch site (s.draft.size - (site + 2)).toUInt16 } := by
  obtain ⟨_, _, h₁, h⟩ := bind_ok.1 h
  cases h₁
  obtain ⟨w, _, h₂, h⟩ := bind_ok.1 h
  obtain ⟨hn, rfl, rfl⟩ := distance_ok h₂
  cases h
  exact ⟨hn, rfl⟩

theorem jumpBack_ok {target : Nat} (h : jumpBack target s = .ok () s') : s.draft.size + 3 - target ≤ 65535 ∧
    op .jumpBackward (wordBytes (s.draft.size + 3 - target).toUInt16) s = .ok () s' := by
  obtain ⟨_, _, h₁, h⟩ := bind_ok.1 h
  cases h₁
  obtain ⟨w, _, h₂, h⟩ := bind_ok.1 h
  obtain ⟨hn, rfl, rfl⟩ := distance_ok h₂
  exact ⟨hn, h⟩

/-- The number of locals of the innermost scope. -/
def scopeCount (d : Draft) : Nat := (d.locals.takeWhile fun l => l.depth == d.depth).length

/-- The locals of the innermost scope are forgotten, and then dropped. -/
theorem endScope_ok {keep : Bool} (h : endScope keep s = .ok () s') :
    (if 0 < scopeCount s.draft then byte (if keep then .unwind else .popN) (scopeCount s.draft) "local variables"
      else pure ()) { s with draft := { s.draft with locals := s.draft.locals.drop (scopeCount s.draft),
                                                     depth := s.draft.depth - 1 } } = .ok () s' := by
  obtain ⟨_, _, h₁, h⟩ := bind_ok.1 h
  cases h₁
  obtain ⟨_, _, h₂, h⟩ := bind_ok.1 h
  cases h₂
  exact h

/-- A local is declared, behind an instruction that moves it into a cell if closures capture it. -/
theorem declare_ok {name : String} {slot : Nat} (h : declare name slot s = .ok () s') :
    slot ≤ 255 ∧ ∃ s₁, (if s.draft.captured.contains name then op .makeCell [slot.toUInt8] s = .ok () s₁ else s₁ = s) ∧
      s' = { s₁ with draft := { s₁.draft with
        locals := ⟨name, s₁.draft.depth, slot.toUInt8, s.draft.captured.contains name⟩ :: s₁.draft.locals } } := by
  unfold declare at h
  obtain ⟨hc, h⟩ := check_ok h
  obtain ⟨_, _, h₁, h⟩ := bind_ok.1 h
  cases h₁
  refine ⟨by omega, ?_⟩
  split at h
  · next hb =>
    obtain ⟨_, s₁, h₂, h⟩ := bind_ok.1 h
    cases h
    exact ⟨s₁, by rw [if_pos hb]; exact h₂, rfl⟩
  · next hb =>
    cases h
    exact ⟨s, by rw [if_neg hb], rfl⟩

theorem unwindToLoop_ok {keyword : String} {context : LoopContext} (h : unwindToLoop keyword s = .ok context s') :
    ∃ rest, s.draft.loops = context :: rest := by
  obtain ⟨_, _, h₁, h⟩ := bind_ok.1 h
  cases h₁
  cases hl : s.draft.loops with
  | nil => rw [hl] at h; cases h
  | cons c rest =>
    rw [hl] at h
    obtain ⟨_, _, -, h⟩ := bind_ok.1 h
    obtain ⟨_, _, -, h⟩ := bind_ok.1 h
    simp only at h
    split at h
    · obtain ⟨_, _, -, h⟩ := bind_ok.1 h
      cases h
      exact ⟨rest, rfl⟩
    · cases h
      exact ⟨rest, rfl⟩

/-- A jump out of the loop is written and noted. -/
theorem leaveLoop_ok (h : leaveLoop s = .ok () s') : ∃ context s₁ s₂, unwindToLoop "break" s = .ok context s₁ ∧
    op .jump [0, 0] s₁ = .ok () s₂ ∧
      s' = { s₂ with draft := { addBreak (s₁.draft.size + 1) s₂.draft with height := s.draft.height } } := by
  obtain ⟨_, _, h₀, h⟩ := bind_ok.1 h
  cases h₀
  obtain ⟨context, s₁, h₁, h⟩ := bind_ok.1 h
  obtain ⟨site, s₂, h₂, h⟩ := bind_ok.1 h
  obtain ⟨rfl, hop⟩ := jump_ok h₂
  cases h
  exact ⟨context, s₁, s₂, h₁, hop, rfl⟩

/-- A body that ran in a loop leaves the jumps out of it. -/
theorem inLoop_ok {start height : Nat} {body : Emit Unit} {sites : List Nat}
    (h : inLoop start height body s = .ok sites s') :
    ∃ s₁ context rest, body { s with draft := { s.draft with
        loops := ⟨start, height, s.draft.regions.length, []⟩ :: s.draft.loops } } = .ok () s₁ ∧
      s₁.draft.loops = context :: rest ∧ sites = context.breaks.reverse ∧
      s' = { s₁ with draft := { s₁.draft with loops := rest } } := by
  obtain ⟨_, _, h₁, h⟩ := bind_ok.1 h
  cases h₁
  obtain ⟨_, s₁, h₂, h⟩ := bind_ok.1 h
  obtain ⟨_, _, h₃, h⟩ := bind_ok.1 h
  cases h₃
  cases hl : s₁.draft.loops with
  | nil => rw [hl] at h; cases h
  | cons context rest =>
    rw [hl] at h
    obtain ⟨_, _, h₄, h⟩ := bind_ok.1 h
    cases h₄
    cases h
    exact ⟨s₁, context, rest, h₂, hl, rfl, rfl⟩

theorem reservePage_ok {name : String} {index : UInt16} (h : reservePage name s = .ok index s') :
    index.toNat = s.program.pages.size ∧
      s' = { s with program := { s.program with pages := s.program.pages.push (.empty name 0) } } := by
  obtain ⟨_, _, h₁, h⟩ := bind_ok.1 h
  cases h₁
  obtain ⟨hc, h⟩ := check_ok h
  cases h
  refine ⟨?_, rfl⟩
  have : s.program.pages.size < 65536 := by omega
  simp [Nat.mod_eq_of_lt this]

theorem modifyPage_ok {index : UInt16} {f : Page → Page} (h : modifyPage index f s = .ok () s') :
    index.toNat < s.program.pages.size ∧
      s' = { s with program := { s.program with pages := s.program.pages.modify index.toNat f } } := by
  obtain ⟨_, _, h₁, h⟩ := bind_ok.1 h
  cases h₁
  obtain ⟨hc, h⟩ := check_ok h
  cases h
  exact ⟨by omega, rfl⟩

/-- A page that is replaced is remembered. -/
theorem replacePage_ok {index : UInt16} {page : Page} (h : replacePage index page s = .ok () s') :
    ∃ old, s.program.pages[index.toNat]? = some old ∧
      modifyPage index (·.replaceBody page) { s with replaced := (index, old) :: s.replaced } = .ok () s' := by
  obtain ⟨_, _, h₁, h⟩ := bind_ok.1 h
  cases h₁
  cases hp : s.program.pages[index.toNat]? with
  | none => rw [hp] at h; cases h
  | some old =>
    rw [hp] at h
    obtain ⟨_, _, h₂, h⟩ := bind_ok.1 h
    cases h₂
    exact ⟨old, rfl, h⟩

/-- The page of a function is the known one, or a new one that is reserved for it. -/
theorem functionPage_ok {id : Nat} {index : UInt16} (h : functionPage id s = .ok index s') :
    (s.functions.lookup id = some index ∧ s' = s) ∨
      (s.functions.lookup id = none ∧ index.toNat = s.program.pages.size ∧ ∃ name,
        s' = { s with program := { s.program with pages := s.program.pages.push (.empty name 0) },
                      functions := (id, index) :: s.functions }) := by
  obtain ⟨_, _, h₁, h⟩ := bind_ok.1 h
  cases h₁
  cases hl : s.functions.lookup id with
  | some j =>
    rw [hl] at h
    cases h
    exact .inl ⟨rfl, rfl⟩
  | none =>
    rw [hl] at h
    obtain ⟨index', _, h₂, h⟩ := bind_ok.1 h
    obtain ⟨hi, rfl⟩ := reservePage_ok h₂
    cases h
    exact .inr ⟨rfl, hi, _, rfl⟩

/-- The library function stands at its place, where it is put if it was not there. -/
theorem libraryIndex_ok {f : LibraryFunction} {index : UInt16} (h : libraryIndex f s = .ok index s') :
    (∃ e, s'.program.library[index.toNat]? = some e ∧ e.function? = some f) ∧
      ∃ more, s' = { s with program := { s.program with library := s.program.library ++ more } } := by
  obtain ⟨_, _, h₁, h⟩ := bind_ok.1 h
  cases h₁
  cases hi : s.program.library.findIdx? (fun e => e.function? = some f) with
  | some i =>
    rw [hi] at h
    obtain ⟨hc, h⟩ := check_ok h
    cases h
    have hlt : i < 65536 := by omega
    obtain ⟨hs, he, -⟩ := Array.findIdx?_eq_some_iff_getElem.1 hi
    refine ⟨⟨s.program.library[i], ?_, by simpa using he⟩, #[], by simp⟩
    simp [Nat.mod_eq_of_lt hlt, hs]
  | none =>
    rw [hi] at h
    obtain ⟨hc, h⟩ := check_ok h
    cases h
    have hlt : s.program.library.size < 65536 := by omega
    refine ⟨⟨⟨f.name, some f⟩, ?_, rfl⟩, #[⟨f.name, some f⟩], rfl⟩
    simp [Nat.mod_eq_of_lt hlt]

end Emit

end ShellVM
