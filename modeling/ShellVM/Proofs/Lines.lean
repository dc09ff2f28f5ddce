import ShellVM.Proofs.Decoding

/-!
# Line tables

A page is written by marks, which say that a line begins, and by bytes that are appended (`Page.Edit`). The line of an
offset is the line of the last mark that was made when no more code than that was there (`lastMark?`). The table keeps
less than all marks: a mark of the line that goes on anyway leaves it as it is, and one at the place of the last entry
takes the place of it (`Page.markLine_cases`). What is left is in order and tells the same lines (`Page.Records`), and
finding a line in it halves the table until one entry is left (`bisect_eq`, `Page.lineAt?_eq`).

Lines of compiled code are found from any byte of an instruction, in particular from the last one, which is the one in
front of the offset of a call that has fetched the instruction.
-/

namespace ShellVM

/-! ## Searching -/

section Search

variable {holds : Nat → Bool} {k : Nat}

/-- Halving keeps the last place where `holds` holds within reach; if there is none, it comes to the first place. -/
theorem bisect_eq : ∀ {fuel base size : Nat}, size ≤ fuel → 0 < size → k ≤ base + size →
    (∀ i, i < base + size → (holds i = true ↔ i < k)) → bisect holds fuel base size = if base < k then k - 1 else base
  | 0, _, _, hfuel, hsize, _, _ => absurd hfuel (Nat.not_le_of_lt hsize)
  | fuel + 1, base, size, hfuel, hsize, hk, hholds => by
    unfold bisect
    by_cases hone : size ≤ 1
    · rw [if_pos hone]
      split <;> omega
    · rw [if_neg hone]
      dsimp only
      have hhalf := hholds (base + size / 2) (by omega)
      by_cases hlt : base + size / 2 < k
      · rw [if_pos (hhalf.2 hlt)]
        have ih : bisect holds fuel (base + size / 2) (size - size / 2) = if base + size / 2 < k then
            k - 1 else base + size / 2 :=
          bisect_eq (by omega) (by omega) (by omega) fun i hi => hholds i (by omega)
        rw [ih, if_pos hlt, if_pos (by omega)]
      · rw [if_neg fun h => hlt (hhalf.1 h)]
        exact bisect_eq (by omega) (by omega) (by omega) fun i hi => hholds i (by omega)

/-- The number of places in front for which `holds` holds, if it does not hold behind them. -/
theorem partitionPoint_eq {size : Nat} (hk : k ≤ size) (hholds : ∀ i, i < size → (holds i = true ↔ i < k)) :
    partitionPoint holds size = k := by
  unfold partitionPoint
  by_cases hsize : size = 0
  · rw [if_pos hsize]
    omega
  · rw [if_neg hsize]
    have hbisect : bisect holds size 0 size = if 0 < k then k - 1 else 0 :=
      bisect_eq (Nat.le_refl _) (by omega) (by omega) fun i hi => hholds i (by omega)
    simp only [hbisect]
    by_cases hpos : 0 < k
    · rw [if_pos hpos, if_pos ((hholds (k - 1) (by omega)).2 (by omega))]
      omega
    · rw [if_neg hpos, if_neg fun h => hpos ((hholds 0 (by omega)).1 h)]
      omega

end Search

/-! ## The last mark -/

/-- The line of the last of the marks that are not behind an offset. -/
def lastMark? (marks : List (Nat × UInt32)) (offset : Nat) : Option UInt32 :=
  ((marks.filter fun mark => mark.1 ≤ offset).getLast?).map Prod.snd

theorem lastMark?_concat (marks : List (Nat × UInt32)) (start : Nat) (line : UInt32) (offset : Nat) :
    lastMark? (marks ++ [(start, line)]) offset = if start ≤ offset then some line else lastMark? marks offset := by
  unfold lastMark?
  rw [List.filter_append]
  by_cases h : start ≤ offset
  · rw [if_pos h, List.filter_singleton]
    simp [h]
  · rw [if_neg h, List.filter_singleton]
    simp [h]

/-- Marks in order are those up to an offset and those behind it. -/
theorem exists_split_marks {marks : List (Nat × UInt32)} (h : marks.Pairwise (·.1 < ·.1)) (offset : Nat) :
    ∃ before after, marks = before ++ after ∧ (∀ mark ∈ before, mark.1 ≤ offset) ∧ ∀ mark ∈ after, offset < mark.1 := by
  induction h with
  | nil => exact ⟨[], [], rfl, nofun, nofun⟩
  | @cons mark marks hmark _ ih =>
    by_cases hle : mark.1 ≤ offset
    · obtain ⟨before, after, rfl, hbefore, hafter⟩ := ih
      exact ⟨mark :: before, after, rfl, List.forall_mem_cons.2 ⟨hle, hbefore⟩, hafter⟩
    · have hlt : offset < mark.1 := Nat.lt_of_not_le hle
      exact ⟨[], mark :: marks, rfl, nofun, List.forall_mem_cons.2 ⟨hlt, fun m hm => Nat.lt_trans hlt (hmark m hm)⟩⟩

theorem lastMark?_append {before after : List (Nat × UInt32)} {offset : Nat}
    (hbefore : ∀ mark ∈ before, mark.1 ≤ offset) (hafter : ∀ mark ∈ after, offset < mark.1) :
    lastMark? (before ++ after) offset = before.getLast?.map Prod.snd := by
  have hnil : after.filter (fun mark => mark.1 ≤ offset) = [] :=
    List.filter_eq_nil_iff.2 fun mark hmark h => Nat.not_le_of_lt (hafter mark hmark) (of_decide_eq_true h)
  unfold lastMark?
  rw [List.filter_append, hnil, List.append_nil,
    List.filter_eq_self.2 fun mark hmark => decide_eq_true (hbefore mark hmark)]

namespace Page

/-- The marks that the line table still has. -/
def marks (page : Page) : List (Nat × UInt32) := page.lines.toList.map fun entry => (entry.1.toNat, entry.2)

theorem getElem?_marks (page : Page) (i : Nat) :
    page.marks[i]? = page.lines[i]?.map fun entry => (entry.1.toNat, entry.2) := by
  unfold marks
  rw [List.getElem?_map, Array.getElem?_toList]

/-- A table in order is searched for the last mark. -/
theorem lineAt?_eq {page : Page} (h : page.marks.Pairwise (·.1 < ·.1)) {offset : Nat} (hoffset : offset < 4294967296) :
    page.lineAt? offset = lastMark? page.marks offset := by
  obtain ⟨before, after, hmarks, hbefore, hafter⟩ := exists_split_marks h offset
  have hsize : page.lines.size = before.length + after.length := by
    have := congrArg List.length hmarks
    rwa [marks, List.length_map, Array.length_toList, List.length_append] at this
  have hpoint : partitionPoint (fun i => (page.lines[i]?).any fun entry => entry.1.toNat ≤ offset) page.lines.size =
      before.length := by
    refine partitionPoint_eq (by omega) fun i hi => ?_
    obtain ⟨entry, hget⟩ : ∃ entry, page.lines[i]? = some entry := ⟨_, Array.getElem?_eq_getElem hi⟩
    have hmark : (before ++ after)[i]? = some (entry.1.toNat, entry.2) := by
      rw [← hmarks, getElem?_marks, hget]
      rfl
    rw [hget]
    show decide (entry.1.toNat ≤ offset) = true ↔ _
    rw [decide_eq_true_iff]
    by_cases hlt : i < before.length
    · rw [List.getElem?_append_left hlt] at hmark
      exact iff_of_true (hbefore _ (List.mem_of_getElem? hmark)) hlt
    · rw [List.getElem?_append_right (Nat.le_of_not_lt hlt)] at hmark
      exact iff_of_false (Nat.not_le_of_lt (hafter _ (List.mem_of_getElem? hmark))) hlt
  unfold lineAt?
  rw [if_pos hoffset, hmarks, lastMark?_append hbefore hafter]
  show (if partitionPoint (fun i => (page.lines[i]?).any fun entry => entry.1.toNat ≤ offset)
    page.lines.size = 0 then none
    else (page.lines[partitionPoint _ page.lines.size - 1]?).map Prod.snd) = _
  rw [hpoint]
  by_cases hnone : before.length = 0
  · obtain rfl := List.length_eq_zero_iff.1 hnone
    rfl
  · have hget : before[before.length - 1]? = page.lines[before.length - 1]?.map fun entry =>
        (entry.1.toNat, entry.2) := by
      rw [← getElem?_marks, hmarks, List.getElem?_append_left (by omega)]
    rw [List.getLast?_eq_getElem?, hget, Option.map_map]
    exact if_neg hnone

/-! ## Pages that are written -/

/-- A change of a page that is written. -/
inductive Edit where
  /-- A line begins. -/
  | mark (line : UInt32)
  /-- Bytes are appended. -/
  | emit (bytes : List UInt8)

def edit (page : Page) : Edit → Page
  | .mark line => page.markLine line
  | .emit bytes => { page with code := page.code ++ bytes.toArray }

/-- The page after changes, one after the other. -/
def edits (page : Page) (changes : List Edit) : Page := changes.foldl edit page

/-- The marks among changes of a page, each with the size of the code when it was made. -/
def Edit.marks : (size : Nat) → List Edit → List (Nat × UInt32)
  | _, [] => []
  | size, .mark line :: changes => (size, line) :: marks size changes
  | size, .emit bytes :: changes => marks (size + bytes.length) changes

variable {page : Page} {line : UInt32} {made : List (Nat × UInt32)}

theorem code_markLine (page : Page) (line : UInt32) : (page.markLine line).code = page.code := by
  obtain ⟨lines, h⟩ := page.markLine_eq line
  rw [h]

theorem size_le_edits (page : Page) (changes : List Edit) : page.code.size ≤ (page.edits changes).code.size := by
  induction changes generalizing page with
  | nil => exact Nat.le_refl _
  | cons change changes ih =>
    refine Nat.le_trans ?_ (ih (page.edit change))
    cases change with
    | mark line => exact Nat.le_of_eq (congrArg Array.size (page.code_markLine line)).symm
    | emit bytes =>
      rw [edit, Array.size_append]
      exact Nat.le_add_right ..

theorem marks_push (page : Page) (lines : Array (UInt32 × UInt32)) (start line : UInt32) :
    ({ page with lines := lines.push (start, line) } : Page).marks =
      ({ page with lines } : Page).marks ++ [(start.toNat, line)] := by
  unfold marks
  rw [Array.toList_push, List.map_append]
  rfl

/-- A mark changes the end of the table: it has an entry for the line already, or gets one, instead of the last if
that is for the same place. -/
theorem markLine_cases (page : Page) (line : UInt32) (hsize : page.code.size < 4294967296) :
    (∃ init start, page.marks = init ++ [(start, line)] ∧ (page.markLine line).marks = page.marks) ∨
    ∃ init, (page.markLine line).marks = init ++ [(page.code.size, line)] ∧
      ((page.marks = init ∧ ∀ mark ∈ init.getLast?, mark.1 ≠ page.code.size) ∨
        ∃ last, page.marks = init ++ [(page.code.size, last)]) := by
  have hoffset : page.code.size.toUInt32.toNat = page.code.size := by
    rw [Nat.toUInt32, UInt32.toNat_ofNat', Nat.mod_eq_of_lt hsize]
  unfold markLine
  rw [if_pos hsize]
  dsimp only
  cases hback : page.lines.back? with
  | none =>
    have hnil : page.lines = #[] := by simpa using hback
    refine .inr ⟨page.marks, ?_, .inl ⟨rfl, ?_⟩⟩
    · rw [marks_push, hoffset]
    · unfold marks
      rw [hnil]
      intro mark hmark
      cases hmark
  | some entry =>
    obtain ⟨start, last⟩ := entry
    obtain ⟨lines, hlines⟩ := Array.back?_eq_some_iff.1 hback
    have hmarks : page.marks = ({ page with lines } : Page).marks ++ [(start.toNat, last)] := by
      rw [← marks_push, ← hlines]
    dsimp only
    by_cases hsame : last = line
    · rw [if_pos hsame, hmarks, hsame]
      exact .inl ⟨_, _, rfl, rfl⟩
    · rw [if_neg hsame]
      by_cases hstart : start = page.code.size.toUInt32
      · rw [if_pos hstart, hlines, Array.pop_push, marks_push, hmarks, hstart, hoffset]
        exact .inr ⟨_, rfl, .inr ⟨last, rfl⟩⟩
      · rw [if_neg hstart, marks_push, hoffset]
        refine .inr ⟨_, rfl, .inl ⟨rfl, ?_⟩⟩
        rw [show ({ page with lines := page.lines } : Page).marks = _ from hmarks, List.getLast?_concat]
        rintro mark ⟨rfl⟩ heq
        exact hstart (UInt32.toNat_inj.1 (heq.trans hoffset.symm))

/-- The table is in order, has nothing behind the end of the code, and tells the lines of the marks that were made. -/
structure Records (page : Page) (made : List (Nat × UInt32)) : Prop where
  ordered : page.marks.Pairwise (·.1 < ·.1)
  within : ∀ mark ∈ page.marks, mark.1 ≤ page.code.size
  tells : ∀ offset, lastMark? page.marks offset = lastMark? made offset

namespace Records

theorem empty (name : String) (arity : UInt8) : (Page.empty name arity).Records [] :=
  ⟨.nil, nofun, fun _ => rfl⟩

/-- If the last entry is not for the end of the code, none is. -/
theorem lt_size (h : page.Records made) (hlast : ∀ mark ∈ page.marks.getLast?, mark.1 ≠ page.code.size) :
    ∀ mark ∈ page.marks, mark.1 < page.code.size := by
  intro mark hmark
  rcases List.eq_nil_or_concat' page.marks with hnil | ⟨init, last, hmarks⟩
  · rw [hnil] at hmark
    cases hmark
  · have hend : last.1 < page.code.size := by
      refine Nat.lt_of_le_of_ne (h.within last ?_) (hlast last ?_)
      · rw [hmarks]
        exact List.mem_append_right _ (List.mem_singleton_self last)
      · rw [hmarks, List.getLast?_concat]
        rfl
    have hordered := h.ordered
    rw [hmarks, List.pairwise_append] at hordered
    rw [hmarks] at hmark
    rcases List.mem_append.1 hmark with hmark | hmark
    · exact Nat.lt_trans (hordered.2.2 mark hmark last (List.mem_singleton_self last)) hend
    · rw [List.mem_singleton.1 hmark]
      exact hend

/-- What is in front of a new entry is in order, and tells the lines of the code that is there. -/
theorem front {init : List (Nat × UInt32)} (h : page.Records made)
    (hold : (page.marks = init ∧ ∀ mark ∈ init.getLast?, mark.1 ≠ page.code.size) ∨
      ∃ last, page.marks = init ++ [(page.code.size, last)]) :
    init.Pairwise (·.1 < ·.1) ∧ (∀ mark ∈ init, mark.1 < page.code.size) ∧
      ∀ offset, ¬page.code.size ≤ offset → lastMark? init offset = lastMark? made offset := by
  rcases hold with ⟨rfl, hlast⟩ | ⟨last, hmarks⟩
  · exact ⟨h.ordered, h.lt_size hlast, fun offset _ => h.tells offset⟩
  · have hordered := h.ordered
    rw [hmarks, List.pairwise_append] at hordered
    refine ⟨hordered.1, fun mark hmark => hordered.2.2 mark hmark _ (List.mem_singleton_self _), fun offset hle => ?_⟩
    have htells := h.tells offset
    rwa [hmarks, lastMark?_concat, if_neg hle] at htells

/-- A mark is recorded. -/
theorem markLine (h : page.Records made) (hsize : page.code.size < 4294967296) (line : UInt32) :
    (page.markLine line).Records (made ++ [(page.code.size, line)]) := by
  rcases page.markLine_cases line hsize with ⟨init, start, hmarks, hsame⟩ | ⟨init, hnew, hold⟩
  · refine ⟨hsame ▸ h.ordered, ?_, fun offset => ?_⟩
    · rw [hsame, code_markLine]
      exact h.within
    · rw [hsame, lastMark?_concat]
      by_cases hle : page.code.size ≤ offset
      · -- the line goes on from where its entry is
        have hstart : start ≤ page.code.size := by
          refine h.within (start, line) ?_
          rw [hmarks]
          exact List.mem_append_right _ (List.mem_singleton_self _)
        rw [if_pos hle, hmarks, lastMark?_concat, if_pos (Nat.le_trans hstart hle)]
      · rw [if_neg hle]
        exact h.tells offset
  · obtain ⟨hordered, hbelow, htells⟩ := h.front hold
    refine ⟨?_, ?_, fun offset => ?_⟩
    · rw [hnew, List.pairwise_append]
      refine ⟨hordered, List.pairwise_singleton .., fun mark hmark new hend => ?_⟩
      rw [List.mem_singleton.1 hend]
      exact hbelow mark hmark
    · rw [hnew, code_markLine]
      intro mark hmark
      rcases List.mem_append.1 hmark with hmark | hmark
      · exact Nat.le_of_lt (hbelow mark hmark)
      · exact Nat.le_of_eq (congrArg Prod.fst (List.mem_singleton.1 hmark))
    · rw [hnew, lastMark?_concat, lastMark?_concat]
      by_cases hle : page.code.size ≤ offset
      · rw [if_pos hle, if_pos hle]
      · rw [if_neg hle, if_neg hle]
        exact htells offset hle

/-- A page that is written records its marks. -/
theorem edits {changes : List Edit} (h : page.Records made) (hsize : (page.edits changes).code.size < 4294967296) :
    (page.edits changes).Records (made ++ Edit.marks page.code.size changes) := by
  induction changes generalizing page made with
  | nil =>
    show page.Records (made ++ [])
    rwa [List.append_nil]
  | cons change changes ih =>
    cases change with
    | mark line =>
      have hstep := h.markLine (Nat.lt_of_le_of_lt (page.size_le_edits _) hsize) line
      have hrest := ih hstep hsize
      rw [code_markLine, List.append_assoc] at hrest
      exact hrest
    | emit bytes =>
      have hcode : (page.edit (.emit bytes)).code.size = page.code.size + bytes.length := Array.size_append
      have hstep : (page.edit (.emit bytes)).Records made := by
        refine ⟨h.ordered, fun mark hmark => ?_, h.tells⟩
        rw [hcode]
        exact Nat.le_add_right_of_le (h.within mark hmark)
      have hrest := ih hstep hsize
      rw [hcode] at hrest
      exact hrest

end Records

end Page

/-! ## Lines of compiled code -/

/-- In front of an instruction pointer there is the line of the instruction that was fetched last. -/
theorem Page.Lined.lineAt?_next {page : Page} {i : Instruction} (h : page.Lined) (hsize : page.code.size < 4294967296)
    (hi : i ∈ instructions page.code) : page.lineAt? (i.next - 1) = page.lineAt? i.offset := by
  obtain ⟨hstarts, hreads⟩ := mem_instructions_iff.1 hi
  have hnext : i.next = i.offset + 1 + i.operands.length := rfl
  exact h.lineAt?_inside (Nat.le_of_lt hsize) hstarts hreads (by omega) (by omega)

/-- The line of an offset is that of the last mark made when no more code was there. In compiled pages every
instruction is on the line of its last byte, so a call that has fetched it is traced to the line of the
instruction. -/
theorem lines_told_by_last_marks :
    (∀ (name : String) (arity : UInt8) (changes : List Page.Edit),
      ((Page.empty name arity).edits changes).code.size < 4294967296 →
      ((Page.empty name arity).edits changes).lines.toList.Pairwise (fun entry later => entry.1.toNat < later.1.toNat) ∧
      ∀ offset, offset < 4294967296 →
        ((Page.empty name arity).edits changes).lineAt? offset = lastMark? (Page.Edit.marks 0 changes) offset) ∧
    ∀ (es : List Expr), ∀ page ∈ (Compiler.new.addAll es).program.pages, page.code.size < 4294967296 →
      ∀ i ∈ instructions page.code, page.lineAt? (i.next - 1) = page.lineAt? i.offset ∧
        ∀ (m : Machine) (n : Nat) (f : Frame), m.frames[n]? = some f →
        (Compiler.new.addAll es).program.page? f.page = some page →
          f.ip = i.next → (m.trace (Compiler.new.addAll es).program)[n]? = some ⟨page.name, page.lineAt? i.offset⟩ := by
  refine ⟨fun name arity changes hsize => ?_, fun es page hpage hsize i hi => ?_⟩
  · have hrecords := (Page.Records.empty name arity).edits hsize
    have hordered := hrecords.ordered
    rw [Page.marks, List.pairwise_map] at hordered
    refine ⟨hordered, fun offset hoffset => ?_⟩
    exact (Page.lineAt?_eq hrecords.ordered hoffset).trans (hrecords.tells offset)
  · have hline := ((Compiler.Steady.new.addAll .new es).lined page hpage).lineAt?_next hsize hi
    refine ⟨hline, fun m n f hframe hknown hip => ?_⟩
    unfold Machine.trace
    rw [List.getElem?_map, hframe, Option.map_some, hknown, ← hline, ← hip]

/-- A repeated mark and one that takes the place of another, and nil that is negated on the third line. -/
theorem lines_told_by_last_marks_found :
    (∀ offset, offset < 4294967296 →
      ((Page.empty "main" 0).edits [.mark 1, .emit [0, 0, 0], .mark 1, .mark 2, .mark 4, .emit [0]]).lineAt? offset =
        if offset < 3 then some 1 else some 4) ∧
    ∃ page ∈ (Compiler.new.addAll [.mk 1 (.block [.mk 1 (.literal .nil),
        .mk 3 (.unary .negate (.mk 3 (.literal .nil)))])]).program.pages,
      ∃ i ∈ instructions page.code, i.op = .negate ∧ page.lineAt? (i.next - 1) = some 3 := by
  constructor
  · intro offset hoffset
    rw [(lines_told_by_last_marks.1 "main" 0 [.mark 1, .emit [0, 0, 0], .mark 1, .mark 2, .mark 4,
      .emit [0]] (by decide)).2 offset hoffset]
    show lastMark? ([(0, 1), (3, 1), (3, 2)] ++ [(3, 4)]) offset = _
    rw [lastMark?_concat]
    by_cases hlt : offset < 3
    · have hle : ¬3 ≤ offset := Nat.not_le_of_lt hlt
      rw [if_neg hle, if_pos hlt]
      simp [lastMark?, hle]
    · rw [if_pos (Nat.le_of_not_lt hlt), if_neg hlt]
  · have hfound : (Compiler.new.addAll [.mk 1 (.block [.mk 1 (.literal .nil),
        .mk 3 (.unary .negate (.mk 3 (.literal .nil)))])]).program.pages.any
        (fun page => (page.code.size < 4294967296) &&
          (instructions page.code).any fun i => i.op == .negate && page.lineAt? i.offset == some 3) = true := by
          decide +kernel
    obtain ⟨page, hpage, hfound⟩ := Array.any_eq_true'.1 hfound
    obtain ⟨hsize, hfound⟩ := Bool.and_eq_true_iff.1 hfound
    obtain ⟨i, hi, hfound⟩ := List.any_eq_true.1 hfound
    obtain ⟨hop, hline⟩ := Bool.and_eq_true_iff.1 hfound
    refine ⟨page, hpage, i, hi, beq_iff_eq.1 hop, ?_⟩
    rw [(lines_told_by_last_marks.2 _ page hpage (of_decide_eq_true hsize) i hi).1]
    exact beq_iff_eq.1 hline

end ShellVM
