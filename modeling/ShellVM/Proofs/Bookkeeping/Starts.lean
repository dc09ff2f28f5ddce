import ShellVM.Proofs.Emission.Basic

/-!
# Where instructions start

Read from its first byte on, a code is a row of instructions, and `Starts` are the offsets between them. Writing more
instructions and filling in the distances of jumps leaves them where they are (`Continues`), so the line table of a
page that is written instruction by instruction has an entry only where an instruction starts (`Page.Lined`).
-/

namespace ShellVM

variable {code code' code'' : Array UInt8} {q r site : Nat} {o o' : Op}

theorem Op.toByte_inj (h : o.toByte = o'.toByte) : o = o' := by
  have hbyte := congrArg Op.ofByte? h
  rw [Op.ofByte?_toByte, Op.ofByte?_toByte] at hbyte
  exact Option.some.inj hbyte

/-- Read from offset 0 on, the code has an instruction or its end there. -/
inductive Starts (code : Array UInt8) : Nat → Prop where
  | zero : Starts code 0
  | next {q : Nat} {o : Op} (starts : Starts code q) (byte : code[q]? = some o.toByte)
      (fits : q + 1 + o.width ≤ code.size) : Starts code (q + 1 + o.width)

namespace Starts

theorem le (h : Starts code q) : q ≤ code.size := by
  cases h with
  | zero => exact Nat.zero_le _
  | next _ _ fits => exact fits

/-- No instruction starts inside another one. -/
theorem apart (hr : Starts code r) : ∀ {q : Nat} {o : Op}, Starts code q → code[q]? = some o.toByte → q < r →
    q + 1 + o.width ≤ r := by
  induction hr with
  | zero =>
    intro q o _ _ h
    cases h
  | @next r o' hr hbyte _ ih =>
    intro q o hq hop h
    rcases Nat.lt_trichotomy q r with hlt | rfl | hgt
    · have := ih hq hop hlt
      omega
    · obtain rfl := Op.toByte_inj (Option.some.inj (hbyte.symm.trans hop))
      exact Nat.le_refl _
    · -- then `q` would lie inside the instruction at `r`: from which instruction on?
      exfalso
      clear hop
      induction hq with
      | zero => cases hgt
      | @next q o'' hq hbyte' _ ih' =>
        rcases Nat.lt_trichotomy q r with hlt | rfl | hgt'
        · have := ih hq hbyte' hlt
          omega
        · obtain rfl := Op.toByte_inj (Option.some.inj (hbyte.symm.trans hbyte'))
          omega
        · exact ih' (by omega) hgt'

end Starts

/-! ## Codes that grow -/

/-- The instructions of the code still start where they did. -/
structure Continues (code code' : Array UInt8) : Prop where
  size : code.size ≤ code'.size
  bytes : ∀ q, Starts code q → q < code.size → code'[q]? = code[q]?

theorem Starts.continue (h : Starts code q) (hcode : Continues code code') : Starts code' q := by
  induction h with
  | zero => exact .zero
  | next starts byte fits ih =>
    refine .next ih ?_ (Nat.le_trans fits hcode.size)
    rw [hcode.bytes _ starts (by omega), byte]

theorem Continues.refl (code : Array UInt8) : Continues code code := ⟨Nat.le_refl _, fun _ _ _ => rfl⟩

theorem Continues.trans (h : Continues code code') (h' : Continues code' code'') : Continues code code'' where
  size := Nat.le_trans h.size h'.size
  bytes := fun q hq hlt =>
    (h'.bytes q (hq.continue h) (Nat.lt_of_lt_of_le hlt h.size)).trans (h.bytes q hq hlt)

/-- The operands of a jump, which are filled in later. -/
inductive Site (code : Array UInt8) : Nat → Prop where
  | mk {q : Nat} {o : Op} (starts : Starts code q) (byte : code[q]? = some o.toByte) (width : o.width = 2)
      (fits : q + 3 ≤ code.size) : Site code (q + 1)

theorem Site.continue (h : Site code site) (hcode : Continues code code') : Site code' site := by
  obtain ⟨starts, byte, width, fits⟩ := h
  refine .mk (starts.continue hcode) ?_ width (Nat.le_trans fits hcode.size)
  rw [hcode.bytes _ starts (by omega), byte]

namespace Draft

variable {d : Draft}

theorem continues_append (d : Draft) (bytes : List UInt8) : Continues d.page.code (d.append bytes).page.code := by
  refine ⟨?_, fun q _ hq => getElem?_append_of_lt hq⟩
  have hsize := d.size_append bytes
  unfold Draft.size at hsize
  omega

/-- An instruction is appended. -/
theorem starts_append {operands : List UInt8} (h : Starts d.page.code d.size) (hwidth : operands.length = o.width) :
    Starts (d.append (o.toByte :: operands)).page.code (d.append (o.toByte :: operands)).size := by
  have hbyte : (d.append (o.toByte :: operands)).page.code[d.size]? = some o.toByte := getElem?_append_size_add 0
  have hsize : (d.append (o.toByte :: operands)).size = d.size + 1 + o.width := by
    rw [size_append, List.length_cons, hwidth]
    omega
  rw [hsize]
  exact .next (h.continue (d.continues_append _)) hbyte (Nat.le_of_eq hsize.symm)

/-- A jump that waits for its distance is appended. -/
theorem site_append (h : Starts d.page.code d.size) (hwidth : o.width = 2) :
    Site (d.append [o.toByte, 0, 0]).page.code (d.size + 1) := by
  have hsize : (d.append [o.toByte, 0, 0]).size = d.size + 3 := size_append d _
  exact .mk (h.continue (d.continues_append _)) (getElem?_append_size_add 0) hwidth (Nat.le_of_eq hsize.symm)

/-- Filling in a distance changes operands only. -/
theorem continues_patch (h : Site d.page.code site) (w : UInt16) :
    Continues d.page.code (d.patch site w).page.code := by
  obtain ⟨starts, byte, width, fits⟩ := h
  refine ⟨Nat.le_of_eq (size_patch d _ w).symm, fun r hr hlt => getElem?_patch_of_ne ?_ ?_⟩
  · rintro rfl
    have := hr.apart starts byte (by omega)
    omega
  · rintro rfl
    have := hr.apart starts byte (by omega)
    omega

end Draft

/-! ## Line tables -/

/-- The entries of the line table ascend, and each is for an offset where an instruction starts. -/
structure Page.Lined (page : Page) : Prop where
  ascending : (page.lines.toList.map fun line => line.1.toNat).Pairwise (· < ·)
  starts : ∀ line ∈ page.lines.toList, Starts page.code line.1.toNat

namespace Page

variable {page : Page}

theorem Lined.of_lines_eq_empty (h : page.lines = #[]) : page.Lined := by
  constructor
  · rw [h]
    exact .nil
  · rw [h]
    intro line hline
    cases hline

theorem Lined.continue (h : page.Lined) {page' : Page} (hlines : page'.lines = page.lines)
    (hcode : Continues page.code page'.code) : page'.Lined where
  ascending := hlines ▸ h.ascending
  starts := fun line hline => (h.starts line (hlines ▸ hline)).continue hcode

/-- Entries and one more behind them. -/
theorem Lined.push {lines : Array (UInt32 × UInt32)} {start line : UInt32} (h : Lined { page with lines })
    (hbelow : ∀ entry ∈ lines.toList, entry.1.toNat < start.toNat) (hstart : Starts page.code start.toNat) :
    Lined { page with lines := lines.push (start, line) } := by
  constructor
  · rw [Array.toList_push, List.map_append, List.pairwise_append]
    refine ⟨h.ascending, List.pairwise_singleton .., ?_⟩
    intro a ha b hb
    obtain ⟨entry, hentry, rfl⟩ := List.mem_map.1 ha
    obtain rfl : b = start.toNat := by simpa using hb
    exact hbelow entry hentry
  · rw [Array.toList_push]
    intro entry hentry
    rcases List.mem_append.1 hentry with hold | hnew
    · exact h.starts entry hold
    · obtain rfl : entry = (start, line) := by simpa using hnew
      exact hstart

/-- The last entry, and those in front of it. -/
theorem Lined.of_back? {start line : UInt32} (h : page.Lined) (hlast : page.lines.back? = some (start, line)) :
    Lined { page with lines := page.lines.pop } ∧ (∀ entry ∈ page.lines.pop.toList, entry.1.toNat < start.toNat) ∧
      page.lines.toList = page.lines.pop.toList ++ [(start, line)] := by
  have hlines : page.lines.toList = page.lines.pop.toList ++ [(start, line)] := by
    have hlist : page.lines.toList.getLast? = some (start, line) := by rwa [Array.getLast?_toList]
    obtain ⟨entries, hentries⟩ := List.getLast?_eq_some_iff.1 hlist
    rw [Array.toList_pop, hentries, List.dropLast_concat]
  have hascending := h.ascending
  rw [hlines, List.map_append, List.pairwise_append] at hascending
  obtain ⟨hpop, -, hbelow⟩ := hascending
  refine ⟨⟨hpop, fun entry hentry => h.starts entry ?_⟩, fun entry hentry => ?_, hlines⟩
  · rw [hlines]
    exact List.mem_append_left _ hentry
  · exact hbelow _ (List.mem_map.2 ⟨entry, hentry, rfl⟩) _ (by simp)

/-- A line that begins at the end of the code. -/
theorem Lined.markLine (h : page.Lined) (hend : Starts page.code page.code.size) (line : UInt32) :
    (page.markLine line).Lined := by
  unfold Page.markLine
  split
  · next hsize =>
    have hoffset : page.code.size.toUInt32.toNat = page.code.size := by
      rw [Nat.toUInt32, UInt32.toNat_ofNat', Nat.mod_eq_of_lt hsize]
    have hstart : Starts page.code page.code.size.toUInt32.toNat := by rwa [hoffset]
    dsimp only
    cases hlast : page.lines.back? with
    | none =>
      have hnil : page.lines = #[] := by simpa using hlast
      refine h.push ?_ hstart
      rw [hnil]
      intro entry hentry
      cases hentry
    | some last =>
      obtain ⟨start, last⟩ := last
      obtain ⟨hpop, hbelow, hlines⟩ := h.of_back? hlast
      dsimp only
      split
      · exact h
      · split
        · next heq =>
          subst heq
          exact hpop.push hbelow hstart
        · next hne =>
          have hle : start.toNat ≤ page.code.size := (h.starts (start, last) (by rw [hlines]; simp)).le
          have hlt : start.toNat < page.code.size.toUInt32.toNat := by
            have hne' : start.toNat ≠ page.code.size.toUInt32.toNat := fun h => hne (UInt32.toNat_inj.1 h)
            omega
          refine h.push (fun entry hentry => ?_) hstart
          rw [hlines] at hentry
          rcases List.mem_append.1 hentry with hold | hnew
          · exact Nat.lt_trans (hbelow entry hold) hlt
          · obtain rfl : entry = (start, last) := by simpa using hnew
            exact hlt
  · exact h

end Page

end ShellVM
