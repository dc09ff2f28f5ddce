import ShellVM.Proofs.Wire.Parts
import ShellVM.Proofs.Wire.Table

/-!
# Stored programs are read back

Every program whose tables were built constant by constant is read back from its bytes, whatever follows them, and is
itself again once it is bound (`decode_encode`). Lengths are those of rows and texts in memory (`Program.Storable`).
In the other direction every reader takes at least one byte off and gives something that can be stored (`Gives`), so a
program that was read can be written and read once more with the same result.
-/

namespace ShellVM

open Wire (wordSize)

/-! ## What can be stored -/

/-- Texts and rows are shorter than the words that tell their lengths. -/
def Constant.Storable : Constant → Prop
  | .string s => s.utf8ByteSize < wordSize
  | .shape name fields =>
    name.utf8ByteSize < wordSize ∧ fields.length < wordSize ∧ ∀ field ∈ fields, field.utf8ByteSize < wordSize
  | _ => True

structure Page.Storable (p : Page) : Prop where
  name : p.name.utf8ByteSize < wordSize
  code : p.code.size < wordSize
  size : p.constants.entries.size < wordSize
  constants : ∀ c ∈ p.constants.entries, c.Storable
  lines : p.lines.size < wordSize

structure Program.Storable (p : Program) : Prop where
  size : p.pages.size < wordSize
  pages : ∀ page ∈ p.pages, page.Storable
  entries : p.library.size < wordSize
  names : ∀ entry ∈ p.library, entry.name.utf8ByteSize < wordSize

/-- The same program before any of its library functions is bound. -/
def Program.detached (p : Program) : Program := ⟨p.pages, p.library.map fun entry => ⟨entry.name, none⟩⟩

/-- A detached program whose functions are in the library under their names binds to itself. -/
theorem Program.bind_detached {p : Program} {library : Library}
    (h : ∀ entry ∈ p.library, ∃ f, entry.function? = some f ∧ library.get? entry.name = some f) :
    p.detached.bind library = (p, none) := by
  have hentries : ∀ {entries : List LibraryEntry},
      (∀ entry ∈ entries, ∃ f, entry.function? = some f ∧ library.get? entry.name = some f) →
      bindEntries library (entries.map fun entry => ⟨entry.name, none⟩) = (entries, none) := by
    intro entries hall
    induction entries with
    | nil => rfl
    | cons entry entries ih =>
      obtain ⟨f, hf, hget⟩ := hall entry List.mem_cons_self
      have hrest := ih fun e he => hall e (List.mem_cons_of_mem entry he)
      obtain ⟨name, function?⟩ := entry
      cases hf
      simp only [List.map_cons, bindEntries, hget, hrest]
  unfold detached bind
  simp only [Array.toList_map, hentries fun entry he => h entry (Array.mem_toList_iff.1 he)]
  rfl

namespace Wire

/-! ## From the writer to the reader -/

theorem readTexts {fields : List String} (hlength : fields.length < wordSize)
    (h : ∀ field ∈ fields, field.utf8ByteSize < wordSize) (rest : Bytes) :
    readMany readText (writeMany writeText fields ++ rest) = .ok (fields.toArray, rest) := by
  have := readMany_writeMany (f := id) hlength (fun field hf => readText_writeText (h field hf)) rest
  rwa [List.map_id] at this

theorem mapReader_ok {α β : Type} {f : α → β} {read : Reader α} {bytes rest : Bytes} {a : α}
    (h : read bytes = .ok (a, rest)) : mapReader f read bytes = .ok (f a, rest) := by
  unfold mapReader
  simp only [h, bind, Except.bind]
  rfl

/-- **Constants of every kind are read back**, floats bit for bit. -/
theorem readConstant_writeConstant {c : Constant} (h : c.Storable) (rest : Bytes) :
    readConstant (writeConstant c ++ rest) = .ok (c, rest) := by
  cases c with
  | nil => rfl
  | boolean b => cases b <;> rfl
  | integer n =>
    show mapReader (Constant.integer ∘ unfold) read64 (writeNat (fold n) ++ rest) = _
    rw [mapReader_ok (read64_writeNat (fold_lt n) rest), Function.comp_apply, unfold_fold]
  | float bits => exact mapReader_ok (readBits_writeBits bits rest)
  | string s => exact mapReader_ok (readText_writeText h rest)
  | page index => exact mapReader_ok (read16_writeNat index rest)
  | libraryFunction index => exact mapReader_ok (read16_writeNat index rest)
  | shape name fields =>
    obtain ⟨hname, hlength, hfields⟩ := h
    show Except.bind (readText (writeText name ++ writeMany writeText fields ++ rest)) _ = _
    rw [List.append_assoc, readText_writeText hname]
    show Except.bind (readMany readText (writeMany writeText fields ++ rest)) _ = _
    rw [readTexts hlength hfields]
    rfl

theorem readLine_writeLine (line : UInt32 × UInt32) (rest : Bytes) :
    readLine (writeLine line ++ rest) = .ok (line, rest) := by
  unfold readLine writeLine
  simp only [List.append_assoc, read32_writeNat, bind, Except.bind]
  rfl

/-- A row whose items are read back as they are. -/
theorem readMany_same {α : Type} {write : α → Bytes} {read : Reader α} {items : Array α} (hsize : items.size < wordSize)
    (h : ∀ a ∈ items, ∀ rest, read (write a ++ rest) = .ok (a, rest)) (rest : Bytes) :
    readMany read (writeMany write items.toList ++ rest) = .ok (items, rest) := by
  have := readMany_writeMany (f := id) (by simpa using hsize) (fun a ha => h a (Array.mem_toList_iff.1 ha)) rest
  rwa [List.map_id, Array.toArray_toList] at this

theorem readByte_singleton (b : UInt8) (rest : Bytes) : readByte ([b] ++ rest) = .ok (b, rest) := rfl

/-- **Pages are read back**: the index of the constants is made anew and is the same. -/
theorem readPage_writePage {p : Page} (h : p.Storable) (hbuilt : p.constants.Built) (rest : Bytes) :
    readPage (writePage p ++ rest) = .ok (p, rest) := by
  have hcode := readMany_same h.code fun b _ => readByte_singleton b
  have hconstants := readMany_same h.size fun c hc => readConstant_writeConstant (h.constants c hc)
  have hlines := readMany_same h.lines fun line _ => readLine_writeLine line
  unfold readPage writePage
  simp only [List.append_assoc, readText_writeText h.name, readByte_singleton, hcode, hconstants,
    hlines, bind, Except.bind, hbuilt.ofList_entries]
  rfl

/-- **Programs are read back**, with no library function bound. -/
theorem decode_append {p : Program} (h : p.Storable) (hbuilt : ∀ page ∈ p.pages, page.constants.Built) (rest : Bytes) :
    decode (encode p ++ rest) = .ok p.detached := by
  have hpages := readMany_same h.size fun page hp => readPage_writePage (h.pages page hp) (hbuilt page hp)
  have hnames := readMany_writeMany (f := LibraryEntry.name) (by simpa using h.entries)
    fun entry he => readText_writeText (h.names entry (Array.mem_toList_iff.1 he))
  have hlibrary : (p.library.toList.map fun entry => (⟨entry.name, none⟩ : LibraryEntry)).toArray =
      p.library.map fun entry => ⟨entry.name, none⟩ := by
    rw [← Array.toList_map, Array.toArray_toList]
  unfold decode encode
  simp only [List.append_assoc, hpages, hnames, bind, Except.bind, pure, Except.pure, List.map_toArray, List.map_map]
  exact congrArg (fun library => Except.ok (Program.mk p.pages library)) hlibrary

/-! ## From the reader to the writer -/

/-- A reader that ended well did so at both steps. -/
theorem split_ok {α β : Type} {read : Except Error α} {next : α → Except Error β} {b : β}
    (h : (read >>= next) = .ok b) : ∃ a, read = .ok a ∧ next a = .ok b := by
  cases read with
  | error e => cases h
  | ok a => exact ⟨a, rfl, h⟩

/-- A reader takes bytes off, fewer of them than a word counts, and what it gives is of a kind. -/
def Gives {α : Type} (read : Reader α) (P : α → Prop) : Prop :=
  ∀ ⦃bytes rest : Bytes⦄ ⦃a : α⦄, bytes.length < wordSize → read bytes = .ok (a, rest) → P a ∧
    rest.length < bytes.length

namespace Gives

variable {α β : Type} {read : Reader α} {P : α → Prop} {Q : β → Prop}

theorem map {f : α → β} (h : Gives read P) (hf : ∀ a, P a → Q (f a)) : Gives (mapReader f read) Q := by
  intro bytes rest b hword hread
  obtain ⟨⟨a, rest'⟩, ha, hb⟩ := split_ok hread
  cases hb
  obtain ⟨hP, hlength⟩ := h hword ha
  exact ⟨hf a hP, hlength⟩

theorem byte : Gives readByte fun _ => True := by
  intro bytes rest b _ h
  cases bytes with
  | nil => cases h
  | cons b' bytes =>
    cases h
    exact ⟨trivial, Nat.lt_succ_self _⟩

theorem groups (last : UInt8) {count scale acc : Nat} (hacc : acc < scale) :
    Gives (readGroups last (count + 1) scale acc) (· < scale * (128 ^ count * (last.toNat + 1))) := by
  intro bytes rest n hword h
  induction count generalizing bytes scale acc with
  | zero =>
    cases bytes with
    | nil => cases h
    | cons b bytes =>
      unfold readGroups at h
      simp only [decide_true, Bool.true_and, decide_eq_true_eq] at h
      split at h
      · next hlow =>
        split at h
        · cases h
        · next hlast =>
          cases h
          have hb : b.toNat % 128 ≤ last.toNat := by
            rw [UInt8.lt_iff_toNat_lt] at hlast
            omega
          refine ⟨?_, Nat.lt_succ_self _⟩
          calc acc + b.toNat % 128 * scale < scale + last.toNat * scale :=
                Nat.add_lt_add_of_lt_of_le hacc (Nat.mul_le_mul_right scale hb)
            _ = scale * (128 ^ 0 * (last.toNat + 1)) := by ring
      · cases h
  | succ count ih =>
    cases bytes with
    | nil => cases h
    | cons b bytes =>
      have hnext : acc + b.toNat % 128 * scale < scale * 128 := by
        calc acc + b.toNat % 128 * scale < scale + 127 * scale :=
              Nat.add_lt_add_of_lt_of_le hacc (Nat.mul_le_mul_right scale (by omega))
          _ = scale * 128 := by ring
      have hscale : scale * 128 * (128 ^ count * (last.toNat + 1)) =
          scale * (128 ^ (count + 1) * (last.toNat + 1)) := by
        ring
      unfold readGroups at h
      simp only [Nat.add_eq_zero_iff, Nat.one_ne_zero, and_false, decide_false, Bool.false_and] at h
      split at h
      · cases h
        refine ⟨Nat.lt_of_lt_of_le hnext ?_, Nat.lt_succ_self _⟩
        rw [← hscale]
        exact Nat.le_mul_of_pos_right _ (Nat.mul_pos (Nat.pow_pos (by decide)) (Nat.succ_pos _))
      · obtain ⟨hn, hlength⟩ := ih hnext (Nat.lt_trans (Nat.lt_succ_self _) hword) h
        exact ⟨hscale ▸ hn, Nat.lt_trans hlength (Nat.lt_succ_self _)⟩

theorem word64 : Gives read64 (· < wordSize) := groups 1 (by decide)

theorem word32 : Gives read32 fun _ => True := by
  intro bytes rest n hword h
  obtain ⟨⟨m, rest'⟩, hm, hn⟩ := split_ok h
  cases hn
  exact ⟨trivial, (groups 15 (by decide) hword hm).2⟩

theorem word16 : Gives read16 fun _ => True := by
  intro bytes rest n hword h
  obtain ⟨⟨m, rest'⟩, hm, hn⟩ := split_ok h
  cases hn
  exact ⟨trivial, (groups 3 (by decide) hword hm).2⟩

theorem readBytes_ok {count : Nat} {bytes taken rest : Bytes} (h : readBytes count bytes = .ok (taken, rest)) :
    taken.length = count ∧ rest.length + count = bytes.length := by
  unfold readBytes at h
  simp only [List.length_take] at h
  split at h
  · cases h
  · cases h
    rw [List.length_take, List.length_drop]
    omega

theorem bits : Gives readBits fun _ => True := by
  intro bytes rest b hword h
  obtain ⟨⟨taken, rest'⟩, htaken, hb⟩ := split_ok h
  cases hb
  have := readBytes_ok htaken
  exact ⟨trivial, by omega⟩

theorem text : Gives readText fun s => s.utf8ByteSize < wordSize := by
  intro bytes rest s hword h
  obtain ⟨⟨count, rest'⟩, hcount, h⟩ := split_ok h
  obtain ⟨⟨taken, rest''⟩, htaken, h⟩ := split_ok h
  obtain ⟨hlt, hshort⟩ := word64 hword hcount
  obtain ⟨hlength, hrest⟩ := readBytes_ok htaken
  dsimp only at h
  split at h
  · next s' hs =>
    cases h
    unfold String.fromUTF8? at hs
    split at hs
    · cases hs
      refine ⟨?_, by omega⟩
      show taken.toArray.size < wordSize
      rw [List.size_toArray, hlength]
      exact hlt
    · cases hs
  · cases h

/-- The items that are read are of the kind that their reader gives, and each takes a byte off. -/
theorem times (h : Gives read P) {count : Nat} {found items : Array α} {bytes rest : Bytes}
    (hword : bytes.length < wordSize) (hfound : ∀ a ∈ found, P a)
    (hread : readTimes read count found bytes = .ok (items, rest)) :
    (∀ a ∈ items, P a) ∧ items.size = found.size + count ∧ rest.length + count ≤ bytes.length := by
  induction count generalizing found bytes with
  | zero =>
    cases hread
    exact ⟨hfound, rfl, Nat.le_refl _⟩
  | succ count ih =>
    unfold readTimes at hread
    cases hfirst : read bytes with
    | error e =>
      rw [hfirst] at hread
      cases hread
    | ok first =>
      obtain ⟨a, rest'⟩ := first
      rw [hfirst] at hread
      obtain ⟨ha, hshort⟩ := h hword hfirst
      have hpushed : ∀ b ∈ found.push a, P b := by
        intro b hb
        rcases Array.mem_push.1 hb with hb | rfl
        · exact hfound b hb
        · exact ha
      obtain ⟨hall, hsize, hlength⟩ := ih (Nat.lt_trans hshort hword) hpushed hread
      rw [Array.size_push] at hsize
      exact ⟨hall, by omega, by omega⟩

/-- A row that was read has room for one item more: its length has taken a byte off too. -/
theorem many (h : Gives read P) : Gives (readMany read) fun items => items.size + 1 < wordSize ∧ ∀ a ∈ items, P a := by
  intro bytes rest items hword hread
  obtain ⟨⟨count, rest'⟩, hcount, hread⟩ := split_ok hread
  have hshort := (word64 hword hcount).2
  obtain ⟨hall, hsize, hlength⟩ := times h (Nat.lt_trans hshort hword) (by simp) hread
  rw [Array.size_empty, Nat.zero_add] at hsize
  exact ⟨⟨by omega, hall⟩, by omega⟩

/-- A reader that goes on where another stopped. -/
theorem onward (h : Gives read P) {bytes bytes' rest : Bytes} {a : α} (hword : bytes.length < wordSize)
    (hshort : bytes'.length < bytes.length) (hread : read bytes' = .ok (a, rest)) :
    P a ∧ rest.length < bytes.length := by
  obtain ⟨ha, hrest⟩ := h (Nat.lt_trans hshort hword) hread
  exact ⟨ha, Nat.lt_trans hrest hshort⟩

theorem boolean : Gives readBoolean fun _ => True := by
  intro bytes rest b hword h
  obtain ⟨⟨b', rest'⟩, hb, h⟩ := split_ok h
  have hshort := (byte hword hb).2
  dsimp only at h
  split at h
  · cases h
    exact ⟨trivial, hshort⟩
  · split at h <;> cases h
    exact ⟨trivial, hshort⟩

theorem constant : Gives readConstant Constant.Storable := by
  intro bytes rest c hword h
  obtain ⟨⟨variant, rest'⟩, hvariant, h⟩ := split_ok h
  have hshort := (word32 hword hvariant).2
  dsimp only at h
  split at h
  · cases h
    exact ⟨trivial, hshort⟩
  · exact (boolean.map fun _ _ => trivial).onward hword hshort h
  · exact (word64.map fun _ _ => trivial).onward hword hshort h
  · exact (bits.map fun _ _ => trivial).onward hword hshort h
  · exact (text.map fun _ hs => hs).onward hword hshort h
  · exact (word16.map fun _ _ => trivial).onward hword hshort h
  · exact (word16.map fun _ _ => trivial).onward hword hshort h
  · obtain ⟨⟨name, rest₁⟩, hname, h⟩ := split_ok h
    obtain ⟨⟨fields, rest₂⟩, hfields, h⟩ := split_ok h
    cases h
    obtain ⟨hname, hshort⟩ := text.onward hword hshort hname
    obtain ⟨⟨hsize, hfields⟩, hshort⟩ := text.many.onward hword hshort hfields
    refine ⟨⟨hname, ?_, fun field hf => hfields field (Array.mem_toList_iff.1 hf)⟩, hshort⟩
    rw [Array.length_toList]
    exact Nat.lt_of_succ_lt hsize
  · cases h

theorem line : Gives readLine fun _ => True := by
  intro bytes rest line hword h
  obtain ⟨⟨offset, rest₁⟩, hoffset, h⟩ := split_ok h
  obtain ⟨⟨number, rest₂⟩, hnumber, h⟩ := split_ok h
  cases h
  have hshort := (word32 hword hoffset).2
  exact ⟨trivial, (word32.onward hword hshort hnumber).2⟩

/-- Nil may have come in front of the constants that were read. -/
theorem page : Gives readPage fun p => p.Storable ∧ p.constants.Built := by
  intro bytes rest p hword h
  obtain ⟨⟨name, rest₁⟩, hname, h⟩ := split_ok h
  obtain ⟨⟨arity, rest₂⟩, harity, h⟩ := split_ok h
  obtain ⟨⟨code, rest₃⟩, hcode, h⟩ := split_ok h
  obtain ⟨⟨constants, rest₄⟩, hconstants, h⟩ := split_ok h
  obtain ⟨⟨lines, rest₅⟩, hlines, h⟩ := split_ok h
  cases h
  obtain ⟨hname, hshort⟩ := text hword hname
  have hshort := (byte.onward hword hshort harity).2
  obtain ⟨⟨hcode, -⟩, hshort⟩ := byte.many.onward hword hshort hcode
  obtain ⟨⟨hsize, hconstants⟩, hshort⟩ := constant.many.onward hword hshort hconstants
  obtain ⟨⟨hlines, -⟩, hshort⟩ := line.many.onward hword hshort hlines
  refine ⟨⟨⟨hname, Nat.lt_of_succ_lt hcode, ?_, ?_, Nat.lt_of_succ_lt hlines⟩, .ofList constants.toList⟩, hshort⟩
  · have := ConstantTable.size_ofList constants.toList
    rw [Array.length_toList] at this
    exact Nat.lt_of_le_of_lt this hsize
  · intro c hc
    rcases ConstantTable.mem_ofList hc with rfl | hc
    · trivial
    · exact hconstants c (Array.mem_toList_iff.1 hc)

end Gives

/-- **What is read can be stored**, and has no library function bound. -/
theorem decode_storable {bytes : Bytes} {p : Program} (hword : bytes.length < wordSize) (h : decode bytes = .ok p) :
    p.Storable ∧ (∀ page ∈ p.pages, page.constants.Built) ∧ p.detached = p := by
  obtain ⟨⟨pages, rest₁⟩, hpages, h⟩ := split_ok h
  obtain ⟨⟨names, rest₂⟩, hnames, h⟩ := split_ok h
  cases h
  obtain ⟨⟨hsize, hpages⟩, hshort⟩ := Gives.page.many hword hpages
  obtain ⟨⟨hentries, hnames⟩, -⟩ := Gives.text.many.onward hword hshort hnames
  refine ⟨⟨Nat.lt_of_succ_lt hsize, fun page hp => (hpages page hp).1, ?_, ?_⟩, fun page hp => (hpages page hp).2, ?_⟩
  · rw [Array.size_map]
    exact Nat.lt_of_succ_lt hentries
  · intro entry he
    obtain ⟨name, hname, rfl⟩ := Array.mem_map.1 he
    exact hnames name hname
  · simp [Program.detached, Function.comp_def]

/-- **Reading undoes writing.** A program whose tables were built constant by constant comes back from its bytes and
whatever follows them, with no library function bound; bound to a library that has its functions under their names it is
the program that was written. A program that was read is read again from its own bytes. -/
theorem decode_encode :
    (∀ p : Program, p.Storable → (∀ page ∈ p.pages, page.constants.Built) →
      (∀ rest : Bytes, decode (encode p ++ rest) = .ok p.detached) ∧
      ∀ library : Library,
        (∀ entry ∈ p.library, ∃ f, entry.function? = some f ∧ library.get? entry.name = some f) →
        p.detached.bind library = (p, none)) ∧
    ∀ (bytes : Bytes) (p : Program), bytes.length < wordSize → decode bytes = .ok p → decode (encode p) = .ok p := by
  constructor
  · intro p hp hbuilt
    exact ⟨decode_append hp hbuilt, fun library h => Program.bind_detached h⟩
  · intro bytes p hword h
    obtain ⟨hp, hbuilt, hdetached⟩ := decode_storable hword h
    have hback := decode_append hp hbuilt []
    rwa [List.append_nil, hdetached] at hback

/-- A page with a constant of every kind. -/
def samplePage : Page where
  name := "f"
  arity := 1
  code := #[0, 0, 1]
  constants := .ofList [.boolean true, .integer (-9223372036854775808),
    .float 9223372036854775808, .string "é", .page 300, .libraryFunction 65535, .shape "P" ["x", "y"]]
  lines := #[(0, 1), (2, 4294967295)]

def sampleProgram : Program := ⟨#[samplePage], #[⟨"len", Library.standard.get? "len"⟩]⟩

theorem sampleProgram_storable : sampleProgram.Storable := by
  refine ⟨by decide, ?_, by decide, ?_⟩
  · intro page hp
    obtain rfl : page = samplePage := by simpa [sampleProgram] using hp
    refine ⟨by decide, by decide, by decide, ?_, by decide⟩
    intro c hc
    rcases ConstantTable.mem_ofList hc with rfl | hc
    · trivial
    · simp at hc
      rcases hc with rfl | rfl | rfl | rfl | rfl | rfl | rfl <;> simp [Constant.Storable, wordSize] <;> decide
  · intro entry he
    obtain rfl : entry = ⟨"len", Library.standard.get? "len"⟩ := by simpa [sampleProgram] using he
    decide

theorem decode_encode_sample :
    decode (encode sampleProgram ++ [255]) = .ok sampleProgram.detached ∧
      sampleProgram.detached.bind .standard = (sampleProgram, none) ∧
      decode (encode sampleProgram.detached) = .ok sampleProgram.detached := by
  have hbuilt : ∀ page ∈ sampleProgram.pages, page.constants.Built := by
    intro page hp
    obtain rfl : page = samplePage := by simpa [sampleProgram] using hp
    exact .ofList _
  have hbound : ∀ entry ∈ sampleProgram.library,
      ∃ f, entry.function? = some f ∧ Library.standard.get? entry.name = some f := by
    intro entry he
    obtain rfl : entry = ⟨"len", Library.standard.get? "len"⟩ := by simpa [sampleProgram] using he
    exact ⟨_, rfl, rfl⟩
  obtain ⟨hwritten, hread⟩ := decode_encode
  have hback := (hwritten _ sampleProgram_storable hbuilt).1 [255]
  refine ⟨hback, (hwritten _ sampleProgram_storable hbuilt).2 _ hbound, hread _ _ ?_ hback⟩
  decide +kernel

end Wire

end ShellVM
