import ShellVM.Proofs.Layout.Scope

/-!
# Reading code

At every offset of a code there is its end, an instruction, or a byte where reading stops (`place_cases`). Every code
is a row of instructions with its end or such a byte behind it (`exists_row`), and a row of instructions is read back
one by one, whatever comes behind it (`Row.decodeAll_eq`).

The bound of `decodeAll` is none: a reader that gives one item at a time, and goes on for as long as there is one
(`Decoder`), gives the same items (`Decoder.gives_iff`).
-/

namespace ShellVM

theorem Op.toByte_of_ofByte? {b : UInt8} {op : Op} (h : Op.ofByte? b = some op) : op.toByte = b := by
  have hall : ∀ i : Fin all.size, (all[i.val]).toByte.toNat = i.val := by decide
  obtain ⟨hlt, rfl⟩ := Array.getElem?_eq_some_iff.1 h
  exact UInt8.toNat.inj (hall ⟨b.toNat, hlt⟩)

theorem hasBytes_of_bytesFrom? {code : Array UInt8} : ∀ {n p : Nat} {bytes : List UInt8},
    bytesFrom? code p n = some bytes → HasBytes code p bytes
  | 0, _, _, h => by
    cases h
    intro k hk
    cases hk
  | n + 1, p, _, h => by
    simp only [bytesFrom?, Option.bind_eq_bind, Option.bind_eq_some_iff] at h
    obtain ⟨b, hb, rest, hr, h⟩ := h
    cases h
    intro k hk
    cases k with
    | zero => exact hb
    | succ k =>
      have := hasBytes_of_bytesFrom? hr k (by simpa using hk)
      rwa [show p + 1 + k = p + (k + 1) by omega] at this

/-- An instruction that can be read stands there byte by byte. -/
theorem Reads.bytes {code : Array UInt8} {p : Nat} {op : Op} {operands : List UInt8} (h : Reads code p op operands) :
    HasBytes code p (op.toByte :: operands) := by
  obtain ⟨b, hb, hr⟩ := h
  unfold readInstruction at hr
  split at hr
  · cases hr
  · next hop =>
    split at hr
    · cases hr
    · next hbytes =>
      cases hr
      have htail := hasBytes_of_bytesFrom? hbytes
      intro k hk
      cases k with
      | zero => rw [Op.toByte_of_ofByte? hop]; exact hb
      | succ k =>
        have := htail k (by simpa using hk)
        rwa [show p + 1 + k = p + (k + 1) by omega] at this

theorem HasBytes.drop {code : Array UInt8} {p : Nat} {bytes : List UInt8} (h : HasBytes code p bytes) :
    code.toList.drop p = bytes ++ code.toList.drop (p + bytes.length) := by
  refine List.ext_getElem? fun k => ?_
  rw [List.getElem?_drop, List.getElem?_append]
  split
  · next hk => simpa using h k hk
  · next hk =>
    rw [List.getElem?_drop]
    congr 1
    omega

theorem Reads.le {code : Array UInt8} {p : Nat} {op : Op} {operands : List UInt8} (h : Reads code p op operands) :
    p + 1 + operands.length ≤ code.size := by
  have hb := h.bytes operands.length (by simp)
  rw [List.getElem?_eq_getElem (by simp)] at hb
  have := (Array.getElem?_eq_some_iff.1 hb).1
  omega

variable {code : Array UInt8} {p q : Nat} {b : UInt8} {op : Op} {operands : List UInt8} {why : Unreadable}

/-! ## Places -/

/-- The byte at an offset is no opcode, or its operands are cut off. -/
inductive Blocked (code : Array UInt8) (q : Nat) (b : UInt8) : Unreadable → Prop where
  | unknown (byte : code[q]? = some b) (none : Op.ofByte? b = none) : Blocked code q b (.unknown b)
  | truncated {op : Op} (byte : code[q]? = some b) (opcode : Op.ofByte? b = some op)
      (cut : code.size < q + 1 + op.width) : Blocked code q b (.truncated op)

theorem Blocked.byte (h : Blocked code q b why) : code[q]? = some b := by
  cases h with
  | unknown byte => exact byte
  | truncated byte => exact byte

theorem lt_size_of_byte (h : code[q]? = some b) : q < code.size := (Array.getElem?_eq_some_iff.1 h).1

/-- Operands are missing if and only if the code ends in front of their end. -/
theorem bytesFrom?_eq_none_iff : ∀ {n p : Nat}, p ≤ code.size → (bytesFrom? code p n = none ↔ code.size < p + n)
  | 0, p, hp => by
    refine ⟨fun h => ?_, fun h => ?_⟩
    · cases h
    · omega
  | n + 1, p, hp => by
    unfold bytesFrom?
    cases hbyte : code[p]? with
    | none =>
      have hle : code.size ≤ p := Array.getElem?_eq_none_iff.1 hbyte
      exact iff_of_true rfl (by omega)
    | some b =>
      have hlt := lt_size_of_byte hbyte
      have ih := bytesFrom?_eq_none_iff (n := n) (p := p + 1) hlt
      rw [show p + 1 + n = p + (n + 1) by omega] at ih
      rw [← ih]
      cases bytesFrom? code (p + 1) n with
      | none => exact iff_of_true rfl rfl
      | some bytes => exact iff_of_false (fun h => by cases h) fun h => by cases h

/-- Why an instruction cannot be read. -/
theorem blocked_iff : Blocked code q b why ↔ code[q]? = some b ∧ readInstruction code q b = .error why := by
  unfold readInstruction
  constructor
  · rintro (⟨hbyte, hnone⟩ | ⟨hbyte, hop, hcut⟩)
    · refine ⟨hbyte, ?_⟩
      rw [hnone]
    · refine ⟨hbyte, ?_⟩
      rw [hop]
      simp only
      rw [(bytesFrom?_eq_none_iff (lt_size_of_byte hbyte)).2 hcut]
  · rintro ⟨hbyte, hread⟩
    cases hop : Op.ofByte? b with
    | none =>
      rw [hop] at hread
      cases hread
      exact .unknown hbyte hop
    | some op =>
      rw [hop] at hread
      simp only at hread
      cases hoperands : bytesFrom? code (q + 1) op.width with
      | none =>
        rw [hoperands] at hread
        cases hread
        exact .truncated hbyte hop ((bytesFrom?_eq_none_iff (lt_size_of_byte hbyte)).1 hoperands)
      | some operands =>
        rw [hoperands] at hread
        cases hread

/-- At every offset there is the end of the code, an instruction, or a byte where reading stops. -/
theorem place_cases (code : Array UInt8) (q : Nat) : code.size ≤ q ∨ (∃ op operands, Reads code q op operands) ∨
    ∃ b why, Blocked code q b why := by
  cases hbyte : code[q]? with
  | none => exact .inl (Array.getElem?_eq_none_iff.1 hbyte)
  | some b =>
    cases hread : readInstruction code q b with
    | error why => exact .inr (.inr ⟨b, why, blocked_iff.2 ⟨hbyte, hread⟩⟩)
    | ok i =>
      obtain ⟨offset, op, operands⟩ := i
      obtain rfl : offset = q := readInstruction_offset hread
      exact .inr (.inl ⟨op, operands, b, hbyte, hread⟩)

/-! ## Reading item by item -/

/-- A reader of instructions: how far it has come, and whether it has found a byte where it stops. -/
structure Decoder where
  offset : Nat
  failed : Bool

namespace Decoder

/-- The next item and where the reader is then, if there is one more. -/
def next? (code : Array UInt8) (d : Decoder) : Option (Decoded × Decoder) :=
  if d.failed then none
  else
    match code[d.offset]? with
    | none => none
    | some byte =>
      match readInstruction code d.offset byte with
      | .ok i => some (.ok i, ⟨i.next, false⟩)
      | .error _ => some (.error (d.offset, byte), ⟨d.offset, true⟩)

/-- The reader gives these items one after the other, and no more. -/
inductive Gives (code : Array UInt8) : Decoder → List Decoded → Prop where
  | nil {d : Decoder} (ends : d.next? code = none) : Gives code d []
  | cons {d d' : Decoder} {item : Decoded} {items : List Decoded} (next : d.next? code = some (item, d'))
      (rest : Gives code d' items) : Gives code d (item :: items)

variable {d : Decoder} {items items' : List Decoded}

theorem next?_failed (h : d.failed = true) : d.next? code = none := if_pos h

theorem next?_end (h : code.size ≤ p) : next? code ⟨p, false⟩ = none := by
  show (match code[p]? with | none => none | some byte => _ : Option (Decoded × Decoder)) = none
  rw [Array.getElem?_eq_none h]

theorem next?_reads (h : Reads code p op operands) :
    next? code ⟨p, false⟩ = some (.ok ⟨p, op, operands⟩, ⟨p + 1 + operands.length, false⟩) := by
  obtain ⟨b, hbyte, hread⟩ := h
  show (match code[p]? with | none => none | some byte => _ : Option (Decoded × Decoder)) = _
  rw [hbyte]
  simp only [hread]
  rfl

theorem next?_blocked (h : Blocked code p b why) : next? code ⟨p, false⟩ = some (.error (p, b), ⟨p, true⟩) := by
  obtain ⟨hbyte, hread⟩ := blocked_iff.1 h
  show (match code[p]? with | none => none | some byte => _ : Option (Decoded × Decoder)) = _
  rw [hbyte]
  simp only [hread]

/-- A reader gives one row of items. -/
theorem Gives.unique (h : Gives code d items) (h' : Gives code d items') : items = items' := by
  induction h generalizing items' with
  | nil ends =>
    cases h' with
    | nil => rfl
    | cons next => cases ends.symm.trans next
  | cons next _ ih =>
    cases h' with
    | nil ends => cases ends.symm.trans next
    | cons next' rest' =>
      obtain ⟨rfl, rfl⟩ := Prod.mk.inj (Option.some.inj (next.symm.trans next'))
      rw [ih rest']

end Decoder

/-! ## Rows of instructions -/

/-- An instruction, wherever it stands. -/
structure Instruction.Body where
  op : Op
  operands : List UInt8
  width : operands.length = op.width

namespace Instruction.Body

/-- The bytes of instructions, one behind the other. -/
def stream (row : List Body) : List UInt8 := row.flatMap fun body => body.op.toByte :: body.operands

/-- The instructions of a stream that starts at an offset. -/
def placed : Nat → List Body → List Instruction
  | _, [] => []
  | p, body :: row => ⟨p, body.op, body.operands⟩ :: placed (p + 1 + body.operands.length) row

theorem bytes_placed (row : List Body) : ∀ p, (placed p row).flatMap Instruction.bytes = stream row := by
  induction row with
  | nil => exact fun _ => rfl
  | cons body row ih =>
    intro p
    show (body.op.toByte :: body.operands) ++ (placed _ row).flatMap Instruction.bytes = _
    rw [ih]
    rfl

/-- From one offset up to another the code is a row of instructions. -/
inductive Row (code : Array UInt8) : Nat → List Body → Nat → Prop where
  | nil (p : Nat) : Row code p [] p
  | cons {p q : Nat} {body : Body} {row : List Body} (reads : Reads code p body.op body.operands)
      (rest : Row code (p + 1 + body.operands.length) row q) : Row code p (body :: row) q

/-- What comes behind the instructions: nothing, or a byte where reading stops. -/
inductive Stops (code : Array UInt8) (q : Nat) : List Decoded → Prop where
  | done (ends : q = code.size) : Stops code q []
  | blocked {b : UInt8} {why : Unreadable} (blocked : Blocked code q b why) : Stops code q [.error (q, b)]

variable {row row' : List Body} {r : Nat} {fin : List Decoded}

theorem Stops.decodeFrom_eq (h : Stops code q fin) : ∀ fuel found, code.size - q ≤ fuel →
    decodeFrom code fuel q found = fin.reverse ++ found := by
  intro fuel found hfuel
  cases fuel with
  | zero =>
    cases h with
    | done => rfl
    | blocked hblocked =>
      have := lt_size_of_byte hblocked.byte
      omega
  | succ fuel =>
    rw [decodeFrom]
    cases h with
    | done ends => rw [Array.getElem?_eq_none (Nat.le_of_eq ends.symm)]; rfl
    | blocked hblocked =>
      obtain ⟨hbyte, hread⟩ := blocked_iff.1 hblocked
      rw [hbyte]
      simp only [hread]
      rfl

theorem Stops.gives (h : Stops code q fin) : Decoder.Gives code ⟨q, false⟩ fin := by
  cases h with
  | done ends => exact .nil (Decoder.next?_end (Nat.le_of_eq ends.symm))
  | blocked hblocked => exact .cons (Decoder.next?_blocked hblocked) (.nil (Decoder.next?_failed rfl))

namespace Row

theorem append (h : Row code p row q) (h' : Row code q row' r) : Row code p (row ++ row') r := by
  induction h with
  | nil => exact h'
  | cons reads _ ih => exact .cons reads (ih h')

theorem placed_append (h : Row code p row q) : placed p (row ++ row') = placed p row ++ placed q row' := by
  induction h with
  | nil => rfl
  | cons _ _ ih => exact congrArg (List.cons _) ih

/-- A row takes as many bytes as its instructions have, and these are the bytes. -/
theorem bytes (h : Row code p row q) :
    q = p + (stream row).length ∧ code.toList.drop p = stream row ++ code.toList.drop q := by
  induction h with
  | nil => exact ⟨rfl, rfl⟩
  | @cons p q body row reads _ ih =>
    obtain ⟨hq, hdrop⟩ := ih
    have hstream : stream (body :: row) = (body.op.toByte :: body.operands) ++ stream row := rfl
    constructor
    · rw [hq, hstream, List.length_append, List.length_cons]
      omega
    · rw [hstream, List.append_assoc, ← hdrop, reads.bytes.drop, List.length_cons]
      rw [show p + (body.operands.length + 1) = p + 1 + body.operands.length by omega]

/-- The bytes of instructions are a row of them, whatever comes behind. -/
theorem of_stream {rest : List UInt8} (h : code.toList.drop p = stream row ++ rest) :
    Row code p row (p + (stream row).length) := by
  induction row generalizing p with
  | nil => exact .nil p
  | cons body row ih =>
    have hstream : stream (body :: row) = (body.op.toByte :: body.operands) ++ stream row := rfl
    rw [hstream, List.append_assoc] at h
    have hreads : Reads code p body.op body.operands := by
      refine .of_bytes body.width fun k hk => ?_
      rw [← List.getElem?_append_left hk, ← h, List.getElem?_drop, Array.getElem?_toList]
    have hrest : code.toList.drop (p + 1 + body.operands.length) = stream row ++ rest := by
      have hdrop := hreads.bytes.drop
      rw [List.length_cons, show p + (body.operands.length + 1) = p + 1 + body.operands.length by omega] at hdrop
      exact (List.append_cancel_left (h.symm.trans hdrop)).symm
    have hrow := ih hrest
    rw [show p + 1 + body.operands.length + (stream row).length = p + (stream (body :: row)).length by
      rw [hstream, List.length_append, List.length_cons]; omega] at hrow
    exact .cons hreads hrow

/-- The reader finds a row of instructions again. -/
theorem gives (h : Row code p row q) {items : List Decoded} (hitems : Decoder.Gives code ⟨q, false⟩ items) :
    Decoder.Gives code ⟨p, false⟩ ((placed p row).map Except.ok ++ items) := by
  induction h with
  | nil => exact hitems
  | cons reads _ ih => exact .cons (Decoder.next?_reads reads) (ih hitems)

theorem decodeFrom_eq (h : Row code p row q) (hfin : Stops code q fin) : ∀ fuel found, code.size - p ≤ fuel →
    decodeFrom code fuel p found = ((placed p row).map Except.ok ++ fin).reverse ++ found := by
  induction h with
  | nil => exact hfin.decodeFrom_eq
  | @cons p q body row reads _ ih =>
    intro fuel found hfuel
    have hlt := reads.lt
    obtain ⟨b, hbyte, hread⟩ := reads
    cases fuel with
    | zero => omega
    | succ fuel =>
      rw [decodeFrom, hbyte]
      simp only [hread]
      show decodeFrom code fuel (p + 1 + body.operands.length) _ = _
      rw [ih hfin fuel _ (by omega)]
      simp [placed, List.append_assoc]

/-- The list of the items of a code. -/
theorem decodeAll_eq (h : Row code 0 row q) (hfin : Stops code q fin) :
    decodeAll code = (placed 0 row).map Except.ok ++ fin := by
  rw [decodeAll, h.decodeFrom_eq hfin code.size [] (Nat.sub_le _ _), List.append_nil, List.reverse_reverse]

theorem reads (h : Row code p row q) : ∀ i ∈ placed p row, Reads code i.offset i.op i.operands := by
  induction h with
  | nil => exact fun i hi => absurd hi List.not_mem_nil
  | cons reads _ ih => exact List.forall_mem_cons.2 ⟨reads, ih⟩

end Row

/-- Every code is a row of instructions up to where reading stops. -/
theorem exists_row (code : Array UInt8) (p : Nat) (hp : p ≤ code.size) :
    ∃ row q fin, Row code p row q ∧ Stops code q fin := by
  rcases place_cases code p with hend | ⟨op, operands, hreads⟩ | ⟨b, why, hblocked⟩
  · exact ⟨[], p, [], .nil p, .done (Nat.le_antisymm hp hend)⟩
  · obtain ⟨row, q, fin, hrow, hfin⟩ := exists_row code (p + 1 + operands.length) hreads.le
    exact ⟨⟨op, operands, hreads.length⟩ :: row, q, fin, .cons hreads hrow, hfin⟩
  · exact ⟨[], p, _, .nil p, .blocked hblocked⟩
termination_by code.size - p
decreasing_by
  have := hreads.lt
  omega

/-- A stream of instructions is read back. -/
theorem decodeAll_stream (row : List Body) : decodeAll (stream row).toArray = (placed 0 row).map Except.ok := by
  have hrow : Row (stream row).toArray 0 row (0 + (stream row).length) := .of_stream (List.append_nil _).symm
  have hend : 0 + (stream row).length = (stream row).toArray.size := by
    rw [Nat.zero_add, List.size_toArray]
  rw [hrow.decodeAll_eq (.done hend), List.append_nil]

end Instruction.Body

open Instruction.Body

/-- The reader gives the list of the items, and no other. -/
theorem Decoder.gives_iff (code : Array UInt8) (items : List Decoded) : Gives code ⟨0, false⟩ items ↔
    items = decodeAll code := by
  obtain ⟨row, q, fin, hrow, hfin⟩ := exists_row code 0 (Nat.zero_le _)
  have hgives : Gives code ⟨0, false⟩ (decodeAll code) := by
    rw [hrow.decodeAll_eq hfin]
    exact hrow.gives hfin.gives
  exact ⟨fun h => h.unique hgives, fun h => h ▸ hgives⟩

end ShellVM
