import ShellVM.Proofs.Trace

/-!
# Streams of instructions

Two readers go through the code of a page: one lists its instructions (`decodeAll`), the other fetches the next
instruction of a run (`Act.step`). The items of the list are what stands where instructions start
(`ok_mem_decodeAll_iff`, `error_mem_decodeAll_iff`), so a run that is there fetches the same, or fails where the list
does (`Act.step_fetches`, `Act.step_stops`).
-/

namespace ShellVM

open Instruction.Body

variable {code : Array UInt8} {p q : Nat} {b : UInt8} {op : Op} {operands : List UInt8} {why : Unreadable}

/-! ## Items -/

/-- The instructions of a row start one behind the other, and what is behind the last of them starts there too. -/
theorem Instruction.Body.Row.starts {row : List Instruction.Body} (h : Row code p row q) (hp : Starts code p) :
    (∀ i ∈ placed p row, Starts code i.offset) ∧ Starts code q := by
  induction h with
  | nil => exact ⟨fun i hi => absurd hi List.not_mem_nil, hp⟩
  | cons reads _ ih =>
    obtain ⟨hrow, hend⟩ := ih (hp.read reads)
    exact ⟨List.forall_mem_cons.2 ⟨hp, hrow⟩, hend⟩

/-- In front of a place where an instruction starts there is a row of them. -/
theorem exists_row_of_starts (h : Starts code q) : ∃ row, Row code 0 row q := by
  induction h with
  | zero => exact ⟨[], .nil 0⟩
  | @next q o _ byte fits ih =>
    obtain ⟨row, hrow⟩ := ih
    obtain ⟨op, operands, hreads⟩ : ∃ op operands, Reads code q op operands := by
      rcases place_cases code q with hend | hreads | ⟨b, why, hblocked⟩
      · omega
      · exact hreads
      · exfalso
        obtain rfl : o.toByte = b := Option.some.inj (byte.symm.trans hblocked.byte)
        cases hblocked with
        | unknown _ hnone => cases hnone.symm.trans (Op.ofByte?_toByte o)
        | truncated _ hop hcut =>
          obtain rfl := Option.some.inj (hop.symm.trans (Op.ofByte?_toByte o))
          omega
    obtain rfl : op = o := Op.toByte_inj (Option.some.inj (hreads.stands.1.symm.trans byte))
    refine ⟨row ++ [⟨op, operands, hreads.length⟩], hrow.append (.cons hreads ?_)⟩
    rw [← hreads.length]
    exact .nil _

/-- The instructions that are listed are those that stand where instructions start. -/
theorem ok_mem_decodeAll_iff {i : Instruction} :
    .ok i ∈ decodeAll code ↔ Starts code i.offset ∧ Reads code i.offset i.op i.operands := by
  constructor
  · intro h
    obtain ⟨row, q, fin, hrow, hfin⟩ := exists_row code 0 (Nat.zero_le _)
    rw [hrow.decodeAll_eq hfin] at h
    rcases List.mem_append.1 h with h | h
    · obtain ⟨j, hj, hji⟩ := List.mem_map.1 h
      cases hji
      exact ⟨(hrow.starts .zero).1 i hj, hrow.reads i hj⟩
    · cases hfin with
      | done => cases h
      | blocked => cases List.mem_singleton.1 h
  · rintro ⟨hstarts, hreads⟩
    obtain ⟨row, hrow⟩ := exists_row_of_starts hstarts
    obtain ⟨row', q, fin, hrow', hfin⟩ := exists_row code _ hreads.le
    have hrest : Row code i.offset (⟨i.op, i.operands, hreads.length⟩ :: row') q := .cons hreads hrow'
    rw [(hrow.append hrest).decodeAll_eq hfin, hrow.placed_append]
    exact List.mem_append_left _ (List.mem_map_of_mem (List.mem_append_right _ List.mem_cons_self))

theorem mem_instructions_iff {i : Instruction} :
    i ∈ instructions code ↔ Starts code i.offset ∧ Reads code i.offset i.op i.operands := by
  rw [← ok_mem_decodeAll_iff, instructions, List.mem_filterMap]
  constructor
  · rintro ⟨item, hitem, hi⟩
    cases item with
    | error stop => cases hi
    | ok j =>
      cases hi
      exact hitem
  · exact fun h => ⟨.ok i, h, rfl⟩

/-- A byte where reading stops is listed if and only if an instruction would start there. -/
theorem error_mem_decodeAll_iff : .error (q, b) ∈ decodeAll code ↔ Starts code q ∧ ∃ why, Blocked code q b why := by
  constructor
  · intro h
    obtain ⟨row, r, fin, hrow, hfin⟩ := exists_row code 0 (Nat.zero_le _)
    rw [hrow.decodeAll_eq hfin] at h
    rcases List.mem_append.1 h with h | h
    · obtain ⟨j, _, hj⟩ := List.mem_map.1 h
      cases hj
    · cases hfin with
      | done => cases h
      | blocked hblocked =>
        cases List.mem_singleton.1 h
        exact ⟨(hrow.starts .zero).2, _, hblocked⟩
  · rintro ⟨hstarts, why, hblocked⟩
    obtain ⟨row, hrow⟩ := exists_row_of_starts hstarts
    rw [hrow.decodeAll_eq (.blocked hblocked)]
    exact List.mem_append_right _ (List.mem_singleton_self _)

/-! ## The other reader -/

/-- The fault of a run that comes to a place where no instruction can be read. -/
def Unreadable.breach (q : Nat) : Unreadable → Breach
  | unknown byte => .unknownOpcode byte.toNat q
  | truncated op => .truncated op q

section Fetch

variable {host : Host} {program : Program} {page : Page} {m : Machine} {f : Frame} {rest : List Frame}

/-- What a step does behind its check of the limits is what the machine does when it goes on. -/
theorem Act.step_of_advance {act : Act Unit}
    (h : ∀ n, Act.advance host program { m with steps := n } = act { m with steps := n }) :
    Act.step host program m = (do Act.checkLimits host; act) m := by
  show EStateM.bind (Act.checkLimits host) _ m = EStateM.bind (Act.checkLimits host) _ m
  unfold EStateM.bind
  rw [Act.checkLimits_eq]
  cases host.exceeded? { m with steps := m.steps + 1 } with
  | none => exact h _
  | some l => rfl

/-- Where an instruction stands a step fetches it. -/
theorem Act.step_fetches (hframes : m.frames = f :: rest) (hpage : program.page? f.page = some page)
    (h : Reads page.code f.ip op operands) : Act.step host program m = (do
      Act.checkLimits host
      Act.jump (f.ip + 1 + operands.length)
      Act.perform host program page ⟨f.ip, op, operands⟩) m := by
  refine Act.step_of_advance fun n => ?_
  obtain ⟨b, hbyte, hread⟩ := h
  rw [Act.advance_eq (m := { m with steps := n }) hframes hpage rfl, hbyte]
  simp only [hread]
  rfl

/-- Where reading stops a step fails. -/
theorem Act.step_stops (hframes : m.frames = f :: rest) (hpage : program.page? f.page = some page)
    (h : Blocked page.code f.ip b why) : Act.step host program m = (do
      Act.checkLimits host
      Act.breach (why.breach f.ip)) m := by
  refine Act.step_of_advance fun n => ?_
  obtain ⟨hbyte, hread⟩ := blocked_iff.1 h
  rw [Act.advance_eq (m := { m with steps := n }) hframes hpage rfl, hbyte]
  simp only [hread]
  cases why <;> rfl

end Fetch

/-- Reading a code comes to an end, and gives instructions one behind the other, whose bytes are those of the code up
to where reading stops: at its end, or at a byte that is no opcode or has its operands cut off. What instructions are
written as is read back. A run that is at an item fetches the instruction, or fails. -/
theorem streams_decode_as_fetched :
    (∀ code : Array UInt8, (∀ items, Decoder.Gives code ⟨0, false⟩ items ↔ items = decodeAll code) ∧
      (∃ row q fin, decodeAll code = (placed 0 row).map Except.ok ++ fin ∧
        (placed 0 row).flatMap Instruction.bytes = code.toList.take q ∧ Stops code q fin) ∧
      ∀ q b, .error (q, b) ∈ decodeAll code ↔ Starts code q ∧ ∃ why, Blocked code q b why) ∧
    (∀ row, decodeAll (stream row).toArray = (placed 0 row).map Except.ok) ∧
    ∀ (host : Host) (program : Program) (page : Page) (m : Machine) (f : Frame) (rest : List Frame),
      m.frames = f :: rest → program.page? f.page = some page →
      (∀ i, .ok i ∈ decodeAll page.code → i.offset = f.ip → Act.step host program m = (do
        Act.checkLimits host
        Act.jump i.next
        Act.perform host program page i) m) ∧
      ∀ q b, .error (q, b) ∈ decodeAll page.code → q = f.ip → ∃ why, Blocked page.code q b why ∧
        Act.step host program m = (do
          Act.checkLimits host
          Act.breach (why.breach q)) m := by
  refine ⟨fun code => ⟨Decoder.gives_iff code, ?_, fun q b => error_mem_decodeAll_iff⟩, decodeAll_stream, ?_⟩
  · obtain ⟨row, q, fin, hrow, hfin⟩ := exists_row code 0 (Nat.zero_le _)
    refine ⟨row, q, fin, hrow.decodeAll_eq hfin, ?_, hfin⟩
    obtain ⟨hq, hbytes⟩ := hrow.bytes
    rw [bytes_placed, show code.toList = stream row ++ code.toList.drop q from hbytes, hq, Nat.zero_add]
    exact (List.take_left).symm
  · intro host program page m f rest hframes hpage
    constructor
    · rintro ⟨offset, op, operands⟩ hi rfl
      obtain ⟨-, hreads⟩ := ok_mem_decodeAll_iff.1 hi
      exact Act.step_fetches hframes hpage hreads
    · rintro q b hq rfl
      obtain ⟨-, why, hblocked⟩ := error_mem_decodeAll_iff.1 hq
      exact ⟨why, hblocked, Act.step_stops hframes hpage hblocked⟩

/-- The second operand byte of the second instruction is missing. -/
theorem streams_decode_as_fetched_truncated :
    decodeAll #[Op.nop.toByte, Op.const.toByte, 0] = [.ok ⟨0, .nop, []⟩, .error (1, Op.const.toByte)] ∧
      ∀ w, Act.step {} ⟨#[{ Page.empty "main" 0 with code := #[Op.nop.toByte, Op.const.toByte, 0] }], #[]⟩
          { Machine.start 0 w with frames := [⟨0, 1, 0, true, none, []⟩] } =
        .error (.ofBreach (.truncated .const 1))
          { Machine.start 0 w with frames := [⟨0, 1, 0, true, none, []⟩], steps := 1 } := by
  refine ⟨rfl, fun w => ?_⟩
  have hitem : .error (1, Op.const.toByte) ∈ decodeAll #[Op.nop.toByte, Op.const.toByte, 0] :=
    .tail _ (List.mem_singleton_self _)
  let page : Page := { Page.empty "main" 0 with code := #[Op.nop.toByte, Op.const.toByte, 0] }
  obtain ⟨why, hblocked, hstep⟩ := (streams_decode_as_fetched.2.2 {} ⟨#[page], #[]⟩ page
    { Machine.start 0 w with frames := [⟨0, 1, 0, true, none, []⟩] } _ _ rfl rfl).2 1 Op.const.toByte hitem rfl
  rw [hstep]
  cases hblocked with
  | unknown _ hnone => cases hnone
  | truncated _ hop =>
    cases hop
    rfl

end ShellVM
