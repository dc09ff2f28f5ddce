import ShellVM.Proofs.Window.Call

/-!
# Instructions and returns

What one instruction does to machines in shape (`perform_proceeds`), and the end of a page, where the innermost call
returns (`leave_onward`). Together they are all that a machine does when nothing fails (`advance_onward`).
-/

namespace ShellVM

variable {V : View} {k : Context} {A : Activation} {q : Nat} {σ : Shape} {m m' : Machine} {program : Program}
  {functions : List (Nat × UInt16)} {host : Host} {limits' : Limits}

/-! ## Returns -/

/-- The handlers of a call belong to its frame. -/
theorem Open.depth_eq {floor : Addr} {cells : List (UInt8 × Addr)} {zones : List Zone} {n : Nat} {own : List Handler}
    (h : Open floor A cells zones n own) : ∀ h ∈ own, h.frameDepth = A.depth := by
  induction h with
  | none =>
    intro h hh
    cases hh
  | attempt _ _ _ _ ih =>
    intro h hh
    rcases List.mem_cons.1 hh with rfl | hh
    · rfl
    · exact ih h hh
  | each _ ih => exact ih

/-- The handlers of callers belong to their frames. -/
theorem Callers.depth_le : ∀ {frames : List Frame} {base iterators : Nat} {handlers : List Handler},
    Callers V program functions frames base iterators handlers → ∀ h ∈ handlers, h.frameDepth ≤ frames.length
  | [], _, _, _, ⟨_, _, hhandlers⟩ => by
    intro h hh
    rw [hhandlers] at hh
    cases hh
  | f :: rest, _, _, _, ⟨A, ip, σ, cells, own, _, hr, _, hcallers, _, _, _, _, _, hopen, hhandlers⟩ => by
    intro h hh
    rw [hhandlers] at hh
    rcases List.mem_append.1 hh with hh | hh
    · rw [hopen.depth_eq h hh, hr]
      exact Nat.le_refl _
    · exact Nat.le_succ_of_le (hcallers.depth_le h hh)

/-- The machine goes on in some call, or the outermost one has returned. -/
def Onward (program : Program) (functions : List (Nat × UInt16)) (k : Context) (m m' : Machine) : Prop :=
  ∃ V, Going V program functions k m m' ∨ Done V k m m'

/-- At the end of its page a call returns its value. -/
theorem leave_onward (hA : Stands V program functions A) (hm : Inside V k A q ⟨1, [], [], 0⟩ m m') :
    ∃ s s', Act.leave m = .ok () s ∧ Act.leave m' = .ok () s' ∧ Onward program functions k s s' := by
  obtain ⟨cells, own, hframes', hframes, -, hopen, hown⟩ := Acts.frames hm
  have hheight := hm.shaped.height
  generalize hn : m'.iterators.length = n at hopen
  cases hopen
  have hdepth := hA.callers.depth_le
  have hfilter' : m'.handlers.filter (fun h => h.frameDepth ≤ A.callers.length) = A.outerHandlers := by
    rw [show m'.handlers = A.outerHandlers from hown, List.filter_eq_self]
    exact fun h hh => decide_eq_true (hdepth h hh)
  have hfilter : m.handlers.filter (fun h => h.frameDepth ≤ (A.callers.map (Frame.above k) ++ k.frames).length) =
      A.outerHandlers.map (Handler.above k) ++ k.handlers := by
    rw [hm.handlers, show m'.handlers = A.outerHandlers from hown, List.filter_eq_self]
    intro h hh
    rw [List.length_append, List.length_map]
    rcases List.mem_append.1 hh with hh | hh
    · obtain ⟨h', hh', rfl⟩ := List.mem_map.1 hh
      exact decide_eq_true (Nat.add_le_add_right (hdepth h' hh') _)
    · exact decide_eq_true (Nat.le_add_left_of_le (k.bounded h hh))
  have hleave : Act.leave m = .ok () { m with
      frames := A.callers.map (Frame.above k) ++ k.frames,
      handlers := A.outerHandlers.map (Handler.above k) ++ k.handlers } := by
    show EStateM.Result.ok () { m with frames := m.frames.tail, handlers := m.handlers.filter _ } = _
    rw [hframes, List.tail_cons, hfilter]
  have hleave' : Act.leave m' = .ok () { m' with frames := A.callers, handlers := A.outerHandlers } := by
    show EStateM.Result.ok () { m' with frames := m'.frames.tail, handlers := m'.handlers.filter _ } = _
    rw [hframes', List.tail_cons, hfilter']
  have hwindow : Window V k { m with
      frames := A.callers.map (Frame.above k) ++ k.frames,
      handlers := A.outerHandlers.map (Handler.above k) ++ k.handlers }
      { m' with frames := A.callers, handlers := A.outerHandlers } := { hm with frames := rfl, handlers := rfl }
  refine ⟨_, _, hleave, hleave', V, ?_⟩
  have hcallers := hA.callers
  cases hc : A.callers with
  | nil =>
    rw [hc] at hcallers hwindow
    obtain ⟨hbase, hiterators, hhandlers⟩ := hcallers
    refine .inr { hwindow with returned := rfl, result := ?_, exhausted := ?_, closed := hhandlers }
    · show m'.stack.size = 1
      rw [hheight, hbase]
      rfl
    · exact List.length_eq_zero_iff.1 (hn.trans hiterators)
  | cons f rest =>
    rw [hc] at hcallers hwindow
    exact .inl (hcallers.going hA.hosts hwindow rfl hheight hn rfl hm.shaped.stored)

/-! ## Instructions -/

theorem of_byte? {bytes : List UInt8} {j : Nat} {f : Nat → Nat × Nat} {e : Nat × Nat}
    (h : (bytes[j]?.map UInt8.toNat).bind (fun n => some (f n)) = some e) : e = f ((bytes[j]?).getD 0).toNat := by
  cases hb : bytes[j]? with
  | none => rw [hb] at h; cases h
  | some b => rw [hb] at h; exact (Option.some.inj h).symm

theorem of_word? {bytes : List UInt8} {j : Nat} {f : Nat → Nat × Nat} {e : Nat × Nat}
    (h : ((wordAt? bytes j).map UInt16.toNat).bind (fun n => some (f n)) = some e) :
    e = f ((wordAt? bytes j).getD 0).toNat := by
  cases hb : wordAt? bytes j with
  | none => rw [hb] at h; cases h
  | some b => rw [hb] at h; exact (Option.some.inj h).symm

/-- The values that a range takes. -/
theorem buildRange_effect {operands : List UInt8} {e : Nat × Nat} (h : Op.stackEffect? .buildRange operands = some e) :
    e = (((operands[0]?).getD 0 &&& RangeFlag.hasLast != 0).toNat +
      ((operands[0]?).getD 0 &&& RangeFlag.hasFirst != 0).toNat, 1) := by
  have htoNat (b : Bool) : (if b = true then 1 else 0) = b.toNat := by cases b <;> rfl
  cases hb : operands[0]? with
  | none => simp [Op.stackEffect?, hb] at h
  | some flags =>
    simp only [Op.stackEffect?, hb, Option.bind_eq_bind, Option.bind_some, Option.pure_def,
      Option.some.injEq, htoNat] at h
    rw [← h, Nat.add_comm]
    rfl

/-- The values that the call of a program takes. -/
theorem callProgram_effect {operands : List UInt8} {e : Nat × Nat}
    (h : Op.stackEffect? .callProgram operands = some e) :
    e = (((operands[3]?).getD 0).toNat * 2 + ((CallFlags.contains ⟨(wordAt? operands 1).getD 0⟩ .piped).toNat +
      (((operands[0]?).getD 0).toNat + 1)), 1) := by
  have htoNat (b : Bool) : (if b = true then 1 else 0) = b.toNat := by cases b <;> rfl
  cases h₀ : operands[0]? with
  | none => simp [Op.stackEffect?, h₀] at h
  | some arguments =>
    cases h₁ : wordAt? operands 1 with
    | none => simp [Op.stackEffect?, h₀, h₁] at h
    | some flags =>
      cases h₃ : operands[3]? with
      | none => simp [Op.stackEffect?, h₀, h₁, h₃] at h
      | some pairs =>
        simp only [Op.stackEffect?, h₀, h₁, h₃, Option.map_some, Option.bind_eq_bind, Option.bind_some, Option.pure_def,
          Option.some.injEq, htoNat] at h
        rw [← h]
        simp only [Option.getD_some, Prod.mk.injEq, and_true]
        omega

/-- At a return only the value is left. -/
theorem Inside.returning (hm : Inside V k A q σ m m') (hheight : σ.height = 1) (hzones : σ.zones = []) :
    Inside V k A q ⟨1, [], [], 0⟩ m m' := by
  obtain ⟨cells, own, hframes, -, hopen, hown⟩ := hm.shaped.active
  rw [hzones] at hopen
  exact { hm with
    shaped := { hm.shaped with
      active := ⟨cells, own, hframes, nofun, hopen, hown⟩
      height := by rw [hm.shaped.height, hheight]
      floor := Nat.zero_le _
      pending := Nat.zero_le _ } }

/-- A machine goes on with the next instruction of the innermost call, or that call ends. -/
theorem Act.advance_eq {f : Frame} {rest : List Frame} {page : Page} (hframes : m.frames = f :: rest)
    (hpage : program.page? f.page = some page) (hip : f.ip = q) : Act.advance host program m =
      (match page.code[q]? with
      | none => Act.leave
      | some byte =>
        match readInstruction page.code q byte with
        | .error (.unknown byte) => Act.breach (.unknownOpcode byte.toNat q)
        | .error (.truncated op) => Act.breach (.truncated op q)
        | .ok i => do
          Act.jump i.next
          Act.perform host program page i) m := by
  have hframe : Act.frame m = .ok f m := by
    unfold Act.frame
    rw [hframes]
  refine (bind_run_ok hframe).trans ?_
  rw [hpage]
  subst hip
  rfl

/-- The cell of a variable is the same one in both calls, and not below those of the context. -/
theorem Acts.through {α β : Type} {R : α → β → Prop} {x y : Act Addr} {f : Addr → Act α} {g : Addr → Act β}
    {q₁ q₂ : Nat} {σ₁ σ₂ : Shape} (h : Acts V k A q σ x y (fun a b => b = a ∧ V.cells ≤ a) q₁ σ₁)
    (h' : ∀ a, V.cells ≤ a → Acts V k A q₁ σ₁ (f a) (g a) R q₂ σ₂) : Acts V k A q σ (x >>= f) (y >>= g) R q₂ σ₂ :=
  h.bind fun a b ⟨hb, ha⟩ => by
    subst hb
    exact h' b ha

/-- The value of a cell is pushed. -/
theorem Acts.readOnto {x y : Act Addr} (h : Acts V k A q σ x y (fun a b => b = a ∧ V.cells ≤ a) q σ) :
    Acts V k A q σ (do Act.push (← Act.readCell (← x))) (do Act.push (← Act.readCell (← y))) (fun _ _ => True) q
      (σ.lift 0 1) :=
  h.through fun _ ha => (Acts.readCell ha).bind fun _ _ h => Acts.push h

/-- The value on top is written to a cell. -/
theorem Acts.writeFrom {x y : Act Addr} (hσ : σ.Admits 1)
    (h : Acts V k A q σ x y (fun a b => b = a ∧ V.cells ≤ a) q σ) :
    Acts V k A q σ (do let v ← Act.peek; Act.writeCell (← x) v) (do let v ← Act.peek; Act.writeCell (← y) v)
      (fun _ _ => True) q σ :=
  (Acts.peek hσ).bind fun _ _ huv => h.through fun _ ha => Acts.writeCell ha huv

section Perform

variable (hroom : k.Room host limits')
  (hserves : ∀ id index, functions.lookup id = some index → program.Hosts functions index 0)
  (hA : Stands V program functions A)

include hA

/-- A jump may be taken or not. -/
theorem jumpIf_proceeds {b : Bool} {u v : Value} {i : Instruction} {t : Nat} (huv : u.Alike V v)
    (ht : i.target? = some t) (hnext : Reaches A.chart.At q σ) (htaken : Reaches A.chart.At t σ) :
    Proceeds V program functions host limits' k A q σ (Act.jumpIf b u i) (Act.jumpIf b v i) := by
  refine (Acts.effect (Value.truth_agrees huv)).continue fun x y hxy => ?_
  subst hxy
  cases x == b with
  | true => exact (Acts.jumpTo ht).proceeds hA htaken
  | false => exact (Acts.pure trivial).proceeds hA hnext

include hroom hserves

/-- What an instruction does where the chart of the page allows it. -/
theorem perform_proceeds [host.Lawful] {i : Instruction} (hi : A.sheet.Allows A.chart.At i σ) :
    Proceeds V program functions host limits' k A i.next σ (Act.perform host program A.sheet.page i)
      (Act.perform (host.under limits') program A.sheet.page i) := by
  obtain ⟨p, op, operands⟩ := i
  obtain ⟨hneeds, pops, pushes, heffect, hσ, hfalls, hjumps⟩ := hi
  have hbinary (o : BinaryOp) (hσ : σ.Admits 2)
      (hnext : Reaches A.chart.At (Instruction.mk p op operands).next (σ.lift 2 1)) :
      Proceeds V program functions host limits' k A (Instruction.mk p op operands).next σ
        (Act.binary o) (Act.binary o) :=
    (Acts.binary o hσ).proceeds hA hnext
  cases op with
  | nop => cases heffect; exact (Acts.pure trivial).proceeds hA (hfalls rfl)
  | pop => cases heffect; exact ((Acts.pop hσ).bind fun _ _ _ => Acts.pure trivial).proceeds hA (hfalls rfl)
  | popN =>
    cases of_byte? heffect; exact ((Acts.popMany hσ).bind fun _ _ _ => Acts.pure trivial).proceeds hA (hfalls rfl)
  | unwind => cases of_byte? heffect; exact (Acts.unwind hσ).proceeds hA (hfalls rfl)
  | const =>
    cases heffect
    obtain ⟨c, hkey, hc⟩ := hneeds
    exact ((Acts.constant hA.hosts hA.fits.sheet hkey hc).bind fun _ _ h => Acts.push h).proceeds hA (hfalls rfl)
  | load => cases heffect; exact ((Acts.load hneeds).bind fun _ _ h => Acts.push h).proceeds hA (hfalls rfl)
  | store =>
    cases heffect
    exact (Acts.store hneeds).proceeds hA (hσ.lift_self ▸ hfalls rfl)
  | loadCapture =>
    cases heffect
    exact (Acts.capture hA.fits hneeds).readOnto.proceeds hA (hfalls rfl)
  | storeCapture =>
    cases heffect
    exact (Acts.writeFrom hσ (Acts.capture hA.fits hneeds)).proceeds hA (hσ.lift_self ▸ hfalls rfl)
  | makeCell => cases heffect; exact (Acts.makeCell hneeds).proceeds hA (hfalls rfl)
  | loadCell =>
    cases heffect
    exact (Acts.cell hneeds.2).readOnto.proceeds hA (hfalls rfl)
  | storeCell =>
    cases heffect
    exact (Acts.writeFrom hσ (Acts.cell hneeds.2)).proceeds hA (hσ.lift_self ▸ hfalls rfl)
  | captureLocal =>
    cases heffect
    exact ((Acts.cell hneeds.2).through fun _ ha => Acts.await ha).proceeds hA (hfalls rfl)
  | captureOuter =>
    cases heffect
    exact ((Acts.capture hA.fits hneeds).through fun _ ha => Acts.await ha).proceeds hA (hfalls rfl)
  | index => cases heffect; exact (Acts.index hσ).proceeds hA (hfalls rfl)
  | indexStore => cases heffect; exact (Acts.indexStore hσ).proceeds hA (hfalls rfl)
  | add => cases heffect; exact hbinary .add hσ (hfalls rfl)
  | sub => cases heffect; exact hbinary .subtract hσ (hfalls rfl)
  | mul => cases heffect; exact hbinary .multiply hσ (hfalls rfl)
  | div => cases heffect; exact hbinary .divide hσ (hfalls rfl)
  | mod => cases heffect; exact hbinary .modulo hσ (hfalls rfl)
  | pow => cases heffect; exact hbinary .power hσ (hfalls rfl)
  | equal => cases heffect; exact hbinary .equal hσ (hfalls rfl)
  | notEqual => cases heffect; exact hbinary .notEqual hσ (hfalls rfl)
  | less => cases heffect; exact hbinary .less hσ (hfalls rfl)
  | lessEqual => cases heffect; exact hbinary .lessEqual hσ (hfalls rfl)
  | greater => cases heffect; exact hbinary .greater hσ (hfalls rfl)
  | greaterEqual => cases heffect; exact hbinary .greaterEqual hσ (hfalls rfl)
  | and => cases heffect; exact hbinary .and hσ (hfalls rfl)
  | or => cases heffect; exact hbinary .or hσ (hfalls rfl)
  | contains => cases heffect; exact hbinary .member hσ (hfalls rfl)
  | negate => cases heffect; exact (Acts.unary .negate hσ).proceeds hA (hfalls rfl)
  | not => cases heffect; exact (Acts.unary .not hσ).proceeds hA (hfalls rfl)
  | cast => cases heffect; exact (Acts.cast hσ hneeds).proceeds hA (hfalls rfl)
  | buildList => cases of_word? heffect; exact (Acts.buildList hσ).proceeds hA (hfalls rfl)
  | buildTuple => cases of_word? heffect; exact (Acts.buildTuple hσ).proceeds hA (hfalls rfl)
  | buildDict => cases of_word? heffect; exact (Acts.buildDictionary hσ).proceeds hA (hfalls rfl)
  | buildSet => cases of_word? heffect; exact (Acts.buildSet hσ).proceeds hA (hfalls rfl)
  | buildRange => cases buildRange_effect heffect; exact (Acts.buildRange hσ).proceeds hA (hfalls rfl)
  | buildString => cases of_word? heffect; exact (Acts.buildString hσ).proceeds hA (hfalls rfl)
  | buildStruct =>
    simp only [Sheet.effect?] at heffect
    split at heffect
    · next name fields hkey =>
      cases heffect
      exact (Acts.buildStruct hσ hkey).proceeds hA (hfalls rfl)
    · cases heffect
  | unpack => cases of_byte? heffect; exact (Acts.unpack hσ).proceeds hA (hfalls rfl)
  | makeClosure =>
    cases heffect
    obtain ⟨hcount, index, hkey, hhosts⟩ := hneeds
    rw [hA.fits.sheet.1, hA.fits.sheet.2, ← hA.hosts] at hhosts
    intro m m' hm
    obtain ⟨cells, s, s', h, h', hs⟩ := makeClosure_inside hm hkey hcount hhosts
    show Both _ _ (Act.makeClosure _ _ _ m) (Act.makeClosure _ _ _ m')
    rw [h, h']
    exact ⟨V.learn cells, hs.going (hA.learn cells) (hfalls rfl)⟩
  | jump | jumpBackward =>
    cases heffect
    obtain ⟨t, ht, htaken⟩ := hjumps rfl
    exact (Acts.jumpTo ht).proceeds hA htaken
  | jumpIf | jumpIfNot =>
    cases heffect
    obtain ⟨t, ht, htaken⟩ := hjumps rfl
    exact (Acts.peek hneeds).continue fun _ _ h => jumpIf_proceeds hA h ht (hfalls rfl) htaken
  | popJumpIf | popJumpIfNot =>
    cases heffect
    obtain ⟨t, ht, htaken⟩ := hjumps rfl
    exact (Acts.pop hσ).continue fun _ _ h => jumpIf_proceeds hA h ht (hfalls rfl) htaken
  | getIter => cases heffect; exact (Acts.startIteration hσ).proceeds hA (hfalls rfl)
  | forIter =>
    cases heffect
    obtain ⟨t, ht, htaken⟩ := hjumps rfl
    obtain ⟨zones, hzones⟩ := hneeds
    refine (Acts.iterate ht hzones).weaken (fun _ _ h => h) (fun _ _ _ _ h => ?_) fun _ _ _ _ h => ⟨.inl h.1, h.2⟩
    rcases h with h | h
    · exact ⟨V, h.going hA (hfalls rfl)⟩
    · exact ⟨V, h.going hA htaken⟩
  | endFor =>
    cases heffect
    obtain ⟨zones, hzones⟩ := hneeds
    refine (Acts.endIteration hzones).proceeds hA ?_
    have hnext := hfalls rfl
    simp only [Shape.next, Shape.lift_zero, hzones, List.tail_cons] at hnext
    exact hnext
  | call | maybeRootCall =>
    cases of_byte? heffect
    exact callValue_proceeds hroom hserves hA hσ hneeds (hfalls rfl)
  | rootCall =>
    cases of_byte? heffect
    exact callValue_proceeds hroom hserves hA hσ hneeds.1 (hfalls rfl)
  | callStd =>
    cases of_byte? heffect
    obtain ⟨index, entry, f, hkey, hentry, hf⟩ := hneeds
    rw [hA.fits.sheet.1] at hentry
    exact (Acts.callStandard hσ hkey hentry hf).proceeds hA (hfalls rfl)
  | callProgram | rootCallProgram | maybeRootCallProgram =>
    cases callProgram_effect heffect
    exact (Acts.callProgram hσ).proceeds hA (hfalls rfl)
  | ret =>
    cases heffect
    obtain ⟨hheight, hzones⟩ := hneeds
    refine (Acts.jump _).weaken (fun _ _ h => h) (fun _ _ _ _ h => ⟨V, ?_⟩) fun _ _ _ _ h => ⟨.inl h.1, h.2⟩
    exact (h.2.returning hheight hzones).going hA (.of (.inr ⟨rfl, rfl⟩))
  | enterTry =>
    cases heffect
    obtain ⟨t, ht, htaken⟩ := hjumps rfl
    refine (Acts.openTry ht ?_).proceeds hA (hfalls rfl)
    simp only [Shape.taken, Shape.lift, show σ.pending = 0 from hneeds] at htaken
    exact htaken
  | endTry =>
    cases heffect
    obtain ⟨h, zones, hzones⟩ := hneeds
    refine (Acts.closeTry hzones).proceeds hA ?_
    have hnext := hfalls rfl
    simp only [Shape.next, Shape.lift_zero, hzones, List.tail_cons] at hnext
    exact hnext

/-- One step, apart from the limits: the next instruction, or the return of the innermost call. -/
theorem advance_onward [host.Lawful] (hq : A.chart.At q σ) (hm : Inside V k A q σ m m') :
    Both (fun _ _ => Onward program functions k)
      (fun e f s s' => Alarmed host limits' e f ∧ ∃ q σ, Inside V k A q σ s s')
      (Act.advance host program m) (Act.advance (host.under limits') program m') := by
  obtain ⟨cells, own, hframes', hframes, -⟩ := Acts.frames hm
  have hpage : program.page? (A.frame q cells).page = some A.sheet.page := hA.fits.page
  rw [Act.advance_eq (q := q) hframes hpage rfl, Act.advance_eq (q := q) hframes' hpage rfl]
  rcases hq with hpoint | ⟨rfl, rfl⟩
  · obtain ⟨op, operands, ⟨byte, hbyte, hread⟩, hallows⟩ := A.chart.goes _ hpoint
    simp only at hbyte hread
    rw [hbyte]
    simp only [hread]
    have hperform : Proceeds V program functions host limits' k A q σ
        (do Act.jump _; Act.perform host program A.sheet.page ⟨q, op, operands⟩)
        (do Act.jump _; Act.perform (host.under limits') program A.sheet.page ⟨q, op, operands⟩) :=
      (Acts.jump _).continue fun _ _ _ => perform_proceeds hroom hserves hA hallows
    exact hperform.post (fun _ _ _ _ h => h.imp fun _ => .inl) hm
  · have hend : A.sheet.page.code[A.sheet.page.code.size]? = none := Array.getElem?_eq_none (Nat.le_refl _)
    rw [hend]
    obtain ⟨s, s', h, h', hs⟩ := leave_onward hA hm
    simp only [h, h']
    exact hs

end Perform

end ShellVM
