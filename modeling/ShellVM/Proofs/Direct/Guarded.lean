import ShellVM.Proofs.Direct.Machine
import ShellVM.Proofs.Window.Turn

/-!
# Direct accesses are in range

Every place that the machine accesses directly has been checked before, whatever the code is: on the stack by the checks
for its height (`popMany_eq`, `takeCallee_eq`, `load_eq`), in the code by the check for its end, and among the lines
of a page because a point of partition is at most their number (`lineAt_eq`). Only the library functions ask for more:
they must be standard ones.
-/

namespace ShellVM

namespace Direct

variable {limits : Limits} {program : Program} {page : Page} {i : Instruction} {m : Machine} {σ α β : Type}

/-- A look at the state. -/
theorem get_bind (f : σ → Direct σ α) (s : σ) : (get >>= f) s = f s s := rfl

theorem guarded_ok {x : EStateM Fault σ α} {s s' : σ} {a : α} (h : x s = .ok a s') : guarded x s = .ok a s' := by
  unfold guarded
  rw [h]

theorem guarded_error {x : EStateM Fault σ α} {s s' : σ} {e : Fault} (h : x s = .error e s') :
    guarded x s = .error (some e) s' := by
  unfold guarded
  rw [h]

/-- A guarded computation that ended well, and what comes then. -/
theorem guarded_bind_ok {x : EStateM Fault σ α} {f : α → Direct σ β} {s s' : σ} {a : α} (h : x s = .ok a s') :
    (guarded x >>= f) s = f a s' := by
  show EStateM.bind (guarded x) f s = _
  unfold EStateM.bind guarded
  rw [h]

theorem guarded_bind_error {x : EStateM Fault σ α} {f : α → Direct σ β} {s s' : σ} {e : Fault} (h : x s = .error e s') :
    (guarded x >>= f) s = .error (some e) s' := by
  show EStateM.bind (guarded x) f s = _
  unfold EStateM.bind guarded
  rw [h]

theorem effect_guarded (e : Effect α) : effect (guarded e) = guarded (Act.effect e) := by
  funext m
  unfold effect
  cases he : e m.world with
  | ok a w =>
    have hact : Act.effect e m = .ok a { m with world := w } := by
      unfold Act.effect
      rw [he]
    rw [guarded_ok he, guarded_ok hact]
  | error fault w =>
    have hact : Act.effect e m = .error fault { m with world := w } := by
      unfold Act.effect
      rw [he]
    rw [guarded_error he, guarded_error hact]

/-! ## The stack -/

theorem popMany_eq (count : Nat) : popMany count = guarded (Act.popMany count) := by
  funext m
  unfold popMany Act.popMany guarded
  dsimp only
  rw [get_bind]
  by_cases hsize : m.stack.size < count
  · rw [if_pos hsize, if_pos hsize]
    rfl
  · rw [if_neg hsize, if_neg hsize, there_of_eq (if_pos (Nat.sub_le ..))]
    rfl

theorem takeCallee_eq (count : Nat) : takeCallee count = guarded (Act.takeCallee count) := by
  funext m
  unfold takeCallee Act.takeCallee guarded
  dsimp only
  rw [get_bind]
  by_cases hsize : count < m.stack.size
  · have hplace : m.stack.size - (count + 1) < m.stack.size := by omega
    rw [if_neg (by omega), dif_pos hsize, there_of_eq (Array.getElem?_eq_getElem hplace)]
    show EStateM.Result.ok _ _ = EStateM.Result.ok _ _
    rw [Array.eraseIdxIfInBounds, dif_pos hplace]
  · rw [if_pos (by omega), dif_neg hsize]
    rfl

/-- The place of a local is on the stack. -/
theorem slot_eq (s : UInt8) (m : Machine) : slot s m =
    match m.slot s with
    | .ok place => .ok place.val m
    | .error b => .error (some (.ofBreach b)) m := by
  unfold slot Machine.slot
  rw [get_bind]
  cases m.frames with
  | nil => rfl
  | cons f rest =>
    dsimp only
    by_cases hplace : f.base + s.toNat < m.stack.size
    · rw [if_neg (by omega), dif_pos hplace]
      rfl
    · rw [if_pos (by omega), dif_neg hplace]
      rfl

theorem slot_bind {f : Nat → Direct Machine α} {x : Act α} (s : UInt8)
    (hplace : ∀ place : Fin m.stack.size, m.slot s = .ok place → f place m = guarded x m)
    (hbreach : ∀ b, m.slot s = .error b → x m = .error (.ofBreach b) m) : (slot s >>= f) m = guarded x m := by
  show EStateM.bind (slot s) f m = _
  unfold EStateM.bind
  rw [slot_eq]
  cases hslot : m.slot s with
  | ok place => exact hplace place hslot
  | error b =>
    unfold guarded
    rw [hbreach b hslot]

theorem load_eq (s : UInt8) : load s = guarded (Act.load s) := by
  funext m
  refine slot_bind s (fun place hplace => ?_) (fun b hb => ?_)
  · rw [get_bind, there_of_eq (Array.getElem?_eq_getElem place.isLt)]
    unfold guarded Act.load
    rw [hplace]
    rfl
  · unfold Act.load
    rw [hb]

theorem store_eq (s : UInt8) : store s = guarded (Act.store s) := by
  funext m
  refine slot_bind s (fun place hplace => ?_) (fun b hb => ?_)
  · cases hback : m.stack.back? with
    | some v =>
      have hpeek : Act.peek m = .ok v m := by
        unfold Act.peek
        rw [hback]
      have hstore : Act.store s m = .ok () { m with stack := m.stack.set place v } := by
        unfold Act.store
        rw [hplace]
        dsimp only
        rw [hback]
      rw [guarded_bind_ok hpeek, get_bind, there_of_eq (Array.getElem?_eq_getElem place.isLt),
        pure_bind, guarded_ok hstore]
      show EStateM.Result.ok _ _ = EStateM.Result.ok _ _
      rw [Array.setIfInBounds, dif_pos place.isLt]
    | none =>
      have hpeek : Act.peek m = .error (.ofBreach .stackUnderflow) m := by
        unfold Act.peek
        rw [hback]
      have hstore : Act.store s m = .error (.ofBreach .stackUnderflow) m := by
        unfold Act.store
        rw [hplace]
        dsimp only
        rw [hback]
      rw [guarded_bind_error hpeek, guarded_error hstore]
  · unfold Act.store
    rw [hb]

/-! ## Instructions -/

theorem makeCell_eq (s : UInt8) : makeCell s = guarded (Act.makeCell s) := by
  unfold makeCell Act.makeCell
  rw [load_eq, guarded_bind]

theorem index_eq : index = guarded Act.index := by
  unfold index Act.index
  simp only [readIndex_eq, effect_guarded, guarded_bind]

theorem indexStore_eq : indexStore = guarded Act.indexStore := by
  unfold indexStore Act.indexStore
  simp only [writeIndex_eq, effect_guarded, guarded_bind]

theorem makeClosure_eq (page : Page) (key : UInt16) (count : Nat) :
    makeClosure page key count = guarded (Act.makeClosure page key count) := by
  unfold makeClosure Act.makeClosure
  cases page.constants.get? key with
  | none => rfl
  | some c =>
    cases c with
    | page index =>
      funext m
      dsimp only
      rw [get_bind, guarded_bind, guarded_get, get_bind]
      by_cases hcount : m.pending.length < count
      · rw [if_pos hcount, if_pos hcount]
        rfl
      · have hsplit : splitAt? m.pending.reverse (m.pending.length - count) =
            some ((m.pending.drop count).reverse, (m.pending.take count).reverse) := by
          unfold splitAt?
          rw [if_pos (by simp), List.take_reverse, List.drop_reverse]
          simp only [show m.pending.length - (m.pending.length - count) = count by omega]
        rw [if_neg hcount, if_neg hcount, there_of_eq hsplit, pure_bind, List.reverse_reverse]
        rfl
    | _ => rfl

section Calls

/-- A value that is a standard function if it is a library function. -/
def Standard (v : Value) : Prop := ∀ f, v = .function (.library f) → f ∈ Library.standard.functions

theorem callLibrary_eq (limits : Limits) {f : LibraryFunction} (hf : f ∈ Library.standard.functions) (count : Nat) :
    callLibrary f count = guarded (Act.callLibrary limits f count) := by
  unfold callLibrary Act.callLibrary
  simp only [popMany_eq, callFunction_eq hf, effect_guarded, guarded_bind]
  rfl

theorem call_eq {callee : Value} (hcallee : Standard callee) (count : Nat) (isRoot : Bool) :
    call limits program callee count isRoot = guarded (Act.call limits program callee count isRoot) := by
  unfold call
  split
  · next f => exact callLibrary_eq limits (hcallee f rfl) count
  · rfl

theorem root_same {rootness : Act.Rootness} {s : Machine} {isRoot : Bool} (h : Act.root rootness m = .ok isRoot s) :
    s = m := by
  cases rootness with
  | fixed b => cases h; rfl
  | inherited =>
    obtain ⟨f, s', hf, h⟩ := bind_ok.1 h
    cases h
    unfold Act.frame at hf
    split at hf <;> cases hf
    rfl

theorem mem_of_takeCallee {count : Nat} {callee : Value} {s : Machine} (h : Act.takeCallee count m = .ok callee s) :
    callee ∈ m.stack := by
  unfold Act.takeCallee at h
  split at h <;> cases h
  exact Array.getElem_mem _

/-- A call in which the callee lies on a stack of standard values. -/
theorem callValue_eq (hm : ∀ v ∈ m.stack, Standard v) (rootness : Act.Rootness) (count : Nat) :
    callValue limits program rootness count m = guarded (Act.callValue limits program rootness count) m := by
  unfold callValue Act.callValue
  rw [guarded_bind]
  cases hroot : Act.root rootness m with
  | error e s => rw [guarded_bind_error hroot, guarded_bind_error hroot]
  | ok isRoot s =>
    obtain rfl := root_same hroot
    rw [guarded_bind_ok hroot, guarded_bind_ok hroot, takeCallee_eq, guarded_bind]
    cases htake : Act.takeCallee count s with
    | error e t => rw [guarded_bind_error htake, guarded_bind_error htake]
    | ok callee t => rw [guarded_bind_ok htake, guarded_bind_ok htake, call_eq (hm callee (mem_of_takeCallee htake))]

theorem callStandard_eq (limits : Limits)
    (hprogram : ∀ index f, program.libraryFunction index = .ok f → f ∈ Library.standard.functions) (page : Page)
    (key : UInt16) (count : Nat) :
    callStandard program page key count = guarded (Act.callStandard limits program page key count) := by
  unfold callStandard Act.callStandard
  cases page.constants.get? key with
  | none => rfl
  | some c =>
    cases c with
    | libraryFunction index =>
      dsimp only
      cases hf : program.libraryFunction index with
      | ok f => exact callLibrary_eq limits (hprogram index f hf) count
      | error cause => rfl
    | _ => rfl

theorem programOperands_eq (count pairs : Nat) (flags : CallFlags) :
    programOperands count pairs flags = guarded (Act.programOperands count pairs flags) := by
  unfold programOperands Act.programOperands
  simp only [popMany_eq, guarded_bind]
  refine bind_congr fun environment => ?_
  split
  · simp only [guarded_bind]
    rfl
  · simp only [guarded_bind]
    rfl

theorem callProgram_eq (rootness : Act.Rootness) (i : Instruction) :
    callProgram rootness i = guarded (Act.callProgram rootness i) := by
  unfold callProgram Act.callProgram
  simp only [programOperands_eq, guarded_bind]

end Calls

/-- What is done with values that were split off. -/
theorem popMany_bind (count : Nat) (f : Array Value → Act α) :
    (popMany count >>= fun items => guarded (f items)) = guarded (Act.popMany count >>= f) := by
  rw [popMany_eq, guarded_bind]

/-- **Instructions access what is there**, if the values on the stack and the functions of the program are standard. -/
theorem perform_eq (hprogram : ∀ index f, program.libraryFunction index = .ok f → f ∈ Library.standard.functions)
    (hm : ∀ v ∈ m.stack, Standard v) (page : Page) (i : Instruction) :
    perform limits program page i m = guarded (Act.perform limits program page i) m := by
  obtain ⟨offset, op, operands⟩ := i
  cases op with
  | popN => exact congrFun (popMany_bind _ fun _ => pure ()) m
  | unwind =>
    refine congrFun (Eq.trans ?_ (guarded_bind _ _).symm) m
    exact bind_congr fun top => popMany_bind _ _
  | load =>
    refine congrFun (Eq.trans ?_ (guarded_bind _ _).symm) m
    rw [← load_eq]
    rfl
  | store => exact congrFun (store_eq _) m
  | makeCell => exact congrFun (makeCell_eq _) m
  | index => exact congrFun index_eq m
  | indexStore => exact congrFun indexStore_eq m
  | buildList | buildTuple | buildSet | buildDict | buildString => exact congrFun (popMany_bind _ _) m
  | buildStruct =>
    refine congrFun ?_ m
    show _ = guarded (Act.buildStruct page _)
    unfold perform Act.buildStruct
    dsimp only
    cases page.constants.get? _ with
    | none => rfl
    | some c =>
      cases c with
      | shape name fields => exact popMany_bind _ _
      | _ => rfl
  | makeClosure => exact congrFun (makeClosure_eq page _ _) m
  | call | rootCall | maybeRootCall => exact callValue_eq hm _ _
  | callStd => exact congrFun (callStandard_eq limits hprogram page _ _) m
  | callProgram | rootCallProgram | maybeRootCallProgram => exact congrFun (callProgram_eq _ _) m
  | _ => rfl

/-! ## Steps -/

theorem stack_of_jump {target : Nat} {s : Machine} (h : Act.jump target m = .ok () s) : s.stack = m.stack := by
  unfold Act.jump Act.modifyFrame at h
  split at h <;> cases h
  rfl

/-- The byte of the next instruction is in the code. -/
theorem advance_eq (hprogram : ∀ index f, program.libraryFunction index = .ok f → f ∈ Library.standard.functions)
    (hm : ∀ v ∈ m.stack, Standard v) : advance limits program m = guarded (Act.advance limits program) m := by
  unfold advance Act.advance
  rw [guarded_bind]
  cases hframe : Act.frame m with
  | error e s => rw [guarded_bind_error hframe, guarded_bind_error hframe]
  | ok f s =>
    obtain rfl : s = m := by
      unfold Act.frame at hframe
      split at hframe <;> cases hframe
      rfl
    rw [guarded_bind_ok hframe, guarded_bind_ok hframe]
    cases program.page? f.page with
    | none => rfl
    | some page =>
      dsimp only
      by_cases hend : page.code.size ≤ f.ip
      · rw [if_pos hend, Array.getElem?_eq_none hend]
      · have hip : f.ip < page.code.size := Nat.lt_of_not_le hend
        have hbyte : page.code[f.ip]? = some page.code[f.ip] := Array.getElem?_eq_getElem hip
        rw [if_neg hend, there_of_eq hbyte, pure_bind, hbyte]
        dsimp only
        cases readInstruction page.code f.ip _ with
        | error e => cases e <;> rfl
        | ok i =>
          dsimp only
          rw [guarded_bind]
          cases hjump : Act.jump i.next s with
          | error e t => rw [guarded_bind_error hjump, guarded_bind_error hjump]
          | ok u t =>
            rw [guarded_bind_ok hjump, guarded_bind_ok hjump]
            exact perform_eq hprogram (by rwa [stack_of_jump hjump]) page i

/-- **Steps access what is there.** -/
theorem step_eq (hprogram : ∀ index f, program.libraryFunction index = .ok f → f ∈ Library.standard.functions)
    (hm : ∀ v ∈ m.stack, Standard v) : step limits program m = guarded (Act.step limits program) m := by
  unfold step Act.step
  rw [guarded_bind]
  cases hcheck : Act.checkLimits limits m with
  | error e s => rw [guarded_bind_error hcheck, guarded_bind_error hcheck]
  | ok u s =>
    rw [guarded_bind_ok hcheck, guarded_bind_ok hcheck]
    have hstack : s.stack = m.stack := by
      rw [Act.checkLimits_eq] at hcheck
      split at hcheck <;> cases hcheck
      rfl
    exact advance_eq hprogram (by rwa [hstack])

/-! ## Recovery -/

theorem bisect_lt (holds : Nat → Bool) {fuel base size : Nat} (h : 0 < size) :
    bisect holds fuel base size < base + size := by
  induction fuel generalizing base size with
  | zero => exact Nat.lt_add_of_pos_right h
  | succ fuel ih =>
    unfold bisect
    split
    · omega
    · dsimp only
      split
      · have hright : bisect holds fuel (base + size / 2) (size - size / 2) < base + size / 2 + (size - size / 2) :=
          ih (by omega)
        omega
      · have hleft : bisect holds fuel base (size - size / 2) < base + (size - size / 2) := ih (by omega)
        omega

/-- A point of partition is at most the number of places, whatever holds at them. -/
theorem partitionPoint_le (holds : Nat → Bool) (size : Nat) : partitionPoint holds size ≤ size := by
  unfold partitionPoint
  split
  · exact Nat.zero_le _
  · next h =>
    have hlt : bisect holds size 0 size < 0 + size := bisect_lt holds (Nat.pos_of_ne_zero h)
    dsimp only
    split <;> omega

/-- The line of an offset is among the lines of the page, sorted or not. -/
theorem lineAt_eq (p : Page) (offset : Nat) :
    (lineAt p offset : Direct σ (Option UInt32)) = pure (p.lineAt? offset) := by
  have hline : ∀ {after : Nat}, after ≤ p.lines.size → after ≠ 0 → ∃ line, p.lines[after - 1]? = some line := by
    intro after hle hne
    exact ⟨_, Array.getElem?_eq_getElem (by omega)⟩
  unfold lineAt Page.lineAt?
  split
  · dsimp only
    split
    · rfl
    · next hne =>
      obtain ⟨line, hline⟩ := hline (partitionPoint_le _ _) hne
      rw [there_of_eq hline, hline]
      rfl
  · rfl

theorem trace_eq (program : Program) (m : Machine) :
    (trace program m : Direct σ (List CallSite)) = pure (m.trace program) := by
  unfold trace Machine.trace
  rw [← List.mapM_pure]
  congr
  funext f
  cases program.page? f.page with
  | none => rfl
  | some page =>
    dsimp only
    rw [lineAt_eq, pure_bind]

theorem recover_eq (program : Program) (fault : Fault) :
    recover program fault = guarded (Act.recover program fault) := by
  unfold recover Act.recover
  rw [guarded_bind, guarded_get]
  refine bind_congr fun m => ?_
  rw [trace_eq, pure_bind]
  dsimp only
  split
  · rfl
  · cases m.handlers <;> rfl

end Direct

end ShellVM
