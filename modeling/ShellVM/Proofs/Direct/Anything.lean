import ShellVM.Proofs.Direct.Guarded
import ShellVM.Proofs.Direct.Respects

/-!
# No bytecode makes the machine break off

A program that was bound to the standard library has only standard functions (`Program.mem_of_bind`). Then every
function that the machine comes across is a standard one, so all its direct accesses are in range, whatever the pages
hold (`turn_eq`), and a run with direct accesses is the run of the machine (`bytecode_never_breaks_off`).
-/

namespace ShellVM

variable {p program : Program} {library : Library} {limits : Limits} {entry : UInt16} {m : Machine} {w : World}

namespace Program

/-- The entries that were all bound have functions of the library. -/
theorem mem_of_bindEntries {entries bound : List LibraryEntry} (h : bindEntries library entries = (bound, none))
    {e : LibraryEntry} {f : LibraryFunction} (he : e ∈ bound) (hf : e.function? = some f) : f ∈ library.functions := by
  induction entries generalizing bound with
  | nil =>
    cases h
    cases he
  | cons first rest ih =>
    unfold bindEntries at h
    cases hfirst : library.get? first.name with
    | none =>
      rw [hfirst] at h
      cases h
    | some g =>
      rw [hfirst] at h
      obtain ⟨hbound, hmissing⟩ := Prod.ext_iff.1 h
      dsimp only at hbound hmissing
      subst hbound
      rcases List.mem_cons.1 he with rfl | he
      · cases hf
        exact List.mem_of_find?_eq_some hfirst
      · exact ih (Prod.ext rfl hmissing) he

/-- The functions of a bound program are in its library. -/
theorem mem_of_bind (h : p.bind library = (program, none)) {index : UInt16} {f : LibraryFunction}
    (hf : program.libraryFunction index = .ok f) : f ∈ library.functions := by
  obtain ⟨hprogram, hmissing⟩ := Prod.ext_iff.1 h
  have hentries : bindEntries library p.library.toList = (program.library.toList, none) := by
    refine Prod.ext ?_ (Option.map_eq_none_iff.1 hmissing)
    show _ = program.library.toList
    rw [← show _ = program from hprogram]
    rfl
  unfold libraryFunction at hf
  cases he : program.library[index.toNat]? with
  | none =>
    rw [he] at hf
    cases hf
  | some e =>
    rw [he] at hf
    obtain ⟨name, g?⟩ := e
    cases g? with
    | none => cases hf
    | some g =>
      cases hf
      exact mem_of_bindEntries hentries (Array.mem_toList_iff.2 (Array.mem_of_getElem? he)) rfl

end Program

namespace Direct

/-- All pages, and the functions of the standard library. -/
def standardKinds : Kinds := ⟨fun _ => True, (· ∈ Library.standard.functions)⟩

section

variable (hprogram : ∀ index f, program.libraryFunction index = .ok f → f ∈ Library.standard.functions)

/-- The stack of a machine that knows standard functions. -/
theorem standard_of_knows (h : m.Knows standardKinds []) : ∀ v ∈ m.stack, Standard v := by
  rintro v hv f rfl
  obtain ⟨V, hV, hm, -⟩ := h
  exact (hV.library f).1 (List.forall₂_same.1 hm.stack _ (Array.mem_toList_iff.2 hv)).2

include hprogram

theorem names_standard : program.Names standardKinds := ⟨fun _ _ _ _ _ _ => trivial, hprogram⟩

/-- **Turns access what is there**: steps, and the recovery from those that fail. -/
theorem turn_eq (h : m.Knows standardKinds []) :
    turn limits program m = guarded (Act.turn limits program) m := by
  have hstep : step limits program m = guarded (Act.step limits program) m := step_eq hprogram (standard_of_knows h)
  cases hs : Act.step limits program m with
  | ok u s =>
    have hturn : Act.turn limits program m = .ok () s := by
      unfold Act.turn
      rw [hs]
    unfold turn
    rw [hstep, guarded_ok hs, guarded_ok hturn]
  | error fault s =>
    have hturn : Act.turn limits program m = Act.recover program fault s := by
      unfold Act.turn
      rw [hs]
    unfold turn
    rw [hstep, guarded_error hs]
    show recover program fault s = _
    unfold guarded
    rw [hturn, recover_eq]
    rfl

theorem turns_know (hm : Turns limits program Machine.Active (Machine.start entry w) m) :
    m.Knows standardKinds [] := by
  refine hm.keeps (Machine.start_knows _ entry w) fun s s' hs _ hturn => ?_
  have hknown : Act.KeepsKnown standardKinds [] (Act.turn limits program) s :=
    Act.turn_known (names_standard hprogram) hs
  unfold Act.KeepsKnown at hknown
  rwa [hturn] at hknown

theorem run_eq (h : m.Knows standardKinds []) (fuel : Nat) :
    run limits program fuel m = guarded (Act.run limits program fuel) m := by
  induction fuel generalizing m with
  | zero => rfl
  | succ fuel ih =>
    have hknown : Act.KeepsKnown standardKinds [] (Act.turn limits program) m :=
      Act.turn_known (names_standard hprogram) h
    unfold Act.KeepsKnown at hknown
    unfold run Act.run guarded
    dsimp only
    split
    · rfl
    · rw [turn_eq hprogram h]
      cases hturn : Act.turn limits program m with
      | ok u s =>
        rw [hturn] at hknown
        rw [guarded_ok hturn]
        exact ih hknown
      | error fault s => rw [guarded_error hturn]

theorem execute_eq (limits : Limits) (entry : UInt16) (fuel : Nat) (w : World) :
    execute program limits entry fuel w = guarded (program.execute limits entry fuel) w := by
  unfold execute Program.execute guarded
  dsimp only
  split
  · rfl
  · rw [run_eq hprogram (Machine.start_knows _ entry w)]
    cases hrun : Act.run limits program fuel (Machine.start entry w) with
    | ok ended m =>
      rw [guarded_ok hrun]
      cases ended <;> rfl
    | error fault m => rw [guarded_error hrun]

end

/-- A guarded computation does not break off. -/
theorem guarded_ne_none {σ α : Type} (x : EStateM Fault σ α) (s s' : σ) : guarded x s ≠ .error none s' := by
  unfold guarded
  cases x s <;> nofun

/-- **No program makes the machine break off**, whatever its pages hold, if it was bound to the standard library: in
every machine that a run reaches, the next step and the recovery from its failure access only what is there, and the
run ends with a value or a fault. -/
theorem bytecode_never_breaks_off (hbind : p.bind .standard = (program, none)) (limits : Limits) (entry : UInt16)
    (w : World) : (∀ m, Turns limits program Machine.Active (Machine.start entry w) m →
      step limits program m = guarded (Act.step limits program) m ∧
        turn limits program m = guarded (Act.turn limits program) m ∧ ∀ s, turn limits program m ≠ .error none s) ∧
      ∀ fuel, execute program limits entry fuel w = guarded (program.execute limits entry fuel) w ∧
        ∀ w', execute program limits entry fuel w ≠ .error none w' := by
  have hprogram : ∀ index f, program.libraryFunction index = .ok f → f ∈ Library.standard.functions :=
    fun _ _ => Program.mem_of_bind hbind
  constructor
  · intro m hm
    have hknows := turns_know hprogram hm
    have hturn : turn limits program m = guarded (Act.turn limits program) m := turn_eq hprogram hknows
    refine ⟨step_eq hprogram (standard_of_knows hknows), hturn, fun s => ?_⟩
    rw [hturn]
    exact guarded_ne_none _ _ _
  · intro fuel
    have hexecute := execute_eq hprogram limits entry fuel w
    refine ⟨hexecute, fun w' => ?_⟩
    rw [hexecute]
    exact guarded_ne_none _ _ _

/-- A program that no compiler emits: a local that is not on the stack, an opcode that does not exist and lines out of
order. -/
def garbled : Program :=
  ⟨#[{ Page.empty "main" 0 with code := #[Op.load.toByte, 200, 255], lines := #[(9, 4), (2, 7), (5, 1)] }],
    #[⟨"len", none⟩]⟩

/-- It fails at the local, which is a fault that it can see. -/
theorem garbled_fails :
    (∃ fault w, execute (garbled.bind .standard).1 {} 0 1 default = .error (some fault) w) ∧
      ∀ fuel w, execute (garbled.bind .standard).1 {} 0 fuel default ≠ .error none w :=
  ⟨⟨_, _, rfl⟩, fun fuel => ((bytecode_never_breaks_off (p := garbled) rfl {} 0 default).2 fuel).2⟩

end Direct

end ShellVM
