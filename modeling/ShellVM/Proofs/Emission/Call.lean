import ShellVM.Proofs.Emission.Straight
import ShellVM.Proofs.Layout.Expression

/-!
# Emitters of calls

Calls of functions, of library functions and of programs, and structs, whose instruction also depends on more than its
operands.
-/

namespace ShellVM

/-- What the call of a program emits behind its operands. -/
def Emit.programInstruction (settings : ProgramSettings) (root : Bool) (count pairs : Nat) (piped : Bool) :
    Emit Unit := do
  if 255 < pairs then throw (.tooManyOperands "environment variables" pairs 255)
  let o ← callOp root .callProgram .rootCallProgram .maybeRootCallProgram
  op o ([← argumentCount count] ++ wordBytes ((programFlags settings).withIf .piped piped).bits ++ [pairs.toUInt8])

namespace Emits

theorem callOp (root : Bool) (plain rooted inherited : Op) :
    Emits (Emit.callOp root plain rooted inherited) fun o S Γ p Γ' p' =>
      o = S.callOp root plain rooted inherited ∧ p' = p ∧ Γ' = Γ := by
  intro s s' o h
  have ho : s' = s ∧ o = if root then if s.draft.isEntry then rooted else inherited else plain := by
    unfold Emit.callOp at h
    split at h
    · next hr =>
      obtain ⟨_, _, h₁, h⟩ := bind_ok.1 h
      cases h₁
      split at h
      · next he => cases h; exact ⟨rfl, by simp [hr, he]⟩
      · next he => cases h; exact ⟨rfl, by simp [hr, he]⟩
    · next hr => cases h; exact ⟨rfl, by simp [hr]⟩
  obtain ⟨rfl, rfl⟩ := ho
  refine ⟨.of_draft (.refl _) rfl rfl rfl, fun _ hd hs => ⟨_, hd, rfl, ?_, rfl, rfl⟩⟩
  unfold Sheet.callOp
  rw [hs.isEntry]

theorem argumentCount (count : Nat) : Emits (Emit.argumentCount count) fun b _ Γ p Γ' p' =>
    count ≤ 255 ∧ b = count.toUInt8 ∧ p' = p ∧ Γ' = Γ := by
  refine (check (g := fun _ => pure count.toUInt8) fun _ => skip _).weaken ?_
  rintro _ S Γ p Γ' p' - ⟨hc, rfl, rfl, rfl⟩
  exact ⟨by omega, rfl, rfl, rfl⟩

/-- A call behind its callee and its arguments. -/
theorem call {m m' : Emit Unit} {P P' : Sheet → Part} (root : Bool) (count : Nat)
    (h : Emits m fun _ S => (P S).layout) (h' : Emits m' fun _ S => (P' S).raising count) :
    Emits (do m; Emit.call root count m') fun _ S => Part.layout fun Γ p p' =>
      ∃ p₁, P S Γ p p₁ ∧ S.call root count (P' S) Γ p₁ p' := by
  refine (h.bind fun _ => h'.bind fun _ => (callOp root .call .rootCall .maybeRootCall).bind fun o =>
    (argumentCount count).bind fun b => anyOp o [b]).weaken ?_
  rintro _ S Γ p Γ' p' - ⟨_, _, p₁, ⟨hP, rfl⟩, _, _, p₂, ⟨hP', rfl⟩, _, _, _, ⟨rfl, rfl, rfl⟩, _, _, _,
    ⟨hle, rfl, rfl, rfl⟩, ho, rfl, height, rfl, hh⟩
  have hb : count.toUInt8.toNat = count := by rw [UInt8.toNat_ofNat', Nat.mod_eq_of_lt (by omega)]
  have hop : (S.callOp root .call .rootCall .maybeRootCall).width = 1 ∧
      (S.callOp root .call .rootCall .maybeRootCall).stackEffect? [count.toUInt8] =
        some (count.toUInt8.toNat + 1, 1) := by
    unfold Sheet.callOp
    split
    · split <;> exact ⟨rfl, rfl⟩
    · exact ⟨rfl, rfl⟩
  rw [hop.2, hb] at hh
  refine ⟨⟨p₁, hP, _, hP', hle, ho hop.1.symm, rfl⟩, ?_⟩
  simp only [Scope.raise, Scope.push, hh.2, Scope.mk.injEq, true_and, and_true]
  omega

/-! ## Library functions -/

theorem libraryIndex (f : LibraryFunction) : Emits (Emit.libraryIndex f) fun index S Γ p Γ' p' =>
    (∃ entry, S.program.library[index.toNat]? = some entry ∧ entry.function? = some f) ∧ p' = p ∧ Γ' = Γ := by
  intro s s' index h
  obtain ⟨⟨entry, he, hf⟩, more, rfl⟩ := Emit.libraryIndex_ok h
  refine ⟨⟨.refl _, ⟨id, fun _ _ h => h, fun _ _ h => .inl h, Nat.le_refl _, fun _ _ _ => rfl, fun i e hi => ?_⟩,
    fun _ _ hs => hs.congr rfl rfl rfl⟩, fun _ hd hs => ⟨_, hd, rfl, ⟨entry, hs.program.library _ _ he, hf⟩, rfl, rfl⟩⟩
  show (s.program.library ++ more)[i]? = some e
  rw [Array.getElem?_append_left (Array.getElem?_eq_some_iff.1 hi).1, hi]

theorem libraryCall {m : Emit Unit} {P : Sheet → Part} (f : LibraryFunction) (count : Nat)
    (h : Emits m fun _ S => (P S).raising count) :
    Emits (Emit.libraryCall f count m) fun _ S => (S.libraryCall f count (P S)).layout := by
  refine ((libraryIndex f).bind fun index => (constantKey (.libraryFunction index)).bind fun key => h.bind fun _ =>
    (argumentCount count).bind fun b => anyOp .callStd (wordBytes key ++ [b])).weaken ?_
  rintro _ S Γ p Γ' p' - ⟨index, _, _, ⟨⟨entry, he, hf⟩, rfl, rfl⟩, key, _, _, ⟨hk, rfl, rfl⟩, _, _, p₁, ⟨hP, rfl⟩,
    _, _, _, ⟨hle, rfl, rfl, rfl⟩, ho, rfl, height, rfl, hh⟩
  have hb : count.toUInt8.toNat = count := by rw [UInt8.toNat_ofNat', Nat.mod_eq_of_lt (by omega)]
  have he' : Op.stackEffect? .callStd (wordBytes key ++ [count.toUInt8]) = some (count, 1) :=
    congrArg (fun n => some (n, 1)) hb
  rw [he'] at hh
  refine ⟨⟨_, key, index, entry, hk, he, hf, hP, hle, ho rfl, rfl⟩, ?_⟩
  simp only [Scope.raise, Scope.push, hh.2, Scope.mk.injEq, true_and, and_true]
  omega

/-! ## Programs -/

/-- What is piped into a program, if something is. -/
def pipedPart (P? : Option Part) : Part :=
  match P? with
  | some P => P
  | none => fun _ p p' => p' = p

theorem programOp (S : Sheet) (root : Bool) :
    S.callOp root .callProgram .rootCallProgram .maybeRootCallProgram = .callProgram ∨
    S.callOp root .callProgram .rootCallProgram .maybeRootCallProgram = .rootCallProgram ∨
    S.callOp root .callProgram .rootCallProgram .maybeRootCallProgram = .maybeRootCallProgram := by
  unfold Sheet.callOp
  split
  · split <;> simp
  · simp

theorem programInstruction (settings : ProgramSettings) (root : Bool) (count pairs : Nat) (piped : Bool) :
    Emits (Emit.programInstruction settings root count pairs piped) fun _ S Γ p Γ' p' => count ≤ 255 ∧ pairs ≤ 255 ∧
      S.Has p (S.callOp root .callProgram .rootCallProgram .maybeRootCallProgram)
        ([count.toUInt8] ++ wordBytes ((Emit.programFlags settings).withIf .piped piped).bits ++ [pairs.toUInt8]) ∧
      p' = p + 5 ∧ 1 + count + piped.toNat + pairs * 2 ≤ Γ.height ∧
      Γ' = { Γ with height := Γ.height - (1 + count + piped.toNat + pairs * 2) + 1 } := by
  unfold Emit.programInstruction
  refine weaken (check fun _ => (callOp root .callProgram .rootCallProgram .maybeRootCallProgram).bind fun o =>
    (argumentCount count).bind fun b => anyOp o ([b] ++
      wordBytes ((Emit.programFlags settings).withIf .piped piped).bits ++ [pairs.toUInt8])) ?_
  rintro _ S Γ p Γ' p' - ⟨hpairs, _, _, _, ⟨rfl, rfl, rfl⟩, _, _, _, ⟨hle, rfl, rfl, rfl⟩, ho, rfl, height, rfl, hh⟩
  obtain ⟨hw, he⟩ := programCall_effect (programOp S root) count.toUInt8 pairs.toUInt8
    ((Emit.programFlags settings).withIf .piped piped).bits
  have hb : count.toUInt8.toNat = count := by rw [UInt8.toNat_ofNat', Nat.mod_eq_of_lt (by omega)]
  have hb' : pairs.toUInt8.toNat = pairs := by rw [UInt8.toNat_ofNat', Nat.mod_eq_of_lt (by omega)]
  have hc : CallFlags.contains ⟨((Emit.programFlags settings).withIf .piped piped).bits⟩ .piped = piped :=
    contains_piped settings _
  rw [he, hb, hb', hc] at hh
  refine ⟨hle, by omega, ho hw.symm, rfl, hh.1, ?_⟩
  rw [hh.2]

theorem programCall {name arguments environment : Emit Unit} {P A E : Sheet → Part} (piped? : Option (Emit Unit))
    (Q : Sheet → Option Part) (settings : ProgramSettings) (root : Bool) (count pairs : Nat)
    (hname : Emits name fun _ S => (P S).layout) (harguments : Emits arguments fun _ S => (A S).raising count)
    (hpiped : Emits (piped?.getD (pure ())) fun _ S => (pipedPart (Q S)).raising piped?.isSome.toNat)
    (hQ : ∀ S, (Q S).isSome = piped?.isSome)
    (henvironment : Emits environment fun _ S => (E S).raising (pairs * 2)) :
    Emits (Emit.programCall settings root count pairs name arguments piped? environment) fun _ S =>
      (S.programCall settings root count pairs (P S) (A S) (Q S) (E S)).layout := by
  refine (hname.bind fun _ => harguments.bind fun _ => hpiped.bind fun _ => henvironment.bind fun _ =>
    programInstruction settings root count pairs piped?.isSome).weaken ?_
  rintro _ S Γ p Γ' p' - ⟨_, _, p₁, ⟨hP, rfl⟩, _, _, p₂, ⟨hA, rfl⟩, _, _, p₃, ⟨hp, rfl⟩, _, _,
    p₄, ⟨hE, rfl⟩, hle, hpairs, hhas, rfl, -, rfl⟩
  have hsome : piped?.isSome.toNat = if (Q S).isSome then 1 else 0 := by
    rw [hQ]
    cases piped?.isSome <;> rfl
  refine ⟨⟨p₁, p₂, p₃, _, hP, hA, ?_, ?_, hle, hpairs, ?_, rfl⟩, ?_⟩
  · simp only [pipedPart, Scope.push, Scope.raise_raise] at hp
    cases hq : Q S with
    | some q => rw [hq] at hp; exact hp
    | none => rw [hq] at hp; exact hp
  · rw [← hsome]
    simpa [Scope.push] using hE
  · rw [hQ]
    exact hhas
  · simp only [Scope.raise, Scope.push, Scope.mk.injEq, true_and, and_true]
    omega

/-! ## Structs -/

theorem popHeight (n : Nat) : Emits (Emit.popHeight n) fun _ _ Γ p Γ' p' =>
    n ≤ Γ.height ∧ p' = p ∧ Γ' = { Γ with height := Γ.height - n } := by
  intro s s' _ h
  obtain ⟨hn, rfl⟩ := Emit.popHeight_ok h
  refine ⟨.of_draft { Draft.Grows.refl s.draft with } rfl rfl rfl, fun {S Γ} _ hd _ => ?_⟩
  rw [hd.height] at hn ⊢
  exact ⟨_, hd.setHeight _, rfl, hn, rfl, rfl⟩

theorem struct {m : Emit Unit} {P : Sheet → Part} (name : String) (fields : List String)
    (h : Emits m fun _ S => (P S).raising fields.length) :
    Emits (do
        m
        let key ← Emit.constantKey (.shape name fields)
        Emit.op .buildStruct (wordBytes key)
        Emit.popHeight fields.length
        Emit.setHeight ((← Emit.height) + 1)) fun _ S => Part.layout fun Γ p p' =>
      ∃ key, S.page.constants.get? key = some (.shape name fields) ∧
        S.after (P S) .buildStruct (wordBytes key) Γ p p' := by
  refine (h.bind fun _ => (constantKey (.shape name fields)).bind fun key => (anyOp .buildStruct (wordBytes key)).bind
    fun _ => (popHeight fields.length).bind fun _ => height.bind fun h => setHeight (h + 1)).weaken ?_
  rintro _ S Γ p Γ' p' - ⟨_, _, p₁, ⟨hP, rfl⟩, key, _, _, ⟨hk, rfl, rfl⟩, _, _, _, ⟨ho, rfl, height, rfl, hh⟩, _, _, _,
    ⟨-, rfl, rfl⟩, _, _, _, ⟨rfl, rfl, rfl⟩, rfl, rfl⟩
  refine ⟨⟨key, hk, _, hP, ho rfl, rfl⟩, ?_⟩
  obtain rfl : height = _ := hh
  simp [Scope.raise, Scope.push]

end Emits

end ShellVM
