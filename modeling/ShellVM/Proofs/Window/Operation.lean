import ShellVM.Proofs.Contained
import ShellVM.Proofs.Window.Zone

/-!
# Operations inside a call

The instructions that take values from the stack and leave others: operators, containers, calls of library functions and
of other programs.
-/

namespace ShellVM.Acts

open Act (ProgramOperands)

variable {V : View} {k : Context} {A : Activation} {q : Nat} {σ : Shape} {program : Program}
  {functions : List (Nat × UInt16)} {host : Host}

/-- A constant that can be pushed. -/
theorem constant {page : Page} {key : UInt16} {c : Constant} (hhosts : V.hosts = program.Hosts functions)
    (hsheet : A.sheet.program = program ∧ A.sheet.functions = functions) (hkey : page.constants.get? key = some c)
    (hc : A.sheet.Offers c) :
    Acts V k A q σ (Act.constant program page key) (Act.constant program page key) (Value.Alike V) q σ := by
  unfold Act.constant
  rw [hkey]
  cases c with
  | page index =>
    refine pure ⟨rfl, ?_⟩
    show V.hosts index 0
    rw [hhosts, ← hsheet.1, ← hsheet.2]
    exact hc
  | libraryFunction index => exact hc.elim
  | shape name fields => exact hc.elim
  | _ => exact pure rfl

/-- The values below the top are dropped. -/
theorem unwind {n : Nat} (hσ : σ.Admits (n + 1)) :
    Acts V k A q σ (do
        let top ← Act.pop
        let _ ← Act.popMany n
        Act.push top) (do
        let top ← Act.pop
        let _ ← Act.popMany n
        Act.push top) (fun _ _ => True) q (σ.lift (n + 1) 1) := by
  rw [Nat.add_comm, Shape.lift_split, ← Shape.lift_lift]
  rw [Nat.add_comm] at hσ
  exact (pop (hσ.mono (Nat.le_add_right ..))).bind fun _ _ huv => (popMany hσ.lift).bind fun _ _ _ => push huv

/-- An effect on one value. -/
theorem onValue {f : Value → Effect Value} (hσ : σ.Admits 1)
    (hf : ∀ u v, u.Alike V v → Agrees V (Value.Alike V) (f u) (f v)) :
    Acts V k A q σ (do Act.push (← Act.effect (f (← Act.pop)))) (do Act.push (← Act.effect (f (← Act.pop))))
      (fun _ _ => True) q (σ.lift 1 1) := by
  have h := (pop (V := V) (k := k) (A := A) (q := q) hσ).bind fun u v huv =>
    (effect (hf u v huv)).bind fun _ _ h => push h
  rw [Shape.lift_lift] at h
  exact h

/-- An effect on a row of values. -/
theorem onValues {f : Array Value → Effect Value} {n : Nat} (hσ : σ.Admits n)
    (hf : ∀ us vs : Array Value, us.size = n → List.Forall₂ (Value.Alike V) us.toList vs.toList →
      Agrees V (Value.Alike V) (f us) (f vs)) :
    Acts V k A q σ (do Act.push (← Act.effect (f (← Act.popMany n)))) (do Act.push (← Act.effect (f (← Act.popMany n))))
      (fun _ _ => True) q (σ.lift n 1) := by
  have h := (popMany (V := V) (k := k) (A := A) (q := q) hσ).bind fun us vs huv =>
    (effect (hf us vs huv.1 huv.2)).bind fun _ _ h => push h
  rw [Shape.lift_lift] at h
  exact h

theorem unary (o : UnaryOp) (hσ : σ.Admits 1) :
    Acts V k A q σ (Act.unary o) (Act.unary o) (fun _ _ => True) q (σ.lift 1 1) :=
  onValue hσ fun _ _ h => Value.unary_agrees o h

theorem cast {tag : UInt8} (hσ : σ.Admits 1) (htag : (Kind.ofTag? tag).isSome) :
    Acts V k A q σ (Act.cast tag) (Act.cast tag) (fun _ _ => True) q (σ.lift 1 1) := by
  obtain ⟨kind, hkind⟩ := Option.isSome_iff_exists.1 htag
  unfold Act.cast
  rw [hkind]
  exact onValue hσ fun _ _ h => Value.cast_agrees h kind

/-- An effect on two values. -/
theorem onTwo {f : Value → Value → Effect Value} (hσ : σ.Admits 2)
    (hf : ∀ u v x y, u.Alike V v → x.Alike V y → Agrees V (Value.Alike V) (f u x) (f v y)) :
    Acts V k A q σ (do
        let x ← Act.pop
        let u ← Act.pop
        Act.push (← Act.effect (f u x))) (do
        let y ← Act.pop
        let v ← Act.pop
        Act.push (← Act.effect (f v y))) (fun _ _ => True) q (σ.lift 2 1) := by
  have hσ₁ : σ.Admits (1 + 1) := hσ
  have h := (pop (V := V) (k := k) (A := A) (q := q) (hσ.mono (by omega))).bind fun x y hxy =>
    (pop hσ₁.lift).bind fun u v huv => (effect (hf u v x y huv hxy)).bind fun _ _ h => push h
  rw [Shape.lift_lift, Shape.lift_lift] at h
  exact h

theorem binary (o : BinaryOp) (hσ : σ.Admits 2) :
    Acts V k A q σ (Act.binary o) (Act.binary o) (fun _ _ => True) q (σ.lift 2 1) :=
  onTwo hσ fun _ _ _ _ hl hr => Value.binary_agrees o hl hr

theorem index (hσ : σ.Admits 2) : Acts V k A q σ Act.index Act.index (fun _ _ => True) q (σ.lift 2 1) :=
  onTwo hσ fun _ _ _ _ ht hi => Value.index_agrees ht hi

theorem indexStore (hσ : σ.Admits 3) :
    Acts V k A q σ Act.indexStore Act.indexStore (fun _ _ => True) q (σ.lift 3 1) := by
  have hσ₁ : σ.Admits (1 + 2) := hσ
  have hσ₂ : (σ.lift 1 0).Admits (1 + 1) := hσ₁.lift
  have h := (pop (V := V) (k := k) (A := A) (q := q) (hσ.mono (by omega))).bind fun i j hi =>
    (pop (hσ₂.mono (by omega))).bind fun u v ht => (pop hσ₂.lift).bind fun x y hx =>
      (effect (Value.store_agrees ht hi hx)).bind fun _ _ _ => push hx
  rw [Shape.lift_lift, Shape.lift_lift, Shape.lift_lift] at h
  exact h

/-! ## Containers -/

theorem buildList {n : Nat} (hσ : σ.Admits n) :
    Acts V k A q σ (Act.buildList n) (Act.buildList n) (fun _ _ => True) q (σ.lift n 1) :=
  onValues hσ fun _ _ _ h => Agrees.newList h

theorem buildTuple {n : Nat} (hσ : σ.Admits n) :
    Acts V k A q σ (Act.buildTuple n) (Act.buildTuple n) (fun _ _ => True) q (σ.lift n 1) := by
  have h := (popMany (V := V) (k := k) (A := A) (q := q) hσ).bind fun us vs huv => push (Value.Alike.tuple huv.2)
  rw [Shape.lift_lift] at h
  exact h

theorem buildSet {n : Nat} (hσ : σ.Admits n) :
    Acts V k A q σ (Act.buildSet n) (Act.buildSet n) (fun _ _ => True) q (σ.lift n 1) := by
  refine onValues hσ fun us vs _ h => ?_
  rw [Value.keys_alike h]
  refine (Agrees.ofExcept (Value.keys_plain _)).bind fun ks _ hks => ?_
  subst hks
  exact Agrees.newSet _

theorem buildDictionary {n : Nat} (hσ : σ.Admits (n * 2)) :
    Acts V k A q σ (Act.buildDictionary n) (Act.buildDictionary n) (fun _ _ => True) q (σ.lift (n * 2) 1) :=
  onValues hσ fun _ _ _ h => (Act.entries_agrees h).bind fun _ _ hes => Agrees.newDictionary (.ofList hes)

theorem buildString {n : Nat} (hσ : σ.Admits n) :
    Acts V k A q σ (Act.buildString n) (Act.buildString n) (fun _ _ => True) q (σ.lift n 1) := by
  refine onValues hσ fun us vs _ h => (Value.textAll_agrees h).bind fun s _ hs => ?_
  subst hs
  exact .pure rfl

theorem bound (hσ : σ.Admits 1) : Acts V k A q σ Act.bound Act.bound Eq q (σ.lift 1 0) := by
  refine (pop hσ).bind fun u v h => ?_
  rw [h.asInteger?, h.kind]
  cases u.asInteger? with
  | some n => exact pure rfl
  | none => exact fail rfl

/-- A value that is taken only if there is one. -/
theorem maybe {α β α' β' : Type} {x : Act α} {y : Act β} {R : α → β → Prop} {f : Option α → Act α'}
    {g : Option β → Act β'} {S : α' → β' → Prop} {q' : Nat} {σ' : Shape} (b : Bool)
    (h : b = true → Acts V k A q σ x y R q (σ.lift 1 0))
    (h' : ∀ a? b?, Option.Rel R a? b? → Acts V k A q (σ.lift b.toNat 0) (f a?) (g b?) S q' σ') :
    Acts V k A q σ (if b then (some <$> x) >>= f else Pure.pure none >>= f)
      (if b then (some <$> y) >>= g else Pure.pure none >>= g) S q' σ' := by
  cases b with
  | false => exact (pure (R := Option.Rel R) .none).bind h'
  | true => exact ((h rfl).map fun _ _ h => Option.Rel.some h).bind h'

theorem eq_of_rel {α : Type} : ∀ {a? b? : Option α}, Option.Rel Eq a? b? → a? = b?
  | _, _, .none => rfl
  | _, _, .some h => congrArg some h

theorem buildRange {flags : UInt8}
    (hσ : σ.Admits ((flags &&& RangeFlag.hasLast != 0).toNat + (flags &&& RangeFlag.hasFirst != 0).toNat)) :
    Acts V k A q σ (Act.buildRange flags) (Act.buildRange flags) (fun _ _ => True) q
      (σ.lift ((flags &&& RangeFlag.hasLast != 0).toNat + (flags &&& RangeFlag.hasFirst != 0).toNat) 1) := by
  rw [Shape.lift_split, ← Shape.lift_lift]
  refine maybe _ (fun hb => bound (hσ.mono (by rw [hb]; simp))) fun l? l'? hl => ?_
  refine maybe _ (fun hb => bound (hσ.lift.mono (by rw [hb]; simp))) fun f? f'? hf => ?_
  obtain rfl := eq_of_rel hl
  obtain rfl := eq_of_rel hf
  exact push rfl

/-- The same names beside values that are alike. -/
theorem zip_alike {us vs : List Value} (h : List.Forall₂ (Value.Alike V) us vs) : ∀ names : List String,
    List.Forall₂ (fun e e' => e'.1 = e.1 ∧ e.2.Alike V e'.2) (names.zip us) (names.zip vs) := by
  induction h with
  | nil => intro names; simp
  | cons huv _ ih =>
    intro names
    cases names with
    | nil => exact .nil
    | cons name names => exact .cons ⟨rfl, huv⟩ (ih names)

theorem buildStruct {page : Page} {key : UInt16} {name : String} {fields : List String} (hσ : σ.Admits fields.length)
    (hkey : page.constants.get? key = some (.shape name fields)) :
    Acts V k A q σ (Act.buildStruct page key) (Act.buildStruct page key)
      (fun _ _ => True) q (σ.lift fields.length 1) := by
  unfold Act.buildStruct
  rw [hkey]
  exact onValues hσ fun us vs _ h => Agrees.newRecord ⟨rfl, .ofList (zip_alike h fields)⟩

theorem unpack {n : Nat} (hσ : σ.Admits 1) :
    Acts V k A q σ (Act.unpack n) (Act.unpack n) (fun _ _ => True) q (σ.lift 1 n) := by
  rw [Shape.lift_split]
  refine (pop hσ).bind fun u v huv => (effect (Value.items_agrees huv)).bind fun us vs hitems => ?_
  rw [← hitems.length_eq]
  split
  · exact fail_bind rfl
  · next hn =>
    obtain rfl : us.length = n := Decidable.not_not.1 hn
    exact pushAll hitems

/-! ## Calls that run to their end -/

theorem callLibrary [host.Lawful] (f : LibraryFunction) {n : Nat} (hσ : σ.Admits n) :
    Acts V k A q σ (Act.callLibrary host f n) (Act.callLibrary host f n) (fun _ _ => True) q (σ.lift n 1) :=
  onValues hσ fun _ _ _ h => f.callWith_agrees h

theorem callStandard [host.Lawful] {page : Page} {key : UInt16} {index : UInt16} {entry : LibraryEntry}
    {f : LibraryFunction} {n : Nat} (hσ : σ.Admits n) (hkey : page.constants.get? key = some (.libraryFunction index))
    (hentry : program.library[index.toNat]? = some entry) (hf : entry.function? = some f) :
    Acts V k A q σ (Act.callStandard host program page key n)
      (Act.callStandard host program page key n) (fun _ _ => True) q
      (σ.lift n 1) := by
  have hlibrary : program.libraryFunction index = .ok f := by
    obtain ⟨name, function?⟩ := entry
    obtain rfl : function? = some f := hf
    unfold Program.libraryFunction
    rw [hentry]
  unfold Act.callStandard
  rw [hkey]
  dsimp only
  rw [hlibrary]
  exact callLibrary f hσ

theorem rootness (r : Act.Rootness) : Acts V k A q σ (Act.root r) (Act.root r) Eq q σ := by
  cases r with
  | fixed b => exact pure rfl
  | inherited => exact getFrame.bind fun f f' ⟨hf, _⟩ => pure (by rw [hf]; rfl)

theorem programOperands {count pairs : Nat} {flags : CallFlags}
    (hσ : σ.Admits (pairs * 2 + ((flags.contains .piped).toNat + (count + 1)))) :
    Acts V k A q σ (Act.programOperands count pairs flags) (Act.programOperands count pairs flags)
      (ProgramOperands.Alike V) q (σ.lift (pairs * 2 + ((flags.contains .piped).toNat + (count + 1))) 0) := by
  rw [← Shape.lift_lift, ← Shape.lift_lift, ← Shape.lift_lift]
  refine (popMany (hσ.mono (Nat.le_add_right ..))).bind fun es es' ⟨_, hes⟩ => ?_
  refine maybe _ (fun hb => pop (hσ.lift.mono (by rw [hb]; simp))) fun p? p'? hp => ?_
  refine (popMany (hσ.lift.lift.mono (Nat.le_add_right ..))).bind fun us us' ⟨_, hus⟩ => ?_
  exact (pop hσ.lift.lift.lift).bind fun n n' hn => pure ⟨hn, hus, hp, hes⟩

theorem callProgram {r : Act.Rootness} {i : Instruction}
    (hσ : σ.Admits ((i.byte 3).toNat * 2 + ((CallFlags.contains ⟨i.word 1⟩ .piped).toNat + ((i.byte 0).toNat + 1)))) :
    Acts V k A q σ (Act.callProgram r i) (Act.callProgram r i) (fun _ _ => True) q
      (σ.lift ((i.byte 3).toNat * 2 + ((CallFlags.contains ⟨i.word 1⟩ .piped).toNat + ((i.byte 0).toNat + 1))) 1) := by
  rw [Shape.lift_split]
  refine (rootness r).bind fun b b' hb => (programOperands hσ).bind fun o o' ho => ?_
  subst hb
  have hrun : Agrees V (Value.Alike V) (do Job.run (← Act.programCall o) ⟨i.word 1⟩ b)
      (do Job.run (← Act.programCall o') ⟨i.word 1⟩ b) := by
    refine (Act.programCall_agrees ho).bind fun c c' hc => ?_
    subst hc
    exact Job.run_agrees c _ b
  exact (effect hrun).bind fun _ _ hv => push hv

end ShellVM.Acts
