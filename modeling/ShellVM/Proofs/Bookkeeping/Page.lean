import ShellVM.Proofs.Bookkeeping.Construct
import ShellVM.Proofs.Emission.Enclosing
import ShellVM.Proofs.Layout.Expression

/-!
# The bookkeeping of pages and calls

The body of a function or a closure is emitted into a draft of its own, behind which the compiler goes on where it
was. A call takes the values that were left for it.
-/

namespace ShellVM.Emit

variable {s t : Workbench} {o : Outline} {C names captures captured : List String} {n k count : Nat}
  {x y x' y' : Emit Unit} {f g : Emit Page}

/-- Both emitters complete a page, and leave the draft as it was. -/
def Completes (f g : Emit Page) : Prop := ∀ s o t, Advances s o t →
  Settles (fun page t' => Advances s o t' ∧ page.Lined) (f t) (g t)

/-! ## Pages -/

/-- Parameters, the body and the end of a page, in a draft in which nothing has been done yet. -/
theorem pageBody_settles (parameters : List String) (hx : Raises captured 1 x y) (hs : s.Ready captured)
    (hheight : s.draft.height = 0) :
    Settles (fun _ t => ∃ o, Advances s o t) (pageBody parameters x s) (pageBody parameters y s) := by
  have hstart := hs.start
  rw [hheight] at hstart
  refine (declareAll_settles parameters 0 hstart).bind fun _ t₁ ⟨new, hlength, hnew, h₁⟩ => ?_
  refine (setHeight_settles h₁ parameters.length).bind fun _ t₂ h₂ => ?_
  have hroom : (s.draft.outline.at 0).Fits := hs.room (Nat.le_of_eq hheight)
  refine (hx.run hs (hroom.declare hnew (Nat.zero_le parameters.length)) h₂).bind fun _ t₃ h₃ => ?_
  by_cases hempty : parameters.isEmpty
  · rw [if_neg (by simpa using hempty)]
    exact .ok ⟨_, h₃⟩
  · rw [if_pos (by simpa using hempty)]
    refine Settles.mono (byte_settles (n := 1) rfl (a := parameters.length + 1) (b := 1) (fun hle => ?_) (Nat.le_refl _)
      (by omega) h₃) fun _ t₄ h₄ => ⟨_, h₄⟩
    show some (parameters.length.toUInt8.toNat + 1, 1) = _
    rw [Nat.toUInt8, UInt8.toNat_ofNat', Nat.mod_eq_of_lt (by omega)]

/-- Behind a page the compiler goes on with the draft that it had. -/
theorem Completes.page (name : String) (parameters captures : List String) (hx : Raises captured 1 x y) (hx' : x.Tidy)
    (hy' : y.Tidy) :
    Completes (page name parameters captures captured x) (page name parameters captures captured y) := by
  intro s o t h
  by_cases hcount : 255 < parameters.length
  · unfold Emit.page
    exact .check (fun _ => .external rfl) fun h => absurd hcount h
  let u : Workbench := { t with
    draft := pageDraft name parameters captures captured, enclosing := t.draft :: t.enclosing }
  have hu : u.Ready captured := by
    refine ⟨⟨⟨?_, .zero, ?_, .of_lines_eq_empty rfl⟩, h.steady.functions, h.steady.lined⟩, rfl, ⟨?_, ?_⟩⟩
    all_goals
      intro a ha
      cases ha
  have hbody := pageBody_settles parameters hx hu rfl
  rw [page_run hx' (Nat.not_lt.1 hcount), page_run hy' (Nat.not_lt.1 hcount)]
  generalize pageBody parameters x u = r at hbody ⊢
  generalize pageBody parameters y u = r' at hbody ⊢
  cases hbody with
  | error he => exact .error he
  | ok hok =>
    obtain ⟨o', h'⟩ := hok
    refine .ok ⟨?_, h'.steady.draft.lined⟩
    exact {
      steady := ⟨h.steady.draft, h'.steady.functions, h'.steady.lined⟩
      outline := h.outline
      captured := h.captured
      continues := h.continues
      pages := Nat.le_trans h.pages h'.pages }

/-- A definition fills in the page of its function. -/
theorem define_settles (id : Nat) (hf : Completes f g) (h : Advances s o t) :
    Settles (fun _ t' => Advances s o t') (define id f t) (define id g t) := by
  refine (functionPage_settles id h).bind fun index t₁ ⟨h₁, hindex⟩ => ?_
  refine (hf t₁ o t₁ h₁.here).bind fun page t₂ ⟨h₂, hpage⟩ => ?_
  have h₂' := h₁.trans h₂
  have hindex₂ := Nat.lt_of_lt_of_le hindex h₂.pages
  rw [get_bind_run]
  by_cases hdefined : t₂.defined.contains id
  · rw [if_pos hdefined]
    exact replacePage_settles h₂' hindex₂ hpage
  · rw [if_neg hdefined]
    refine Settles.bind (Q := fun _ t' => Advances s o t' ∧ t'.program = t₂.program) ?_ fun _ t₃ ⟨h₃, hprogram⟩ =>
      install_settles h₃ (hprogram ▸ hindex₂) hpage
    exact .ok ⟨{ h₂' with steady := ⟨h₂'.steady.draft, h₂'.steady.functions, h₂'.steady.lined⟩ }, rfl⟩

/-- A closure finds its captures in cells, and fills in a page of its own. -/
theorem Raises.closure (hcaptures : ∀ name ∈ captures, name ∈ C) (hf : Completes f g) :
    Raises C 1 (closure captures f) (closure captures g) := by
  intro s hs
  unfold Emit.closure
  refine (captureAll_settles captures (hs.captured ▸ hcaptures) hs.start).bind fun _ t₁ h₁ => ?_
  refine .check (fun _ => .external rfl) fun hcount => ?_
  refine (reservePage_settles "<closure>" h₁).bind fun index t₂ ⟨h₂, hindex⟩ => ?_
  refine (hf t₂ _ t₂ h₂.here).bind fun page t₃ ⟨h₃, hpage⟩ => ?_
  refine (install_settles (h₂.trans h₃) (Nat.lt_of_lt_of_le hindex h₃.pages) hpage).bind fun _ t₄ h₄ => ?_
  refine (constantKey_settles h₄ (.page index)).bind fun key t₅ h₅ => ?_
  exact op_settles rfl rfl (Nat.zero_le _) rfl h₅

/-! ## Calls -/

theorem argumentCount_bind {α : Type} {Q : α → Workbench → Prop} {f : UInt8 → Emit α} (count : Nat)
    (h : count ≤ 255 → Settles Q (f count.toUInt8 t) (f count.toUInt8 t)) :
    Settles Q ((argumentCount count >>= f) t) ((argumentCount count >>= f) t) := by
  refine Settles.bind (Q := fun w t' => count ≤ 255 ∧ w = count.toUInt8 ∧ t' = t) ?_ fun w t' ⟨hle, hw, ht⟩ => ?_
  · unfold argumentCount
    by_cases hcount : 255 < count
    · rw [if_pos hcount]
      exact .error (.external rfl)
    · rw [if_neg hcount]
      exact .ok ⟨by omega, rfl, rfl⟩
  · rw [hw, ht]
    exact h hle

theorem callOp_bind {α : Type} {Q : α → Workbench → Prop} {f : Op → Emit α} {root : Bool} {p q r : Op}
    (h : ∀ p', p' = p ∨ p' = q ∨ p' = r → Settles Q (f p' t) (f p' t)) :
    Settles Q ((callOp root p q r >>= f) t) ((callOp root p q r >>= f) t) := by
  refine Settles.bind (Q := fun p' t' => (p' = p ∨ p' = q ∨ p' = r) ∧ t' = t) ?_ fun p' t' ⟨hp, ht⟩ => ?_
  · unfold callOp
    cases root with
    | false => exact .ok ⟨.inl rfl, rfl⟩
    | true =>
      rw [if_pos rfl, get_bind_run]
      by_cases hentry : t.draft.isEntry
      · rw [if_pos hentry]
        exact .ok ⟨.inr (.inl rfl), rfl⟩
      · rw [if_neg hentry]
        exact .ok ⟨.inr (.inr rfl), rfl⟩
  · rw [ht]
    exact h p' hp

/-- A call takes its callee, which is on the stack, and its arguments. -/
theorem call_settles (root : Bool) (hx : Raises C count x y) (hs : s.Ready C) (hfits : (o.at (k + 1)).Fits)
    (h : Advances s (o.at (k + 1)) t) :
    Settles (fun _ t' => Advances s (o.at (k + 1)) t') (call root count x t) (call root count y t) := by
  refine (hx.run hs hfits h).bind fun _ t₁ h₁ => callOp_bind fun p hp => argumentCount_bind count fun hle => ?_
  have heffect : [count.toUInt8].length = p.width ∧ p.stackEffect? [count.toUInt8] = some (count + 1, 1) := by
    have hcount : count.toUInt8.toNat = count := by rw [Nat.toUInt8, UInt8.toNat_ofNat', Nat.mod_eq_of_lt (by omega)]
    rcases hp with rfl | rfl | rfl
    all_goals
      refine ⟨rfl, ?_⟩
      show some (count.toUInt8.toNat + 1, 1) = _
      rw [hcount]
  exact op_settles heffect.1 heffect.2 (by omega) (by omega) h₁

theorem Raises.functionCall (id : Nat) (root : Bool) (hx : Raises C count x y) :
    Raises C 1 (do Emit.constant (.page (← functionPage id)); Emit.call root count x)
      (do Emit.constant (.page (← functionPage id)); Emit.call root count y) := by
  intro s hs
  refine (functionPage_settles id hs.start).bind fun index t₁ ⟨h₁, _⟩ => ?_
  refine (constant_settles h₁ (.page index)).bind fun _ t₂ h₂ => ?_
  exact call_settles root hx hs (hs.room (Nat.le_add_right ..)) h₂

theorem Raises.valueCall (root : Bool) (hx : Raises C 1 x y) (hx' : Raises C count x' y') :
    Raises C 1 (do x; call root count x') (do y; call root count y') := by
  intro s hs
  exact (hx s hs).bind fun _ t h => call_settles root hx' hs (hs.room (Nat.le_add_right ..)) h

theorem Raises.libraryCall (f : LibraryFunction) (hx : Raises C count x y) :
    Raises C 1 (libraryCall f count x) (libraryCall f count y) := by
  intro s hs
  refine (libraryIndex_settles f hs.start).bind fun index t₁ h₁ => ?_
  refine (constantKey_settles h₁ (.libraryFunction index)).bind fun key t₂ h₂ => ?_
  refine (hx.run hs (hs.room (Nat.le_refl _)) h₂).bind fun _ t₃ h₃ => argumentCount_bind count fun hle => ?_
  have hcount : count.toUInt8.toNat = count := by rw [Nat.toUInt8, UInt8.toNat_ofNat', Nat.mod_eq_of_lt (by omega)]
  refine op_settles (a := count) (b := 1) rfl ?_ (Nat.le_add_left ..) (by omega) h₃
  show some (count.toUInt8.toNat, 1) = _
  rw [hcount]

/-- What is piped into a program is one more value. -/
theorem Raises.piped (hx : Raises C 1 x y) :
    Raises C (some y).isSome.toNat ((some x).getD (pure ())) ((some y).getD (pure ())) := hx

/-- The call of a program takes what the number of its arguments, its flags and the number of its variables say. -/
theorem Raises.programCall (settings : ProgramSettings) (root : Bool) {pairs : Nat} {piped piped' : Option (Emit Unit)}
    {environment environment' : Emit Unit} (hx : Raises C 1 x y) (hx' : Raises C count x' y')
    (hpiped : Raises C piped'.isSome.toNat (piped.getD (pure ())) (piped'.getD (pure ())))
    (henvironment : Raises C (pairs * 2) environment environment') (hsome : piped.isSome = piped'.isSome) :
    Raises C 1 (programCall settings root count pairs x x' piped environment)
      (programCall settings root count pairs y y' piped' environment') := by
  intro s hs
  unfold Emit.programCall
  rw [hsome]
  refine (hx s hs).bind fun _ t₁ h₁ => ?_
  refine (hx'.run hs (hs.room (by omega)) h₁).bind fun _ t₂ h₂ => ?_
  refine (hpiped.run hs (hs.room (by omega)) h₂).bind fun _ t₃ h₃ => ?_
  refine (henvironment.run hs (hs.room (by omega)) h₃).bind fun _ t₄ h₄ => ?_
  refine .check (fun _ => .external rfl) fun hpairs => callOp_bind fun p hp => argumentCount_bind count fun hle => ?_
  have hcount : count.toUInt8.toNat = count := by rw [Nat.toUInt8, UInt8.toNat_ofNat', Nat.mod_eq_of_lt (by omega)]
  have hpairs' : pairs.toUInt8.toNat = pairs := by rw [Nat.toUInt8, UInt8.toNat_ofNat', Nat.mod_eq_of_lt (by omega)]
  obtain ⟨hwidth, heffect⟩ := programCall_effect hp count.toUInt8 pairs.toUInt8
    ((programFlags settings).withIf .piped piped'.isSome).bits
  rw [hcount, hpairs', contains_piped settings piped'.isSome] at heffect
  exact op_settles hwidth.symm heffect (by omega) (by omega) h₄

end ShellVM.Emit
