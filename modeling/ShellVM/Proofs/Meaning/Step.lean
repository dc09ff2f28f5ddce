import ShellVM.Proofs.Calls
import ShellVM.Proofs.Meaning.Sits

/-!
# Single instructions

What one instruction makes of a machine that stands for a scene.
-/

namespace ShellVM

/-- The machine has fetched an instruction of the entry page and goes on at `ip`. -/
def Machine.onward (m : Machine) (entry : UInt16) (ip : Nat) : Machine :=
  { m with steps := m.steps + 1, frames := [entryFrame entry ip] }

/-- What an instruction comes to that runs an effect. -/
def Act.ended {α : Type} (next : α → World → Machine) (below : World → Machine) :
    EStateM.Result Fault World α → EStateM.Result Fault Machine Unit
  | .ok a w => .ok () (next a w)
  | .error e w => .error e (below w)

/-- The part of a ground below a height. -/
def Ground.cut (G : Ground) (n : Nat) : Ground := { G with slots := G.slots.take n }

theorem Ground.length_cut {G : Ground} {n : Nat} (h : n ≤ G.slots.length) : (G.cut n).slots.length = n := by
  simp [cut, h]

@[simp] theorem Ground.cut_length (G : Ground) : G.cut G.slots.length = G := by simp [cut]

@[simp] theorem Ground.cut_grow (G : Ground) (n : Nat) : (G.grow n).cut G.slots.length = G := by simp [cut, grow]

variable {E : Stage} {Γ Γ' : Scope} {G G' : Ground} {p p' q : Nat} {s s' : Scene} {m m' t : Machine} {op : Op}
  {operands : List UInt8} {u v : Value} {us vs : List Value} {locals new : List Local}

/-- The values above a height are dropped. -/
theorem Bears.cut {V : View} {bindings : List (String × Value)} {stack : Array Value} {n : Nat}
    (h : Bears V locals G bindings stack) (hn : n ≤ G.slots.length) :
    ∃ below dropped, stack = below ++ dropped ∧ below.size = n ∧ dropped.size = stack.size - n ∧
      Bears V locals (G.cut n) bindings below := by
  have hsize : n ≤ stack.size := Nat.le_trans hn h.height
  have hbelow : (stack.toList.take n).toArray.size = n := by simp [hsize]
  refine ⟨(stack.toList.take n).toArray, (stack.toList.drop n).toArray, Array.ext' (by simp), hbelow, by simp, ?_⟩
  refine h.of_take (List.take_prefix n _) ?_ fun j hj => ?_
  · rw [hbelow]
    exact List.length_take_le n _
  · rw [← Array.getElem?_toList, ← Array.getElem?_toList]
    exact List.getElem?_take_of_lt (Nat.lt_of_lt_of_le hj (List.length_take_le n _))

theorem Over.slot_lt (hover : Over Γ G) {l : Local} (hl : l ∈ Γ.locals) : l.slot.toNat < G.slots.length :=
  (List.getElem?_eq_some_iff.1 (hover.places l hl)).1

namespace Sits

theorem active (hm : Sits E locals G p s m) : m.Active := by
  unfold Machine.Active
  rw [hm.frames]
  exact nofun

/-- The variables of inner scopes are forgotten. -/
theorem drop (hm : Sits E (new ++ locals) G p s m) : Sits E locals G p (s.keep locals.length) m := by
  have hbears := hm.bears
  rw [← Scene.keep_eq_self (Nat.le_of_eq hm.length)] at hbears
  exact { hm with bears := hbears.keep }

/-- A step carries out the instruction at the offset. -/
theorem step (hE : E.Bare) (hm : Sits E locals G p s m) (h : E.sheet.Has p op operands) :
    Act.step E.host E.program m = Act.perform E.host E.program E.sheet.page ⟨p, op, operands⟩
      (m.onward E.entry (p + 1 + operands.length)) := by
  obtain ⟨byte, hbyte, hread⟩ := h
  have hframes : ({ m with steps := m.steps + 1 } : Machine).frames = entryFrame E.entry p :: [] := hm.frames
  have hjump : Act.jump (Instruction.mk p op operands).next { m with steps := m.steps + 1 } =
      .ok () (m.onward E.entry (p + 1 + operands.length)) := by
    unfold Act.jump Act.modifyFrame
    rw [hframes]
    rfl
  rw [Act.step_eq, (hm.calm m .refl).exceeded?_eq_none]
  simp only
  rw [Act.advance_eq (q := p) hframes hE.page rfl, hbyte]
  simp only [hread]
  exact bind_run_ok hjump

/-- An instruction that cannot fail here. -/
theorem leads (hE : E.Bare) (hm : Sits E locals G p s m) (h : E.sheet.Has p op operands) (m' : Machine)
    (hperform : Act.perform E.host E.program E.sheet.page ⟨p, op, operands⟩
      (m.onward E.entry (p + 1 + operands.length)) = .ok () m') : E.Leads m m' ∧ m'.Calm E.host E.program := by
  have hturns := Turns.single hm.active (Act.turn_of_ok ((hm.step hE h).trans hperform))
  exact ⟨hturns, hm.calm.after hturns⟩

/-- An instruction that runs an effect, which the evaluator runs too. -/
theorem effects {α β : Type} {R : α → β → Prop} {f : Effect α} {g : Effect β} {next : α → World → Machine}
    {below : World → Machine} (hE : E.Bare) (hm : Sits E Γ.locals G' p s m) (h : E.sheet.Has p op operands)
    (hfg : Agrees E.view R f g)
    (hperform : Act.perform E.host E.program E.sheet.page ⟨p, op, operands⟩
      (m.onward E.entry (p + 1 + operands.length)) = Act.ended next below (f m.world))
    (hbelow : ∀ w, Fallen E Γ.locals G s.bindings (below w) ∧ (below w).world = w) :
    Comes E Γ G m (fun b s' m' => ∃ a w, R a b ∧ w.Alike E.view s'.world ∧ s'.bindings = s.bindings ∧ m' = next a w ∧
      m'.Calm E.host E.program) (Eval.effect g s) := by
  have hstep := (hm.step hE h).trans hperform
  unfold Eval.effect
  rcases hfg.cases hm.world with ⟨a, b, w, w', hf, hg, hab, hw⟩ | ⟨e, e', w, w', hf, hg, ⟨rfl, hplain⟩, hw⟩
  · rw [hf] at hstep
    rw [hg]
    have hturns := Turns.single hm.active (Act.turn_of_ok hstep)
    exact ⟨_, hturns, a, w, hab, hw, rfl, rfl, hm.calm.after hturns⟩
  · rw [hf] at hstep
    rw [hg]
    have hcatch : e'.cause.isCatchable := by
      cases hc : e'.cause with
      | internal b => rw [hc] at hplain; cases hplain
      | _ => rfl
    refine ⟨hcatch, m, e', _, .refl, hm.active, hstep, rfl, ?_, ?_⟩
    · rw [@Scene.keep_eq_self { s with world := w' } _ (Nat.le_of_eq hm.length)]
      exact (hbelow w).1
    · rw [(hbelow w).2]
      exact hw

end Sits

/-! ## Values -/

namespace Act

theorem peek_eq {below : Array Value} (h : m.stack = below.push v) : peek m = .ok v m := by
  unfold peek
  rw [h, Array.back?_push]

theorem perform_constant {host : Host} {program : Program} {page : Page} {key : UInt16} {l : Literal}
    (h : page.constants.get? key = some l.constant) : perform host program page ⟨p, .const, wordBytes key⟩ m =
      .ok () { m with stack := m.stack.push l.value } := by
  have hword : Instruction.word ⟨p, .const, wordBytes key⟩ 0 = key := Instruction.word_wordBytes p .const key []
  show EStateM.bind (constant program page (Instruction.word _ 0)) _ _ = _
  rw [hword]
  unfold EStateM.bind constant
  rw [h]
  cases l <;> rfl

end Act

namespace Sits

/-- The value on top of the ground. -/
theorem top (hm : Sits E locals (G.push u) p s m) :
    ∃ below, m.stack = below.push u ∧ below.size = G.slots.length ∧ Bears E.view locals G s.bindings below := by
  obtain ⟨below, hstack, hsize, hbears⟩ := hm.bears.split (by rw [hm.size, Ground.length_push]; rfl)
  exact ⟨below, hstack.trans (Array.ext' (by simp)), hsize, hbears⟩

/-- A machine with one more value on its stack. -/
theorem pushed {below : Array Value} (hbears : Bears E.view locals G s.bindings below)
    (hsize : below.size = G.slots.length) (hlocals : ∀ l ∈ locals, l.slot.toNat < G.slots.length)
    (hframes : m.frames = [entryFrame E.entry p]) (hhandlers : m.handlers = G.handlers)
    (hiterators : m.iterators = G.iterators) (hstack : m.stack = below.push u) (hworld : m.world.Alike E.view s.world)
    (hcalm : m.Calm E.host E.program) : Sits E locals (G.push u) p s m where
  frames := hframes
  handlers := hhandlers
  iterators := hiterators
  size := by rw [hstack, Array.size_push, hsize, Ground.length_push]
  bears := by
    rw [hstack]
    exact hbears.push hsize hlocals u
  world := hworld
  calm := hcalm

/-- An instruction that pushes a value. -/
theorem pushes (hE : E.Bare) (hm : Sits E locals G p s m) (hlocals : ∀ l ∈ locals, l.slot.toNat < G.slots.length)
    (h : E.sheet.Has p op operands) (hp : p' = p + 1 + operands.length)
    (hperform : Act.perform E.host E.program E.sheet.page ⟨p, op, operands⟩
      (m.onward E.entry (p + 1 + operands.length)) =
      .ok () { m.onward E.entry (p + 1 + operands.length) with stack := m.stack.push u }) :
    ∃ m', Act.step E.host E.program m = .ok () m' ∧ Sits E locals (G.push u) p' s m' := by
  subst hp
  obtain ⟨-, hcalm⟩ := hm.leads hE h _ hperform
  exact ⟨_, (hm.step hE h).trans hperform,
    pushed hm.bears hm.size hlocals rfl hm.handlers hm.iterators rfl hm.world hcalm⟩

/-- The value of a literal. -/
theorem literal (hE : E.Bare) (hm : Sits E locals G p s m) (hlocals : ∀ l ∈ locals, l.slot.toNat < G.slots.length)
    (l : Literal) (h : E.sheet.constant l.constant Γ p p') :
    ∃ m', Act.step E.host E.program m = .ok () m' ∧ Sits E locals (G.push l.value) p' s m' := by
  obtain ⟨key, hkey, hhas, rfl⟩ := h
  exact hm.pushes hE hlocals hhas rfl (Act.perform_constant hkey)

theorem constant (hE : E.Bare) (hm : Sits E locals G p s m) (hlocals : ∀ l ∈ locals, l.slot.toNat < G.slots.length)
    (l : Literal) (h : E.sheet.constant l.constant Γ p p') :
    ∃ m', E.Leads m m' ∧ Yields E locals G p' l.value s m' := by
  obtain ⟨m', hstep, hsits⟩ := hm.literal hE hlocals l h
  exact ⟨m', .single hm.active (Act.turn_of_ok hstep), l.value, by cases l <;> rfl, hsits⟩

theorem nil (hE : E.Bare) (hm : Sits E locals G p s m) (hlocals : ∀ l ∈ locals, l.slot.toNat < G.slots.length)
    (h : E.sheet.nil Γ p p') : ∃ m', E.Leads m m' ∧ Yields E locals G p' .nil s m' :=
  hm.constant (Γ := Γ) hE hlocals .nil ⟨_, h⟩

/-- The value on top is dropped. -/
theorem pop (hE : E.Bare) (hm : Sits E locals (G.push u) p s m) (h : E.sheet.Has p .pop []) :
    ∃ m', E.Leads m m' ∧ Sits E locals G (p + 1) s m' := by
  obtain ⟨below, hstack, hsize, hbears⟩ := hm.top
  obtain ⟨hleads, hcalm⟩ := hm.leads hE h { m.onward E.entry (p + 1) with stack := below } (by
    exact bind_run_ok (@Act.pop_eq (m.onward E.entry (p + 1)) u below hstack))
  exact ⟨_, hleads, ⟨rfl, hm.handlers, hm.iterators, hsize, hbears, hm.world, hcalm⟩⟩

/-- The values above a height are dropped. -/
theorem popN (hE : E.Bare) {n : Nat} (hm : Sits E locals G p s m) (hn : n ≤ G.slots.length)
    (h : E.sheet.drops .popN (G.slots.length - n) p p') : ∃ m', E.Leads m m' ∧ Sits E locals (G.cut n) p' s m' := by
  unfold Sheet.drops at h
  split at h
  · next h0 =>
    obtain rfl : n = G.slots.length := by omega
    subst h
    exact ⟨m, .refl, by rwa [Ground.cut_length]⟩
  · obtain ⟨hle, hhas, rfl⟩ := h
    obtain ⟨below, dropped, hstack, hsize, hdropped, hbears⟩ := hm.bears.cut hn
    have hcount : (G.slots.length - n).toUInt8.toNat = dropped.size := by
      rw [UInt8.toNat_ofNat', Nat.mod_eq_of_lt (by omega), hdropped, hm.size]
    obtain ⟨hleads, hcalm⟩ := hm.leads hE hhas { m.onward E.entry (p + 2) with stack := below } (by
      have hdrop := @Act.popMany_eq (m.onward E.entry (p + 2)) below dropped hstack
      rw [← hcount] at hdrop
      exact bind_run_ok hdrop)
    exact ⟨_, hleads, ⟨rfl, hm.handlers, hm.iterators, hsize.trans (Ground.length_cut hn).symm,
      hbears, hm.world, hcalm⟩⟩

/-- The values above a height are dropped from under the top one. -/
theorem unwind (hE : E.Bare) {n : Nat} (hm : Sits E locals (G.push u) p s m) (hn : n ≤ G.slots.length)
    (hlocals : ∀ l ∈ locals, l.slot.toNat < n) (h : E.sheet.drops .unwind (G.slots.length - n) p p') :
    ∃ m', E.Leads m m' ∧ Sits E locals ((G.cut n).push u) p' s m' := by
  unfold Sheet.drops at h
  split at h
  · next h0 =>
    obtain rfl : n = G.slots.length := by omega
    subst h
    exact ⟨m, .refl, by rwa [Ground.cut_length]⟩
  · obtain ⟨hle, hhas, rfl⟩ := h
    obtain ⟨rest, hrest, hrestSize, hrestBears⟩ := hm.top
    obtain ⟨below, dropped, hstack, hsize, hdropped, hbears⟩ := hrestBears.cut hn
    have hcount : (G.slots.length - n).toUInt8.toNat = dropped.size := by
      rw [UInt8.toNat_ofNat', Nat.mod_eq_of_lt (by omega), hdropped, hrestSize]
    obtain ⟨hleads, hcalm⟩ := hm.leads hE hhas { m.onward E.entry (p + 2) with stack := below.push u } (by
      have hdrop := @Act.popMany_eq { m.onward E.entry (p + 2) with stack := rest } below dropped hstack
      rw [← hcount] at hdrop
      exact (bind_run_ok (@Act.pop_eq (m.onward E.entry (p + 2)) u rest hrest)).trans (bind_run_ok hdrop))
    have hlength := Ground.length_cut hn
    refine ⟨_, hleads, pushed hbears (hsize.trans hlength.symm) (fun l hl => ?_) rfl hm.handlers
      hm.iterators rfl hm.world hcalm⟩
    rw [hlength]
    exact hlocals l hl

end Sits

end ShellVM
