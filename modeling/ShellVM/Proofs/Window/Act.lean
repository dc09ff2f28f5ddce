import ShellVM.Proofs.Window.Activation

/-!
# Acts inside a call

What the acts of the machine do to its shape. No act reaches below the base of the call, and none fails for want of what
the shape promises.
-/

namespace ShellVM

namespace Shaped

variable {V : View} {A : Activation} {q : Nat} {σ : Shape} {m : Machine}

/-- Other values on the stack, as many of them as the shape says. -/
theorem restack (h : Shaped V A q σ m) {stack : Array Value} {height : Nat} (hsize : stack.size = A.base + height)
    (hfloor : Zone.floor σ.zones ≤ height) : Shaped V A q { σ with height } { m with stack } :=
  { h with height := hsize, floor := hfloor }

end Shaped

namespace Acts

variable {V : View} {k : Context} {A : Activation} {q : Nat} {σ : Shape} {m m' : Machine}

/-! ## The stack -/

theorem push {u v : Value} (h : u.Alike V v) :
    Acts V k A q σ (Act.push u) (Act.push v) (fun _ _ => True) q (σ.lift 0 1) := by
  intro m m' hm
  obtain ⟨top, hstack, htop⟩ := hm.stack
  have hheight := hm.shaped.height
  have hfloor := hm.shaped.floor
  refine ⟨trivial, { hm with stack := ⟨top.push u, ?_, htop.push h⟩, shaped := hm.shaped.restack ?_ ?_ }⟩
  · show m.stack.push u = _
    rw [hstack, Array.push_append]
  · simp only [Array.size_push]
    omega
  · omega

theorem pushAll {us vs : List Value} (h : List.Forall₂ (Value.Alike V) us vs) :
    Acts V k A q σ (Act.pushAll us) (Act.pushAll vs) (fun _ _ => True) q (σ.lift 0 us.length) := by
  intro m m' hm
  obtain ⟨top, hstack, htop⟩ := hm.stack
  have hheight := hm.shaped.height
  have hfloor := hm.shaped.floor
  have hlength := h.length_eq
  have hpush : ∀ xs : Array Value, ∀ ys : List Value, ys.foldl Array.push xs = xs ++ ys.toArray := by simp
  refine ⟨trivial, { hm with stack := ⟨top ++ us.toArray, ?_, ?_⟩, shaped := hm.shaped.restack ?_ ?_ }⟩
  · show us.foldl Array.push m.stack = _
    rw [hpush, hstack, Array.append_assoc]
  · show ItemsAlike V _ (vs.foldl Array.push m'.stack)
    have hvs : ItemsAlike V us.toArray vs.toArray := h
    rw [hpush]
    exact htop.append hvs
  · rw [hpush]
    simp only [Array.size_append, List.size_toArray]
    omega
  · omega

theorem peek (hσ : σ.Admits 1) : Acts V k A q σ Act.peek Act.peek (Value.Alike V) q σ := by
  intro m m' hm
  obtain ⟨top, hstack, htop⟩ := hm.stack
  have hheight := hm.shaped.height
  unfold Shape.Admits at hσ
  obtain ⟨u, v, hu, hv, huv⟩ := htop.back? (by omega)
  unfold Act.peek
  rw [hstack, Array.back?_append, hu, hv]
  exact ⟨huv, hm⟩

theorem pop (hσ : σ.Admits 1) : Acts V k A q σ Act.pop Act.pop (Value.Alike V) q (σ.lift 1 0) := by
  intro m m' hm
  obtain ⟨top, hstack, htop⟩ := hm.stack
  have hheight := hm.shaped.height
  have hsize := htop.size
  unfold Shape.Admits at hσ
  obtain ⟨u, v, hu, hv, huv⟩ := htop.back? (by omega)
  unfold Act.pop
  rw [hv, show m.stack.back? = some u by rw [hstack, Array.back?_append, hu]; rfl]
  refine ⟨huv, { hm with stack := ⟨top.pop, ?_, htop.pop⟩, shaped := hm.shaped.restack ?_ ?_ }⟩
  · have hne : top ≠ #[] := fun he => by
      rw [he, Array.size_empty] at hsize
      omega
    show m.stack.pop = _
    rw [hstack, Array.pop_append_of_ne_empty hne]
  · simp only [Array.size_pop]
    omega
  · omega

theorem popMany {n : Nat} (hσ : σ.Admits n) : Acts V k A q σ (Act.popMany n) (Act.popMany n)
    (fun us vs => us.size = n ∧ List.Forall₂ (Value.Alike V) us.toList vs.toList) q (σ.lift n 0) := by
  intro m m' hm
  obtain ⟨top, hstack, htop⟩ := hm.stack
  have hheight := hm.shaped.height
  have hsize := htop.size
  unfold Shape.Admits at hσ
  have hmsize : m.stack.size = k.stack.size + m'.stack.size := by rw [hstack, Array.size_append, hsize]
  have hbelow : m.stack.size - n = k.stack.size + (m'.stack.size - n) := by omega
  unfold Act.popMany
  dsimp only
  rw [if_neg (by omega), if_neg (by omega), hbelow, hmsize]
  have htaken : m.stack.extract (k.stack.size + (m'.stack.size - n)) (k.stack.size + m'.stack.size) =
      top.extract (m'.stack.size - n) m'.stack.size := by rw [hstack, extract_append_top]
  have hshrunk : m.stack.shrink (k.stack.size + (m'.stack.size - n)) = k.stack ++ top.shrink (m'.stack.size - n) := by
    rw [hstack, shrink_append]
  rw [htaken, hshrunk]
  refine ⟨⟨?_, htop.extract _ _⟩, { hm with stack := ⟨_, rfl, htop.take _⟩, shaped := hm.shaped.restack ?_ ?_ }⟩
  · rw [Array.size_extract]
    omega
  · rw [Array.size_shrink]
    omega
  · omega

/-- The callee, from under its arguments. -/
theorem takeCallee {n : Nat} (hσ : σ.Admits (n + 1)) :
    Acts V k A q σ (Act.takeCallee n) (Act.takeCallee n) (Value.Alike V) q (σ.lift 1 0) := by
  intro m m' hm
  obtain ⟨top, hstack, htop⟩ := hm.stack
  have hheight := hm.shaped.height
  have hsize := htop.size
  unfold Shape.Admits at hσ
  have hi : (k.stack ++ top).size - (n + 1) = k.stack.size + (m'.stack.size - (n + 1)) := by
    rw [Array.size_append]
    omega
  obtain ⟨stack, frames, iterators, handlers, pending, steps, world⟩ := m
  obtain rfl : stack = k.stack ++ top := hstack
  unfold Act.takeCallee
  rw [dif_pos (by simp only [Array.size_append]; omega), dif_pos (by omega)]
  simp only [hi]
  rw [Array.getElem_append_right (by omega), Array.eraseIdx_append_of_size_le (by omega)]
  simp only [Nat.add_sub_cancel_left]
  refine ⟨htop.getElem _ _ _, { hm with
    stack := ⟨_, rfl, htop.eraseIdx _ _ _⟩
    shaped := hm.shaped.restack ?_ ?_ }⟩
  · simp only [Array.size_eraseIdx]
    omega
  · omega

/-! ## Variables -/

/-- The frame of the call, with the frame on top of the context. -/
theorem frames (hm : Inside V k A q σ m m') : ∃ cells own, m'.frames = A.frame q cells :: A.callers ∧
    m.frames = (A.frame q cells).above k :: (A.callers.map (Frame.above k) ++ k.frames) ∧
    (∀ s ∈ σ.cells, Boxed V.cells cells s) ∧ Open V.cells A cells σ.zones m'.iterators.length own ∧
    m'.handlers = own ++ A.outerHandlers := by
  obtain ⟨cells, own, hframes, hboxes, hopen, hown⟩ := hm.shaped.active
  have hframes' := hm.frames
  rw [hframes, List.map_cons, List.cons_append] at hframes'
  exact ⟨cells, own, hframes, hframes', hboxes, hopen, hown⟩

/-- The place of a local. -/
theorem slot {s : UInt8} (hm : Inside V k A q σ m m') (hs : s.toNat < σ.height) :
    ∃ h h', m.slot s = .ok ⟨k.stack.size + (A.base + s.toNat), h⟩ ∧ m'.slot s = .ok ⟨A.base + s.toNat, h'⟩ := by
  obtain ⟨cells, own, hframes', hframes, -⟩ := frames hm
  obtain ⟨top, hstack, htop⟩ := hm.stack
  have hheight := hm.shaped.height
  have hsize := htop.size
  have hmsize : m.stack.size = k.stack.size + m'.stack.size := by rw [hstack, Array.size_append, hsize]
  have h : k.stack.size + (A.base + s.toNat) < m.stack.size := by omega
  have h' : A.base + s.toNat < m'.stack.size := by omega
  exact ⟨h, h', Machine.slot_ok hframes (Nat.add_assoc ..) h, Machine.slot_ok hframes' rfl h'⟩

theorem load {s : UInt8} (hs : s.toNat < σ.height) : Acts V k A q σ (Act.load s) (Act.load s) (Value.Alike V) q σ := by
  intro m m' hm
  obtain ⟨h, h', hslot, hslot'⟩ := slot hm hs
  obtain ⟨top, hstack, htop⟩ := hm.stack
  unfold Act.load
  rw [hslot, hslot']
  obtain ⟨stack, frames, iterators, handlers, pending, steps, world⟩ := m
  obtain rfl : stack = k.stack ++ top := hstack
  refine ⟨?_, hm⟩
  simp only [Fin.getElem_fin]
  rw [Array.getElem_append_right (by omega)]
  simp only [Nat.add_sub_cancel_left]
  exact htop.getElem _ _ _

theorem store {s : UInt8} (hs : s.toNat < σ.height) :
    Acts V k A q σ (Act.store s) (Act.store s) (fun _ _ => True) q σ := by
  intro m m' hm
  obtain ⟨h, h', hslot, hslot'⟩ := slot hm hs
  obtain ⟨top, hstack, htop⟩ := hm.stack
  have hheight := hm.shaped.height
  obtain ⟨u, v, hu, hv, huv⟩ := htop.back? (by omega)
  have hu' : m.stack.back? = some u := by rw [hstack, Array.back?_append, hu]; rfl
  unfold Act.store
  rw [hslot, hslot']
  simp only [hu', hv]
  obtain ⟨stack, frames, iterators, handlers, pending, steps, world⟩ := m
  obtain rfl : stack = k.stack ++ top := hstack
  simp only [Array.size_append] at h
  refine ⟨trivial, { hm with
    stack := ⟨top.set (A.base + s.toNat) u (by omega), ?_, htop.set huv _ (by omega) h'⟩
    shaped := hm.shaped.restack ?_ hm.shaped.floor }⟩
  · simp only
    rw [Array.set_append_right _ (Nat.le_add_right ..)]
    simp only [Nat.add_sub_cancel_left]
  · simp only [Array.size_set]
    exact hheight

theorem getFrame : Acts V k A q σ Act.frame Act.frame (fun f f' => f = f'.above k ∧ ∃ cells, f' = A.frame q cells ∧
    ∀ s ∈ σ.cells, Boxed V.cells cells s) q σ := by
  intro m m' hm
  obtain ⟨cells, own, hframes', hframes, hboxes, -⟩ := frames hm
  unfold Act.frame
  rw [hframes, hframes']
  exact ⟨⟨rfl, cells, rfl, hboxes⟩, hm⟩

/-- The cell of a captured variable. -/
theorem capture {program : Program} {functions : List (Nat × UInt16)} {i : UInt8} (hA : A.Fits V program functions)
    (hi : i.toNat < A.sheet.captures.length) :
    Acts V k A q σ (Act.capture i) (Act.capture i) (fun a b => b = a ∧ V.cells ≤ a) q σ := by
  refine getFrame.bind fun f f' ⟨hf, cells, hf', _⟩ => ?_
  subst hf hf'
  have henv := hA.environment
  have henvironment : ((A.frame q cells).above k).environment? = A.environment? := rfl
  have henvironment' : (A.frame q cells).environment? = A.environment? := rfl
  rw [henvironment, henvironment']
  cases he : A.environment? with
  | none => rw [he] at henv; omega
  | some e =>
    rw [he] at henv
    obtain ⟨known, hknown, hlength, hcells⟩ := henv
    refine get fun m m' hm => ?_
    have hw : m.world.environment e = known := by
      unfold World.environment
      rw [hm.world.environments, Array.getD_eq_getD_getElem?, hknown]
      rfl
    have hw' : m'.world.environment e = known := by
      unfold World.environment
      rw [hm.world.environments', Array.getD_eq_getD_getElem?, hknown]
      rfl
    have hget : known[i.toNat]? = some known[i.toNat] := List.getElem?_eq_getElem (by omega)
    simp only [hw, hw', hget]
    exact pure ⟨rfl, hcells _ (List.getElem_mem _)⟩

/-- The cell of a local. -/
theorem cell {s : UInt8} (hs : s ∈ σ.cells) :
    Acts V k A q σ (Act.cell s) (Act.cell s) (fun a b => b = a ∧ V.cells ≤ a) q σ := by
  refine getFrame.bind fun f f' ⟨hf, cells, hf', hboxes⟩ => ?_
  subst hf hf'
  obtain ⟨a, ha, hle⟩ := hboxes s hs
  have hcell : ((A.frame q cells).above k).cell? s = some a := ha
  have hcell' : (A.frame q cells).cell? s = some a := ha
  rw [hcell, hcell']
  exact pure ⟨rfl, hle⟩

theorem readCell {a : Addr} (ha : V.cells ≤ a) : Acts V k A q σ (Act.readCell a) (Act.readCell a) (Value.Alike V) q σ :=
  get fun _ _ hm => pure (hm.world.cell ha)

theorem writeCell {a : Addr} {u v : Value} (ha : V.cells ≤ a) (h : u.Alike V v) :
    Acts V k A q σ (Act.writeCell a u) (Act.writeCell a v) (fun _ _ => True) q σ := by
  refine (effect (Agrees.modify fun w w' hw => ?_)).weaken (fun _ _ h => h)
    (fun _ _ _ _ h => ⟨trivial, h.2⟩) fun _ _ _ _ h => h
  exact hw.setCell ha h

end Acts

end ShellVM
