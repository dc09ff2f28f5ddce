import ShellVM.Proofs.Flow.Basic
import ShellVM.Proofs.Layout.Expression

/-!
# Flow of control through constructs

If control flows through the parts of a construct, it flows through the construct. A scope is `Sound` if its locals
lie on the stack, one above the other, and its zones are nested; the code of an expression keeps it so.
-/

namespace ShellVM

/-- The loop encloses the scope. -/
structure Loop.Around (l : Loop) (Γ : Scope) : Prop where
  inner : ∃ inner, Γ.zones = inner ++ l.shape.zones
  nested : Zone.Nested l.shape.height l.shape.zones
  height : l.shape.height ≤ Γ.height
  cells : ∀ s ∈ l.shape.cells, s ∈ boxedSlots Γ.locals
  pending : l.shape.pending = 0

/-- Locals lie on the stack, later ones above earlier ones, and zones are nested. -/
structure Scope.Sound (Γ : Scope) : Prop where
  slots : ∀ l ∈ Γ.locals, l.slot.toNat < Γ.height
  sorted : Γ.locals.Pairwise fun later earlier => earlier.slot.toNat < later.slot.toNat
  nested : Zone.Nested Γ.height Γ.zones
  loop : ∀ l, Γ.loop? = some l → l.Around Γ

/-- The offsets outside to which code in the scope may jump: the next round of the innermost loop, and its end. -/
def Scope.outs (Γ : Scope) (q : Nat) (σ : Shape) : Prop :=
  ∃ l, Γ.loop? = some l ∧ (q = l.start ∨ q = l.exit) ∧ σ = l.shape

theorem boxedSlots_append (new locals : List Local) :
    boxedSlots (new ++ locals) = boxedSlots new ++ boxedSlots locals := by
  simp [boxedSlots]

namespace Scope.Sound

variable {Γ : Scope}

theorem floor_le (h : Γ.Sound) : Zone.floor Γ.zones ≤ Γ.height := h.nested.floor_le

theorem raise (h : Γ.Sound) (n : Nat) : (Γ.raise n).Sound where
  slots := fun l hl => Nat.lt_add_right n (h.slots l hl)
  sorted := h.sorted
  nested := h.nested.mono (Nat.le_add_right _ _)
  loop := fun l hl => { h.loop l hl with height := Nat.le_add_right_of_le (h.loop l hl).height }

theorem inner (h : Γ.Sound) : Γ.inner.Sound where
  slots := h.slots
  sorted := h.sorted
  nested := h.nested
  loop := fun l hl => { h.loop l hl with }

theorem grow {new : List Local} (h : Γ.Sound)
    (hslots : ∀ l ∈ new, Γ.height ≤ l.slot.toNat ∧ l.slot.toNat < Γ.height + new.length)
    (hsorted : new.Pairwise fun later earlier => earlier.slot.toNat < later.slot.toNat) : (Γ.grow new).Sound where
  slots := by
    intro l hl
    rcases List.mem_append.1 hl with hl | hl
    · exact (hslots l hl).2
    · exact Nat.lt_add_right _ (h.slots l hl)
  sorted := by
    refine List.pairwise_append.2 ⟨hsorted, h.sorted, fun l hl l' hl' => ?_⟩
    exact Nat.lt_of_lt_of_le (h.slots l' hl') (hslots l hl).1
  nested := h.nested.mono (Nat.le_add_right _ _)
  loop := fun l hl => { h.loop l hl with
    height := Nat.le_add_right_of_le (h.loop l hl).height
    cells := fun s hs => by
      show s ∈ boxedSlots (new ++ Γ.locals)
      rw [boxedSlots_append]
      exact List.mem_append_right _ ((h.loop l hl).cells s hs) }

theorem enter {z : Zone} (h : Γ.Sound) (hz : Zone.Nested Γ.height (z :: Γ.zones)) : (Γ.enter z).Sound where
  slots := h.slots
  sorted := h.sorted
  nested := hz
  loop := fun l hl => { h.loop l hl with
    inner := by
      obtain ⟨inner, hi⟩ := (h.loop l hl).inner
      exact ⟨z :: inner, by simp [Scope.enter, hi]⟩ }

/-- Every loop may start. -/
theorem within (h : Γ.Sound) (start exit : Nat) : (Γ.within ⟨start, exit, Γ.shape⟩).Sound where
  slots := h.slots
  sorted := h.sorted
  nested := h.nested
  loop := by
    rintro l ⟨⟩
    exact ⟨⟨[], rfl⟩, h.nested, Nat.le_refl _, fun _ h => h, rfl⟩

end Scope.Sound

/-- Control flows through a part that leaves `n` values. -/
def Part.FlowsBy (P : Part) (S : Sheet) (n : Nat) : Prop :=
  ∀ ⦃Γ : Scope⦄ ⦃p p' : Nat⦄, P Γ p p' → Γ.Sound → S.Flows Γ.outs p Γ.shape p' (Γ.raise n).shape

/-- Control flows through a part. -/
def Part.Flows (P : Part) (S : Sheet) : Prop := P.FlowsBy S 1

/-- Control flows through a layout, and its scope stays sound. -/
def Layout.Flows (L : Layout) (S : Sheet) : Prop :=
  ∀ ⦃Γ : Scope⦄ ⦃p : Nat⦄ ⦃Γ' : Scope⦄ ⦃p' : Nat⦄, L Γ p Γ' p' → Γ.Sound →
    Γ'.Sound ∧ Γ'.loop? = Γ.loop? ∧ S.Flows Γ.outs p Γ.shape p' Γ'.shape

theorem Part.Flows.layout {P : Part} {S : Sheet} (h : P.Flows S) : P.layout.Flows S := by
  rintro Γ p Γ' p' ⟨hP, rfl⟩ hΓ
  exact ⟨hΓ.raise 1, rfl, h hP hΓ⟩

theorem Part.FlowsBy.both {P P' : Part} {S : Sheet} {n : Nat} (h : P.Flows S) (h' : P'.FlowsBy S n) :
    (Part.both P P').FlowsBy S (n + 1) := by
  rintro Γ p p' ⟨p₁, hP, hP'⟩ hΓ
  have hrest := h' hP' (hΓ.raise 1)
  rw [Scope.push, Scope.raise_raise, Nat.add_comm 1 n] at hrest
  exact (h hP hΓ).trans hrest

theorem Part.FlowsBy.nothing (S : Sheet) : Part.FlowsBy (fun _ p p' => p' = p) S 0 := by
  rintro Γ p p' rfl -
  exact .refl _ _

namespace Sheet

variable {S : Sheet} {outs : Nat → Shape → Prop} {Γ : Scope} {p p' : Nat} {op : Op} {operands : List UInt8} {σ : Shape}

/-! ## Single instructions -/

/-- An instruction that is no jump. -/
theorem Flows.next {pops pushes : Nat} {σ' : Shape} (has : S.Has p op operands) (hop : op.isJump = false)
    (needs : S.Needs ⟨p, op, operands⟩ σ) (effect : S.effect? ⟨p, op, operands⟩ = some (pops, pushes))
    (admits : σ.Admits pops) (hp : p' = p + 1 + operands.length)
    (hσ : σ'.Within (σ.next ⟨p, op, operands⟩ pops pushes)) : S.Flows outs p σ p' σ' := by
  subst hp
  refine .single has rfl fun Λ _ hnext _ =>
    ⟨needs, pops, pushes, effect, admits, fun _ => ⟨σ', hnext, hσ⟩, fun hjump => ?_⟩
  rw [hop] at hjump
  cases hjump

/-- An instruction that does nothing but take and leave values. -/
theorem Flows.plain {pops pushes : Nat} {σ' : Shape} (has : S.Has p op operands) (hop : op.isPlain = true)
    (needs : S.Needs ⟨p, op, operands⟩ σ) (effect : S.effect? ⟨p, op, operands⟩ = some (pops, pushes))
    (admits : σ.Admits pops) (hp : p' = p + 1 + operands.length) (hσ : σ'.Within (σ.lift pops pushes)) :
    S.Flows outs p σ p' σ' := by
  have hplain : σ.next ⟨p, op, operands⟩ pops pushes = σ.lift pops pushes ∧ op.isJump = false := by
    cases op <;> first | exact ⟨rfl, rfl⟩ | cases hop
  exact .next has hplain.2 needs effect admits hp (by rwa [hplain.1])

/-- A jump to an offset outside. -/
theorem Flows.jump {pops pushes t : Nat} {σ' : Shape} (h : S.Jumps p op t) (hop : op.width = 2)
    (needs : ∀ operands, S.Needs ⟨p, op, operands⟩ σ)
    (effect : ∀ operands, S.effect? ⟨p, op, operands⟩ = some (pops, pushes)) (admits : σ.Admits pops)
    (hnext : op.falls = true → ∀ operands, σ.next ⟨p, op, operands⟩ pops pushes = σ')
    (htaken : ∀ operands, Reaches outs t (σ.taken ⟨p, op, operands⟩ pops pushes)) : S.Flows outs p σ (p + 3) σ' := by
  obtain ⟨operands, has, ht⟩ := h
  have hlen : operands.length = 2 := by rw [has.length, hop]
  refine .single has (by omega) fun Λ _ hend houts =>
    ⟨needs operands, pops, pushes, effect operands, admits, fun hf => ?_, fun _ => ⟨t, ht, ?_⟩⟩
  · have hn : Instruction.next ⟨p, op, operands⟩ = p + 3 := by
      show p + 1 + operands.length = p + 3
      omega
    rw [hn, hnext hf operands]
    exact .of hend
  · exact (htaken operands).mono houts

theorem constant_flows {c : Constant} (hc : S.Offers c) : (S.constant c).Flows S := by
  rintro Γ p p' ⟨key, hk, ho, rfl⟩ hΓ
  have hkey : Instruction.word ⟨p, .const, wordBytes key⟩ 0 = key := Instruction.word_wordBytes p .const key []
  exact .plain ho rfl ⟨c, by rw [hkey]; exact hk, hc⟩ rfl hΓ.floor_le rfl (.refl _)

theorem nil_flows : S.nil.Flows S := by
  rintro Γ p p' ⟨hk, ho, rfl⟩ hΓ
  exact constant_flows (c := .nil) trivial ⟨_, hk, ho, rfl⟩ hΓ

/-- A drop of values, from under the top one if that is kept. Cells of what is dropped are forgotten. -/
theorem drops_flows (keep : Bool) {count height : Nat} {zones : List Zone} {cells cells' : List UInt8}
    (h : S.drops (if keep then .unwind else .popN) count p p') (hh : Zone.floor zones ≤ height)
    (hc : ∀ s ∈ cells', s ∈ cells) (hc0 : count = 0 → cells' = cells) :
    S.Flows outs p ⟨height + count + keep.toNat, zones, cells, 0⟩ p' ⟨height + keep.toNat, zones, cells', 0⟩ := by
  unfold drops at h
  split at h
  · next h0 =>
    rw [hc0 h0]
    subst h0 h
    exact .refl _ _
  · obtain ⟨hle, ho, rfl⟩ := h
    have hb : count.toUInt8.toNat = count := by rw [UInt8.toNat_ofNat', Nat.mod_eq_of_lt (by omega)]
    have he : S.effect? ⟨p, if keep then .unwind else .popN, [count.toUInt8]⟩ =
        some (count + keep.toNat, keep.toNat) := by
      cases keep with
      | true => show some (count.toUInt8.toNat + 1, 1) = _; rw [hb]; rfl
      | false => show some (count.toUInt8.toNat, 0) = _; rw [hb]; rfl
    have hop : (if keep then Op.unwind else .popN).isPlain = true := by cases keep <;> rfl
    refine .plain ho hop (by cases keep <;> trivial) he ?_ rfl ⟨cells', hc, ?_⟩
    · simp only [Shape.Admits]
      omega
    · simp only [Shape.lift, Shape.mk.injEq, and_true]
      omega

/-- The instructions that close zones. -/
theorem closes_flows {height : Nat} {cells : List UInt8} {outer : List Zone} : ∀ {inner : List Zone} {p p' : Nat},
    S.closes inner p p' → Zone.Nested height (inner ++ outer) →
    S.Flows outs p ⟨height, inner ++ outer, cells, 0⟩ p' ⟨height, outer, cells, 0⟩
  | [], p, p', h, _ => by
    obtain rfl : p' = p := h
    exact .refl _ _
  | .attempt t :: inner, p, p', ⟨ho, hrest⟩, hn => by
    have hclose : S.Flows outs p ⟨height, .attempt t :: (inner ++ outer), cells, 0⟩ (p + 1)
        ⟨height, inner ++ outer, cells, 0⟩ := .next ho rfl ⟨t, inner ++ outer, rfl⟩ rfl hn.1 rfl (.refl _)
    exact hclose.trans (closes_flows hrest (hn.2.mono hn.1))
  | .each :: inner, p, p', ⟨ho, hrest⟩, hn => by
    have hfloor : Zone.floor (inner ++ outer) ≤ height := Zone.Nested.floor_le (show Zone.Nested height _ from hn)
    have hclose : S.Flows outs p ⟨height, .each :: (inner ++ outer), cells, 0⟩ (p + 1)
        ⟨height, inner ++ outer, cells, 0⟩ := .next ho rfl ⟨inner ++ outer, rfl⟩ rfl hfloor rfl (.refl _)
    exact hclose.trans (closes_flows hrest hn)

/-! ## Locals -/

theorem declares_flows {depth slot height : Nat} {name : String} {l : Local} {zones : List Zone} {cells : List UInt8}
    (h : S.declares depth name slot p l p') (hslot : slot < height) (hfloor : Zone.floor zones ≤ height) :
    S.Flows outs p ⟨height, zones, cells, 0⟩ p' ⟨height, zones, boxedSlots [l] ++ cells, 0⟩ := by
  obtain ⟨hle, hl, h⟩ := h
  cases hb : l.boxed with
  | false =>
    rw [hb, if_neg Bool.false_ne_true] at h
    subst h
    have : boxedSlots [l] = [] := by simp [boxedSlots, hb]
    rw [this]
    exact .refl _ _
  | true =>
    rw [hb, if_pos rfl] at h
    obtain ⟨ho, rfl⟩ := h
    have : boxedSlots [l] = [l.slot] := by simp [boxedSlots, hb]
    rw [this]
    have hs : l.slot.toNat = slot := by
      rw [hl]
      exact (UInt8.toNat_ofNat').trans (Nat.mod_eq_of_lt (by omega))
    exact .next ho rfl (show l.slot.toNat < height by omega) rfl hfloor rfl (.refl _)

theorem declaresAll_flows {depth height : Nat} {zones : List Zone} : ∀ {names : List String} {slot p p' : Nat}
    {new : List Local} {cells : List UInt8}, S.declaresAll depth names slot p new p' → slot + names.length ≤ height →
    Zone.floor zones ≤ height →
    S.Flows outs p ⟨height, zones, cells, 0⟩ p' ⟨height, zones, boxedSlots new ++ cells, 0⟩
  | [], _, _, _, _, _, ⟨rfl, rfl⟩, _, _ => .refl _ _
  | name :: names, slot, p, p', _, cells, ⟨l, p₁, rest, hl, hrest, rfl⟩, hle, hfloor => by
    rw [List.length_cons] at hle
    rw [boxedSlots_append, List.append_assoc]
    exact (declares_flows hl (by omega) hfloor).trans (declaresAll_flows hrest (by omega) hfloor)

theorem declares_slot {depth slot : Nat} {name : String} {l : Local} (h : S.declares depth name slot p l p') :
    l.slot.toNat = slot := by
  obtain ⟨hle, rfl, -⟩ := h
  exact (UInt8.toNat_ofNat').trans (Nat.mod_eq_of_lt (by omega))

/-- The slots of new locals go up one by one. -/
theorem declaresAll_slots {depth : Nat} : ∀ {names : List String} {slot p p' : Nat} {new : List Local},
    S.declaresAll depth names slot p new p' → new.length = names.length ∧
      (∀ l ∈ new, slot ≤ l.slot.toNat ∧ l.slot.toNat < slot + names.length) ∧
      new.Pairwise fun later earlier => earlier.slot.toNat < later.slot.toNat
  | [], _, _, _, _, ⟨rfl, _⟩ => ⟨rfl, by simp, .nil⟩
  | name :: names, slot, p, p', _, ⟨l, p₁, rest, hl, hrest, rfl⟩ => by
    obtain ⟨hlen, hslots, hsorted⟩ := declaresAll_slots hrest
    have hs := declares_slot hl
    refine ⟨by simp [hlen], fun l' hl' => ?_, ?_⟩
    · rw [List.length_cons]
      rcases List.mem_append.1 hl' with hl' | hl'
      · have := hslots l' hl'
        omega
      · obtain rfl := List.mem_singleton.1 hl'
        omega
    · refine List.pairwise_append.2 ⟨hsorted, List.pairwise_singleton _ _, fun l₁ h₁ l₂ h₂ => ?_⟩
      obtain rfl := List.mem_singleton.1 h₂
      have := hslots l₁ h₁
      omega

/-- The value on top of the stack becomes a local, or its items become several. -/
theorem unpacks_flows {names : List String} {new : List Local} (h : S.unpacks Γ.depth names Γ.height p new p')
    (hΓ : Γ.Sound) : (Γ.grow new).Sound ∧ S.Flows outs p Γ.push.shape p' (Γ.grow new).shape := by
  have hfloor := hΓ.floor_le
  have hshape : (Γ.grow new).shape = ⟨Γ.height + new.length, Γ.zones, boxedSlots new ++ boxedSlots Γ.locals, 0⟩ := by
    simp only [Scope.shape, Scope.grow, boxedSlots_append]
  unfold unpacks at h
  split at h
  · obtain ⟨l, hl, rfl⟩ := h
    have hs := declares_slot hl
    refine ⟨hΓ.grow (fun l' hl' => ?_) (List.pairwise_singleton _ _), ?_⟩
    · obtain rfl := List.mem_singleton.1 hl'
      exact ⟨by omega, by simp [hs]⟩
    · rw [hshape]
      exact declares_flows hl (Nat.lt_succ_self _) (Nat.le_succ_of_le hfloor)
  · obtain ⟨hle, ho, hall⟩ := h
    obtain ⟨hlen, hslots, hsorted⟩ := declaresAll_slots hall
    refine ⟨hΓ.grow (by rwa [hlen]) hsorted, ?_⟩
    have hb : names.length.toUInt8.toNat = names.length := by
      rw [UInt8.toNat_ofNat', Nat.mod_eq_of_lt (by omega)]
    have he : S.effect? ⟨p, .unpack, [names.length.toUInt8]⟩ = some (1, names.length) := by
      show some (1, names.length.toUInt8.toNat) = _
      rw [hb]
    have hunpack : S.Flows outs p Γ.push.shape (p + 2) ⟨Γ.height + names.length, Γ.zones, boxedSlots Γ.locals, 0⟩ := by
      refine .plain ho rfl trivial he (Nat.add_le_add_right hfloor 1) rfl (.of_eq ?_)
      simp [Shape.lift, Scope.shape, Scope.push, Scope.raise]
    rw [hshape, hlen]
    exact hunpack.trans (declaresAll_flows hall (Nat.le_refl _) (by omega))

theorem declaration_flows {names : List String} {value : Part} (h : value.Flows S) :
    (S.declaration names value).Flows S := by
  rintro Γ p Γ' p' ⟨p₁, new, hvalue, hnew, rfl⟩ hΓ
  obtain ⟨hsound, hflow⟩ := unpacks_flows hnew hΓ
  exact ⟨hsound, rfl, (h hvalue hΓ).trans hflow⟩

/-! ## Values from parts -/

/-- An instruction behind its operands. -/
theorem after_flows {parts : Part} {n : Nat} (h : parts.FlowsBy S n) (hop : op.isPlain = true)
    (needs : ∀ p σ, S.Needs ⟨p, op, operands⟩ σ) (effect : ∀ p, S.effect? ⟨p, op, operands⟩ = some (n, 1)) :
    (S.after parts op operands).Flows S := by
  rintro Γ p p' ⟨p₁, hparts, ho, rfl⟩ hΓ
  refine (h hparts hΓ).trans (.plain ho hop (needs _ _) (effect _) ?_ rfl (.of_eq ?_))
  · exact Nat.add_le_add_right hΓ.floor_le n
  · simp [Scope.shape, Scope.raise, Shape.lift]

theorem counted_flows {parts : Part} {count n : Nat} (h : parts.FlowsBy S n) (hop : op.isPlain = true)
    (needs : ∀ p σ, S.Needs ⟨p, op, wordBytes count.toUInt16⟩ σ)
    (effect : ∀ p, count ≤ 65535 → S.effect? ⟨p, op, wordBytes count.toUInt16⟩ = some (n, 1)) :
    (S.counted parts op count).Flows S := by
  rintro Γ p p' ⟨hle, hafter⟩ hΓ
  exact after_flows h hop needs (fun p => effect p hle) hafter hΓ

/-- A scope of its own gives its value and drops its locals. -/
theorem block_flows {items : Layout} (h : items.Flows S) : (S.block items).Flows S := by
  rintro Γ p p' ⟨new, p₁, -, hitems, hdrops⟩ hΓ
  obtain ⟨-, -, hflow⟩ := h hitems hΓ.inner
  have hshape : (Γ.inner.grow new).push.shape =
      ⟨Γ.height + new.length + 1, Γ.zones, boxedSlots new ++ boxedSlots Γ.locals, 0⟩ := by
    simp only [Scope.shape, Scope.push, Scope.raise, Scope.grow, Scope.inner, boxedSlots_append]
  rw [hshape] at hflow
  refine hflow.trans (drops_flows true hdrops hΓ.floor_le (fun _ h => List.mem_append_right _ h) fun h0 => ?_)
  rw [List.length_eq_zero_iff.1 h0]
  rfl

theorem thenNil_flows {code : Layout} (h : code.Flows S) : (S.thenNil code).Flows S := by
  rintro Γ p Γ' p' ⟨Γ₁, p₁, hcode, hnil, rfl⟩ hΓ
  obtain ⟨hΓ₁, hloop, hflow⟩ := h hcode hΓ
  have hnil := nil_flows hnil hΓ₁
  unfold Scope.outs at hnil
  rw [hloop] at hnil
  exact ⟨hΓ₁.raise 1, hloop, hflow.trans hnil⟩

theorem valued_flows {code : Layout} {producesValue : Bool} (h : code.Flows S) :
    (S.valued producesValue code).Flows S := by
  cases producesValue with
  | true =>
    intro Γ p p' hcode hΓ
    exact (h hcode hΓ).2.2
  | false => exact block_flows (thenNil_flows h)

/-! ## Branches -/

/-- Code in front of a jump may jump to the code behind it. -/
theorem Flows.over {r : Nat} {τ σ' : Shape} (h : S.Flows (fun q υ => outs q υ ∨ q = r ∧ υ = τ) p σ r τ)
    (h' : S.Flows outs r τ p' σ') : S.Flows outs p σ p' σ' :=
  (close (h.loosen fun _ _ hq => hq.imp id .inr)).trans h'

theorem shortCircuit_flows {left right : Part} (hop : op = .jumpIf ∨ op = .jumpIfNot) (h : left.Flows S)
    (h' : right.Flows S) : (S.shortCircuit op left right).Flows S := by
  rintro Γ p p' ⟨p₁, p₂, hleft, hj, ho, hright, hcast, rfl⟩ hΓ
  have hfloor := hΓ.floor_le
  have hadmits : (Γ.raise 1).shape.Admits 1 := Nat.add_le_add_right hfloor 1
  have hjump : S.Flows (fun q υ => Γ.outs q υ ∨ q = p₂ ∧ υ = (Γ.raise 1).shape) p₁ (Γ.raise 1).shape (p₁ + 3)
      (Γ.raise 1).shape := by
    have ht : Reaches (fun q υ => Γ.outs q υ ∨ q = p₂ ∧ υ = (Γ.raise 1).shape) p₂ (Γ.raise 1).shape :=
      .of (.inr ⟨rfl, rfl⟩)
    rcases hop with rfl | rfl <;>
      exact .jump hj rfl (fun _ => hadmits) (fun _ => rfl) (hΓ.raise 1).floor_le (fun _ _ => rfl) fun _ => ht
  have hpop : S.Flows Γ.outs (p₁ + 3) (Γ.raise 1).shape (p₁ + 4) Γ.shape :=
    .plain ho rfl trivial rfl hadmits rfl (.refl _)
  have hcast : S.Flows Γ.outs p₂ (Γ.raise 1).shape (p₂ + 2) (Γ.raise 1).shape :=
    .plain hcast rfl (show (Kind.ofTag? Kind.boolean.tag).isSome from rfl) rfl hadmits rfl (.refl _)
  have hskip := (hjump.trans (hpop.loosen fun _ _ h => .inl h)).trans ((h' hright hΓ).loosen fun _ _ h => .inl h)
  exact (h hleft hΓ).trans (hskip.over hcast)

theorem branch_flows {condition yes no : Part} (hc : condition.Flows S) (hy : yes.Flows S) (hn : no.Flows S) :
    (S.branch condition yes no).Flows S := by
  rintro Γ p p' ⟨p₁, p₂, hcondition, hj, hyes, hj', hno⟩ hΓ
  have hfloor := hΓ.floor_le
  have htest : S.Flows (fun q υ => Γ.outs q υ ∨ q = p₂ + 3 ∧ υ = Γ.shape) p₁ (Γ.raise 1).shape (p₁ + 3) Γ.shape :=
    .jump hj rfl (fun _ => trivial) (fun _ => rfl) (Nat.add_le_add_right hfloor 1) (fun _ _ => rfl)
      fun _ => .of (.inr ⟨rfl, rfl⟩)
  have hskip : S.Flows (fun q υ => Γ.outs q υ ∨ q = p' ∧ υ = (Γ.raise 1).shape) p₂ (Γ.raise 1).shape (p₂ + 3) Γ.shape :=
    .jump hj' rfl (fun _ => trivial) (fun _ => rfl) (hΓ.raise 1).floor_le (fun h => by cases h)
      fun _ => .of (.inr ⟨rfl, rfl⟩)
  refine (hc hcondition hΓ).trans (.close ?_)
  refine Flows.over (r := p₂ + 3) ((htest.loosen ?_).trans (((hy hyes hΓ).loosen ?_).trans (hskip.loosen ?_)))
    ((hn hno hΓ).loosen fun _ _ h => .inl h)
  · exact fun _ _ h => h.imp .inl id
  · exact fun _ _ h => .inl (.inl h)
  · exact fun _ _ h => .inl (h.imp id .inr)

/-! ## Loops -/

/-- Everything outside of a loop is out of reach in its body, and its condition does not need it. -/
theorem loop_flows {condition body : Part} (hc : condition.Flows S) (hb : body.Flows S) :
    (S.loop condition body).Flows S := by
  rintro Γ p Γ' p' ⟨p₁, p₂, hcondition, hj, hbody, ho, hj', rfl, rfl⟩ hΓ
  have hfloor := hΓ.floor_le
  have htest : S.Flows (Γ'.within ⟨p, p₂ + 4, Γ'.shape⟩).outs p₁ (Γ'.raise 1).shape (p₁ + 3) Γ'.shape :=
    .jump hj rfl (fun _ => trivial) (fun _ => rfl) (Nat.add_le_add_right hfloor 1) (fun _ _ => rfl)
      fun _ => .of ⟨_, rfl, .inr rfl, rfl⟩
  have hpop : S.Flows (Γ'.within ⟨p, p₂ + 4, Γ'.shape⟩).outs p₂ (Γ'.raise 1).shape (p₂ + 1) Γ'.shape :=
    .plain ho rfl trivial rfl (Nat.add_le_add_right hfloor 1) rfl (.refl _)
  have hback : S.Flows (Γ'.within ⟨p, p₂ + 4, Γ'.shape⟩).outs (p₂ + 1) Γ'.shape (p₂ + 4) Γ'.shape :=
    .jump hj' rfl (fun _ => trivial) (fun _ => rfl) hfloor (fun h => by cases h) fun _ => .of ⟨_, rfl, .inl rfl, rfl⟩
  have hrest := htest.trans ((hb hbody (hΓ.within p (p₂ + 4))).trans (hpop.trans hback))
  refine ⟨hΓ, rfl, .close (((hc hcondition hΓ).loosen fun _ _ h => .inl h).trans (hrest.loosen ?_))⟩
  rintro q υ ⟨_, ⟨⟩, hq, rfl⟩
  exact .inr (hq.imp (⟨·, rfl⟩) (⟨·, rfl⟩))

theorem each_flows {names : List String} {iterable body : Part} (hi : iterable.Flows S) (hb : body.Flows S) :
    (S.each names iterable body).Flows S := by
  rintro Γ p Γ' p' ⟨p₁, new, p₂, p₃, p₄, hiterable, ho, hj, hnew, hbody, hpop, hdrops, hj', hend, rfl, rfl⟩ hΓ
  have hfloor := hΓ.floor_le
  have hin : (Γ'.enter .each).Sound := hΓ.enter (show Zone.Nested Γ'.height Γ'.zones from hΓ.nested)
  have hround : (eachScope Γ' (p₁ + 1) (p₄ + 3)).Sound := (hin.within _ _).inner
  have hstart : S.Flows Γ'.outs p₁ (Γ'.raise 1).shape (p₁ + 1) (Γ'.enter .each).shape :=
    .next ho rfl trivial rfl (Nat.add_le_add_right hfloor 1) rfl (.refl _)
  have hnext : S.Flows (eachScope Γ' (p₁ + 1) (p₄ + 3)).outs (p₁ + 1) (Γ'.enter .each).shape (p₁ + 4)
      (eachScope Γ' (p₁ + 1) (p₄ + 3)).push.shape :=
    .jump hj rfl (fun _ => ⟨_, rfl⟩) (fun _ => rfl) hfloor (fun _ _ => rfl) fun _ => .of ⟨_, rfl, .inr rfl, rfl⟩
  obtain ⟨hgrown, hunpack⟩ := unpacks_flows (S := S) (Γ := eachScope Γ' (p₁ + 1) (p₄ + 3)) hnew hround
  have hbody : S.Flows (eachScope Γ' (p₁ + 1) (p₄ + 3)).outs p₂ ((eachScope Γ' (p₁ + 1) (p₄ + 3)).grow new).shape p₃
      (((eachScope Γ' (p₁ + 1) (p₄ + 3)).grow new).raise 1).shape := hb hbody hgrown
  have hpop : S.Flows (eachScope Γ' (p₁ + 1) (p₄ + 3)).outs p₃
      (((eachScope Γ' (p₁ + 1) (p₄ + 3)).grow new).raise 1).shape (p₃ + 1)
      ((eachScope Γ' (p₁ + 1) (p₄ + 3)).grow new).shape :=
    .plain hpop rfl trivial rfl (Nat.add_le_add_right hgrown.floor_le 1) rfl (.refl _)
  have hdrops : S.Flows (eachScope Γ' (p₁ + 1) (p₄ + 3)).outs (p₃ + 1)
      ((eachScope Γ' (p₁ + 1) (p₄ + 3)).grow new).shape p₄ (Γ'.enter .each).shape := by
    refine drops_flows false hdrops hfloor (fun s hs => ?_) fun h0 => ?_
    · show s ∈ boxedSlots (new ++ Γ'.locals)
      rw [boxedSlots_append]
      exact List.mem_append_right _ hs
    · rw [List.length_eq_zero_iff.1 h0]
      rfl
  have hback : S.Flows (eachScope Γ' (p₁ + 1) (p₄ + 3)).outs p₄ (Γ'.enter .each).shape (p₄ + 3)
      (Γ'.enter .each).shape :=
    .jump hj' rfl (fun _ => trivial) (fun _ => rfl) hfloor (fun h => by cases h) fun _ => .of ⟨_, rfl, .inl rfl, rfl⟩
  have hend : S.Flows Γ'.outs (p₄ + 3) (Γ'.enter .each).shape (p₄ + 4) Γ'.shape :=
    .next hend rfl ⟨_, rfl⟩ rfl hfloor rfl (.refl _)
  have hrounds : S.Flows Γ'.outs (p₁ + 1) (Γ'.enter .each).shape (p₄ + 3) (Γ'.enter .each).shape := by
    refine .close ((hnext.trans (hunpack.trans (hbody.trans (hpop.trans (hdrops.trans hback))))).loosen ?_)
    rintro q υ ⟨_, ⟨⟩, hq, rfl⟩
    exact .inr (hq.imp (⟨·, rfl⟩) (⟨·, rfl⟩))
  exact ⟨hΓ, rfl, (hi hiterable hΓ).trans (hstart.trans (hrounds.trans hend))⟩

/-- Zones are closed and values are dropped, down to the shape of the loop, up to cells. -/
theorem unwinds_flows {l : Loop} (h : S.unwinds Γ l p p') (hΓ : Γ.Sound) (hl : l.Around Γ) :
    S.Flows outs p Γ.shape p' { l.shape with cells := boxedSlots Γ.locals } := by
  obtain ⟨inner, p₁, hzones, hcloses, hdrops⟩ := h
  have hnested := hΓ.nested
  have hheight := hl.height
  rw [hzones] at hnested
  have hcloses : S.Flows outs p Γ.shape p₁ ⟨Γ.height, l.shape.zones, boxedSlots Γ.locals, 0⟩ := by
    unfold Scope.shape
    rw [hzones]
    exact closes_flows hcloses hnested
  have hdrops : S.Flows outs p₁ ⟨l.shape.height + (Γ.height - l.shape.height), l.shape.zones, boxedSlots Γ.locals, 0⟩ p'
      ⟨l.shape.height, l.shape.zones, boxedSlots Γ.locals, 0⟩ :=
    drops_flows false hdrops hl.nested.floor_le (fun _ h => h) fun _ => rfl
  rw [Nat.add_sub_cancel' hheight] at hdrops
  have hshape : { l.shape with cells := boxedSlots Γ.locals } =
      (⟨l.shape.height, l.shape.zones, boxedSlots Γ.locals, 0⟩ : Shape) := by
    show (⟨l.shape.height, l.shape.zones, boxedSlots Γ.locals, l.shape.pending⟩ : Shape) = _
    rw [hl.pending]
  rw [hshape]
  exact hcloses.trans hdrops

/-- A jump to an end of the innermost loop. -/
theorem exit_flows {l : Loop} {t p₁ : Nat} (hl : Γ.loop? = some l) (hu : S.unwinds Γ l p p₁) (hj : S.Jumps p₁ op t)
    (hop : op = .jump ∨ op = .jumpBackward) (ht : t = l.start ∨ t = l.exit) (hΓ : Γ.Sound) :
    S.Flows Γ.outs p Γ.shape (p₁ + 3) Γ.shape := by
  have haround := hΓ.loop l hl
  refine (unwinds_flows hu hΓ haround).trans ?_
  have ht : Reaches Γ.outs t { l.shape with cells := boxedSlots Γ.locals } :=
    ⟨l.shape, ⟨l, hl, ht, rfl⟩, l.shape.cells, haround.cells, rfl⟩
  rcases hop with rfl | rfl <;>
    exact .jump hj rfl (fun _ => trivial) (fun _ => rfl) haround.nested.floor_le (fun h => by cases h) fun _ => ht

theorem leaveLoop_flows : S.leaveLoop.Flows S := by
  rintro Γ p Γ' p' ⟨l, p₁, hl, hu, hj, rfl, rfl⟩ hΓ
  exact ⟨hΓ, rfl, exit_flows hl hu hj (.inl rfl) (.inr rfl) hΓ⟩

theorem nextRound_flows : S.nextRound.Flows S := by
  rintro Γ p Γ' p' ⟨l, p₁, hl, hu, hj, rfl, rfl⟩ hΓ
  exact ⟨hΓ, rfl, exit_flows hl hu hj (.inr rfl) (.inl rfl) hΓ⟩

theorem leavePage_flows {value : Part} (h : value.Flows S) : (S.leavePage value).Flows S := by
  rintro Γ p Γ' p' ⟨p₁, p₂, p₃, hvalue, hcloses, hdrops, ho, rfl, rfl⟩ hΓ
  have hcloses : S.Flows Γ'.outs p₁ ⟨Γ'.height + 1, Γ'.zones ++ [], boxedSlots Γ'.locals, 0⟩ p₂
      ⟨Γ'.height + 1, [], boxedSlots Γ'.locals, 0⟩ :=
    closes_flows hcloses (by rw [List.append_nil]; exact (hΓ.raise 1).nested)
  have hdrops : S.Flows Γ'.outs p₂ ⟨0 + Γ'.height + 1, [], boxedSlots Γ'.locals, 0⟩ p₃
      ⟨0 + 1, [], boxedSlots Γ'.locals, 0⟩ :=
    drops_flows true hdrops (Nat.zero_le _) (fun _ h => h) fun _ => rfl
  have hret : S.Flows Γ'.outs p₃ ⟨1, [], boxedSlots Γ'.locals, 0⟩ (p₃ + 1) Γ'.shape := by
    refine .single ho rfl fun Λ _ _ _ => ⟨⟨rfl, rfl⟩, 0, 0, rfl, Nat.zero_le _, ?_, ?_⟩
    · intro h
      cases h
    · intro h
      cases h
  rw [List.append_nil] at hcloses
  rw [Nat.zero_add] at hdrops
  exact ⟨hΓ, rfl, (h hvalue hΓ).trans (hcloses.trans (hdrops.trans hret))⟩

/-! ## Regions -/

/-- A handler takes the error that it finds. -/
theorem handles_flows {binding? : Option String} {handler : Part} (h : handler.Flows S)
    (hh : S.handles binding? handler Γ p p') (hΓ : Γ.Sound) :
    S.Flows Γ.outs p (Γ.raise 1).shape p' (Γ.raise 1).shape := by
  unfold handles at hh
  split at hh
  · next name =>
    obtain ⟨l, p₁, p₂, hl, hhandler, hdrops⟩ := hh
    have hunpacks : S.unpacks Γ.inner.depth [name] Γ.inner.height p [l] p₁ := ⟨l, hl, rfl⟩
    obtain ⟨hgrown, hdeclare⟩ : (Γ.inner.grow [l]).Sound ∧
        S.Flows Γ.outs p (Γ.raise 1).shape p₁ (Γ.inner.grow [l]).shape :=
      unpacks_flows (Γ := Γ.inner) hunpacks hΓ.inner
    have hhandler : S.Flows Γ.outs p₁ (Γ.inner.grow [l]).shape p₂ ((Γ.inner.grow [l]).raise 1).shape :=
      h hhandler hgrown
    have hdrops : S.Flows Γ.outs p₂ ((Γ.inner.grow [l]).raise 1).shape p' (Γ.raise 1).shape := by
      refine drops_flows true hdrops hΓ.floor_le (fun s hs => ?_) fun h0 => by cases h0
      show s ∈ boxedSlots ([l] ++ Γ.locals)
      rw [boxedSlots_append]
      exact List.mem_append_right _ hs
    exact hdeclare.trans (hhandler.trans hdrops)
  · obtain ⟨ho, hhandler⟩ := hh
    have hpop : S.Flows Γ.outs p (Γ.raise 1).shape (p + 1) Γ.shape :=
      .plain ho rfl trivial rfl (Nat.add_le_add_right hΓ.floor_le 1) rfl (.refl _)
    exact hpop.trans (h hhandler hΓ)

theorem attempt_flows {body handler : Part} {binding? : Option String} (h : body.Flows S) (h' : handler.Flows S) :
    (S.attempt body binding? handler).Flows S := by
  rintro Γ p p' ⟨p₁, hj, hbody, ho, hj', hhandles⟩ hΓ
  have hfloor := hΓ.floor_le
  have hin : (Γ.enter (.attempt Γ.height)).Sound := hΓ.enter ⟨Nat.le_refl _, hΓ.nested⟩
  have htry : S.Flows (fun q υ => Γ.outs q υ ∨ q = p₁ + 4 ∧ υ = (Γ.raise 1).shape) p Γ.shape (p + 3)
      (Γ.enter (.attempt Γ.height)).shape :=
    .jump hj rfl (fun _ => rfl) (fun _ => rfl) hfloor (fun _ _ => rfl) fun _ => .of (.inr ⟨rfl, rfl⟩)
  have hbody : S.Flows Γ.outs (p + 3) (Γ.enter (.attempt Γ.height)).shape p₁
      ((Γ.enter (.attempt Γ.height)).raise 1).shape := h hbody hin
  have hend : S.Flows Γ.outs p₁ ((Γ.enter (.attempt Γ.height)).raise 1).shape (p₁ + 1) (Γ.raise 1).shape :=
    .next ho rfl ⟨_, _, rfl⟩ rfl (hin.raise 1).floor_le rfl (.refl _)
  have hskip : S.Flows (fun q υ => Γ.outs q υ ∨ q = p' ∧ υ = (Γ.raise 1).shape) (p₁ + 1) (Γ.raise 1).shape (p₁ + 4)
      (Γ.raise 1).shape :=
    .jump hj' rfl (fun _ => trivial) (fun _ => rfl) (hΓ.raise 1).floor_le (fun h => by cases h)
      fun _ => .of (.inr ⟨rfl, rfl⟩)
  refine .close
    (Flows.over ((htry.loosen ?_).trans ((hbody.loosen ?_).trans ((hend.loosen ?_).trans (hskip.loosen ?_))))
    ((handles_flows h' hhandles hΓ).loosen fun _ _ h => .inl h))
  · exact fun _ _ h => h.imp .inl id
  · exact fun _ _ h => .inl (.inl h)
  · exact fun _ _ h => .inl (.inl h)
  · exact fun _ _ h => .inl (h.imp id .inr)

/-! ## Variables and closures -/

theorem place_cell {name : String} {slot : UInt8} (h : S.place? Γ name = some (.cell slot)) (hΓ : Γ.Sound) :
    slot.toNat < Γ.height ∧ slot ∈ boxedSlots Γ.locals := by
  unfold place? at h
  split at h
  · next l hl =>
    have hmem := List.mem_of_find?_eq_some hl
    cases hb : l.boxed with
    | false => simp [hb] at h
    | true =>
      obtain rfl : l.slot = slot := by simpa [hb] using h
      exact ⟨hΓ.slots l hmem, List.mem_map.2 ⟨l, List.mem_filter.2 ⟨hmem, hb⟩, rfl⟩⟩
  · split at h
    · split at h <;> cases h
    · cases h

theorem place_slot {name : String} {slot : UInt8} (h : S.place? Γ name = some (.slot slot)) (hΓ : Γ.Sound) :
    slot.toNat < Γ.height := by
  unfold place? at h
  split at h
  · next l hl =>
    cases hb : l.boxed with
    | true => simp [hb] at h
    | false =>
      obtain rfl : l.slot = slot := by simpa [hb] using h
      exact hΓ.slots l (List.mem_of_find?_eq_some hl)
  · split at h
    · split at h <;> cases h
    · cases h

theorem place_capture {name : String} {i : UInt8} (h : S.place? Γ name = some (.capture i)) :
    i.toNat < S.captures.length := by
  unfold place? at h
  split at h
  · next l _ => cases hb : l.boxed <;> simp [hb] at h
  · split at h
    · next j hj =>
      split at h
      · cases h
        have hlt := (List.findIdx?_eq_some_iff_getElem.1 hj).1
        have hle : j % 2 ^ 8 ≤ j := Nat.mod_le _ _
        rw [UInt8.toNat_ofNat']
        omega
      · cases h
    · cases h

theorem load_flows (name : String) : Part.Flows (fun Γ p p' =>
    ∃ place, S.place? Γ name = some place ∧ S.Has p place.loadOp [place.operand] ∧ p' = p + 2) S := by
  rintro Γ p p' ⟨place, hp, ho, rfl⟩ hΓ
  cases place with
  | slot s => exact .plain ho rfl (place_slot hp hΓ) rfl hΓ.floor_le rfl (.refl _)
  | cell s => exact .plain ho rfl (place_cell hp hΓ) rfl hΓ.floor_le rfl (.refl _)
  | capture i => exact .plain ho rfl (place_capture hp) rfl hΓ.floor_le rfl (.refl _)

theorem store_flows {value : Part} (name : String) (h : value.Flows S) : Part.Flows (fun Γ p p' =>
    ∃ place, S.place? Γ name = some place ∧ S.after value place.storeOp [place.operand] Γ p p') S := by
  rintro Γ p p' ⟨place, hp, p₁, hvalue, ho, rfl⟩ hΓ
  have hadmits : (Γ.raise 1).shape.Admits 1 := Nat.add_le_add_right hΓ.floor_le 1
  refine (h hvalue hΓ).trans ?_
  cases place with
  | slot s => exact .plain ho rfl (Nat.lt_succ_of_lt (place_slot hp hΓ)) rfl hadmits rfl (.refl _)
  | cell s =>
    obtain ⟨hlt, hmem⟩ := place_cell hp hΓ
    exact .plain ho rfl ⟨Nat.lt_succ_of_lt hlt, hmem⟩ rfl hadmits rfl (.refl _)
  | capture i => exact .plain ho rfl (place_capture hp) rfl hadmits rfl (.refl _)

/-- Cells are put aside one by one. -/
theorem putsAll_flows : ∀ {names : List String} {p p' n : Nat}, S.putsAll Γ names p p' → Γ.Sound →
    S.Flows outs p { Γ.shape with pending := n } p' { Γ.shape with pending := n + names.length }
  | [], p, p', n, h, _ => by
    obtain rfl : p' = p := h
    exact .refl _ _
  | name :: names, p, p', n, ⟨hputs, hrest⟩, hΓ => by
    have hput : S.Flows outs p { Γ.shape with pending := n } (p + 2) { Γ.shape with pending := n + 1 } := by
      rcases hputs with ⟨slot, hp, ho⟩ | ⟨i, hp, ho⟩
      · exact .next ho rfl (place_cell hp hΓ) rfl hΓ.floor_le rfl (.refl _)
      · exact .next ho rfl (place_capture hp) rfl hΓ.floor_le rfl (.refl _)
    have hrest := putsAll_flows (n := n + 1) hrest hΓ
    rw [List.length_cons, Nat.add_comm names.length 1, ← Nat.add_assoc]
    exact hput.trans hrest

theorem closure_flows {captures : List String} {body : Page → Prop}
    (h : ∀ page, body page → S.program.Laid S.functions page captures.length) : (S.closure captures body).Flows S := by
  rintro Γ p p' ⟨p₁, key, index, page, hputs, hle, hk, ho, rfl, hpage, hbody⟩ hΓ
  have hb : captures.length.toUInt8.toNat = captures.length := by rw [UInt8.toNat_ofNat', Nat.mod_eq_of_lt (by omega)]
  have hputs : S.Flows Γ.outs p Γ.shape p₁ { Γ.shape with pending := 0 + captures.length } := putsAll_flows hputs hΓ
  rw [Nat.zero_add] at hputs
  refine hputs.trans (.next ho rfl ⟨?_, index, ?_, page, hpage, ?_⟩ rfl hΓ.floor_le rfl (.of_eq ?_))
  · exact Nat.le_of_eq hb
  · rw [Instruction.word_wordBytes]
    exact hk
  · show S.program.Laid S.functions page captures.length.toUInt8.toNat
    rw [hb]
    exact h page hbody
  · show (⟨Γ.height + 1, Γ.zones, boxedSlots Γ.locals, 0⟩ : Shape) =
      ⟨Γ.height + 1, Γ.zones, boxedSlots Γ.locals, captures.length - captures.length.toUInt8.toNat⟩
    rw [hb, Nat.sub_self]

/-! ## Calls -/

theorem call_flows {root : Bool} {count : Nat} {arguments : Part} (h : arguments.FlowsBy S count)
    (hcall : S.call root count arguments Γ p p') (hΓ : Γ.Sound) :
    S.Flows Γ.outs p (Γ.raise 1).shape p' (Γ.raise 1).shape := by
  obtain ⟨p₁, harguments, hle, ho, rfl⟩ := hcall
  have harguments : S.Flows Γ.outs p (Γ.raise 1).shape p₁ ((Γ.raise 1).raise count).shape := h harguments (hΓ.raise 1)
  have hb : count.toUInt8.toNat = count := by rw [UInt8.toNat_ofNat', Nat.mod_eq_of_lt (by omega)]
  have hop : (S.callOp root .call .rootCall .maybeRootCall).isPlain = true ∧
      S.Needs ⟨p₁, S.callOp root .call .rootCall .maybeRootCall, [count.toUInt8]⟩ ((Γ.raise 1).raise count).shape ∧
      S.effect? ⟨p₁, S.callOp root .call .rootCall .maybeRootCall, [count.toUInt8]⟩ = some (count + 1, 1) := by
    rw [← hb]
    unfold callOp
    cases root <;> cases hentry : S.isEntry <;>
      exact ⟨rfl, by simp [Needs, hentry, Scope.shape, Scope.raise], by simp [effect?, Op.stackEffect?]⟩
  have hfloor := hΓ.floor_le
  refine harguments.trans (.plain ho hop.1 hop.2.1 hop.2.2 ?_ rfl (.of_eq ?_))
  · show Zone.floor Γ.zones + (count + 1) ≤ Γ.height + 1 + count
    omega
  · simp only [Scope.shape, Scope.raise, Shape.lift, Shape.mk.injEq, and_true]
    omega

theorem libraryCall_flows {f : LibraryFunction} {count : Nat} {arguments : Part} (h : arguments.FlowsBy S count) :
    (S.libraryCall f count arguments).Flows S := by
  rintro Γ p p' ⟨p₁, key, index, entry, hk, he, hf, harguments, hle, ho, rfl⟩ hΓ
  have hb : count.toUInt8.toNat = count := by rw [UInt8.toNat_ofNat', Nat.mod_eq_of_lt (by omega)]
  have heffect : S.effect? ⟨p₁, .callStd, wordBytes key ++ [count.toUInt8]⟩ = some (count, 1) := by
    show some (count.toUInt8.toNat, 1) = _
    rw [hb]
  refine (h harguments hΓ).trans (.plain ho rfl ⟨index, entry, f, ?_, he, hf⟩ heffect ?_ rfl (.of_eq ?_))
  · rw [Instruction.word_wordBytes]
    exact hk
  · exact Nat.add_le_add_right hΓ.floor_le count
  · simp [Scope.shape, Scope.raise, Shape.lift]

theorem programCall_flows {settings : ProgramSettings} {root : Bool} {count pairs : Nat} {name arguments : Part}
    (piped? : Option Part) {environment : Part} (hn : name.Flows S) (ha : arguments.FlowsBy S count)
    (hp : ∀ piped, piped? = some piped → piped.Flows S) (he : environment.FlowsBy S (pairs * 2)) :
    (S.programCall settings root count pairs name arguments piped? environment).Flows S := by
  rintro Γ p p' ⟨p₁, p₂, p₃, p₄, hname, harguments, hpiped, henvironment, hle, hle', ho, rfl⟩ hΓ
  have hfloor := hΓ.floor_le
  have harguments : S.Flows Γ.outs p₁ (Γ.raise 1).shape p₂ (Γ.raise (1 + count)).shape := by
    rw [← Scope.raise_raise]
    exact ha harguments (hΓ.raise 1)
  have hpiped : S.Flows Γ.outs p₂ (Γ.raise (1 + count)).shape p₃
      (Γ.raise (1 + count + if piped?.isSome then 1 else 0)).shape := by
    cases piped? with
    | some piped =>
      have h : S.Flows Γ.outs p₂ (Γ.raise (1 + count)).shape p₃ ((Γ.raise (1 + count)).raise 1).shape :=
        hp piped rfl hpiped (hΓ.raise _)
      rwa [Scope.raise_raise] at h
    | none =>
      obtain rfl : p₃ = p₂ := hpiped
      exact .refl _ _
  have henvironment : S.Flows Γ.outs p₃ (Γ.raise (1 + count + if piped?.isSome then 1 else 0)).shape p₄
      (Γ.raise (1 + count + (if piped?.isSome then 1 else 0) + pairs * 2)).shape := by
    have h := he henvironment (hΓ.raise _)
    rwa [Scope.raise_raise] at h
  have hop : S.callOp root .callProgram .rootCallProgram .maybeRootCallProgram = .callProgram ∨
      S.callOp root .callProgram .rootCallProgram .maybeRootCallProgram = .rootCallProgram ∨
      S.callOp root .callProgram .rootCallProgram .maybeRootCallProgram = .maybeRootCallProgram := by
    unfold callOp
    cases root <;> cases S.isEntry <;> simp
  obtain ⟨-, heffect⟩ := programCall_effect hop count.toUInt8 pairs.toUInt8
    ((Emit.programFlags settings).withIf .piped piped?.isSome).bits
  have hb : count.toUInt8.toNat = count := by rw [UInt8.toNat_ofNat', Nat.mod_eq_of_lt (by omega)]
  have hb' : pairs.toUInt8.toNat = pairs := by rw [UInt8.toNat_ofNat', Nat.mod_eq_of_lt (by omega)]
  have hc : CallFlags.contains ⟨((Emit.programFlags settings).withIf .piped piped?.isSome).bits⟩ .piped =
      piped?.isSome := contains_piped settings _
  have hsome : piped?.isSome.toNat = if piped?.isSome then 1 else 0 := by cases piped?.isSome <;> rfl
  rw [hb, hb', hc, hsome] at heffect
  have hplain : (S.callOp root .callProgram .rootCallProgram .maybeRootCallProgram).isPlain = true ∧
      (∀ i σ, i.op = S.callOp root .callProgram .rootCallProgram .maybeRootCallProgram → S.Needs i σ) ∧
      (∀ i, i.op = S.callOp root .callProgram .rootCallProgram .maybeRootCallProgram →
        S.effect? i = i.op.stackEffect? i.operands) := by
    refine ⟨?_, fun i σ hi => ?_, fun i hi => ?_⟩
    · rcases hop with h | h | h <;> rw [h] <;> rfl
    · unfold callOp at hi
      unfold Needs
      rw [hi]
      cases root <;> cases hentry : S.isEntry <;> trivial
    · unfold effect?
      rcases hop with h | h | h <;> rw [hi, h]
  refine (hn hname hΓ).trans (harguments.trans (hpiped.trans (henvironment.trans
    (.plain ho hplain.1 (hplain.2.1 _ _ rfl) ((hplain.2.2 _ rfl).trans heffect) ?_ rfl (.of_eq ?_)))))
  · show Zone.floor Γ.zones + _ ≤ Γ.height + _
    omega
  · simp only [Scope.shape, Scope.raise, Shape.lift, Shape.mk.injEq, and_true]
    omega

/-! ## Pages -/

/-- Control flows through a page from its first instruction up to its end. -/
theorem holds_flows {parameters : List String} {body : Part} (hb : body.Flows S) (h : S.Holds parameters body) :
    S.Flows (fun _ _ => False) 0 ⟨S.page.arity.toNat, [], [], 0⟩ S.page.code.size ⟨1, [], [], 0⟩ := by
  obtain ⟨harity, new, p₁, p₂, hnew, hbody, hdrops⟩ := h
  rw [harity]
  obtain ⟨hlen, hslots, hsorted⟩ := declaresAll_slots hnew
  have hΓ : (bodyScope new parameters.length).Sound := by
    refine ⟨fun l hl => ?_, hsorted, trivial, fun l hl => by cases hl⟩
    have := hslots l hl
    simp only [bodyScope]
    omega
  have hdeclares : S.Flows (fun _ _ => False) 0 ⟨parameters.length, [], [], 0⟩ p₁
      ⟨parameters.length, [], boxedSlots new ++ [], 0⟩ :=
    declaresAll_flows hnew (Nat.le_of_eq (Nat.zero_add _)) (Nat.zero_le _)
  rw [List.append_nil] at hdeclares
  have hbody : S.Flows (fun _ _ => False) p₁ ⟨parameters.length, [], boxedSlots new, 0⟩ p₂
      ⟨0 + parameters.length + 1, [], boxedSlots new, 0⟩ := by
    rw [Nat.zero_add]
    refine (hb hbody hΓ).loosen ?_
    rintro q υ ⟨_, ⟨⟩, _⟩
  have hdrops : S.Flows (fun _ _ => False) p₂ ⟨0 + parameters.length + 1, [], boxedSlots new, 0⟩ S.page.code.size
      ⟨1, [], [], 0⟩ := by
    refine drops_flows true hdrops (Nat.zero_le _) (fun s hs => by cases hs) fun h0 => ?_
    rw [List.length_eq_zero_iff.1 (hlen.trans h0)]
    rfl
  exact hdeclares.trans (hbody.trans hdrops)

end Sheet

end ShellVM
