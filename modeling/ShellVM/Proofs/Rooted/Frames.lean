import ShellVM.Proofs.Capture.Step
import ShellVM.Proofs.Direct.Respects
import ShellVM.Proofs.Rooted.Page

/-!
# Root calls nest

A call is a root call only if its caller is one: an instruction that makes a root call of its own accord stands in the
page of an entry, the outermost call alone runs such a page, and it is a root call (`Ranked`). Turns keep that
(`Ranked.turn`), as control never leaves the places that it may get to (`Machine.Placed.turn`), and no function has
the page of an entry.
-/

namespace ShellVM

variable {host : Host} {program : Program} {page : Page} {i : Instruction} {m s : Machine} {f g : Frame}
  {rest : List Frame}

/-! ## What becomes of calls -/

/-- An instruction leads its call to another place, and may start a call on top of it. -/
theorem Does.frames (h : Does page i m f rest s) :
    (∃ f', s.frames = f' :: rest ∧ f'.call = f.call ∧ i.LeadsTo page f'.ip) ∨
      ∃ g v, s.frames = g :: { f with ip := i.next } :: rest ∧ i.op.falls = true ∧ v ∈ m.stack ∧
        v.Runs g.page g.environment? ∧ g.ip = 0 ∧ i.Roots f g.isRoot := by
  have falls {f' : Frame} (hframes : s.frames = f' :: rest) (hcall : f'.call = f.call) (hip : f'.ip = i.next)
      (hfalls : i.op.falls = true) : ∃ f', s.frames = f' :: rest ∧ f'.call = f.call ∧ i.LeadsTo page f'.ip :=
    ⟨f', hframes, hcall, .inl ⟨hfalls, hip⟩⟩
  cases h with
  | goes q _ _ place tracked => exact .inl ⟨_, congrArg Prod.fst tracked, rfl, place.elim .inl fun h => .inr (.inl h)⟩
  | returns _ tracked => exact .inl ⟨_, congrArg Prod.fst tracked, rfl, .inr (.inr rfl)⟩
  | enters g v _ _ hfalls callee runs start _ roots tracked =>
    exact .inr ⟨g, v, congrArg Prod.fst tracked, hfalls, callee, runs, start, roots⟩
  | loads _ hop _ _ tracked | stores _ _ hop _ _ tracked | puts _ hop _ tracked =>
    exact .inl (falls (congrArg Prod.fst tracked) rfl rfl (by rcases hop with hop | hop <;> rw [hop] <;> rfl))
  | makes _ hop _ tracked | closes _ hop _ _ _ tracked | opens _ hop _ _ tracked | ends _ _ hop _ tracked =>
    exact .inl (falls (congrArg Prod.fst tracked) rfl rfl (by rw [hop]; rfl))

theorem Act.enter_frames {index : UInt16} {environment? : Option Addr} {count : Nat} {isRoot : Bool}
    (h : enter host program index environment? count isRoot m = .ok () s) : s.handlers = m.handlers ∧
      ∃ base, s.frames = .new index base isRoot environment? :: m.frames := by
  unfold enter at h
  cases hpage : program.page? index with
  | none =>
    rw [hpage] at h
    cases h
  | some page =>
    rw [hpage] at h
    change (if count ≠ page.arity.toNat then _ else if host.callDepth ≤ m.frames.length then _ else
      if m.stack.size < count then _ else _ : Act Unit) m = _ at h
    split at h
    · cases h
    split at h
    · cases h
    split at h
    · cases h
    · cases h
      exact ⟨rfl, _, rfl⟩

/-- Calling a value starts at most a call of the function that it is. -/
theorem Act.call_frames [host.Lawful] {callee : Value} {count : Nat} {isRoot : Bool}
    (h : call host program callee count isRoot m = .ok () s) : s.handlers = m.handlers ∧ (s.frames = m.frames ∨
      ∃ index base environment?, s.frames = .new index base isRoot environment? :: m.frames ∧
        callee.Runs index environment?) := by
  unfold call at h
  split at h
  · next index name =>
    obtain ⟨hhandlers, base, hframes⟩ := enter_frames h
    exact ⟨hhandlers, .inr ⟨index, base, none, hframes, .inl ⟨name, rfl, rfl⟩⟩⟩
  · next index environment =>
    obtain ⟨hhandlers, base, hframes⟩ := enter_frames h
    exact ⟨hhandlers, .inr ⟨index, base, some environment, hframes, .inr ⟨environment, rfl, rfl⟩⟩⟩
  · next f =>
    have hspares : (callLibrary host f count).Spares := callLibrary_spares f count
    have htracked := hspares m
    rw [h] at htracked
    obtain ⟨hframes, hhandlers, -⟩ := Machine.of_tracked (show s.tracked = m.tracked from htracked)
    exact ⟨hhandlers, .inl hframes⟩
  · cases h

/-! ## Where calls are -/

/-- Control may get to where the call is. -/
def Frame.Placed (program : Program) (f : Frame) : Prop :=
  ∀ page, program.page? f.page = some page → page.Reaches f.ip

theorem Frame.Placed.new (index : UInt16) (base : Nat) (isRoot : Bool) (environment? : Option Addr) :
    (Frame.new index base isRoot environment?).Placed program := fun _ _ => .start

/-- Control gets from where the call is to where the next instruction leads. -/
theorem Frame.Placed.lead (hf : f.Placed program) (hframes : m.frames = f :: rest)
    (hpage : program.page? f.page = some page) (hnext : m.next? program = some i) (hg : g.page = f.page)
    (h : i.LeadsTo page g.ip) : g.Placed program := by
  intro page' hpage'
  rw [hg] at hpage'
  obtain rfl := Option.some.inj (hpage.symm.trans hpage')
  obtain ⟨hoffset, hreads⟩ := Machine.reads_next hnext hframes hpage
  exact .lead (hoffset ▸ hf page hpage) (hoffset ▸ hreads) h

/-- The calls are at places that control may get to, and so are the handlers to which they may go back. -/
structure Machine.Placed (program : Program) (m : Machine) : Prop where
  nested : m.Nested
  frames : ∀ f ∈ m.frames, f.Placed program
  handlers : ∀ h ∈ m.handlers, ∀ f callers, keepLast h.frameDepth m.calls = f :: callers →
    ({ f with ip := h.catchIp } : Frame).Placed program

/-- A machine without handlers. -/
theorem Machine.Placed.unhandled (hhandlers : m.handlers = []) (hframes : ∀ f ∈ m.frames, f.Placed program) :
    m.Placed program where
  nested := ⟨hhandlers ▸ .nil, fun _ hh => absurd (hhandlers ▸ hh) List.not_mem_nil⟩
  frames := hframes
  handlers := fun _ hh => absurd (hhandlers ▸ hh) List.not_mem_nil

theorem Machine.Placed.start (entry : UInt16) (w : World) : (Machine.start entry w).Placed program :=
  .unhandled rfl (List.forall_mem_singleton.2 (Frame.Placed.new entry 0 true none))

/-- Control stays where it may get to. -/
theorem Machine.Placed.turn [host.Lawful] (hm : m.Placed program) (hturn : Act.turn host program m = .ok () s) :
    s.Placed program where
  nested := hm.nested.turn hturn
  frames := by
    rcases turn_does hturn with ⟨f, rest, page, i, hframes, hpage, hnext, -, hdoes⟩ | ⟨f, rest, hframes, -, -, ht⟩ |
      ⟨e, t, h, outer, f, callers, -, hhandlers, hkeep, ht⟩
    · obtain ⟨hf, hrest⟩ := List.forall_mem_cons.1 (hframes ▸ hm.frames)
      rcases hdoes.frames with ⟨f', hs, hcall, hleads⟩ | ⟨g, v, hs, hfalls, -, -, hstart, -⟩
      · have hpage' : f'.call.page = f.call.page := congrArg Frame.page hcall
        exact hs ▸ List.forall_mem_cons.2 ⟨hf.lead hframes hpage hnext hpage' hleads, hrest⟩
      · have hcaller : ({ f with ip := i.next } : Frame).Placed program :=
          hf.lead hframes hpage hnext rfl (.inl ⟨hfalls, rfl⟩)
        have hg : g.Placed program := fun _ _ => hstart ▸ .start
        exact hs ▸ List.forall_mem_cons.2 ⟨hg, List.forall_mem_cons.2 ⟨hcaller, hrest⟩⟩
    · obtain hs : s.frames = rest := congrArg Prod.fst ht
      exact hs ▸ (List.forall_mem_cons.1 (hframes ▸ hm.frames)).2
    · obtain hs : s.frames = { f with ip := h.catchIp } :: callers := congrArg Prod.fst ht
      have hcalls : keepLast h.frameDepth m.calls = f.call :: callers.map Frame.call := by
        unfold calls
        rw [keepLast_map, hkeep, List.map_cons]
      have hback : ({ f.call with ip := h.catchIp } : Frame).Placed program :=
        hm.handlers h (hhandlers ▸ List.mem_cons_self) _ _ hcalls
      have hcallers : ∀ g ∈ callers, g.Placed program := fun g hg =>
        hm.frames g (List.mem_of_mem_drop (show g ∈ keepLast h.frameDepth m.frames from
          hkeep ▸ List.mem_cons_of_mem f hg))
      exact hs ▸ List.forall_mem_cons.2 ⟨hback, hcallers⟩
  handlers := by
    rcases hm.nested.turn_cases hturn with hstays | ⟨h, hopens⟩
    · exact fun h hh f callers hkeep => hm.handlers h (hstays.handlers.subset hh) f callers
        ((hstays.calls h hh).2.symm.trans hkeep)
    · rw [hopens.handlers, hopens.calls]
      refine List.forall_mem_cons.2 ⟨fun f callers hkeep => ?_, hm.handlers⟩
      obtain ⟨i, hnext, -, htarget⟩ := hopens.next
      obtain ⟨f₀, rest, page, byte, hframes, hpage, -⟩ := Machine.next?_eq_some hnext
      rw [hopens.depth, keepLast_eq_self (Nat.le_of_eq (length_calls m))] at hkeep
      have hcall : f₀.call = f := by
        unfold calls at hkeep
        rw [hframes] at hkeep
        exact (List.cons.inj hkeep).1
      exact (hm.frames f₀ (hframes ▸ List.mem_cons_self)).lead hframes hpage hnext (hcall ▸ rfl) (.inr (.inl htarget))

/-! ## Which calls are root calls -/

/-- Calls, innermost first: the caller of a root call is one, only the outermost call runs the page of an entry, and
then it is a root call. -/
structure Ranked (entries : Nat → Prop) (calls : List Frame) : Prop where
  roots : calls.Pairwise fun f caller => f.isRoot = true → caller.isRoot = true
  callees : ∀ f ∈ calls.dropLast, ¬entries f.page.toNat
  entry : ∀ f ∈ calls, entries f.page.toNat → f.isRoot = true

/-- Functions are not entries, and in the code of functions no instruction makes a root call of its own accord. -/
structure Program.Secludes (entries : Nat → Prop) (program : Program) : Prop where
  names : program.Names ⟨fun index => ¬entries index.toNat, fun _ => True⟩
  rootless : ∀ index page, program.page? index = some page → ¬entries index.toNat → page.Rootless

variable {entries : Nat → Prop} {aside : List Value} {kinds : Kinds} {V : View}

namespace Ranked

variable {calls calls' : List Frame}

theorem nil : Ranked entries [] := ⟨.nil, nofun, nofun⟩

theorem singleton (h : entries f.page.toNat → f.isRoot = true) : Ranked entries [f] :=
  ⟨List.pairwise_singleton .., nofun, fun g hg => by obtain rfl := List.mem_singleton.1 hg; exact h⟩

theorem suffix (h : Ranked entries calls) (hs : calls' <:+ calls) : Ranked entries calls' where
  roots := h.roots.sublist hs.sublist
  callees := fun f hf => by
    obtain ⟨inner, rfl⟩ := hs
    have hne : calls' ≠ [] := by
      rintro rfl
      cases hf
    refine h.callees f ?_
    rw [List.dropLast_append_of_ne_nil hne]
    exact List.mem_append_right inner hf
  entry := fun f hf => h.entry f (hs.subset hf)

/-- A function is called, by the rules of root calls. -/
theorem call (h : Ranked entries (f :: calls)) (hpage : ¬entries g.page.toNat)
    (hroot : g.isRoot = true → f.isRoot = true) : Ranked entries (g :: f :: calls) where
  roots := List.pairwise_cons.2 ⟨List.forall_mem_cons.2
    ⟨hroot, fun c hc hg => (List.pairwise_cons.1 h.roots).1 c hc (hroot hg)⟩, h.roots⟩
  callees := List.forall_mem_cons.2 ⟨hpage, h.callees⟩
  entry := List.forall_mem_cons.2 ⟨fun he => absurd he hpage, h.entry⟩

end Ranked

/-- The function that a value is has a page of a kind that the view trusts. -/
theorem View.Follows.runs (hV : V.Follows kinds) {v : Value} (hv : v.Alike V v) {index : UInt16}
    {environment? : Option Addr} (h : v.Runs index environment?) : kinds.pages index := by
  rcases h with ⟨name, rfl, -⟩ | ⟨environment, rfl, -⟩
  · exact (hV.hosts index 0).1 hv.2
  · obtain ⟨cells, -, hhosts, -⟩ := hv.2
    exact (hV.hosts index cells.length).1 hhosts

/-- In the code of a function, control is at no instruction that makes a root call of its own accord. -/
theorem Machine.Placed.not_isRooted (hm : m.Placed program) (hprogram : program.Secludes entries)
    (hframes : m.frames = f :: rest) (hnext : m.next? program = some i) (hf : ¬entries f.page.toNat) :
    i.op.isRooted = false := by
  obtain ⟨f', rest', page, byte, hframes', hpage, -⟩ := next?_eq_some hnext
  obtain ⟨rfl, rfl⟩ := List.cons.inj (hframes.symm.trans hframes')
  obtain ⟨hoffset, hreads⟩ := reads_next hnext hframes hpage
  exact hprogram.rootless _ page hpage hf f.ip i.op i.operands
    (hm.frames f (hframes ▸ List.mem_cons_self) page hpage) hreads

/-- A turn starts a call of a function that lies on the stack, or leaves the calls that there are, or some of the
outer ones. -/
theorem Machine.turn_calls [host.Lawful] (hturn : Act.turn host program m = .ok () s) : s.calls <:+ m.calls ∨
    ∃ f rest i g v, m.frames = f :: rest ∧ m.next? program = some i ∧ s.calls = g :: m.calls ∧ v ∈ m.stack ∧
      v.Runs g.page g.environment? ∧ i.Roots f g.isRoot := by
  rcases turn_does hturn with ⟨f, rest, page, i, hframes, hpage, hnext, -, hdoes⟩ | ⟨f, rest, hframes, -, -, ht⟩ |
    ⟨e, t, h, outer, f, callers, -, hhandlers, hkeep, ht⟩
  · have hcalls : m.calls = f.call :: rest.map Frame.call := by
      unfold calls
      rw [hframes, List.map_cons]
    rcases hdoes.frames with ⟨f', hs, hcall, -⟩ | ⟨g, v, hs, -, hv, hruns, -, hroots⟩
    · left
      rw [hcalls, ← hcall, ← List.map_cons, ← hs]
      exact List.suffix_refl _
    · refine .inr ⟨f, rest, i, g.call, v, hframes, hnext, ?_, hv, hruns, hroots⟩
      rw [hcalls]
      unfold calls
      rw [hs]
      rfl
  · obtain hs : s.frames = rest := congrArg Prod.fst ht
    refine .inl ⟨[f.call], ?_⟩
    unfold calls
    rw [hs, hframes]
    rfl
  · obtain hs : s.frames = { f with ip := h.catchIp } :: callers := congrArg Prod.fst ht
    have hcalls : s.calls = keepLast h.frameDepth m.calls := by
      unfold calls
      rw [hs, keepLast_map, hkeep]
      rfl
    rw [hcalls]
    exact .inl (List.drop_suffix ..)

/-- **Root calls nest.** -/
theorem Ranked.turn [host.Lawful] (hprogram : program.Secludes entries) (hm : Ranked entries m.calls)
    (hplaced : m.Placed program) (hknows : m.Knows ⟨fun index => ¬entries index.toNat, fun _ => True⟩ aside)
    (hturn : Act.turn host program m = .ok () s) : Ranked entries s.calls := by
  rcases Machine.turn_calls hturn with hs | ⟨f, rest, i, g, v, hframes, hnext, hs, hv, hruns, hroots⟩
  · exact hm.suffix hs
  · obtain ⟨V, hV, hrespects, -⟩ := hknows
    have hpage : ¬entries g.page.toNat :=
      hV.runs (List.forall₂_same.1 hrespects.stack v (Array.mem_toList_iff.2 hv)) hruns
    have hcalls : m.calls = f.call :: rest.map Frame.call := by
      unfold Machine.calls
      rw [hframes, List.map_cons]
    rw [hs, hcalls]
    rw [hcalls] at hm
    refine hm.call hpage fun hg => ?_
    rcases hroots hg with hop | ⟨-, hf⟩
    · -- the call instruction stands in the page of an entry, which is a root call
      refine hm.entry f.call List.mem_cons_self (Classical.not_not.1 fun hentry => ?_)
      have hrooted := hplaced.not_isRooted hprogram hframes hnext hentry
      rw [hop] at hrooted
      cases hrooted
    · exact hf

/-- Where no call is a root call, none becomes one. -/
theorem Ranked.turn_captive [host.Lawful] (hs : Ranked entries s.calls) (hm : ∀ f ∈ m.calls, f.isRoot = false)
    (hturn : Act.turn host program m = .ok () s) : ∀ f ∈ s.calls, f.isRoot = false := by
  rcases Machine.turn_calls hturn with hsuffix | ⟨f, rest, i, g, v, hframes, -, hcalls, -⟩
  · exact fun f hf => hm f (hsuffix.subset hf)
  · rw [hcalls] at hs ⊢
    refine List.forall_mem_cons.2 ⟨?_, hm⟩
    have hf : f.call ∈ m.calls := by
      unfold Machine.calls
      rw [hframes]
      exact List.mem_cons_self
    cases hg : g.isRoot with
    | false => rfl
    | true => exact absurd (((List.pairwise_cons.1 hs.roots).1 f.call hf hg).symm.trans (hm _ hf)) (by decide)

end ShellVM
