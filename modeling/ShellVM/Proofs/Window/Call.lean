import ShellVM.Proofs.Window.Operation

/-!
# Calls and returns

A call starts an activation on top of the caller, which waits for one value in place of the callee and its arguments
(`enter_goes`). At the end of its page the value is all that the activation has left, and the caller goes on with it
(`leave_goes`).
-/

namespace ShellVM

variable {V : View} {k : Context} {A : Activation} {q : Nat} {σ : Shape} {m m' : Machine} {program : Program}
  {functions : List (Nat × UInt16)} {host : Host} {limits' : Limits}

/-! ## New environments -/

section Learn

variable (cells : List Addr)

theorem Activation.Fits.learn (h : A.Fits V program functions) : A.Fits (V.learn cells) program functions where
  sheet := h.sheet
  page := h.page
  environment := by
    have henv := h.environment
    cases he : A.environment? with
    | none => rw [he] at henv; exact henv
    | some e =>
      rw [he] at henv
      obtain ⟨known, hknown, hlength, hcells⟩ := henv
      exact ⟨known, V.learn_environment cells hknown, hlength, hcells⟩

theorem Callers.learn : ∀ {frames : List Frame} {base iterators : Nat} {handlers : List Handler},
    Callers V program functions frames base iterators handlers →
      Callers (V.learn cells) program functions frames base iterators handlers
  | [], _, _, _, h => h
  | _ :: _, _, _, _, ⟨A, ip, σ, own, boxes, hf, hr, hfits, hcallers, h⟩ =>
    ⟨A, ip, σ, own, boxes, hf, hr, hfits.learn cells, hcallers.learn, h⟩

theorem Stands.learn (h : Stands V program functions A) : Stands (V.learn cells) program functions A :=
  ⟨h.hosts, h.fits.learn cells, h.callers.learn cells⟩

theorem Window.learn (h : Window V k m m') : Window (V.learn cells) k
    { m with world := { m.world with environments := m.world.environments.push cells } }
    { m' with world := { m'.world with environments := m'.world.environments.push cells } } := by
  obtain ⟨top, hstack, htop⟩ := h.stack
  obtain ⟨its, hiterators, hits⟩ := h.iterators
  exact { h with
    stack := ⟨top, hstack, htop.learn cells⟩
    iterators := ⟨its, hiterators, hits.imp fun _ _ hit => hit.learn cells⟩
    world := h.world.learn cells }

theorem Inside.learn (h : Inside V k A q σ m m') : Inside (V.learn cells) k A q σ
    { m with world := { m.world with environments := m.world.environments.push cells } }
    { m' with world := { m'.world with environments := m'.world.environments.push cells } } :=
  { h.toWindow.learn cells with shaped := { h.shaped with } }

end Learn

/-! ## Closures -/

theorem makeClosure_eq {page : Page} {key index : UInt16} {count : Nat}
    (hkey : page.constants.get? key = some (.page index)) (hcount : count ≤ m.pending.length) :
    Act.makeClosure page key count m = .ok () { m with
      pending := m.pending.drop count
      stack := m.stack.push (.function (.closure index m.world.environments.size))
      world := { m.world with environments := m.world.environments.push (m.pending.take count).reverse } } := by
  unfold Act.makeClosure
  rw [hkey]
  show (if m.pending.length < count then _ else _ : Act Unit) m = _
  rw [if_neg (by omega)]
  rfl

/-- A closure takes the cells that were put aside for it. -/
theorem makeClosure_inside {page : Page} {key index : UInt16} {count : Nat} (hm : Inside V k A q σ m m')
    (hkey : page.constants.get? key = some (.page index)) (hcount : count ≤ σ.pending) (hhosts : V.hosts index count) :
    ∃ cells s s', Act.makeClosure page key count m = .ok () s ∧ Act.makeClosure page key count m' = .ok () s' ∧
      Inside (V.learn cells) k A q { σ.lift 0 1 with pending := σ.pending - count } s s' := by
  have hpending := hm.shaped.pending
  have htake : m.pending.take count = m'.pending.take count := by
    rw [hm.pending, List.take_append_of_le_length (by omega)]
  have hdrop : m.pending.drop count = m'.pending.drop count ++ k.pending := by
    rw [hm.pending, List.drop_append_of_le_length (by omega)]
  have hlength : m.pending.length = m'.pending.length + k.pending.length := by rw [hm.pending, List.length_append]
  refine ⟨(m'.pending.take count).reverse, _, _, makeClosure_eq hkey (by omega), makeClosure_eq hkey (by omega), ?_⟩
  rw [htake, hdrop, hm.world.environments, hm.world.environments']
  have hclosure : (Value.function (.closure index V.environments.size)).Alike (V.learn (m'.pending.take count).reverse)
      (.function (.closure index V.environments.size)) := by
    refine ⟨rfl, (m'.pending.take count).reverse, ?_, ?_, fun a ha => ?_⟩
    · simp [View.learn]
    · rw [List.length_reverse, List.length_take, Nat.min_eq_left (by omega)]
      exact hhosts
    · exact hm.shaped.stored a (List.mem_of_mem_take (List.mem_reverse.1 ha))
  have hlearned := hm.learn (m'.pending.take count).reverse
  obtain ⟨top, hstack, htop⟩ := hlearned.stack
  have hheight : m'.stack.size = A.base + σ.height := hm.shaped.height
  have hfloor := hm.shaped.floor
  have hworld := hlearned.world
  rw [hm.world.environments, hm.world.environments'] at hworld
  exact { hlearned with
    stack := ⟨top.push _, by rw [show m.stack = _ from hstack, Array.push_append], htop.push hclosure⟩
    pending := rfl
    world := hworld
    shaped := { hlearned.shaped with
      height := by
        show (m'.stack.push _).size = _
        rw [Array.size_push, hheight]
        rfl
      floor := Nat.le_succ_of_le hfloor
      pending := by
        show σ.pending - count ≤ (m'.pending.drop count).length
        rw [List.length_drop]
        omega
      stored := fun a ha => hm.shaped.stored a (List.mem_of_mem_drop ha) } }

/-! ## Calls -/

/-- The machine is in a call of the program, at an offset with its shape. -/
def Going (V : View) (program : Program) (functions : List (Nat × UInt16)) (k : Context) (m m' : Machine) : Prop :=
  ∃ A q σ, Stands V program functions A ∧ A.chart.At q σ ∧ Inside V k A q σ m m'

/-- The outermost call on top of the context has returned. -/
structure Done (V : View) (k : Context) (m m' : Machine) : Prop extends Window V k m m' where
  returned : m'.frames = []
  result : m'.stack.size = 1
  exhausted : m'.iterators = []
  closed : m'.handlers = []

/-- Two faults of the same plain cause, or the same limit of two runs. -/
def Alarmed (host : Host) (limits' : Limits) (e f : Fault) : Prop := f.cause = e.cause ∧ e.cause.isPlain ∨
  e.cause = .limitExceeded .callDepth host.callDepth ∧ f.cause = .limitExceeded .callDepth limits'.callDepth

/-- A machine may have cells in the frame that the code does not ask for. -/
theorem Inside.weaken (hm : Inside V k A q σ m m') {τ : Shape} (hτ : τ.Within σ) : Inside V k A q τ m m' := by
  obtain ⟨cells, hcells, rfl⟩ := hτ
  obtain ⟨own, handlers, hframes, hboxes, hopen, hown⟩ := hm.shaped.active
  exact { hm with
    shaped := { hm.shaped with active := ⟨own, handlers, hframes, fun s hs => hboxes s (hcells s hs), hopen, hown⟩ } }

theorem Inside.going (hm : Inside V k A q σ m m') (hA : Stands V program functions A) (hq : Reaches A.chart.At q σ) :
    Going V program functions k m m' := by
  obtain ⟨τ, hτ, hwithin⟩ := hq
  exact ⟨A, q, τ, hA, hτ, hm.weaken hwithin⟩

/-- A call that waits for a value goes on with it. -/
theorem Callers.going {f : Frame} {rest : List Frame} {base iterators : Nat} {handlers : List Handler}
    (h : Callers V program functions (f :: rest) base iterators handlers) (hhosts : V.hosts = program.Hosts functions)
    (hm : Window V k m m') (hframes : m'.frames = f :: rest) (hheight : m'.stack.size = base + 1)
    (hiterators : m'.iterators.length = iterators) (hhandlers : m'.handlers = handlers)
    (hstored : ∀ a ∈ m'.pending, V.cells ≤ a) : Going V program functions k m m' := by
  obtain ⟨B, ip, τ, cells, own, rfl, rfl, hfits, hcallers, hreaches, hboxes, hfloor, hpending, hbase, hopen, hown⟩ := h
  have hinside : Inside V k B ip τ m m' := { hm with
    shaped := {
      active := ⟨cells, own, hframes, hboxes, hiterators ▸ hopen, hhandlers.trans hown⟩
      height := by rw [hheight, hbase]
      floor := by omega
      pending := by omega
      stored := hstored } }
  exact hinside.going ⟨hhosts, hfits, hcallers⟩ hreaches

/-- The environment that a page is called with has the cells that the view knows for it. -/
def View.Supplies (V : View) (index : UInt16) : Option Addr → Prop
  | none => V.hosts index 0
  | some e => ∃ cells, V.environments[e]? = some cells ∧ V.hosts index cells.length ∧ ∀ a ∈ cells, V.cells ≤ a

/-- The activation that a call starts. -/
theorem activation (hserves : ∀ id index, functions.lookup id = some index → program.Hosts functions index 0)
    (hhosts : V.hosts = program.Hosts functions) {index : UInt16} {environment? : Option Addr}
    (h : V.Supplies index environment?) (base : Nat) (isRoot : Bool) (callers : List Frame) (iterators : Nat)
    (handlers : List Handler) : ∃ B : Activation, B.Fits V program functions ∧ B.page = index ∧ B.base = base ∧
      B.isRoot = isRoot ∧ B.environment? = environment? ∧ B.callers = callers ∧ B.outerIterators = iterators ∧
      B.outerHandlers = handlers := by
  cases environment? with
  | none =>
    have h : V.hosts index 0 := h
    rw [hhosts] at h
    obtain ⟨page, hpage, hlaid⟩ := h
    obtain ⟨S, rfl, rfl, rfl, hn, ⟨chart⟩⟩ := hlaid.chart hserves
    exact ⟨⟨S, chart, index, base, isRoot, none, callers, iterators, handlers⟩,
      ⟨⟨rfl, rfl⟩, hpage, hn⟩, rfl, rfl, rfl, rfl, rfl, rfl, rfl⟩
  | some e =>
    obtain ⟨cells, hcells, h, hle⟩ := h
    rw [hhosts] at h
    obtain ⟨page, hpage, hlaid⟩ := h
    obtain ⟨S, rfl, rfl, rfl, hn, ⟨chart⟩⟩ := hlaid.chart hserves
    exact ⟨⟨S, chart, index, base, isRoot, some e, callers, iterators, handlers⟩,
      ⟨⟨rfl, rfl⟩, hpage, cells, hcells, hn.symm, hle⟩, rfl, rfl, rfl, rfl, rfl, rfl, rfl⟩

/-- A page is entered with its arguments on top of the stack. -/
theorem enter_goes {index : UInt16} {environment? : Option Addr} {count : Nat} {isRoot : Bool}
    (hroom : k.Room host limits')
    (hserves : ∀ id index, functions.lookup id = some index → program.Hosts functions index 0)
    (hA : Stands V program functions A) (hcallee : V.Supplies index environment?) (hσ : σ.Admits count)
    (hpending : σ.pending = 0) (hq : Reaches A.chart.At q (σ.lift count 1)) (hm : Inside V k A q σ m m') :
    Both (fun _ _ m m' => ∃ V, Going V program functions k m m')
      (fun e f m m' => Alarmed host limits' e f ∧ ∃ q σ, Inside V k A q σ m m')
      (Act.enter host program index environment? count isRoot m)
      (Act.enter (host.under limits') program index environment? count isRoot m') := by
  obtain ⟨cells, own, hframes', hframes, hboxes, hopen, hown⟩ := Acts.frames hm
  obtain ⟨top, hstack, htop⟩ := hm.stack
  have hheight := hm.shaped.height
  have hsize := htop.size
  have hmsize : m.stack.size = k.stack.size + m'.stack.size := by rw [hstack, Array.size_append, hsize]
  have hdepth : m.frames.length = m'.frames.length + k.frames.length := by
    rw [hm.frames, List.length_append, List.length_map]
  unfold Shape.Admits at hσ
  obtain ⟨B, hB, rfl, hbase, rfl, rfl, hcallers, hiterators, hhandlers⟩ := activation hserves hA.hosts hcallee
    (m'.stack.size - count) isRoot m'.frames m'.iterators.length m'.handlers
  have hwaits : Callers V program functions B.callers B.base B.outerIterators B.outerHandlers := by
    rw [hcallers, hbase, hiterators, hhandlers, hframes', hown]
    refine ⟨A, q, σ.lift count 1, cells, own, rfl, rfl, hA.fits, hA.callers, hq, hboxes, ?_, hpending, ?_, hopen, rfl⟩
    · simp only [Shape.lift]
      omega
    · simp only [Shape.lift]
      omega
  unfold Act.enter
  rw [hB.page]
  show Both _ _ ((if count ≠ B.sheet.page.arity.toNat then _ else if host.callDepth ≤ m.frames.length then _ else
    if m.stack.size < count then _ else _ : Act Unit) m) ((if count ≠ B.sheet.page.arity.toNat then _ else
      if limits'.callDepth ≤ m'.frames.length then _ else if m'.stack.size < count then _ else _ : Act Unit) m')
  split
  · exact ⟨.inl ⟨rfl, rfl⟩, q, σ, hm⟩
  · next harity =>
    have hdeep : host.callDepth ≤ m.frames.length ↔ limits'.callDepth ≤ m'.frames.length := by
      rw [hdepth]
      exact hroom _
    by_cases hlimit : host.callDepth ≤ m.frames.length
    · rw [if_pos hlimit, if_pos (hdeep.1 hlimit)]
      exact ⟨.inr ⟨rfl, rfl⟩, q, σ, hm⟩
    · rw [if_neg hlimit, if_neg (fun h => hlimit (hdeep.2 h)), if_neg (by omega), if_neg (by omega)]
      refine ⟨V, B, 0, _, ⟨hA.hosts, hB, hwaits⟩, B.chart.start, { hm with frames := ?_, shaped := ?_ }⟩
      · show Frame.new B.page (m.stack.size - count) B.isRoot B.environment? :: m.frames = _
        rw [hm.frames, List.map_cons, List.cons_append, hmsize, Nat.add_sub_assoc (by omega)]
        rfl
      · have harity : B.sheet.page.arity.toNat = count := (Decidable.not_not.1 harity).symm
        have hframe : Frame.new B.page (m'.stack.size - count) B.isRoot B.environment? :: m'.frames =
            B.frame 0 [] :: B.callers := by
          rw [hcallers, ← hbase]
          rfl
        exact {
          active := ⟨[], [], hframe, fun c hc => absurd hc List.not_mem_nil, hiterators ▸ .none, hhandlers.symm⟩
          height := by
            show m'.stack.size = B.base + B.sheet.page.arity.toNat
            omega
          floor := Nat.zero_le _
          pending := Nat.zero_le _
          stored := hm.shaped.stored }

/-- Two acts inside a call: both succeed and the machines go on, or both fail for the same reason. -/
def Proceeds (V : View) (program : Program) (functions : List (Nat × UInt16)) (host : Host) (limits' : Limits)
    (k : Context) (A : Activation) (q : Nat) (σ : Shape) (x y : Act Unit) : Prop :=
  Lockstep (Inside V k A q σ) x y (fun _ _ m m' => ∃ V, Going V program functions k m m')
    fun e f m m' => Alarmed host limits' e f ∧ ∃ q σ, Inside V k A q σ m m'

theorem Acts.proceeds {x y : Act Unit} {q' : Nat} {σ' : Shape} (h : Acts V k A q σ x y (fun _ _ => True) q' σ')
    (hA : Stands V program functions A) (hq : Reaches A.chart.At q' σ') :
    Proceeds V program functions host limits' k A q σ x y :=
  h.weaken (fun _ _ h => h) (fun _ _ _ _ h => ⟨V, h.2.going hA hq⟩) fun _ _ _ _ h => ⟨.inl h.1, h.2⟩

theorem Acts.continue {α β : Type} {R : α → β → Prop} {x : Act α} {y : Act β} {f : α → Act Unit} {g : β → Act Unit}
    {q' : Nat} {σ' : Shape} (h : Acts V k A q σ x y R q' σ')
    (h' : ∀ a b, R a b → Proceeds V program functions host limits' k A q' σ' (f a) (g b)) :
    Proceeds V program functions host limits' k A q σ (x >>= f) (y >>= g) :=
  Lockstep.bind (Lockstep.weaken h (fun _ _ h => h) (fun _ _ _ _ h => h) fun _ _ _ _ h => ⟨.inl h.1, h.2⟩) fun a b =>
    Lockstep.assume fun hab => h' a b hab

section Calls

variable (hroom : k.Room host limits')
  (hserves : ∀ id index, functions.lookup id = some index → program.Hosts functions index 0)
  (hA : Stands V program functions A)

include hroom hserves hA

/-- A value is called with the arguments on top of the stack. -/
theorem call_proceeds [host.Lawful] {u v : Value} {count : Nat} {isRoot : Bool} (huv : u.Alike V v)
    (hσ : σ.Admits count) (hpending : σ.pending = 0) (hq : Reaches A.chart.At q (σ.lift count 1)) :
    Proceeds V program functions host limits' k A q σ (Act.call host program u count isRoot)
      (Act.call (host.under limits') program v count isRoot) := by
  have hfail : Proceeds V program functions host limits' k A q σ (Act.fail (.notCallable u.kind))
      (Act.fail (.notCallable v.kind)) := by
    rw [huv.kind]
    exact Lockstep.throw fun _ _ hm => ⟨.inl ⟨rfl, rfl⟩, q, σ, hm⟩
  have henter {index : UInt16} {environment? : Option Addr} (h : V.Supplies index environment?) :
      Proceeds V program functions host limits' k A q σ (Act.enter host program index environment? count isRoot)
        (Act.enter (host.under limits') program index environment? count isRoot) := fun _ _ hm =>
    enter_goes hroom hserves hA h hσ hpending hq hm
  cases u with
  | function f =>
    obtain ⟨rfl, htrusts⟩ := huv
    cases f with
    | page index name => exact henter htrusts
    | closure index environment => exact henter htrusts
    | library f => exact (Acts.callLibrary f hσ).proceeds hA hq
  | tuple us => obtain ⟨vs, rfl, -⟩ := huv; exact hfail
  | error u t => obtain ⟨v, t', rfl, -⟩ := huv; exact hfail
  | list a | dictionary a | struct a => obtain ⟨rfl, -⟩ := huv; exact hfail
  | _ => obtain rfl := huv; exact hfail

theorem callValue_proceeds [host.Lawful] {r : Act.Rootness} {count : Nat} (hσ : σ.Admits (count + 1))
    (hpending : σ.pending = 0) (hq : Reaches A.chart.At q (σ.lift (count + 1) 1)) :
    Proceeds V program functions host limits' k A q σ (Act.callValue host program r count)
      (Act.callValue (host.under limits') program r count) := by
  refine (Acts.rootness r).continue fun b b' hb => ?_
  subst hb
  refine (Acts.takeCallee hσ).continue fun u v huv => call_proceeds hroom hserves hA huv ?_ hpending ?_
  · rw [Nat.add_comm] at hσ
    exact hσ.lift
  · rw [Shape.lift_lift, Nat.add_comm]
    exact hq

end Calls

end ShellVM
