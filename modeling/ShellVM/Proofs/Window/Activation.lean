import ShellVM.Proofs.Flow.Page
import ShellVM.Proofs.Window.Basic

/-!
# Machines in shape

An `Activation` is an active call with the chart of its page. `Inside V k A q σ m m'` says that `m` is `m'` on top of
the context `k`, and that `m'` has the shape `σ` in the call `A`, whose next instruction is at `q`: so many values on
the stack, these zones open with their handlers and iterators, these locals in cells. The calls below wait for a result
(`Callers`). Acts on both machines are put together by `Acts.bind`.
-/

namespace ShellVM

/-- A call: its frame, apart from what instructions change in it, the chart of its page, and what lies below. -/
structure Activation where
  sheet : Sheet
  chart : sheet.Chart
  page : UInt16
  base : Nat
  isRoot : Bool
  environment? : Option Addr
  callers : List Frame
  /-- The number of iterators that belong to the callers. -/
  outerIterators : Nat
  /-- The handlers that belong to the callers. -/
  outerHandlers : List Handler

namespace Activation

def depth (A : Activation) : Nat := A.callers.length + 1

def frame (A : Activation) (ip : Nat) (cells : List (UInt8 × Addr)) : Frame :=
  ⟨A.page, ip, A.base, A.isRoot, A.environment?, cells⟩

end Activation

/-- The local lives in a cell, from `floor` on. -/
def Boxed (floor : Addr) (cells : List (UInt8 × Addr)) (s : UInt8) : Prop := ∃ a, cells.lookup s = some a ∧ floor ≤ a

/-- The handlers and the number of iterators of a call whose zones are open. -/
inductive Open (floor : Addr) (A : Activation) (cells : List (UInt8 × Addr)) :
    List Zone → Nat → List Handler → Prop where
  | none : Open floor A cells [] A.outerIterators []
  | attempt {h ip n : Nat} {zones : List Zone} {boxed : List UInt8} {handlers : List Handler}
      (outer : Open floor A cells zones n handlers) (reaches : Reaches A.chart.At ip ⟨h + 1, zones, boxed, 0⟩)
      (boxes : ∀ s ∈ boxed, Boxed floor cells s) (above : Zone.floor zones ≤ h) :
      Open floor A cells (.attempt h :: zones) n (⟨A.depth, A.base + h, n, ip⟩ :: handlers)
  | each {n : Nat} {zones : List Zone} {handlers : List Handler} (outer : Open floor A cells zones n handlers) :
      Open floor A cells (.each :: zones) (n + 1) handlers

/-- The page of the call is the one of its chart, and its environment has the cells that the page captures. -/
structure Activation.Fits (V : View) (program : Program) (functions : List (Nat × UInt16)) (A : Activation) : Prop where
  sheet : A.sheet.program = program ∧ A.sheet.functions = functions
  page : program.page? A.page = some A.sheet.page
  environment : match A.environment? with
    | none => A.sheet.captures.length = 0
    | some e =>
      ∃ cells, V.environments[e]? = some cells ∧ cells.length = A.sheet.captures.length ∧ ∀ a ∈ cells, V.cells ≤ a

/-- Calls that wait for a result, with the height at which it is expected and with their iterators and handlers. -/
def Callers (V : View) (program : Program) (functions : List (Nat × UInt16)) :
    List Frame → (base iterators : Nat) → List Handler → Prop
  | [], base, iterators, handlers => base = 0 ∧ iterators = 0 ∧ handlers = []
  | f :: rest, base, iterators, handlers => ∃ (A : Activation) (ip : Nat) (σ : Shape) (cells : List (UInt8 × Addr))
      (own : List Handler), f = A.frame ip cells ∧ rest = A.callers ∧ A.Fits V program functions ∧
      Callers V program functions rest A.base A.outerIterators A.outerHandlers ∧ Reaches A.chart.At ip σ ∧
      (∀ s ∈ σ.cells, Boxed V.cells cells s) ∧ Zone.floor σ.zones + 1 ≤ σ.height ∧ σ.pending = 0 ∧
      base + 1 = A.base + σ.height ∧ Open V.cells A cells σ.zones iterators own ∧ handlers = own ++ A.outerHandlers

/-- The call can go on, and so can its callers once it has returned. -/
structure Stands (V : View) (program : Program) (functions : List (Nat × UInt16)) (A : Activation) : Prop where
  hosts : V.hosts = program.Hosts functions
  fits : A.Fits V program functions
  callers : Callers V program functions A.callers A.base A.outerIterators A.outerHandlers

/-- The machine has a shape in a call. -/
structure Shaped (V : View) (A : Activation) (q : Nat) (σ : Shape) (m : Machine) : Prop where
  active : ∃ cells own, m.frames = A.frame q cells :: A.callers ∧ (∀ s ∈ σ.cells, Boxed V.cells cells s) ∧
    Open V.cells A cells σ.zones m.iterators.length own ∧ m.handlers = own ++ A.outerHandlers
  height : m.stack.size = A.base + σ.height
  floor : Zone.floor σ.zones ≤ σ.height
  pending : σ.pending ≤ m.pending.length
  stored : ∀ a ∈ m.pending, V.cells ≤ a

structure Inside (V : View) (k : Context) (A : Activation) (q : Nat) (σ : Shape) (m m' : Machine) : Prop
  extends Window V k m m' where
  shaped : Shaped V A q σ m'

/-- Two acts inside a call: both succeed with related results and lead to the same place and shape, or both fail for the
same plain cause and leave some shape. -/
def Acts {α β : Type} (V : View) (k : Context) (A : Activation) (q : Nat) (σ : Shape) (x : Act α) (y : Act β)
    (R : α → β → Prop) (q' : Nat) (σ' : Shape) : Prop :=
  Lockstep (Inside V k A q σ) x y (fun a b m m' => R a b ∧ Inside V k A q' σ' m m')
    fun e f m m' => (f.cause = e.cause ∧ e.cause.isPlain) ∧ ∃ q σ, Inside V k A q σ m m'

namespace Acts

variable {V : View} {k : Context} {A : Activation} {q q₁ q' : Nat} {σ σ₁ σ' : Shape} {α β α' β' : Type}
  {R : α → β → Prop} {R' : α' → β' → Prop} {x : Act α} {y : Act β}

theorem pure {a : α} {b : β} (h : R a b) : Acts V k A q σ (Pure.pure a) (Pure.pure b) R q σ :=
  Lockstep.pure fun _ _ hm => ⟨h, hm⟩

theorem bind {f : α → Act α'} {g : β → Act β'} (h : Acts V k A q σ x y R q₁ σ₁)
    (h' : ∀ a b, R a b → Acts V k A q₁ σ₁ (f a) (g b) R' q' σ') : Acts V k A q σ (x >>= f) (y >>= g) R' q' σ' :=
  Lockstep.bind h fun a b => Lockstep.assume fun hab => h' a b hab

theorem map {f : α → α'} {g : β → β'} (h : Acts V k A q σ x y R q' σ') (h' : ∀ a b, R a b → R' (f a) (g b)) :
    Acts V k A q σ (f <$> x) (g <$> y) R' q' σ' := by
  rw [map_eq_pure_bind, map_eq_pure_bind]
  exact h.bind fun a b hab => pure (h' a b hab)

theorem fail {cause : Cause} (h : cause.isPlain) : Acts V k A q σ (Act.fail cause) (Act.fail cause) R q' σ' :=
  Lockstep.throw fun _ _ hm => ⟨⟨rfl, h⟩, q, σ, hm⟩

theorem fail_bind {cause : Cause} {f : α' → Act α} {g : β' → Act β} (h : cause.isPlain) :
    Acts V k A q σ (Act.fail cause >>= f) (Act.fail cause >>= g) R q' σ' :=
  bind (R := fun _ _ => False) (fail h : Acts V k A q σ (Act.fail cause) (Act.fail cause) _ q σ) fun _ _ h => h.elim

/-- A look at both machines. -/
theorem get {f : Machine → Act α} {g : Machine → Act β}
    (h : ∀ m m', Inside V k A q σ m m' → Acts V k A q σ (f m) (g m') R q' σ') :
    Acts V k A q σ (get >>= f) (get >>= g) R q' σ' :=
  Lockstep.bind (Q := fun m m' s t => Inside V k A q σ m m' ∧ Inside V k A q σ s t)
    (Lockstep.get fun _ _ hm => ⟨hm, hm⟩) fun m m' => Lockstep.assume fun hm => h m m' hm

/-- Effects on the world. -/
theorem effect {e : Effect α} {e' : Effect β} (h : Agrees V R e e') :
    Acts V k A q σ (Act.effect e) (Act.effect e') R q σ := by
  intro m m' hm
  unfold Act.effect
  rcases h.cases hm.world with ⟨a, b, w, w', h₁, h₂, hab, hw⟩ | ⟨c, d, w, w', h₁, h₂, ⟨hcd, hplain⟩, hw⟩
  · rw [h₁, h₂]
    exact ⟨hab, { hm with world := hw, shaped := { hm.shaped with } }⟩
  · rw [h₁, h₂]
    exact ⟨⟨by rw [hcd], hplain⟩, q, σ, { hm with world := hw, shaped := { hm.shaped with } }⟩

end Acts

/-! ## Shapes -/

namespace Shape

@[simp] theorem lift_zero (σ : Shape) : σ.lift 0 0 = σ := rfl

@[simp] theorem lift_lift (σ : Shape) (p p' n : Nat) : (σ.lift p 0).lift p' n = σ.lift (p + p') n := by
  simp [lift, Nat.sub_sub]

theorem lift_split (σ : Shape) (p n : Nat) : σ.lift p n = (σ.lift p 0).lift 0 n := by rw [lift_lift, Nat.add_zero]

/-- A value takes the place of another one. -/
theorem Admits.lift_self {σ : Shape} (h : σ.Admits 1) : σ.lift 1 1 = σ := by
  unfold Admits at h
  simp only [Shape.lift]
  rw [Nat.sub_add_cancel (by omega)]

theorem Admits.lift {σ : Shape} {p n : Nat} (h : σ.Admits (p + n)) : (σ.lift p 0).Admits n := by
  unfold Admits at *
  simp only [Shape.lift]
  omega

theorem Admits.mono {σ : Shape} {n n' : Nat} (h : σ.Admits n) (hn : n' ≤ n) : σ.Admits n' := by
  unfold Admits at *
  omega

end Shape

end ShellVM
