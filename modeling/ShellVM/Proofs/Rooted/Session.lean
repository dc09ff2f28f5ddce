import Mathlib.Logic.Relation
import ShellVM.Proofs.Callbacks
import ShellVM.Proofs.Interning
import ShellVM.Proofs.Rooted.Captured
import ShellVM.Proofs.Rooted.Compiler

/-!
# Sessions

A host compiles entries one after the other, runs them in one world, and calls the functions that it has come by.
Whatever it does, no function has the page of an entry (`Session.Sealed`), so root calls nest in all machines that
runs and calls reach (`Session.captured_output_never_leaks`).
-/

namespace ShellVM

/-- What a host has: a compiler, the entries that it has compiled, a world, and values that have come out of runs or
that it has made. -/
structure Session where
  compiler : Compiler
  entries : List UInt16
  world : World
  values : List Value

/-- Does the value refer to nothing? -/
def Value.isInert : Value → Bool
  | nil | boolean _ | integer _ | float _ | string _ | range _ | function (.library _) => true
  | _ => false

/-- What a host does with values, apart from calls: it makes some, puts others together and takes them apart. -/
inductive Handles (values : List Value) : Effect Value → Prop where
  | inert {v : Value} (h : v.isInert = true) : Handles values (pure v)
  | tuple {vs : List Value} (h : ∀ v ∈ vs, v ∈ values) : Handles values (pure (.tuple vs))
  | list {vs : Array Value} (h : ∀ v ∈ vs, v ∈ values) : Handles values (Effect.newList vs)
  | index {v i : Value} (hv : v ∈ values) (hi : i ∈ values) : Handles values (v.index i)

namespace Session

def opened (w : World) : Session := ⟨.new, [], w, []⟩

abbrev program (s : Session) : Program := s.compiler.program

/-- What is left of the session when something has been done in its world: a value is kept. -/
def after (s : Session) : EStateM.Result Fault World (Option Value) → Session
  | .ok v? w => { s with world := w, values := v?.toList ++ s.values }
  | .error _ w => { s with world := w }

/-- What can be done next in a session. Runs and calls may be broken off. -/
inductive Step (s : Session) : Session → Prop where
  | compiles {e : Expr} {index : UInt16} {c : Compiler} (h : s.compiler.enter e = (.ok index, c)) :
      Step s { s with compiler := c, entries := index :: s.entries }
  | refuses {e : Expr} {error : CompileError} {c : Compiler} (h : s.compiler.enter e = (.error error, c)) :
      Step s { s with compiler := c }
  | executes {entry : UInt16} (h : entry ∈ s.entries) (host : Host) [host.Lawful] (fuel : Nat) :
      Step s (s.after (s.program.execute host entry fuel s.world))
  | calls {v : Value} {arguments : Array Value} (hv : v ∈ s.values) (harguments : ∀ a ∈ arguments, a ∈ s.values)
      (host : Host) [host.Lawful] (fuel : Nat) : Step s (s.after (s.program.callFunction host v arguments fuel s.world))
  | handles {f : Effect Value} (h : Handles s.values f) : Step s (s.after ((some <$> f) s.world))

/-- The session goes on with the machine: it runs an entry, which is a root call, or it has called a function, which
is none. -/
inductive Starts (s : Session) (host : Host) : (isRoot : Bool) → Machine → Prop where
  | executes {entry : UInt16} (h : entry ∈ s.entries) : Starts s host true (.start entry s.world)
  | calls {v : Value} {arguments : Array Value} {m : Machine} (hv : v ∈ s.values)
      (harguments : ∀ a ∈ arguments, a ∈ s.values)
      (h : Act.call host s.program v arguments.size false (.idle arguments s.world) = .ok () m) : Starts s host false m

end Session

variable {kinds : Kinds} {values : List Value} {w : World} {program : Program} {host : Host} {m m₀ : Machine}

/-! ## What comes out of runs -/

/-- The world knows functions of these kinds, and so does the value that there may be. -/
def Program.Yields (kinds : Kinds) (values : List Value) (r : EStateM.Result Fault World (Option Value)) : Prop :=
  Outcome (fun v? w => w.Knows kinds (v?.toList ++ values)) (World.Knows kinds values) r

namespace World.Knows

theorem execute (h : w.Knows kinds values) (hprogram : program.Names kinds) (host : Host) [host.Lawful]
    (entry : UInt16) (fuel : Nat) : Program.Yields kinds values (program.execute host entry fuel w) := by
  have hrun : Act.KeepsKnown kinds values (Act.run host program fuel) (Machine.start entry w) :=
    Act.run_known hprogram (h.start entry) fuel
  unfold Act.KeepsKnown at hrun
  unfold Program.execute
  split
  · exact h
  · cases hs : Act.run host program fuel (Machine.start entry w) with
    | error fault s =>
      rw [hs] at hrun
      exact hrun.world
    | ok ended s =>
      rw [hs] at hrun
      have hknows : s.Knows kinds values := hrun
      cases ended with
      | false => exact hknows.world
      | true =>
        show s.world.Knows kinds (s.stack.back?.getD .nil :: values)
        cases hback : s.stack.back? with
        | some v => exact hknows.back hback
        | none =>
          obtain ⟨V, hV, hw, hvalues⟩ := hknows.world
          exact ⟨V, hV, hw, List.forall_mem_cons.2 ⟨rfl, hvalues⟩⟩

/-- A function is called from outside. -/
theorem call [host.Lawful] {v : Value} {arguments : Array Value} (h : w.Knows kinds values) (hv : v ∈ values)
    (harguments : ∀ a ∈ arguments, a ∈ values) :
    Act.KeepsKnown kinds values (Act.call host program v arguments.size false) (.idle arguments w) := by
  obtain ⟨V, hV, hm, hvalues⟩ := h.idle harguments
  exact (Act.Keeps.call (hvalues v hv) arguments.size false).known hV hvalues hm

theorem callFunction {v : Value} {arguments : Array Value} (h : w.Knows kinds values) (hprogram : program.Names kinds)
    (hv : v ∈ values) (harguments : ∀ a ∈ arguments, a ∈ values) (host : Host) [host.Lawful] (fuel : Nat) :
    Program.Yields kinds values (program.callFunction host v arguments fuel w) := by
  have hcall : Act.KeepsKnown kinds values (Act.call host program v arguments.size false) (.idle arguments w) :=
    h.call hv harguments
  unfold Act.KeepsKnown at hcall
  rw [Program.callFunction_def]
  cases hm : Act.call host program v arguments.size false (.idle arguments w) with
  | error fault s =>
    rw [hm] at hcall
    exact hcall.world
  | ok _ m₁ =>
    rw [hm] at hcall
    have hrun : Act.KeepsKnown kinds values (Act.run host program fuel) m₁ := Act.run_known hprogram hcall fuel
    unfold Act.KeepsKnown at hrun
    dsimp only
    cases hs : Act.run host program fuel m₁ with
    | error fault s =>
      rw [hs] at hrun
      exact hrun.world
    | ok ended s =>
      rw [hs] at hrun
      have hknows : s.Knows kinds values := hrun
      cases ended with
      | false => exact hknows.world
      | true =>
        dsimp only
        cases hback : s.stack.back? with
        | some u => exact hknows.back hback
        | none => exact hknows.world

/-- A host learns of no other functions by handling values. -/
theorem handle {f : Effect Value} (h : w.Knows kinds values) (hlibrary : ∀ g, kinds.library g) (hf : Handles values f) :
    Program.Yields kinds values ((some <$> f) w) := by
  obtain ⟨V, hV, hw, hvalues⟩ := h
  have hagrees : Agrees V (Value.Alike V) f f := by
    cases hf with
    | @inert v hv =>
      refine .pure ?_
      cases v with
      | function g =>
        cases g with
        | library g => exact ⟨rfl, (hV.library g).2 (hlibrary g)⟩
        | _ => cases hv
      | nil | boolean b | integer n | float x | string s | range r => rfl
      | _ => cases hv
    | tuple hvs => exact .pure (.tuple (List.forall₂_same.2 fun v hv => hvalues v (hvs v hv)))
    | list hvs => exact .newList (List.forall₂_same.2 fun v hv => hvalues v (hvs v (Array.mem_toList_iff.1 hv)))
    | index hv hi => exact Value.index_agrees (hvalues _ hv) (hvalues _ hi)
  show Program.Yields kinds values (EStateM.map some f w)
  unfold EStateM.map
  rcases hagrees.cases hw with ⟨a, b, w', w'', h₁, h₂, hab, hw'⟩ | ⟨e, e', w', w'', h₁, h₂, -, hw'⟩
  · rw [h₁] at h₂ ⊢
    cases h₂
    exact ⟨V, hV, hw', List.forall_mem_cons.2 ⟨hab, hvalues⟩⟩
  · rw [h₁] at h₂ ⊢
    cases h₂
    exact ⟨V, hV, hw', hvalues⟩

end World.Knows

/-! ## Functions and entries -/

namespace Session

variable {s s' : Session}

/-- The page is that of an entry. -/
def IsEntry (s : Session) (i : Nat) : Prop := ∃ e ∈ s.entries, e.toNat = i

/-- The functions that the host may come by have none of the entries' pages, nor any page that is still to come. -/
structure Sealed (s : Session) : Prop where
  compiler : s.compiler.Secludes s.IsEntry
  knows : ∀ apart : Nat → Prop, (∀ i, apart i → s.IsEntry i ∨ s.program.pages.size ≤ i) →
    s.world.Knows ⟨fun index => ¬apart index.toNat, fun _ => True⟩ s.values

theorem Sealed.opened (w : World) : (opened w).Sealed where
  compiler := by
    have hnone : (Session.opened w).IsEntry = fun _ => False := funext fun i => eq_false nofun
    rw [hnone]
    exact .new
  knows := fun _ _ => w.knows_nothing _

/-- What the host does in its world leaves its functions apart from the entries. -/
theorem Sealed.after (hs : s.Sealed) {r : EStateM.Result Fault World (Option Value)}
    (hr : ∀ kinds : Kinds, s.program.Names kinds → (∀ f, kinds.library f) → s.world.Knows kinds s.values →
      Program.Yields kinds s.values r) : (s.after r).Sealed := by
  have hyields (apart : Nat → Prop) (hapart : ∀ i, apart i → s.IsEntry i ∨ s.program.pages.size ≤ i) :
      Program.Yields ⟨fun index => ¬apart index.toNat, fun _ => True⟩ s.values r :=
    hr _ (hs.compiler.names hapart) (fun _ => trivial) (hs.knows apart hapart)
  cases r with
  | ok v? w => exact ⟨hs.compiler, hyields⟩
  | error fault w => exact ⟨hs.compiler, hyields⟩

/-- An entry that is compiled is apart from all functions that there are. -/
theorem Sealed.compiles (hs : s.Sealed) {e : Expr} {index : UInt16} {c : Compiler}
    (h : s.compiler.enter e = (.ok index, c)) :
    ({ s with compiler := c, entries := index :: s.entries } : Session).Sealed := by
  have hentries : ({ s with compiler := c, entries := index :: s.entries } : Session).IsEntry =
      fun i => s.IsEntry i ∨ i = index.toNat := by
    funext i
    simp only [IsEntry, List.mem_cons, exists_eq_or_imp, eq_comm (a := i)]
    exact propext or_comm
  have hindex : index.toNat = s.program.pages.size := Compiler.enter_index h
  have hgrows : s.program.pages.size ≤ c.program.pages.size :=
    ((hs.compiler.sound.stable.enter h).2.1 (Compiler.entryDraft e) (Compiler.entryDraft e)).count
  refine ⟨hentries ▸ hs.compiler.enter_ok h, fun apart hapart => hs.knows apart fun i hi => ?_⟩
  rcases hapart i hi with hentry | hlater
  · rw [hentries] at hentry
    rcases hentry with hentry | rfl
    · exact .inl hentry
    · exact .inr (Nat.le_of_eq hindex.symm)
  · exact .inr (Nat.le_trans hgrows hlater)

theorem Sealed.step (hs : s.Sealed) (h : Step s s') : s'.Sealed := by
  cases h with
  | compiles h => exact hs.compiles h
  | refuses h =>
    rw [hs.compiler.sound.whole.enter_error h]
    exact hs
  | executes _ host fuel => exact hs.after fun kinds hprogram _ hw => hw.execute hprogram host _ fuel
  | calls hv harguments host fuel =>
    exact hs.after fun kinds hprogram _ hw => hw.callFunction hprogram hv harguments host fuel
  | handles h => exact hs.after fun kinds _ hlibrary hw => hw.handle hlibrary h

theorem Sealed.of_reachable (h : Relation.ReflTransGen Step (.opened w) s) : s.Sealed := by
  induction h with
  | refl => exact .opened w
  | tail _ hstep ih => exact ih.step hstep

theorem Sealed.secludes (hs : s.Sealed) : s.program.Secludes s.IsEntry where
  names := hs.compiler.names fun _ => .inl
  rootless := fun _ _ => hs.compiler.rootless

/-! ## Runs and calls -/

/-- The machine takes part in the session, in the extent of a call that is a root call or is none. -/
structure Holds (s : Session) (isRoot : Bool) (m : Machine) : Prop where
  placed : m.Placed s.program
  ranked : Ranked s.IsEntry m.calls
  captive : isRoot = false → ∀ f ∈ m.calls, f.isRoot = false
  knows : m.Knows ⟨fun index => ¬s.IsEntry index.toNat, fun _ => True⟩ s.values

variable {isRoot : Bool}

theorem Holds.of_starts [host.Lawful] (hs : s.Sealed) (h : s.Starts host isRoot m) : s.Holds isRoot m := by
  have hworld : s.world.Knows ⟨fun index => ¬s.IsEntry index.toNat, fun _ => True⟩ s.values :=
    hs.knows s.IsEntry fun _ => .inl
  cases h with
  | executes => exact ⟨.start _ _, .singleton fun _ => rfl, nofun, hworld.start _⟩
  | calls hv harguments h =>
    have hknows : Act.KeepsKnown _ s.values (Act.call host s.program _ _ false) _ := hworld.call hv harguments
    unfold Act.KeepsKnown at hknows
    rw [h] at hknows
    obtain ⟨V, hV, -, hvalues⟩ := hworld
    obtain ⟨hhandlers, hframes | ⟨index, base, environment?, hframes, hruns⟩⟩ := Act.call_frames h
    · have hcalls : m.calls = [] := congrArg (List.map Frame.call) hframes
      exact ⟨.unhandled hhandlers (hframes ▸ nofun), hcalls ▸ .nil, fun _ => hcalls ▸ nofun, hknows⟩
    · have hpage : ¬s.IsEntry index.toNat := hV.runs (hvalues _ hv) hruns
      have hcalls : m.calls = [.new index base false environment?] := congrArg (List.map Frame.call) hframes
      have hplaced : ∀ f ∈ m.frames, f.Placed s.program := by
        rw [hframes]
        exact List.forall_mem_singleton.2 (Frame.Placed.new index base false environment?)
      exact ⟨.unhandled hhandlers hplaced, hcalls ▸ .singleton fun he => absurd he hpage,
        fun _ => hcalls ▸ List.forall_mem_singleton.2 rfl, hknows⟩

theorem Holds.turn [host.Lawful] (hs : s.Sealed) (h : s.Holds isRoot m) {t : Machine}
    (hturn : Act.turn host s.program m = .ok () t) : s.Holds isRoot t where
  placed := h.placed.turn hturn
  ranked := h.ranked.turn hs.secludes h.placed h.knows hturn
  captive := fun hroot => (h.ranked.turn hs.secludes h.placed h.knows hturn).turn_captive (h.captive hroot) hturn
  knows := by
    have hknown : Act.KeepsKnown _ s.values (Act.turn host s.program) m := Act.turn_known hs.secludes.names h.knows
    unfold Act.KeepsKnown at hknown
    rwa [hturn] at hknown

theorem Holds.turns [host.Lawful] (hs : s.Sealed) (h : s.Holds isRoot m₀)
    (hm : Turns host s.program Machine.Active m₀ m) : s.Holds isRoot m :=
  hm.keeps h fun _ _ h _ hturn => h.turn hs hturn

/-- **Captured output never reaches the terminal.** In all machines that runs of entries and calls of functions reach,
the caller of a root call is a root call, and only the outermost call runs the page of an entry; where a function was
called from outside, there are no root calls. So a program call on top of a call that is no root call, at whatever
depth, is none either: it writes nothing to the terminal and gives a stream. -/
theorem captured_output_never_leaks [host.Lawful] (hs : Relation.ReflTransGen Step (.opened w) s)
    (h₀ : s.Starts host isRoot m₀) (hm : Turns host s.program Machine.Active m₀ m) :
    (m.frames.Pairwise fun f caller => f.isRoot = true → caller.isRoot = true) ∧
    (∀ f ∈ m.frames.dropLast, f.page ∉ s.entries) ∧
    (isRoot = false → ∀ f ∈ m.frames, f.isRoot = false) ∧
    ∀ i, m.next? s.program = some i → i.op.callsProgram = true → (∃ f ∈ m.frames, f.isRoot = false) →
      m.Captures host s.program i := by
  have hsealed := Sealed.of_reachable hs
  have hholds := (Holds.of_starts hsealed h₀).turns hsealed hm
  refine ⟨List.pairwise_map.1 hholds.ranked.roots, fun f hf hentry => ?_, fun hroot f hf => ?_,
    fun i hnext hop hinner => ?_⟩
  · refine hholds.ranked.callees f.call ?_ ⟨f.page, hentry, rfl⟩
    unfold Machine.calls
    rw [← List.map_dropLast]
    exact List.mem_map_of_mem hf
  · exact hholds.captive hroot f.call (List.mem_map_of_mem hf)
  · exact hholds.placed.captures hsealed.secludes hholds.ranked hnext hop hinner

/-- A function that leaves it to its caller where the output of a program goes. -/
def greeting : Expr := .mk 0 (.define 0 "greet" []
  (.mk 0 (.call (.program (.mk 0 (.literal .nil)) none [] ⟨false, false, false, false, false⟩) [] true)))

/-- A call of it as a part of something else. -/
def greeted : Expr := .mk 0 (.call (.function 0) [] false)

/-- The compiler that has the function. -/
def knowingGreeting : Compiler :=
  ⟨⟨#[{ Page.empty Compiler.entryName 0 with code := #[Op.const.toByte, 0, 0] },
    { Page.empty "greet" 0 with code := #[Op.const.toByte, 0, 0, Op.maybeRootCallProgram.toByte, 0, 0, 0, 0] }], #[]⟩,
    [(0, 1)], [0]⟩

/-- The compiler that has the call as well. -/
def knowingGreeted : Compiler :=
  ⟨⟨knowingGreeting.program.pages.push ⟨Compiler.entryName, 0, #[Op.const.toByte, 0, 1, Op.call.toByte, 0],
    .ofList [.nil, .page 1], #[]⟩, #[]⟩, [(0, 1)], [0]⟩

theorem enter_greeting : Compiler.new.enter greeting = (.ok 0, knowingGreeting) := by
  with_unfolding_all rfl

theorem enter_greeted : knowingGreeting.enter greeted = (.ok 2, knowingGreeted) := by
  let writing (code : Array UInt8) (constants : List Constant) (height : Nat) : Workbench :=
    ⟨⟨knowingGreeting.program.pages.push (.empty Compiler.entryName 0), #[]⟩, [(0, 1)], [0], [],
      ⟨⟨Compiler.entryName, 0, code, .ofList constants, #[]⟩, [], [], [], height, 0, [], [], true⟩, []⟩
  have hpage : Emit.functionPage 0 (writing #[] [.nil] 0) = .ok 1 (writing #[] [.nil] 0) := rfl
  have hcallee : Emit.constant (.page 1) (writing #[] [.nil] 0) =
      .ok () (writing #[Op.const.toByte, 0, 1] [.nil, .page 1] 1) :=
    (ConstantTable.constant_new rfl rfl (by decide) (by decide)).trans rfl
  have htarget : (Target.function 0).emit 0 false (pure ()) (writing #[] [.nil] 0) =
      .ok () (writing #[Op.const.toByte, 0, 1, Op.call.toByte, 0] [.nil, .page 1] 1) :=
    (bind_run_ok hpage).trans ((bind_run_ok hcallee).trans rfl)
  have hstart : (knowingGreeting.bench (Compiler.entryDraft greeted)).reserve Compiler.entryName =
      writing #[] [.nil] 0 := by
    with_unfolding_all rfl
  exact Compiler.enter_of_emitValue (by decide) hstart htarget (by decide) rfl

/-- The function is called as a part of something else, and calls a program. -/
theorem captured_output_never_leaks_greeted : ∃ s m₀ m i, Relation.ReflTransGen Step (.opened default) s ∧
    s.Starts {} true m₀ ∧ Turns {} s.program Machine.Active m₀ m ∧ m.next? s.program = some i ∧
    i.op = .maybeRootCallProgram ∧ m.frames.map Frame.isRoot = [false, true] ∧ m.Captures {} s.program i := by
  have hsession : Relation.ReflTransGen Step (.opened default) ⟨knowingGreeted, [2, 0], default, []⟩ :=
    .tail (.single (.compiles enter_greeting)) (.compiles enter_greeted)
  have hstarts : Starts ⟨knowingGreeted, [2, 0], default, []⟩ {} true (.start 2 default) := .executes List.mem_cons_self
  obtain ⟨m, hturns, hm⟩ := Act.turns_of_reaches
    (show Act.reaches {} knowingGreeted.program 3 (.start 2 default) (fun m =>
      decide (m.next? knowingGreeted.program = some ⟨3, .maybeRootCallProgram, [0, 0, 0, 0]⟩ ∧
        m.frames.map Frame.isRoot = [false, true])) = true by decide +kernel)
  obtain ⟨hnext, hroots⟩ := of_decide_eq_true hm
  have hinner : ∃ f ∈ m.frames, f.isRoot = false := List.mem_map.1 (hroots ▸ List.mem_cons_self)
  exact ⟨_, _, m, _, hsession, hstarts, hturns, hnext, rfl, hroots,
    (captured_output_never_leaks hsession hstarts hturns).2.2.2 _ hnext rfl hinner⟩

end Session

end ShellVM
