import ShellVM.Proofs.Emission.Call
import ShellVM.Proofs.Emission.Loop
import ShellVM.Proofs.Emission.Pages

/-!
# The code of expressions is where it should be

`Expr.emits`: if the compiler gets through an expression, its code lies in the finished page as `Expr.Lies` says. The
proof follows the recursion of `Expr.emit`, with one emitter for each construct.
-/

namespace ShellVM

theorem Node.lies_leaves (node : Node) (S : Sheet) : (node.Lies S).Leaves node.producesValue := by
  intro Γ p Γ' p' h
  have same (h : Γ' = Γ) : ∃ new, Γ' = Γ.grow new ∧ ∀ l ∈ new, l.depth = Γ.depth := ⟨[], h, by simp⟩
  cases node with
  | declare names value =>
    simp only [Node.Lies] at h
    obtain ⟨p₁, new, -, hnew, rfl⟩ := h
    exact ⟨new, rfl, (Sheet.unpacks_length hnew).2⟩
  | assign target value =>
    obtain ⟨line, target⟩ := target
    cases target <;> first | exact h.2 | exact h.elim
  | binary op left right => cases op <;> exact h.2
  | branch condition yes no? => cases no? <;> exact h.2
  | loop condition body =>
    simp only [Node.Lies] at h
    obtain ⟨_, _, _, _, _, _, _, _, h⟩ := h
    exact same h
  | each names iterable body =>
    simp only [Node.Lies] at h
    obtain ⟨_, _, _, _, _, _, _, _, _, _, _, _, _, _, _, h⟩ := h
    exact same h
  | «break» =>
    simp only [Node.Lies] at h
    obtain ⟨_, _, _, _, _, _, h⟩ := h
    exact same h
  | «continue» =>
    simp only [Node.Lies] at h
    obtain ⟨_, _, _, _, _, _, h⟩ := h
    exact same h
  | «return» value? =>
    cases value? <;>
    · obtain ⟨_, _, _, _, _, _, _, _, h⟩ := h
      exact same h
  | define id name parameters body => exact same h.2
  | _ => exact h.2

theorem Expr.lies_leaves : ∀ (e : Expr) (S : Sheet), (e.Lies S).Leaves e.producesValue
  | .mk _ node, S => node.lies_leaves S

/-- What the items of a block leave: new locals and one value. -/
theorem ItemsLie_leaves (S : Sheet) : ∀ (items : List Expr) {Γ Γ' : Scope} {p p' : Nat}, ItemsLie items S Γ p Γ' p' →
    ∃ new, Γ' = (Γ.grow new).push ∧ ∀ l ∈ new, l.depth = Γ.depth
  | [], Γ, Γ', _, _, h => ⟨[], h.2, by simp⟩
  | [e], Γ, Γ', p, p', h => by
    have hleaves := e.lies_leaves S
    simp only [ItemsLie] at h
    cases hv : e.producesValue with
    | true =>
      rw [hv] at h hleaves
      exact ⟨[], hleaves h, by simp⟩
    | false =>
      rw [hv] at h hleaves
      obtain ⟨Γ₁, p₁, hlies, -, rfl⟩ := h
      obtain ⟨new, rfl, hnew⟩ := hleaves hlies
      exact ⟨new, rfl, hnew⟩
  | e :: e' :: rest, Γ, Γ', p, p', h => by
    have hleaves := e.lies_leaves S
    simp only [ItemsLie] at h
    cases hv : e.producesValue with
    | true =>
      rw [hv] at h
      obtain ⟨p₁, -, -, hrest⟩ := h
      exact ItemsLie_leaves S (e' :: rest) hrest
    | false =>
      rw [hv] at h hleaves
      obtain ⟨Γ₁, p₁, hlies, hrest⟩ := h
      obtain ⟨new, rfl, hnew⟩ := hleaves hlies
      obtain ⟨new', rfl, hnew'⟩ := ItemsLie_leaves S (e' :: rest) hrest
      refine ⟨new' ++ new, ?_, fun l hl => ?_⟩
      · simp only [Scope.grow, Scope.push, Scope.raise, List.append_assoc, List.length_append, Scope.mk.injEq,
          true_and, and_true]
        omega
      · rcases List.mem_append.1 hl with hl | hl
        · exact hnew' l hl
        · exact hnew l hl

namespace Emits

/-- No code for no values. -/
theorem nothing : Emits (pure ()) fun _ _ => Part.raising (fun _ p p' => p' = p) 0 := by
  refine (skip ()).weaken ?_
  rintro _ S Γ p Γ' p' - ⟨-, rfl, rfl⟩
  exact ⟨rfl, rfl⟩

/-- Two values before the rest. -/
theorem twice {m m' m'' : Emit Unit} {P P' P'' : Sheet → Part} {n : Nat} (h : Emits m fun _ S => (P S).layout)
    (h' : Emits m' fun _ S => (P' S).layout) (h'' : Emits m'' fun _ S => (P'' S).raising (n * 2)) :
    Emits (do m; m'; m'') fun _ S => (Part.both (P S) (Part.both (P' S) (P'' S))).raising ((n + 1) * 2) := by
  rw [Nat.succ_mul]
  exact both h (both h' h'')

/-- A value, a container and an index, and the instruction that stores. -/
theorem indexStore {v c i : Emit Unit} {V C I : Sheet → Part} (hv : Emits v fun _ S => (V S).layout)
    (hc : Emits c fun _ S => (C S).layout) (hi : Emits i fun _ S => (I S).layout) :
    Emits (do v; c; i; Emit.op .indexStore []) fun _ S =>
      (S.after (Part.both (Part.both (V S) (C S)) fun Γ => I S Γ.push) .indexStore []).layout := by
  refine (hv.bind fun _ => hc.bind fun _ => hi.bind fun _ => op rfl rfl).weaken ?_
  rintro _ S Γ p Γ' p' - ⟨_, _, p₁, ⟨hV, rfl⟩, _, _, p₂, ⟨hC, rfl⟩, _, _, p₃, ⟨hI, rfl⟩, ho, rfl, -, rfl⟩
  exact ⟨⟨p₃, ⟨p₂, ⟨p₁, hV, hC⟩, hI⟩, ho, rfl⟩, rfl⟩

theorem pair {m m' : Emit Unit} {P P' : Sheet → Part} {o : Op} (h : Emits m fun _ S => (P S).layout)
    (h' : Emits m' fun _ S => (P' S).layout) (hw : o.width = 0) (he : o.stackEffect? [] = some (2, 1)) :
    Emits (do m; m'; Emit.op o []) fun _ S => (S.after (Part.both (P S) (P' S)) o []).layout := by
  intro s s' _ hm
  have hm : (do (do m; m'); Emit.op o []) s = .ok () s' := by
    rwa [bind_assoc]
  exact after (both h (n := 1) h') (show [].length = _ from hw.symm) he hm

theorem range {m m' : Emit Unit} {P P' : Sheet → Part} {j k : Nat} {flags : UInt8}
    (h : Emits m fun _ S => (P S).raising j) (h' : Emits m' fun _ S => (P' S).raising k)
    (he : Op.stackEffect? .buildRange [flags] = some (j + k, 1)) :
    Emits (do m; m'; Emit.op .buildRange [flags]) fun _ S =>
      (S.after (fun Γ p p' => ∃ p₁, P S Γ p p₁ ∧ P' S (Γ.raise j) p₁ p') .buildRange [flags]).layout := by
  refine (h.bind fun _ => h'.bind fun _ => op rfl he).weaken ?_
  rintro _ S Γ p Γ' p' - ⟨_, _, p₁, ⟨hP, rfl⟩, _, _, p₂, ⟨hP', rfl⟩, ho, rfl, -, rfl⟩
  refine ⟨⟨p₂, ⟨p₁, hP, hP'⟩, ho, rfl⟩, ?_⟩
  simp only [Scope.raise, Scope.push, Scope.mk.injEq, true_and, and_true]
  omega

theorem block {m : Emit Unit} {L : Sheet → Layout} (h : Emits m fun _ S => L S)
    (hL : ∀ S Γ p Γ' p', L S Γ p Γ' p' → ∃ new, Γ' = (Γ.grow new).push ∧ ∀ l ∈ new, l.depth = Γ.depth) :
    Emits (do Emit.beginScope; m; Emit.endScope true) fun _ S => (S.block (L S)).layout := by
  refine (inScope true h hL).weaken ?_
  rintro _ S Γ p Γ' p' - ⟨new, p₁, hnew, hlies, hdrops, rfl⟩
  exact ⟨⟨new, p₁, hnew, hlies, hdrops⟩, rfl⟩

end Emits

/-- The code of an expression as a value. -/
theorem Emits.value {e : Expr} (h : Emits e.emit fun _ S => e.Lies S) :
    Emits (Emit.valued e.producesValue e.emit) fun _ S => (S.valued e.producesValue (e.Lies S)).layout :=
  valued h fun S => e.lies_leaves S

/-- The last item of a block leaves its value, or nil. -/
theorem Emits.lastItem {e : Expr} (h : Emits e.emit fun _ S => e.Lies S) :
    Emits (do e.emit; if e.producesValue then pure () else Emit.nil) fun _ S => ItemsLie [e] S := by
  cases hv : e.producesValue with
  | true =>
    refine (h.bind fun _ => skip ()).weaken ?_
    rintro _ S Γ p Γ' p' - ⟨_, _, _, hlies, -, rfl, rfl⟩
    simpa only [ItemsLie, hv, if_true] using hlies
  | false =>
    refine (h.bind fun _ => nil).weaken ?_
    rintro _ S Γ p Γ' p' - ⟨_, Γ₁, p₁, hlies, hnil, rfl⟩
    simp only [ItemsLie, hv]
    exact ⟨Γ₁, p₁, hlies, hnil, rfl⟩

/-- The value of an item that is not the last one is dropped. -/
theorem Emits.item {e e' : Expr} {rest : List Expr} {m : Emit Unit} (h : Emits e.emit fun _ S => e.Lies S)
    (h' : Emits m fun _ S => ItemsLie (e' :: rest) S) :
    Emits (do
      e.emit
      if e.producesValue then Emit.pop
      m) fun _ S => ItemsLie (e :: e' :: rest) S := by
  have hpop : Emits Emit.pop _ := op (o := .pop) rfl rfl
  cases hv : e.producesValue with
  | true =>
    refine (h.bind fun _ => hpop.bind fun _ => h').weaken ?_
    rintro _ S Γ p Γ' p' - ⟨_, Γ₁, p₁, hlies, _, _, _, ⟨ho, rfl, -, rfl⟩, hrest⟩
    have hleaves := e.lies_leaves S
    rw [hv] at hleaves
    obtain rfl := hleaves hlies
    simp only [ItemsLie, hv, if_true]
    exact ⟨p₁, hlies, ho, hrest⟩
  | false =>
    refine (h.bind fun _ => h').weaken ?_
    rintro _ S Γ p Γ' p' - ⟨_, Γ₁, p₁, hlies, hrest⟩
    simp only [ItemsLie, hv]
    exact ⟨Γ₁, p₁, hlies, hrest⟩

open Emits

mutual

/-- The code of an expression that gets through the compiler lies where it should. -/
theorem Expr.emits : ∀ e : Expr, Emits e.emit fun _ S => e.Lies S
  | .mk line node => by
    refine ((markLine line).bind fun _ => node.emits line).weaken ?_
    rintro _ S Γ p Γ' p' - ⟨_, _, _, ⟨rfl, rfl⟩, h⟩
    exact h

theorem Node.emits : ∀ (node : Node) (line : UInt32), Emits (node.emit line) fun _ S => node.Lies S
  | .literal l, _ => constant l.constant
  | .interpolation parts, _ => counted (valuesEmit parts) rfl fun h => stackEffect?_build (by simp) h
  | .list items, _ => counted (valuesEmit items) rfl fun h => stackEffect?_build (by simp) h
  | .tuple items, _ => counted (valuesEmit items) rfl fun h => stackEffect?_build (by simp) h
  | .set items, _ => counted (valuesEmit items) rfl fun h => stackEffect?_build (by simp) h
  | .dictionary entries, _ => counted (entriesEmit entries) rfl stackEffect?_buildDict
  | .range first? last? inclusive, _ =>
    range (partEmits first?) (partEmits last?) (stackEffect?_rangeFlags first? last? inclusive)
  | .struct name fields, _ => by
    have h := struct name (fields.map Prod.fst) (by rw [List.length_map]; exact fieldsEmit fields)
    rw [List.length_map] at h
    exact h
  | .variable name, _ => load name
  | .declare names v, _ => declaration names (value v.emits)
  | .assign (.mk _ target) v, _ => by
    have hv := value v.emits
    cases target with
    | «variable» name => exact store name hv
    | index container index => exact indexStore hv (value container.emits) (value index.emits)
    | field container name => exact indexStore hv (value container.emits) (constant (.string name))
    | _ => exact failure _ _
  | .binary o left right, _ => by
    have hleft := value left.emits
    have hright := value right.emits
    cases o with
    | and => exact shortCircuit (.inr rfl) hleft hright
    | or => exact shortCircuit (.inl rfl) hleft hright
    | _ => exact pair hleft hright rfl rfl
  | .unary o operand, _ => after (n := 1) (value operand.emits) (by cases o <;> rfl) (by cases o <;> rfl)
  | .cast v target, _ => after (n := 1) (value v.emits) rfl rfl
  | .index target index, _ => pair (value target.emits) (value index.emits) rfl rfl
  | .field target name, _ => pair (value target.emits) (constant (.string name)) rfl rfl
  | .block items, _ => block (itemsEmit items) fun S _ _ _ _ h => ItemsLie_leaves S items h
  | .branch condition yes (some no), _ => branch (value condition.emits) (value yes.emits) (value no.emits)
  | .branch condition yes none, _ => branch (value condition.emits) (value yes.emits) nil
  | .loop condition body, _ => loop (value condition.emits) (value body.emits)
  | .each names iterable body, _ => each names (value iterable.emits) (value body.emits)
  | .break, _ => leaveLoop
  | .continue, _ => nextRound
  | .return (some v), _ => leavePage (value v.emits)
  | .return none, _ => leavePage nil
  | .attempt body binding? handler, _ => attempt (value body.emits) binding? (value handler.emits)
  | .define id name parameters body, _ =>
    define id (page name parameters [] body.captured (.value body) (value body.emits))
  | .closure parameters captures body, _ =>
    closure (page "<closure>" parameters captures body.captured (.value body) (value body.emits))
  | .call target arguments root, _ => target.emits arguments.length root (valuesEmit arguments)

theorem Target.emits : ∀ (target : Target) (count : Nat) (root : Bool) {m : Emit Unit} {A : Sheet → Part},
    (Emits m fun _ S => (A S).raising count) →
      Emits (target.emit count root m) fun _ S => (target.Lies S count root (A S)).layout
  | .function id, count, root, _, _, h => by
    refine ((functionPage id).bind fun index => call root count (constant (.page index)) h).weaken ?_
    rintro _ S Γ p Γ' p' - ⟨index, _, _, ⟨hi, rfl, rfl⟩, ⟨p₁, hc, hcall⟩, rfl⟩
    exact ⟨⟨p₁, index, hi, hc, hcall⟩, rfl⟩
  | .value callee, count, root, _, _, h => call root count (value callee.emits) h
  | .library f, count, _, _, _, h => libraryCall f count h
  | .program name (some piped) environment settings, count, root, _, _, h =>
    programCall (some (Emit.valued piped.producesValue piped.emit))
      (fun S => some (S.valued piped.producesValue (piped.Lies S))) settings root count environment.length
      (value name.emits) h (value piped.emits) (fun _ => rfl) (variablesEmit environment)
  | .program name none environment settings, count, root, _, _, h =>
    programCall none (fun _ => none) settings root count environment.length (value name.emits) h nothing (fun _ => rfl)
      (variablesEmit environment)

theorem partEmits : ∀ e? : Option Expr, Emits (emitValue? e?) fun _ S => Part.raising (PartLies e? S) e?.toList.length
  | none => nothing
  | some e => value e.emits

theorem valuesEmit : ∀ es : List Expr, Emits (emitValues es) fun _ S => Part.raising (ValuesLie es S) es.length
  | [] => nothing
  | e :: rest => both (value e.emits) (valuesEmit rest)

theorem entriesEmit : ∀ es : List (Expr × Expr), Emits (emitEntries es) fun _ S =>
    Part.raising (EntriesLie es S) (es.length * 2)
  | [] => nothing
  | (k, v) :: rest => twice (value k.emits) (value v.emits) (entriesEmit rest)

theorem fieldsEmit : ∀ es : List (String × Expr), Emits (emitFields es) fun _ S =>
    Part.raising (FieldsLie es S) es.length
  | [] => nothing
  | (_, v) :: rest => both (value v.emits) (fieldsEmit rest)

theorem variablesEmit : ∀ es : List (String × Expr), Emits (emitVariables es) fun _ S =>
    Part.raising (VariablesLie es S) (es.length * 2)
  | [] => nothing
  | (name, v) :: rest => twice (constant (.string name)) (value v.emits) (variablesEmit rest)

theorem itemsEmit : ∀ es : List Expr, Emits (emitItems es) fun _ S => ItemsLie es S
  | [] => nil
  | [e] => lastItem e.emits
  | e :: e' :: rest => item e.emits (itemsEmit (e' :: rest))

end

end ShellVM
