import ShellVM.Proofs.Emission.Expression
import ShellVM.Proofs.Rollback.Emission

/-!
# What expressions change

`Expr.traces`: the code of an expression can be taken back at any point, and if it is completed, of the pages that the
compiler had only those of the functions that the expression defines have changed. The proof follows the recursion of
`Expr.emit`, with one lemma for each construct.
-/

namespace ShellVM

theorem Literal.constant_plain (l : Literal) : l.constant.Plain := by
  cases l <;> trivial

namespace Traces

variable {c : Compiler} {ds ds' ds'' : List Definition} {m m' m'' : Emit Unit}

/-- Two parts, one after the other, and then an instruction. -/
theorem pair (o : Op) (operands : List UInt8) (h : Traces c ds m) (h' : Traces c ds' m') :
    Traces c (ds ++ ds') (do
      m
      m'
      Emit.op o operands) :=
  h.bind fun _ => h'.then' fun _ => .op ..

theorem indexStore (h : Traces c ds m) (h' : Traces c ds' m') (h'' : Traces c ds'' m'') :
    Traces c (ds ++ (ds' ++ ds'')) (do
      m
      m'
      m''
      Emit.op .indexStore []) :=
  h.bind fun _ => h'.bind fun _ => h''.then' fun _ => .op ..

theorem struct (name : String) (names : List String) (n : Nat) (h : Traces c ds m) :
    Traces c ds (do
      m
      let key ← Emit.constantKey (.shape name names)
      Emit.op .buildStruct (wordBytes key)
      Emit.popHeight n
      Emit.setHeight ((← Emit.height) + 1)) :=
  h.then' fun _ => .seq (.constantKey trivial) fun _ => .seq (.op ..) fun _ => .seq (.popHeight _) fun _ =>
    .seq .height fun _ => .setHeight _

theorem assignment (name : String) (h : Traces c ds m) :
    Traces c ds (do
      let place ← Emit.resolve name
      m
      Emit.store place) :=
  .seq (.resolve _) fun _ => h.then' fun _ => .store _

end Traces

variable {c : Compiler}

open Traces

mutual

/-- What the code of an expression changes. -/
theorem Expr.traces (hc : c.Whole) : ∀ e : Expr, Traces c e.definitions e.emit
  | .mk line node => .seq (.markLine line) fun _ => node.traces hc line

theorem Node.traces (hc : c.Whole) : ∀ (node : Node) (line : UInt32), Traces c node.definitions (node.emit line)
  | .literal l, _ => .constant l.constant_plain
  | .interpolation parts, _ => (valuesTrace hc parts).then' fun _ => .word ..
  | .list items, _ => (valuesTrace hc items).then' fun _ => .word ..
  | .tuple items, _ => (valuesTrace hc items).then' fun _ => .word ..
  | .set items, _ => (valuesTrace hc items).then' fun _ => .word ..
  | .dictionary entries, _ => (entriesTrace hc entries).then' fun _ => .word ..
  | .range first? last? _, _ => pair _ _ (partTraces hc first?) (partTraces hc last?)
  | .struct _ fields, _ => struct _ _ _ (fieldsTrace hc fields)
  | .variable _, _ => .load _
  | .declare names v, _ => declaration names (.valued _ (v.traces hc))
  | .assign (.mk _ target) v, _ => by
    have hv := Traces.valued v.producesValue (v.traces hc)
    cases target with
    | «variable» name => exact assignment name hv
    | index container index => exact indexStore hv (.valued _ (container.traces hc)) (.valued _ (index.traces hc))
    | field container name =>
      exact hv.bind fun _ => (valued _ (container.traces hc)).then' fun _ =>
        .seq (.constant (k := .string name) trivial) fun _ => .op ..
    | _ => exact .throw _
  | .binary o left right, _ => by
    have hleft := Traces.valued left.producesValue (left.traces hc)
    have hright := Traces.valued right.producesValue (right.traces hc)
    cases o with
    | and | or => exact shortCircuit _ hleft hright
    | _ => exact pair _ _ hleft hright
  | .unary _ operand, _ => (valued _ (operand.traces hc)).then' fun _ => .op ..
  | .cast v _, _ => (valued _ (v.traces hc)).then' fun _ => .op ..
  | .index target index, _ => pair _ _ (.valued _ (target.traces hc)) (.valued _ (index.traces hc))
  | .field target name, _ =>
    (valued _ (target.traces hc)).then' fun _ => .seq (.constant (k := .string name) trivial) fun _ => .op ..
  | .block items, _ => .seq .beginScope fun _ => (itemsTrace hc items).then' fun _ => .endScope _
  | .branch condition yes (some no), _ =>
    branch (.valued _ (condition.traces hc)) (.valued _ (yes.traces hc)) (.valued _ (no.traces hc))
  | .branch condition yes none, _ => branch (.valued _ (condition.traces hc)) (.valued _ (yes.traces hc)) .nil
  | .loop condition body, _ => loop (.valued _ (condition.traces hc)) (.valued _ (body.traces hc))
  | .each names iterable body, _ => each names (.valued _ (iterable.traces hc)) (.valued _ (body.traces hc))
  | .break, _ => .leaveLoop
  | .continue, _ => .nextRound
  | .return (some v), _ => leavePage (.valued _ (v.traces hc))
  | .return none, _ => leavePage .nil
  | .attempt body binding? handler, _ => attempt binding? (.valued _ (body.traces hc)) (.valued _ (handler.traces hc))
  | .define id name parameters body, _ =>
    .define hc ⟨id, name, parameters, body⟩
      (Emits.page name parameters [] body.captured (.value body) (Emits.value body.emits))
      (page name parameters [] body.captured (.value body) (.valued _ (body.traces hc)))
  | .closure parameters captures body, _ =>
    closure hc captures (page "<closure>" parameters captures body.captured (.value body) (.valued _ (body.traces hc)))
  | .call target arguments root, _ => target.traces hc arguments.length root (valuesTrace hc arguments)

theorem Target.traces (hc : c.Whole) : ∀ (target : Target) (count : Nat) (root : Bool) {m : Emit Unit}
    {ds : List Definition}, Traces c ds m → Traces c (target.definitions ds) (target.emit count root m)
  | .function id, count, root, _, _, h => functionCall hc id root count h
  | .value callee, count, root, _, _, h => (valued _ (callee.traces hc)).bind fun _ => call root count h
  | .library f, count, _, _, _, h => libraryCall f count h
  | .program name (some piped) environment settings, count, root, _, _, h =>
    programCall settings root count environment.length (.valued _ (name.traces hc)) h (.valued _ (piped.traces hc))
      (variablesTrace hc environment)
  | .program name none environment settings, count, root, _, _, h =>
    programCall settings root count environment.length (.valued _ (name.traces hc)) h (.pure _)
      (variablesTrace hc environment)

theorem partTraces (hc : c.Whole) : ∀ e? : Option Expr, Traces c (definitionsIn? e?) (emitValue? e?)
  | none => .pure _
  | some e => .valued _ (e.traces hc)

theorem valuesTrace (hc : c.Whole) : ∀ es : List Expr, Traces c (definitionsIn es) (emitValues es)
  | [] => .pure _
  | e :: rest => (valued _ (e.traces hc)).bind fun _ => valuesTrace hc rest

theorem entriesTrace (hc : c.Whole) : ∀ es : List (Expr × Expr), Traces c (definitionsInEntries es) (emitEntries es)
  | [] => .pure _
  | (k, v) :: rest =>
    (valued _ (k.traces hc)).bind fun _ => (valued _ (v.traces hc)).bind fun _ => entriesTrace hc rest

theorem fieldsTrace (hc : c.Whole) : ∀ es : List (String × Expr), Traces c (definitionsInFields es) (emitFields es)
  | [] => .pure _
  | (_, v) :: rest => (valued _ (v.traces hc)).bind fun _ => fieldsTrace hc rest

theorem variablesTrace (hc : c.Whole) :
    ∀ es : List (String × Expr), Traces c (definitionsInFields es) (emitVariables es)
  | [] => .pure _
  | (name, v) :: rest => .seq (.constant (k := .string name) trivial) fun _ =>
    (valued _ (v.traces hc)).bind fun _ => variablesTrace hc rest

theorem itemsTrace (hc : c.Whole) : ∀ es : List Expr, Traces c (definitionsIn es) (emitItems es)
  | [] => .nil
  | [e] => (e.traces hc).bind fun _ => .ite (.pure _) .nil
  | e :: e' :: rest => (e.traces hc).bind fun _ =>
    .ite (.seq .pop fun _ => itemsTrace hc (e' :: rest)) (itemsTrace hc (e' :: rest))

end

end ShellVM
