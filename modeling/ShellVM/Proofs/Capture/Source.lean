import ShellVM.Expr

/-!
# Captured variables in the source

A page keeps the variables that closures capture in cells. `Expr.Uses` lists, in the order of the code, what the code
of an expression does with variables, and which declarations the names of those in cells stand for by the scopes of
the source. A declaration is known by its site, the offset of the instruction that makes its cell. Nothing here knows
about slots.
-/

namespace ShellVM

/-- A variable in a cell: one that the page declares, or one of those that it captures itself. -/
inductive CellVariable where
  | own (site : Nat)
  | outer (index : Nat)

/-- What code does with variables. -/
inductive Use where
  /-- A local that is in no cell is read. -/
  | read
  /-- A local that is in no cell is written. -/
  | write
  /-- The value of a local moves into a cell. -/
  | declare
  | load (x : CellVariable)
  | store (x : CellVariable)
  /-- The variable is put aside for the next closure. -/
  | put (x : CellVariable)
  /-- A closure is made, with the variables that its captures stand for. -/
  | close (parameters captures : List String) (body : Expr) (xs : List CellVariable)

/-- The locals in scope, the latest first, with the sites of those that live in cells. -/
abbrev Names := List (String × Option Nat)

/-- The variable in a cell that a name stands for, if it stands for one. -/
def Names.resolve? (captures : List String) (names : Names) (name : String) : Option CellVariable :=
  match names.lookup name with
  | some site? => site?.map .own
  | none => (captures.findIdx? (· == name)).map .outer

namespace Expr

/-- Does the code of the expression consist of that of its parts and of instructions that leave variables alone? -/
def isPlain (e : Expr) : Bool :=
  match e.node with
  | .variable _ | .declare .. | .block _ | .each .. | .attempt .. | .closure .. => false
  | .assign target _ =>
    match target.node with
    | .variable _ => false
    | _ => true
  | _ => true

/-- The parts of an expression in the order of the code. -/
def parts (e : Expr) : List Expr :=
  match e.node with
  | .assign target value => value :: target.children
  | _ => e.children

end Expr

/-- Locals are declared one after the other, with an instruction for each one that closures capture. -/
inductive Declares (captured : List String) : Names → List String → List (Nat × Use) → Names → Prop where
  | nil (names : Names) : Declares captured names [] [] names
  | boxed {names names' : Names} {name : String} {rest : List String} {uses : List (Nat × Use)} (site : Nat)
      (h : captured.contains name = true) (hrest : Declares captured ((name, some site) :: names) rest uses names') :
      Declares captured names (name :: rest) ((site, .declare) :: uses) names'
  | plain {names names' : Names} {name : String} {rest : List String} {uses : List (Nat × Use)}
      (h : captured.contains name = false) (hrest : Declares captured ((name, none) :: names) rest uses names') :
      Declares captured names (name :: rest) uses names'

theorem Declares.append {captured : List String} {names names' names'' : Names} {declared declared' : List String}
    {uses uses' : List (Nat × Use)} (h : Declares captured names declared uses names')
    (h' : Declares captured names' declared' uses' names'') :
    Declares captured names (declared ++ declared') (uses ++ uses') names'' := by
  induction h with
  | nil => exact h'
  | boxed site hname _ ih => exact .boxed site hname (ih h')
  | plain hname _ ih => exact .plain hname (ih h')

section

variable (captures captured : List String)

mutual

/-- What the code of an expression does with variables, and the scope at its end. -/
inductive Expr.Uses : Names → Expr → List (Nat × Use) → Names → Prop where
  | plain {names : Names} {e : Expr} {uses : List (Nat × Use)} (h : e.isPlain = true)
      (hparts : PartsUse names e.parts uses) : Expr.Uses names e uses names
  | load {names : Names} {line : UInt32} {name : String} {x : CellVariable} (site : Nat)
      (h : names.resolve? captures name = some x) : Expr.Uses names (.mk line (.variable name)) [(site, .load x)] names
  | read {names : Names} {line : UInt32} {name : String} (site : Nat) (h : names.resolve? captures name = none) :
      Expr.Uses names (.mk line (.variable name)) [(site, .read)] names
  | declare {names names' : Names} {line : UInt32} {declared : List String} {value : Expr}
      {uses uses' : List (Nat × Use)} (hvalue : PartsUse names [value] uses)
      (hnames : Declares captured names declared uses' names') :
      Expr.Uses names (.mk line (.declare declared value)) (uses ++ uses') names'
  | store {names : Names} {line line' : UInt32} {name : String} {value : Expr} {uses : List (Nat × Use)}
      {x : CellVariable} (site : Nat) (hvalue : PartsUse names [value] uses)
      (h : names.resolve? captures name = some x) :
      Expr.Uses names (.mk line (.assign (.mk line' (.variable name)) value)) (uses ++ [(site, .store x)]) names
  | write {names : Names} {line line' : UInt32} {name : String} {value : Expr} {uses : List (Nat × Use)}
      (site : Nat) (hvalue : PartsUse names [value] uses) (h : names.resolve? captures name = none) :
      Expr.Uses names (.mk line (.assign (.mk line' (.variable name)) value)) (uses ++ [(site, .write)]) names
  | block {names names' : Names} {line : UInt32} {items : List Expr} {uses : List (Nat × Use)}
      (hitems : ItemsUse names items uses names') : Expr.Uses names (.mk line (.block items)) uses names
  | each {names names' : Names} {line : UInt32} {declared : List String} {iterable body : Expr}
      {uses uses' uses'' : List (Nat × Use)} (hiterable : PartsUse names [iterable] uses)
      (hnames : Declares captured names declared uses' names') (hbody : PartsUse names' [body] uses'') :
      Expr.Uses names (.mk line (.each declared iterable body)) (uses ++ (uses' ++ uses'')) names
  | attempt {names names' : Names} {line : UInt32} {binding? : Option String} {body handler : Expr}
      {uses uses' uses'' : List (Nat × Use)} (hbody : PartsUse names [body] uses)
      (hnames : Declares captured names binding?.toList uses' names') (hhandler : PartsUse names' [handler] uses'') :
      Expr.Uses names (.mk line (.attempt body binding? handler)) (uses ++ (uses' ++ uses'')) names
  | closure {names : Names} {line : UInt32} {parameters captures' : List String} {body : Expr} {xs : List CellVariable}
      {puts : List (Nat × Use)} (site : Nat) (hputs : puts.map Prod.snd = xs.map .put)
      (h : captures'.map (names.resolve? captures) = xs.map some) :
      Expr.Uses names (.mk line (.closure parameters captures' body))
        (puts ++ [(site, .close parameters captures' body xs)]) names

/-- Expressions one after the other, each in a scope of its own. -/
inductive PartsUse : Names → List Expr → List (Nat × Use) → Prop where
  | nil (names : Names) : PartsUse names [] []
  | cons {names names' : Names} {e : Expr} {rest : List Expr} {uses uses' : List (Nat × Use)}
      (he : Expr.Uses names e uses names') (hrest : PartsUse names rest uses') :
        PartsUse names (e :: rest) (uses ++ uses')

/-- Expressions one after the other in one scope. -/
inductive ItemsUse : Names → List Expr → List (Nat × Use) → Names → Prop where
  | nil (names : Names) : ItemsUse names [] [] names
  | cons {names names' names'' : Names} {e : Expr} {rest : List Expr} {uses uses' : List (Nat × Use)}
      (he : Expr.Uses names e uses names') (hrest : ItemsUse names' rest uses' names'') :
      ItemsUse names (e :: rest) (uses ++ uses') names''

end

theorem PartsUse.append {names : Names} {es es' : List Expr} {uses uses' : List (Nat × Use)}
    (h : PartsUse captures captured names es uses) (h' : PartsUse captures captured names es' uses') :
    PartsUse captures captured names (es ++ es') (uses ++ uses') := by
  induction es generalizing uses with
  | nil =>
    cases h
    exact h'
  | cons e es ih =>
    cases h with
    | cons he hrest =>
      rw [List.append_assoc]
      exact .cons he (ih hrest)

end

/-- What the code of a page comes from. -/
structure Origin where
  parameters : List String
  /-- The variables that the page captures, and those of its own that closures capture. -/
  captures : List String
  captured : List String
  isEntry : Bool
  body : Expr

/-- What the code of the page does with variables. -/
def Origin.Uses (origin : Origin) (uses : List (Nat × Use)) : Prop :=
  ∃ names uses₁ uses₂, Declares origin.captured [] origin.parameters uses₁ names ∧
    PartsUse origin.captures origin.captured names [origin.body] uses₂ ∧ uses = uses₁ ++ uses₂

end ShellVM
