import ShellVM.World
import ShellVM.Number.Layout
import ShellVM.Text.Quoted

/-!
# Texts of values

The text of a value as it is shown; inside a collection strings are quoted. Showing a container
shows what it holds, one level further down.
-/

namespace ShellVM

def commas (parts : List String) : String := ", ".intercalate parts

def renderBoolean (b : Bool) : String := if b then "true" else "false"

/-- A tuple of one item keeps a comma, to tell it from an item in parentheses. -/
def renderTuple : List String → String
  | [part] => "(" ++ part ++ ",)"
  | parts => "(" ++ commas parts ++ ")"

mutual

/-- The text of a key inside a collection. -/
def Key.render : Key → String
  | .boolean b => renderBoolean b
  | .integer n => Word.render n
  | .string s => Text.quoted s
  | .range r => r.render
  | .tuple items => renderTuple (Key.renderAll items)

def Key.renderAll : List Key → List String
  | [] => []
  | k :: ks => Key.render k :: Key.renderAll ks

end

namespace Value

mutual

/-- The text of a value, inside a collection or not, if `deep` gives the texts of what containers
hold. -/
def renderWith (deep : Value → String) (w : World) (inside : Bool) : Value → String
  | nil => "nil"
  | boolean b => renderBoolean b
  | integer n => Word.render n
  | float x => Number.plain x
  | string s => if inside then Text.quoted s else s
  | list a => "[" ++ commas ((w.list a).toList.map deep) ++ "]"
  | tuple vs => renderTuple (renderAllWith deep w vs)
  | dictionary a =>
    "\x7b" ++ commas ((w.dictionary a).toList.map fun (k, v) => k.render ++ ": " ++ deep v) ++ "\x7d"
  | set a => "\x7b" ++ commas ((w.set a).keys.map Key.render) ++ "\x7d"
  | range r => r.render
  | struct a =>
    (w.record a).name ++ " \x7b " ++
      commas ((w.record a).fields.toList.map fun (name, v) => name ++ ": " ++ deep v) ++ " \x7d"
  | function f => "<function " ++ f.name ++ ">"
  | error v _ => "Error: " ++ renderWith deep w false v
  | stream a => (w.stream a).render

def renderAllWith (deep : Value → String) (w : World) : List Value → List String
  | [] => []
  | v :: vs => renderWith deep w true v :: renderAllWith deep w vs

end

/-- The text inside a collection of a value with at most `depth` levels of containers. -/
def insideTo (w : World) : (depth : Nat) → Value → String
  | 0 => renderWith (fun _ => "") w true
  | depth + 1 => renderWith (insideTo w depth) w true

/-- The text of a value inside a collection. -/
def inside (w : World) (v : Value) : String := insideTo w w.containers v

/-- The text of a value. -/
def render (w : World) (v : Value) : String := renderWith (insideTo w w.containers) w false v

end Value

end ShellVM
