import ShellVM.Job.Shell.Arithmetic
import ShellVM.Job.Shell.Pattern
import ShellVM.Job.Shell.Session

/-!
# Expansion of words

A word is expanded part by part into characters; then those that come from an expansion without
quotes divide it into fields, and fields that are patterns give way to the names of files that they
match.
-/

namespace ShellVM.Shell

/-- A piece of a word in expansion. -/
inductive Atom where
  | glyph (g : Glyph)
  /-- Makes a field even if nothing else is in it. -/
  | anchor
  /-- The end of a field. -/
  | stop
deriving DecidableEq

abbrev Expansion := StateM Session

namespace Expand

def glyphs (s : String) (quoted splits : Bool) : List Atom :=
  s.toList.map fun c => .glyph ⟨c, quoted, splits⟩

/-- The text of pieces that are not divided. -/
def textOf (atoms : List Atom) : String :=
  String.ofList (atoms.filterMap fun
    | .glyph g => some g.char
    | _ => none)

def glyphsOf (atoms : List Atom) : List Glyph :=
  atoms.filterMap fun
    | .glyph g => some g
    | _ => none

def separators (s : Session) : List Char := ((s.lookup? "IFS").getD " \t\n").toList

/-! ## Parameters -/

/-- The value of a parameter with a single one. -/
def value? (s : Session) (name : String) : Option String :=
  match name with
  | "?" => some (Arithmetic.render s.status)
  | "$" => some "1"
  | "#" => some s.arguments.length.repr
  | "0" => some s.name
  | "-" => some (String.ofList
      ((if s.options.exitOnError then ['e'] else []) ++ (if s.options.trace then ['x'] else []) ++
        (if s.options.unsetIsError then ['u'] else [])))
  | "!" => none
  | "LINENO" => some s.line.repr
  | "@" | "*" => if s.arguments.isEmpty then none else some (" ".intercalate s.arguments)
  | name =>
    match name.toList with
    | c :: _ =>
      if c.isDigit then s.arguments[Number.digitsValue name.toList - 1]? else s.lookup? name
    | [] => none

/-- The pieces of the arguments of the script. In quotes each is a field of its own for `@`, and all
are one for `*`. -/
def arguments (s : Session) (name : String) (quoted : Bool) : List Atom :=
  if quoted && name == "*" then
    let joint := match (s.lookup? "IFS").map String.toList with
      | some (c :: _) => c.toString
      | some [] => ""
      | none => " "
    glyphs (joint.intercalate s.arguments) true false
  else
    let each := s.arguments.map fun a => (if quoted then [.anchor] else []) ++ glyphs a quoted (!quoted)
    (each.intersperse [.stop]).flatten

/-- The pieces of a parameter. -/
def parameter (s : Session) (name : String) (quoted : Bool) : List Atom :=
  if name == "@" || name == "*" then arguments s name quoted
  else glyphs ((value? s name).getD "") quoted (!quoted)

/-- Complains about a parameter without a value if that is a mistake. -/
def require (name : String) : Expansion Unit := do
  let s ← get
  if s.options.unsetIsError && (value? s name).isNone && name != "@" && name != "*" then
    set (s.abort (name ++ ": parameter not set"))

/-! ## Parts -/

/-- The output of commands that run in a shell of their own, without the ends of lines at its end. -/
def output (run : List Command → Session → Session) (commands : List Command) : Expansion String := do
  let s ← get
  let (i, inner) := s.addSink
  let inner := run commands { inner.setChannel 1 (some (.sink i)) with
    status := s.status, loops := 0, tested := false, traps := [] }
  set { s.rejoin inner with status := s.status, outputStatus := inner.finalStatus }
  let written := ((inner.sinks.getD i .empty).toList.map fun b => Char.ofNat b.toNat).filter (· != '\x00')
  return String.ofList (written.reverse.dropWhile (· == '\n')).reverse

/-- The value of an expression. -/
def compute (expression : String) : Expansion String := do
  let s ← get
  let bindings := s.bindings.filterMap fun (name, v) => v.value?.map ((name, ·))
  match Arithmetic.eval bindings expression with
  | .ok (n, after) =>
    let changed := (after.take (after.length - bindings.length)).reverse
    set (changed.foldl (fun s (name, v) => s.assign name v) s)
    return Arithmetic.render n
  | .error message =>
    set (s.abort (if message.startsWith "Illegal" then message
      else "arithmetic expression: " ++ message ++ ": \"" ++ expression ++ "\""))
    return ""

mutual

/-- The pieces of one part. -/
def part (run : List Command → Session → Session) : (fuel : Nat) → Part → Expansion (List Atom)
  | 0, _ => return []
  | fuel + 1, p => do
    match p with
    | .text t quoted => return glyphs t quoted false
    | .quotes => return [.anchor]
    | .output commands quoted => return glyphs (← output run commands) quoted (!quoted)
    | .arithmetic inner quoted => do
      let expression := textOf (← parts run fuel inner)
      if !(← get).goesOn then return []
      return glyphs (← compute expression) quoted (!quoted)
    | .parameter name change quoted =>
      match change with
      | .none => do
        require name
        return parameter (← get) name quoted
      | .bad => do
        modify (·.abort "Bad substitution")
        return []
      | .length => do
        require name
        let s ← get
        let n := if name == "@" || name == "*" then s.arguments.length else ((value? s name).getD "").length
        return glyphs n.repr quoted (!quoted)
      | .trim atEnd longest pattern => do
        require name
        let ps := Pattern.ofGlyphs (glyphsOf (← parts run fuel pattern))
        let cs := ((value? (← get) name).getD "").toList
        let rest := if atEnd then Pattern.trimEnd ps longest cs else Pattern.trimStart ps longest cs
        return glyphs (String.ofList rest) quoted (!quoted)
      | .fallback kind orEmpty word => do
        let s ← get
        let present := match value? s name with
          | some v => !(orEmpty && v.isEmpty)
          | none => false
        match kind with
        | .replace => if present then substitute run fuel quoted word else return []
        | .value => if present then return parameter s name quoted else substitute run fuel quoted word
        | .assign =>
          if present then return parameter s name quoted
          else do
            let text := textOf (← parts run fuel word)
            modify (·.assign name text)
            return glyphs text quoted (!quoted)
        | .require =>
          if present then return parameter s name quoted
          else do
            let text := textOf (← parts run fuel word)
            let message := if text.isEmpty then (if orEmpty then "parameter not set or null" else "parameter not set")
              else text
            modify (·.abort (name ++ ": " ++ message))
            return []

/-- The pieces of a word in the place of a parameter; they divide fields like a value. -/
def substitute (run : List Command → Session → Session) : (fuel : Nat) → (quoted : Bool) → List Part →
    Expansion (List Atom)
  | 0, _, _ => return []
  | fuel + 1, quoted, word => do
    let atoms ← parts run fuel word
    return atoms.map fun
      | .glyph g => .glyph (if quoted then { g with quoted := true, splits := false }
          else { g with splits := g.splits || !g.quoted })
      | a => a

def parts (run : List Command → Session → Session) : (fuel : Nat) → List Part → Expansion (List Atom)
  | 0, _ | _, [] => return []
  | fuel + 1, p :: rest => do
    let atoms ← part run fuel p
    if !(← get).goesOn then return []
    return atoms ++ (← parts run fuel rest)

end

/-! ## Fields -/

/-- Fields under construction: finished ones with the latest in front, the open one if there is any,
with its latest character in front, and whether a blank has just ended one. -/
structure Fields where
  done : List (List Glyph) := []
  open? : Option (List Glyph) := none
  afterBlank : Bool := false

namespace Fields

def close (f : Fields) : Fields :=
  match f.open? with
  | some gs => { done := gs.reverse :: f.done }
  | none => f

def add (separators : List Char) (f : Fields) : Atom → Fields
  | .anchor => { f with open? := some (f.open?.getD []), afterBlank := false }
  | .stop => f.close
  | .glyph g =>
    if g.splits && separators.contains g.char then
      if g.char == ' ' || g.char == '\t' || g.char == '\n' then
        if f.open?.isSome then { f.close with afterBlank := true } else f
      else if f.open?.isSome then f.close
      else if f.afterBlank then { f with afterBlank := false }
      else { f with done := [] :: f.done }
    else { f with open? := some (g :: f.open?.getD []), afterBlank := false }

def finish (f : Fields) : List (List Glyph) := f.close.done.reverse

end Fields

/-- A word that begins with a tilde begins with the home of the user. -/
def home (s : Session) (word : Word) : Word :=
  match word with
  | .text t false :: rest =>
    match t.toList, s.lookup? "HOME" with
    | ['~'], some h => if rest.isEmpty then [.text h true] else word
    | '~' :: '/' :: more, some h => .text h true :: .text (String.ofList ('/' :: more)) false :: rest
    | _, _ => word
  | word => word

/-- The names of files that a field matches, or the field itself. -/
def matching (s : Session) (gs : List Glyph) : List String :=
  let itself := String.ofList (gs.map (·.char))
  if s.options.noPatterns || !Pattern.isPattern gs || gs.any (fun g => g.char == '/') then [itself]
  else
    let ps := Pattern.ofGlyphs gs
    let shown (name : String) := !name.startsWith "." || itself.startsWith "."
    match (s.files.names s.files.here).filter fun n => shown n && Pattern.isMatch ps n.toList with
    | [] => [itself]
    | names => names.mergeSort (fun a b => decide (a ≤ b))

/-- The fields that words stand for. -/
def fields (run : List Command → Session → Session) (fuel : Nat) : List Word → Expansion (List String)
  | [] => return []
  | word :: rest => do
    let atoms ← parts run fuel (home (← get) word)
    if !(← get).goesOn then return []
    let s ← get
    let found := (atoms.foldl (Fields.add (separators s)) {}).finish
    return found.flatMap (matching s) ++ (← fields run fuel rest)

/-- The text of a word that is not divided. -/
def text (run : List Command → Session → Session) (fuel : Nat) (word : Word) : Expansion String := do
  return textOf (← parts run fuel (home (← get) word))

/-- The pattern that a word stands for. -/
def pattern (run : List Command → Session → Session) (fuel : Nat) (word : Word) :
    Expansion (List Pattern.Item) := do
  return Pattern.ofGlyphs (glyphsOf (← parts run fuel word))

end Expand

end ShellVM.Shell
