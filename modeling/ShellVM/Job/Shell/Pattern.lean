/-!
# Patterns of the shell

A pattern matches texts: a star any text, a question mark any character, brackets any of some
characters, and all else itself.
-/

namespace ShellVM.Shell

/-- A character of a word. A quoted one stands for itself in a pattern. One that `splits` comes from
an expansion and may divide words. -/
structure Glyph where
  char : Char
  quoted : Bool
  splits : Bool := false
deriving DecidableEq

namespace Pattern

inductive Item where
  | any
  | many
  | exactly (c : Char)
  /-- A character in one of the ranges, or, if `negated`, in none. -/
  | range (negated : Bool) (ranges : List (Char × Char))
deriving DecidableEq

/-- The ranges up to the closing bracket, and what follows it. A bracket right at the start is one of
the characters. -/
def ranges : (fuel : Nat) → (atStart : Bool) → List Glyph → Option (List (Char × Char) × List Glyph)
  | 0, _, _ | _, _, [] => none
  | fuel + 1, atStart, g :: rest =>
    if g.char == ']' && !g.quoted && !atStart then some ([], rest)
    else
      match rest with
      | dash :: last :: more =>
        if dash.char == '-' && !dash.quoted && (last.char != ']' || last.quoted) then
          (ranges fuel false more).map fun (rs, r) => ((g.char, last.char) :: rs, r)
        else (ranges fuel false rest).map fun (rs, r) => ((g.char, g.char) :: rs, r)
      | _ => (ranges fuel false rest).map fun (rs, r) => ((g.char, g.char) :: rs, r)

/-- The items of a pattern. -/
def items : (fuel : Nat) → List Glyph → List Item
  | 0, _ | _, [] => []
  | fuel + 1, g :: rest =>
    if g.quoted then .exactly g.char :: items fuel rest
    else
      match g.char with
      | '*' => .many :: items fuel rest
      | '?' => .any :: items fuel rest
      | '[' =>
        let (negated, inner) := match rest with
          | n :: more => if n.char == '!' || n.char == '^' then (true, more) else (false, rest)
          | [] => (false, rest)
        match ranges (inner.length + 1) true inner with
        | some (rs, rest) => .range negated rs :: items fuel rest
        | none => .exactly '[' :: items fuel rest
      | c => .exactly c :: items fuel rest

def ofGlyphs (gs : List Glyph) : List Item := items (gs.length + 1) gs

def Item.fits (c : Char) : Item → Bool
  | .any | .many => true
  | .exactly d => c == d
  | .range negated rs => rs.any (fun (lo, hi) => lo ≤ c && c ≤ hi) != negated

/-- Does a pattern match a text? -/
def isMatch : List Item → List Char → Bool
  | [], cs => cs.isEmpty
  | .many :: ps, [] => isMatch ps []
  | .many :: ps, c :: cs => isMatch ps (c :: cs) || isMatch (.many :: ps) cs
  | _ :: _, [] => false
  | p :: ps, c :: cs => p.fits c && isMatch ps cs
termination_by ps cs => ps.length + cs.length

/-- The text without its shortest or longest start that the pattern matches. -/
def trimStart (ps : List Item) (longest : Bool) (cs : List Char) : List Char :=
  let lengths := List.range (cs.length + 1)
  match (if longest then lengths.reverse else lengths).find? fun n => isMatch ps (cs.take n) with
  | some n => cs.drop n
  | none => cs

/-- The text without its shortest or longest end that the pattern matches. -/
def trimEnd (ps : List Item) (longest : Bool) (cs : List Char) : List Char :=
  let lengths := List.range (cs.length + 1)
  match (if longest then lengths.reverse else lengths).find? fun n =>
      isMatch ps (cs.drop (cs.length - n)) with
  | some n => cs.take (cs.length - n)
  | none => cs

/-- Does a word have a character that makes it a pattern? -/
def isPattern (gs : List Glyph) : Bool :=
  gs.any fun g => !g.quoted && (g.char == '*' || g.char == '?' || g.char == '[')

end Pattern

end ShellVM.Shell
