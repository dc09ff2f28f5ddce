import ShellVM.Number.Word

/-!
# Reading numbers

An integer is an optional sign and digits; it has to fit into 64 bits. A float is an optional sign
and either digits with an optional point and an optional exponent, or one of the names of the
special values in any case.
-/

namespace ShellVM.Number

/-- An optional sign (`true` for minus), and the rest. -/
def splitSign : List Char → Bool × List Char
  | '+' :: rest => (false, rest)
  | '-' :: rest => (true, rest)
  | rest => (false, rest)

def digitsValue (ds : List Char) : Nat :=
  ds.foldl (fun n c => 10 * n + (c.toNat - '0'.toNat)) 0

/-- The digits from the first on that counts. -/
def significant (ds : List Char) : List Char := ds.dropWhile (· == '0')

def readInteger? (s : String) : Option Int64 :=
  let (negative, digits) := splitSign s.toList
  let counting := significant digits
  if digits.isEmpty || !digits.all Char.isDigit || 19 < counting.length then none
  else
    let n : Int := digitsValue counting
    Word.ofInt? (if negative then -n else n)

/-- An exponent at which no more digits are looked at. -/
def exponentBound : Nat := 65536

/-- The value of the digits of an exponent, or a first part of them that reaches the bound. -/
def exponentValue (ds : List Char) : Nat :=
  ds.foldl (fun n c => if n < exponentBound then 10 * n + (c.toNat - '0'.toNat) else n) 0

/-- The exponent part: nothing, or a mark, an optional sign and digits. -/
def readExponent? : List Char → Option Int
  | [] => some 0
  | mark :: rest =>
    if mark == 'e' || mark == 'E' then
      let (negative, digits) := splitSign rest
      if digits.isEmpty || !digits.all Char.isDigit then none
      else
        let n : Int := exponentValue digits
        some (if negative then -n else n)
    else none

/-- More digits than the floats and the middles between them have. Of the digits behind these it
only counts whether all are zero. -/
def decidingDigits : Nat := 800

/-- The float nearest to `digits · 10 ^ power`. Decimals that lie beyond the largest or below half of
the smallest float are settled by their number of digits. -/
def nearest (digits : List Char) (power : Int) : Float :=
  let counting := significant digits
  let size := counting.length + power
  if counting.isEmpty then 0.0
  else if 400 < size then 1.0 / 0.0
  else if size < -400 then 0.0
  else
    let rest := counting.drop decidingDigits
    let mark := if rest.all (· == '0') then [] else ['1']
    let coefficient := digitsValue (counting.take decidingDigits ++ mark)
    let power := power + rest.length - mark.length
    if 0 ≤ power then Float.ofScientific coefficient false power.toNat
    else Float.ofScientific coefficient true power.natAbs

def readDecimal? (cs : List Char) : Option Float :=
  let whole := cs.takeWhile Char.isDigit
  let rest := cs.dropWhile Char.isDigit
  let (fraction, tail) := match rest with
    | '.' :: more => (more.takeWhile Char.isDigit, more.dropWhile Char.isDigit)
    | more => ([], more)
  if whole.isEmpty && fraction.isEmpty then none
  else do
    let exponent ← readExponent? tail
    return nearest (whole ++ fraction) (exponent - (fraction.length : Int))

def readFloat? (s : String) : Option Float := do
  let (negative, rest) := splitSign s.toList
  let name := String.ofList (rest.map Char.toLower)
  let magnitude ←
    if name == "inf" || name == "infinity" then some (1.0 / 0.0)
    else if name == "nan" then some (0.0 / 0.0)
    else readDecimal? rest
  return if negative then -magnitude else magnitude

end ShellVM.Number
