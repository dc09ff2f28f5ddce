/-!
# Texts of floats

A positive float is `m · 2 ^ q`. The reals that round to it form an interval, whose ends belong to
it iff `m` is even. Going from coarse to fine through the grids of multiples of a power of ten,
the first grid with a point in the interval gives the fewest digits that read back; of two such
points the nearer is taken, and the upper one if they are equally near.

Two layouts show these digits: `plain` never has an exponent and drops a fraction of zero;
`marked` always shows that the number is a float, and turns to an exponent outside
`10 ^ -4 ≤ x < 10 ^ 16`. With a fixed number of decimal places (`fixed`), the exact value is rounded
to the nearest, and halfway to the even neighbour.
-/

namespace ShellVM.Number

/-! ## The fewest digits -/

/-- A positive finite float as `m · 2 ^ q`; `short` says that the float below it is only half as
far away as the one above. -/
structure Binary where
  m : Nat
  q : Int
  short : Bool

/-- The decimal number `coefficient · 10 ^ power`. -/
structure Decimal where
  coefficient : Nat
  power : Int
deriving DecidableEq

/-- Reads the bits of a positive finite float. -/
def Binary.ofBits (bits : UInt64) : Binary :=
  let fraction : Nat := bits.toNat % Nat.pow 2 52
  let exponent : Nat := bits.toNat / Nat.pow 2 52 % Nat.pow 2 11
  if exponent = 0 then ⟨fraction, -1074, false⟩
  else ⟨fraction + Nat.pow 2 52, Int.ofNat exponent - 1075, fraction = 0 && 1 < exponent⟩

/-- Both sides of comparing `x · 2 ^ (q - 2)` with `c · 10 ^ p`, as whole factors for `x` and `c`. -/
def scales (q p : Int) : Nat × Nat :=
  (Nat.pow 2 (q - 2).toNat * Nat.pow 10 (-p).toNat, Nat.pow 10 p.toNat * Nat.pow 2 (2 - q).toNat)

/-- Is `c · 10 ^ p` in the interval of reals that round to `b`? -/
def Binary.admits (b : Binary) (c : Nat) (p : Int) : Bool :=
  let (s, u) := scales b.q p
  let low := (4 * b.m - if b.short then 1 else 2) * s
  let high := (4 * b.m + 2) * s
  if b.m % 2 = 0 then low ≤ c * u && c * u ≤ high else low < c * u && c * u < high

/-- The point of the grid of multiples of `10 ^ p` that stands for `b`, if there is one. -/
def Binary.onGrid? (b : Binary) (p : Int) : Option Nat :=
  let (s, u) := scales b.q p
  let value := 4 * b.m * s
  let below := value / u
  let above := below + 1
  match b.admits below p, b.admits above p with
  | true, true => some (if value - below * u < above * u - value then below else above)
  | true, false => some below
  | false, true => some above
  | false, false => none

/-- Searches the grids `10 ^ p`, `10 ^ (p - 1)`, … in turn. -/
def Binary.search (b : Binary) : (fuel : Nat) → (p : Int) → Decimal
  | 0, p => ⟨0, p⟩
  | fuel + 1, p =>
    match b.onGrid? p with
    | some c => ⟨c, p⟩
    | none => b.search fuel (p - 1)

/-- The decimal with the fewest digits that reads back as `b`. The search starts on a grid too
coarse for `b`, and 17 digits always suffice. -/
def Binary.shortest (b : Binary) : Decimal :=
  let bits : Int := (Nat.log2 b.m : Int) + 1 + b.q
  b.search 24 (bits * 30103 / 100000 + 2)

/-! ## Layouts -/

def zeros (n : Nat) : String := String.ofList (List.replicate n '0')

/-- The decimal written out in full, with at least `places` digits after the point. -/
def Decimal.positional (d : Decimal) (places : Nat) : String :=
  let digits := d.coefficient.repr
  if 0 ≤ d.power then
    let whole := digits ++ zeros d.power.toNat
    if places = 0 then whole else whole ++ "." ++ zeros places
  else
    let n := (-d.power).toNat
    if digits.length ≤ n then
      let fraction := zeros (n - digits.length) ++ digits
      "0." ++ fraction ++ zeros (places - fraction.length)
    else
      let whole := String.ofList (digits.toList.take (digits.length - n))
      let fraction := String.ofList (digits.toList.drop (digits.length - n))
      whole ++ "." ++ fraction ++ zeros (places - fraction.length)

/-- The decimal with one digit before the point and an exponent. -/
def Decimal.scientific (d : Decimal) : String :=
  let digits := d.coefficient.repr
  let exponent := d.power + (digits.length : Int) - 1
  let mantissa := match digits.toList with
    | [] => ""
    | [c] => c.toString
    | c :: rest => c.toString ++ "." ++ String.ofList rest
  mantissa ++ "e" ++ (if exponent < 0 then "-" ++ exponent.natAbs.repr else exponent.natAbs.repr)

/-- A float by its bits: sign, and what stands behind it. -/
inductive Shape where
  | nan
  | infinite (negative : Bool)
  | zero (negative : Bool)
  | finite (negative : Bool) (magnitude : Binary)

def shape (bits : UInt64) : Shape :=
  let negative := Nat.pow 2 63 ≤ bits.toNat
  let magnitude := bits.toNat % Nat.pow 2 63
  if magnitude = 0 then .zero negative
  else if magnitude < 2047 * Nat.pow 2 52 then .finite negative (.ofBits magnitude.toUInt64)
  else if magnitude = 2047 * Nat.pow 2 52 then .infinite negative
  else .nan

def signed (negative : Bool) (s : String) : String := if negative then "-" ++ s else s

/-- The text of a float as a value. -/
def plain (x : Float) : String :=
  match shape x.toBits with
  | .nan => "NaN"
  | .infinite negative => signed negative "inf"
  | .zero negative => signed negative "0"
  | .finite negative b => signed negative (b.shortest.positional 0)

/-- Is `10 ^ -4 ≤ |x| < 10 ^ 16`? The bounds are the floats of these decimals. -/
def isModerate (x : Float) : Bool := 1e-4 ≤ x.abs && x.abs < 1e16

/-- The text of a float in a listing. -/
def marked (x : Float) : String :=
  match shape x.toBits with
  | .nan => "NaN"
  | .infinite negative => signed negative "inf"
  | .zero negative => signed negative "0.0"
  | .finite negative b =>
    let d := b.shortest
    signed negative (if isModerate x then d.positional 1 else d.scientific)

/-! ## Fixed decimal places -/

/-- The quotient rounded to the nearest integer, halfway to the even one. -/
def roundDiv (n d : Nat) : Nat :=
  let q := n / d
  let r := n % d
  if 2 * r < d || (2 * r = d && q % 2 = 0) then q else q + 1

/-- The text of a float that is not negative with `places` digits after the point. -/
def fixed (places : Nat) (x : Float) : String :=
  let scaled := match shape x.toBits with
    | .finite _ b => roundDiv (b.m * Nat.pow 10 places * Nat.pow 2 b.q.toNat) (Nat.pow 2 (-b.q).toNat)
    | _ => 0
  let digits := scaled.repr
  let padded := zeros (places + 1 - digits.length) ++ digits
  let whole := padded.length - places
  String.ofList (padded.toList.take whole) ++
    (if places = 0 then "" else "." ++ String.ofList (padded.toList.drop whole))

end ShellVM.Number
