import ShellVM.Number.Layout

/-!
# The remainder of floats

`remainder a b` is `a - n · b` for the whole number `n` nearest to zero that leaves the sign of `a`.
It is exact: both operands are whole multiples of one power of two, and the remainder of these
multiples has no more digits than the operands.
-/

namespace ShellVM.Number

/-- `a - n · b` on magnitudes `m · 2 ^ q`. -/
def Binary.remainder (a b : Binary) : Nat × Int :=
  let q := min a.q b.q
  ((a.m * Nat.pow 2 (a.q - q).toNat) % (b.m * Nat.pow 2 (b.q - q).toNat), q)

def remainder (a b : Float) : Float :=
  match shape a.toBits, shape b.toBits with
  | .finite negative x, .finite _ y =>
    let (r, q) := x.remainder y
    let magnitude := Float.scaleB (Float.ofNat r) q
    if negative then -magnitude else magnitude
  | .finite .., .infinite _ | .zero _, .infinite _ | .zero _, .finite .. => a
  | _, _ => 0.0 / 0.0

end ShellVM.Number
