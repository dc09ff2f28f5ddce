import ShellVM.Number.Word

/-!
# Integer ranges

A range has an optional start, end and step; a missing end leaves it open. It can be walked
(`Walk`), counted (`length?`), probed (`get?`) and asked for membership (`contains`) without
writing its items down.
-/

namespace ShellVM

structure Range where
  first? : Option Int64
  last? : Option Int64
  step? : Option Int64
  inclusive : Bool
deriving DecidableEq

namespace Range

/-- The largest count that fits into an unsigned 64-bit word. -/
def maxCount : Nat := 18446744073709551615

def start (r : Range) : Int64 := r.first?.getD 0

/-- The given step, or one towards the end of the range. -/
def step (r : Range) : Int64 :=
  match r.step?, r.last? with
  | some s, _ => s
  | none, some last => if last < r.start then -1 else 1
  | none, none => 1

/-- The number of items, at most `maxCount`; an open range has none. -/
def length? (r : Range) : Option Nat := do
  let last ← r.last?
  let d := r.step.toInt
  if d = 0 then return 0
  let span := if 0 < d then last.toInt - r.start.toInt else r.start.toInt - last.toInt
  let size : Int := d.natAbs
  let count :=
    if r.inclusive then (if 0 ≤ span then span / size + 1 else 0)
    else if 0 < span then (span + size - 1) / size else 0
  return min count.toNat maxCount

/-- The item at a position. The position is read as a 64-bit word with a sign. -/
def get? (r : Range) (i : Nat) : Option Int64 :=
  if r.length?.any (· ≤ i) then none
  else do
    let offset ← Word.mul? (Int64.ofNat i) r.step
    Word.add? r.start offset

/-- Is `n` before the end of a range that goes up (or down)? -/
def isBefore (r : Range) (up : Bool) (n last : Int64) : Bool :=
  match up, r.inclusive with
  | true, true => n ≤ last
  | true, false => n < last
  | false, true => last ≤ n
  | false, false => last < n

def contains (r : Range) (n : Int64) : Bool :=
  let d := r.step
  if d == 0 then false
  else
    let up : Bool := 0 < d
    let started : Bool := if up then r.start ≤ n else n ≤ r.start
    started && r.last?.all (r.isBefore up n) && (n.toInt - r.start.toInt).tmod d.toInt == 0

/-- The text of a range; the step is written only if it was given. -/
def render (r : Range) : String :=
  (r.first?.map Word.render).getD "" ++ (if r.inclusive then "..=" else "..") ++
    (r.last?.map Word.render).getD "" ++ (r.step?.map (" step " ++ Word.render ·)).getD ""

/-- A walk through a range: the next candidate, and how the range goes on from there. -/
structure Walk where
  next? : Option Int64
  last? : Option Int64
  step : Int64
  inclusive : Bool

def walk (r : Range) : Walk := ⟨some r.start, r.last?, r.step, r.inclusive⟩

namespace Walk

/-- Is `n` past the end? -/
def isPast (w : Walk) (n : Int64) : Bool :=
  match w.last? with
  | none => false
  | some last =>
    match w.inclusive, decide (0 < w.step) with
    | true, true => last < n
    | true, false => n < last
    | false, true => last ≤ n
    | false, false => n ≤ last

/-- The next item and the walk after it. The walk is over for good once it has left the range or
the 64-bit words. -/
def advance (w : Walk) : Option Int64 × Walk :=
  match w.next? with
  | none => (none, w)
  | some n =>
    if w.step == 0 then (none, w)
    else if w.isPast n then (none, { w with next? := none })
    else (some n, { w with next? := Word.add? n w.step })

/-- At most `count` items, the latest first in front of `acc`. -/
def takeOnto : (count : Nat) → Walk → List Int64 → List Int64
  | 0, _, acc => acc
  | count + 1, w, acc =>
    match w.advance with
    | (some n, w) => takeOnto count w (n :: acc)
    | (none, _) => acc

/-- The first `count` items, or all if there are fewer. -/
def take (count : Nat) (w : Walk) : List Int64 := (takeOnto count w []).reverse

end Walk

/-- All items of a range that has an end. The range of all words has one more than its count says. -/
def items? (r : Range) : Option (List Int64) := r.length?.map fun n => r.walk.take (n + 1)

end Range

end ShellVM
