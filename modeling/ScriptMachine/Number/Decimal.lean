import ScriptMachine.Number

/-!
# Decimal text of numbers

A number is written with the fewest decimal digits that read back as the same single, and of those
digits the nearest. All candidates lie on grids of powers of ten; the coarsest grid with a point
inside the rounding interval of the number gives the fewest digits. The text is always positional:
there is no exponent and no trailing point.
-/

namespace ScriptMachine.Number

/-- The reals that round to one number, scaled to integers: `value`, `lower` and `upper` stand over
the common denominator `scale`, and the two ends belong to the interval when `closed`. -/
structure Interval where
  lower : Nat
  value : Nat
  upper : Nat
  scale : Nat
  closed : Bool
  deriving Repr

/-- The rounding interval of `mantissa · 2 ^ exponent`. The gap below a power of two is half the gap
above it, except at the bottom of the range, where all gaps agree. -/
def interval (mantissa : Nat) (exponent : Int) : Interval :=
  let below := if mantissa = 0x800000 ∧ -149 < exponent then 1 else 2
  { lower := (4 * mantissa - below) <<< exponent.toNat
    value := (4 * mantissa) <<< exponent.toNat
    upper := (4 * mantissa + 2) <<< exponent.toNat
    scale := 4 <<< (-exponent).toNat
    closed := mantissa % 2 == 0 }

namespace Interval

/-- Whether `point / scale` lies in the interval. -/
def contains (i : Interval) (point : Nat) : Bool :=
  if i.closed then decide (i.lower ≤ point) && decide (point ≤ i.upper)
  else decide (i.lower < point) && decide (point < i.upper)

/-- The multiple of `10 ^ power` that stands for the interval: of the two multiples around the value
those inside count, of two the nearer, and of two equally near ones the upper. The interval is first
scaled so that the grid has integer steps. -/
def point? (i : Interval) (power : Int) : Option Nat :=
  let finer := Nat.pow 10 (-power).toNat
  let step := i.scale * Nat.pow 10 power.toNat
  let scaled : Interval :=
    { i with lower := i.lower * finer, value := i.value * finer, upper := i.upper * finer }
  let floor := scaled.value / step
  let rest := scaled.value % step
  let down := floor != 0 && scaled.contains (floor * step)
  let up := scaled.contains ((floor + 1) * step)
  if up && (!down || step ≤ 2 * rest) then some (floor + 1)
  else if down then some floor
  else none

/-- The first hit on the grids `10 ^ power`, `10 ^ (power - 1)`, and so on. -/
def search (i : Interval) : Nat → Int → Nat × Int
  | 0, power => (0, power)
  | grids + 1, power =>
    match i.point? power with
    | some digits => (digits, power)
    | none => i.search grids (power - 1)

/-- The shortest decimal `digits · 10 ^ power` of the interval. No single reaches `10 ^ 39`, and a
grid of step `10 ^ (-46)` is finer than every rounding interval. -/
def shortest (i : Interval) : Nat × Int :=
  i.search 86 39

end Interval

/-- Writes `digits · 10 ^ power` without an exponent. -/
def positional (digits : Nat) (power : Int) : String :=
  let text := Nat.toDigits 10 digits
  let fraction := (-power).toNat
  if fraction = 0 then String.ofList (text ++ List.replicate power.toNat '0')
  else
    let padded := List.replicate (fraction + 1 - text.length) '0' ++ text
    let whole := padded.length - fraction
    String.ofList (padded.take whole ++ '.' :: padded.drop whole)

/-- The text of a number. Only a NaN is written without a sign. -/
def text (x : Number) : String :=
  match x.shape with
  | .nan => "NaN"
  | .infinite negative => if negative then "-inf" else "inf"
  | .finite negative m e =>
    let magnitude :=
      if m = 0 then "0"
      else
        let (digits, power) := (interval m e).shortest
        positional digits power
    if negative then "-" ++ magnitude else magnitude

instance : ToString Number :=
  ⟨text⟩

end ScriptMachine.Number
