/-!
# Numbers

A script number is an IEEE single, kept as its 32 bits. Two numbers are equal as Lean values exactly
when their bits agree, so a NaN is equal to itself here and the two zeros differ; the comparison that
scripts see is `Number.same`. Arithmetic goes through `Float32`. Everything that moves between
numbers and integers is computed from the decoded bits in exact arithmetic.
-/

namespace ScriptMachine

/-- A single-precision number, by its bits. -/
structure Number where
  bits : UInt32
  deriving DecidableEq, Inhabited, Repr

namespace Number

def toFloat (x : Number) : Float32 :=
  Float32.ofBits x.bits

def ofFloat (f : Float32) : Number :=
  ⟨f.toBits⟩

/-! ### Arithmetic and comparison -/

def add (x y : Number) : Number :=
  ofFloat (x.toFloat + y.toFloat)

def sub (x y : Number) : Number :=
  ofFloat (x.toFloat - y.toFloat)

def mul (x y : Number) : Number :=
  ofFloat (x.toFloat * y.toFloat)

def div (x y : Number) : Number :=
  ofFloat (x.toFloat / y.toFloat)

def sqrt (x : Number) : Number :=
  ofFloat x.toFloat.sqrt

/-- Negation flips the sign bit, of a NaN too. -/
def neg (x : Number) : Number :=
  ⟨x.bits ^^^ 0x80000000⟩

/-- The absolute value clears the sign bit. -/
def abs (x : Number) : Number :=
  ⟨x.bits &&& 0x7fffffff⟩

/-- Numeric equality: a NaN differs from everything and the two zeros agree. -/
def same (x y : Number) : Bool :=
  x.toFloat == y.toFloat

def less (x y : Number) : Bool :=
  decide (x.toFloat < y.toFloat)

def lessOrSame (x y : Number) : Bool :=
  decide (x.toFloat ≤ y.toFloat)

/-- The tolerance within which scripts take two numbers for equal: the single nearest to 0.0001. -/
def tolerance : Number :=
  ⟨0x38d1b717⟩

/-- Two numbers are close when their distance is below `tolerance`. -/
def close (x y : Number) : Bool :=
  (x.sub y).abs.less tolerance

/-! ### What the bits stand for -/

/-- A number taken apart. A finite one is `± mantissa · 2 ^ exponent`. -/
inductive Shape where
  | nan
  | infinite (negative : Bool)
  | finite (negative : Bool) (mantissa : Nat) (exponent : Int)
  deriving DecidableEq, Repr

def negative (x : Number) : Bool :=
  decide (0x80000000 ≤ x.bits.toNat)

/-- The eight exponent bits. -/
def exponentField (x : Number) : Nat :=
  x.bits.toNat / 0x800000 % 0x100

/-- The twenty-three mantissa bits. -/
def mantissaField (x : Number) : Nat :=
  x.bits.toNat % 0x800000

/-- Decodes the bits. A zero exponent field marks the numbers without an implicit leading bit. -/
def shape (x : Number) : Shape :=
  if x.exponentField = 255 then
    if x.mantissaField = 0 then .infinite x.negative else .nan
  else if x.exponentField = 0 then .finite x.negative x.mantissaField (-149)
  else .finite x.negative (0x800000 + x.mantissaField) (x.exponentField - 150)

def isNaN (x : Number) : Bool :=
  x.shape == .nan

/-! ### Integers -/

/-- `mantissa · 2 ^ exponent` without its fraction. -/
def integralPart (mantissa : Nat) (exponent : Int) : Nat :=
  (mantissa <<< exponent.toNat) >>> (-exponent).toNat

def isIntegral (mantissa : Nat) (exponent : Int) : Bool :=
  mantissa % (1 <<< (-exponent).toNat) == 0

/-- The nearest integer toward zero inside `lo..hi`; a NaN counts as zero. -/
def clampTo (lo hi : Int) (x : Number) : Int :=
  match x.shape with
  | .nan => 0
  | .infinite true => lo
  | .infinite false => hi
  | .finite true m e => max lo (min hi (-(integralPart m e : Int)))
  | .finite false m e => max lo (min hi (integralPart m e))

/-- The number as a signed 32-bit integer: toward zero, held inside the range. -/
def toInt32 (x : Number) : Int :=
  x.clampTo (-0x80000000) 0x7fffffff

/-- The number as a count of slots: toward zero, held inside the range of a 64-bit word. -/
def toCount (x : Number) : Nat :=
  (x.clampTo 0 0xffffffffffffffff).toNat

/-- A number that can count something: finite, without a fraction, and not below zero. Negative zero
counts as zero. -/
def isCount (x : Number) : Bool :=
  match x.shape with
  | .finite negative m e => isIntegral m e && (!negative || m == 0)
  | _ => false

/-- The bits of the single nearest to a natural number, of two equally near ones the even one. A
carry out of the mantissa moves into the exponent, which is the next larger number. -/
def bitsOfNat (n : Nat) : Nat :=
  if n = 0 then 0
  else
    let top := n.log2
    if top ≤ 23 then (top + 126) * 0x800000 + (n <<< (23 - top))
    else if 127 < top then 255 * 0x800000
    else
      let step := 1 <<< (top - 23)
      let q := n / step
      let r := n % step
      let up := step < 2 * r || (2 * r == step && q % 2 == 1)
      (top + 126) * 0x800000 + q + up.toNat

/-- The single nearest to a natural number. -/
def ofNat (n : Nat) : Number :=
  ⟨.ofNat (bitsOfNat n)⟩

/-- The single nearest to the length of something, which is one 64-bit word. -/
def ofLength (n : UInt64) : Number :=
  ofNat n.toNat

/-- The single nearest to an integer. -/
def ofInt : Int → Number
  | .ofNat n => ofNat n
  | .negSucc n => (ofNat (n + 1)).neg

instance (n : Nat) : OfNat Number n :=
  ⟨ofNat n⟩

/-- The remainder of the integer parts, with the sign of the dividend; `none` for a zero divisor. -/
def mod? (x y : Number) : Option Number :=
  if y.toInt32 = 0 then none else some (ofInt (Int.tmod x.toInt32 y.toInt32))

end Number

end ScriptMachine
