/-!
# Little-endian bytes

Words are written to code and to program blobs with their lowest byte first. The codec is stated on
natural numbers with the width as a parameter; every caller fixes the width of its word.
-/

namespace ScriptMachine.Bytes

/-- The lowest `width` bytes of `n`, lowest first. -/
def ofNat : (width : Nat) → (n : Nat) → List UInt8
  | 0, _ => []
  | width + 1, n => .ofNat n :: ofNat width (n / 256)

/-- The number whose bytes, lowest first, are given. -/
def toNat : List UInt8 → Nat
  | [] => 0
  | b :: rest => b.toNat + 256 * toNat rest

@[simp] theorem length_ofNat (width n : Nat) : (ofNat width n).length = width := by
  induction width generalizing n with
  | zero => rfl
  | succ width ih => simp [ofNat, ih]

end ScriptMachine.Bytes
