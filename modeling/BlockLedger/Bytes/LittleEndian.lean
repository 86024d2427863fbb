import BlockLedger.Number.Natural

/-
# Numbers as bytes

A number in a fixed number of bytes, the least significant one first.
-/

namespace BlockLedger

namespace LittleEndian

/-- The lowest bytes of a number, `count` of them. -/
def encode : Nat → Nat → List UInt8
  | 0, _ => []
  | count + 1, n => UInt8.ofNat n :: encode count (n / 256)

/-- The number that bytes stand for. -/
def decode : List UInt8 → Nat
  | [] => 0
  | b :: rest => b.toNat + 256 * decode rest

@[simp] theorem length_encode (count n : Nat) : (encode count n).length = count := by
  induction count generalizing n with
  | zero => rfl
  | succ count ih => simp [encode, ih]

theorem decode_encode (count n : Nat) (h : n < 256 ^ count) : decode (encode count n) = n := by
  induction count generalizing n with
  | zero =>
    have : n = 0 := by simpa using h
    simp [encode, decode, this]
  | succ count ih =>
    have hd : n / 256 < 256 ^ count := by
      rw [Nat.div_lt_iff_lt_mul (by decide)]
      simpa [Nat.pow_succ] using h
    simp only [encode, decode, UInt8.toNat_ofNat', ih _ hd]
    omega

end LittleEndian

end BlockLedger
