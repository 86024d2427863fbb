import BlockLedger.Number.Binary64
import Mathlib

/-
# Fractions in double precision

The parts that `Binary64` takes a double into are those of the unpacked double that the order of
doubles is defined on.  So a double from 0 to 1 has an exponent and a significand whose product
is at most 1 also as whole numbers, and a multiple of it, rounded to 53 digits, does not go
beyond a whole number that needs no more digits itself.
-/

namespace BlockLedger

open Float.Model

/-- Rounding up is the least whole number that is not below the quotient. -/
theorem ceilDiv_le_iff {n d c : Nat} (hd : 0 < d) : ceilDiv n d ≤ c ↔ n ≤ c * d := by
  rw [ceilDiv, ← Nat.lt_succ_iff, Nat.div_lt_iff_lt_mul hd, Nat.succ_mul]
  omega

theorem roundDivEven_one (n : Nat) : roundDivEven n 1 = n := by
  simp [roundDivEven, Nat.mod_one]

theorem roundDivEven_cases (n d : Nat) : roundDivEven n d = n / d ∨ roundDivEven n d = n / d + 1 := by
  unfold roundDivEven
  dsimp only
  split_ifs
  · exact .inl rfl
  · exact .inr rfl
  · omega

theorem roundDivEven_mul (q : Nat) {d : Nat} (hd : 0 < d) : roundDivEven (q * d) d = q := by
  have hrest : q * d % d = 0 := Nat.mul_mod_left ..
  simp [roundDivEven, hrest, hd]

theorem roundDivEven_le_of_lt_half {n c d : Nat} (hd : 0 < d) (h : 2 * n < (2 * c + 1) * d) :
    roundDivEven n d ≤ c := by
  have hsplit := Nat.div_add_mod n d
  have hrest : n % d < d := Nat.mod_lt _ hd
  have hq : n / d ≤ c := by
    refine Nat.le_of_lt_succ ((Nat.div_lt_iff_lt_mul hd).2 ?_)
    nlinarith
  unfold roundDivEven
  by_cases htop : n / d = c
  -- the quotient is `c` itself only if less than half is left over, so nothing is rounded up
  · have hhalf : 2 * (n % d) < d := by
      rw [htop] at hsplit
      nlinarith
    simp [hhalf, htop]
  · dsimp only
    split_ifs <;> omega

theorem roundDivEven_le {n c d : Nat} (hd : 0 < d) (h : n ≤ c * d) : roundDivEven n d ≤ c := by
  refine roundDivEven_le_of_lt_half hd ?_
  rw [Nat.add_mul, Nat.mul_assoc]
  omega

theorem bitLength_le_iff {n k : Nat} : bitLength n ≤ k ↔ n < 2 ^ k := by
  unfold bitLength
  split
  next hzero => simp [hzero]
  next hpos => exact Nat.log2_lt hpos

namespace Binary64

/-! ## The parts of an unpacked double -/

/-- The parts of an unpacked double; `none` for infinities and not-a-number. -/
def ofUnpacked? : UnpackedFloat → Option Binary64
  | .zero sign => some ⟨sign == .negative, 0, -1074⟩
  | .finite sign m e _ => some ⟨sign == .negative, m, e⟩
  | .infinity _ | .notANumber => none

section Word

variable (b : BitVec Format.binary64.numBits)

theorem toNat_unpackMantissa : (UnpackedFloat.unpackMantissa b).toNat = b.toNat % 2 ^ 52 := by
  simp [UnpackedFloat.unpackMantissa]

theorem toNat_unpackExponent :
    (UnpackedFloat.unpackExponent b).toNat = b.toNat / 2 ^ 52 % 2 ^ 11 := by
  simp [UnpackedFloat.unpackExponent, Nat.shiftRight_eq_div_pow]

theorem toNat_unpackSign : (UnpackedFloat.unpackSign b).toNat = b.toNat / 2 ^ 63 := by
  have hb : b.toNat < 2 ^ 64 := b.isLt
  simp [UnpackedFloat.unpackSign, Nat.shiftRight_eq_div_pow]
  omega

theorem unpackSign_negative :
    (UnpackedFloat.Sign.ofBitVec (UnpackedFloat.unpackSign b) == .negative)
      = (b.toNat / 2 ^ 63 == 1) := by
  rw [← toNat_unpackSign]
  generalize UnpackedFloat.unpackSign b = s
  revert s
  decide

theorem unpackExponent_eq_ones :
    UnpackedFloat.unpackExponent b = -1#_ ↔ b.toNat / 2 ^ 52 % 2 ^ 11 = 2 ^ 11 - 1 := by
  rw [← toNat_unpackExponent, ← BitVec.toNat_inj]
  rfl

theorem unpackExponent_eq_zero :
    UnpackedFloat.unpackExponent b = 0#_ ↔ b.toNat / 2 ^ 52 % 2 ^ 11 = 0 := by
  rw [← toNat_unpackExponent, ← BitVec.toNat_inj]
  rfl

theorem toNat_one_append_unpackMantissa :
    (1#1 ++ UnpackedFloat.unpackMantissa b).toNat = 2 ^ 52 + b.toNat % 2 ^ 52 := by
  have hlt : (UnpackedFloat.unpackMantissa b).toNat < 2 ^ 52 :=
    (UnpackedFloat.unpackMantissa b).isLt
  rw [BitVec.toNat_append, ← Nat.shiftLeft_add_eq_or_of_lt hlt, toNat_unpackMantissa]
  rfl

theorem ofBits?_ofBitVec : ofBits? ⟨b⟩ = ofUnpacked? (UnpackedFloat.unpack _ b) := by
  have hbits : (UInt64.ofBitVec b).toNat = b.toNat := rfl
  simp only [ofBits?, hbits, ← unpackSign_negative, ← unpackExponent_eq_ones,
    ← unpackExponent_eq_zero, ← toNat_one_append_unpackMantissa]
  unfold UnpackedFloat.unpack
  by_cases hones : UnpackedFloat.unpackExponent b = -1#11
  · by_cases hm : UnpackedFloat.unpackMantissa b = 0#52 <;> simp [hones, hm, ofUnpacked?]
  by_cases hzero : UnpackedFloat.unpackExponent b = 0#11
  · have hm := toNat_unpackMantissa b
    by_cases hnone : UnpackedFloat.unpackMantissa b = 0#52
    · have hfraction : b.toNat % 2 ^ 52 = 0 := by rw [← hm, hnone]; rfl
      simp [hzero, hnone, hfraction, ofUnpacked?]
    · simp [hzero, hnone, ofUnpacked?, hm, Format.exponentBias]
  · simp only [if_neg hones, if_neg hzero, ofUnpacked?, toNat_unpackExponent]
    rfl

end Word

theorem ofFloat?_eq (p : Float) : ofFloat? p = ofUnpacked? p.toModel.unpack :=
  ofBits?_ofBitVec p.toBits.toBitVec

theorem significand_lt {p : Float} {x : Binary64} (h : ofFloat? p = some x) :
    x.significand < 2 ^ 53 := by
  have hfraction : p.toBits.toNat % 2 ^ 52 < 2 ^ 52 := Nat.mod_lt _ (by decide)
  simp only [ofFloat?, ofBits?] at h
  split at h
  · cases h
  · split at h <;> cases h <;> dsimp only <;> omega

/-! ## The order of doubles -/

theorem float_le_iff {p q : Float} : p ≤ q ↔ p.toModel.unpack.le q.toModel.unpack :=
  decide_eq_true_iff

theorem float_lt_iff {p q : Float} : p < q ↔ p.toModel.unpack.lt q.toModel.unpack :=
  decide_eq_true_iff

theorem compare_swap (u v : UnpackedFloat) : v.compare u = (u.compare v).map Ordering.swap := by
  have hparts (m m' : Nat) (e e' : Int) : ((compare e e').then (compare m m')).swap
      = (compare e' e).then (compare m' m) := by
    rw [Ordering.swap_then, ← Std.OrientedCmp.eq_swap, ← Std.OrientedCmp.eq_swap]
  cases u with
  | notANumber => cases v <;> rfl
  | infinity s =>
    cases v with
    | infinity s' => cases s <;> cases s' <;> rfl
    | _ => cases s <;> rfl
  | zero s =>
    cases v with
    | infinity s' | finite s' => cases s' <;> rfl
    | _ => rfl
  | finite s =>
    cases v with
    | infinity s' => cases s <;> cases s' <;> rfl
    | finite s' => cases s <;> cases s' <;> simp [UnpackedFloat.compare, hparts]
    | _ => cases s <;> rfl

theorem float_not_lt_of_le {p q : Float} (h : p ≤ q) : ¬ q < p := by
  rw [float_le_iff, UnpackedFloat.le] at h
  rw [float_lt_iff, UnpackedFloat.lt, compare_swap p.toModel.unpack]
  cases hc : p.toModel.unpack.compare q.toModel.unpack with
  | none => simp
  | some o => cases o <;> simp [hc] at h ⊢

/-! ## Fractions -/

/-- The parts of a double from 0 to 1, apart from its sign: the double is a whole number of
pieces of which at least that many make up 1. -/
structure IsFraction (x : Binary64) : Prop where
  exponent_le : x.exponent ≤ 0
  significand_le : x.significand ≤ 2 ^ (-x.exponent).toNat

section Positive

variable {p : Float} {m : Nat} {e : Int} {hm : 0 < m}

theorem ofFloat?_of_finite (hp : p.toModel.unpack = .finite .positive m e hm) :
    ofFloat? p = some ⟨false, m, e⟩ := by
  rw [ofFloat?_eq, hp]
  rfl

/-- 1 is `2 ^ 52 * 2 ^ (-52)`: what is not above it has a lower exponent, or the same one and no
greater significand. -/
theorem le_one_iff (hp : p.toModel.unpack = .finite .positive m e hm) :
    p ≤ 1 ↔ e < -52 ∨ e = -52 ∧ m ≤ 2 ^ 52 := by
  have hunpack : (1 : Float).toModel.unpack = .finite .positive (2 ^ 52) (-52) (by decide) := rfl
  have horder : p ≤ 1 ↔ ((compare e (-52)).then (compare m (2 ^ 52))).isLE := by
    rw [float_le_iff, hunpack, UnpackedFloat.le, hp]
    rfl
  rw [horder, Ordering.isLE_then_iff_or, Std.compare_eq_lt, Std.compare_eq_iff_eq,
    Nat.isLE_compare]

theorem one_le_iff (hp : p.toModel.unpack = .finite .positive m e hm) :
    1 ≤ p ↔ -52 < e ∨ -52 = e ∧ 2 ^ 52 ≤ m := by
  have hunpack : (1 : Float).toModel.unpack = .finite .positive (2 ^ 52) (-52) (by decide) := rfl
  have horder : 1 ≤ p ↔ ((compare (-52) e).then (compare (2 ^ 52) m)).isLE := by
    rw [float_le_iff, hunpack, UnpackedFloat.le, hp]
    rfl
  rw [horder, Ordering.isLE_then_iff_or, Std.compare_eq_lt, Std.compare_eq_iff_eq,
    Nat.isLE_compare]

end Positive

/-- A double from 0 to 1 is a zero, or positive and not above 1. -/
theorem unpack_of_le_one {p : Float} (hzero : 0 ≤ p) (hone : p ≤ 1) :
    (∃ s, p.toModel.unpack = .zero s) ∨
      ∃ m e hm, p.toModel.unpack = .finite .positive m e hm ∧
        (e < -52 ∨ e = -52 ∧ m ≤ 2 ^ 52) := by
  have hunpack₀ : (0 : Float).toModel.unpack = .zero .positive := rfl
  have hunpack₁ : (1 : Float).toModel.unpack = .finite .positive (2 ^ 52) (-52) (by decide) := rfl
  have hle := hone
  rw [float_le_iff, hunpack₀, UnpackedFloat.le] at hzero
  rw [float_le_iff, hunpack₁, UnpackedFloat.le] at hone
  cases hp : p.toModel.unpack with
  | notANumber => simp [hp, UnpackedFloat.compare] at hzero
  | infinity s => cases s <;> simp [hp, UnpackedFloat.compare] at hzero hone
  | zero s => exact .inl ⟨s, rfl⟩
  | finite s m e hm =>
    cases s with
    | negative => simp [hp, UnpackedFloat.compare] at hzero
    | positive => exact .inr ⟨m, e, hm, rfl, (le_one_iff hp).1 hle⟩

theorem exists_isFraction {p : Float} (hzero : 0 ≤ p) (hone : p ≤ 1) :
    ∃ x, ofFloat? p = some x ∧ x.IsFraction := by
  obtain ⟨s, hp⟩ | ⟨m, e, hm, hp, horder⟩ := unpack_of_le_one hzero hone
  · exact ⟨⟨s == .negative, 0, -1074⟩, by rw [ofFloat?_eq, hp]; rfl, by simp, Nat.zero_le _⟩
  · have hx : ofFloat? p = some ⟨false, m, e⟩ := ofFloat?_of_finite hp
    have hlt : m < 2 ^ 53 := significand_lt hx
    refine ⟨_, hx, ?_⟩
    obtain hbelow | ⟨rfl, hm'⟩ := horder
    · have hpow : 2 ^ 53 ≤ 2 ^ (-e).toNat := Nat.pow_le_pow_right (by decide) (by omega)
      exact ⟨by dsimp only; omega, by dsimp only; omega⟩
    · exact ⟨by simp, hm'⟩

/-- A double from 0 to 1 is 1, or no greater than the nearest double below 1, which leaves out one
of the `2 ^ 53` pieces that make up 1. -/
theorem one_or_below {p : Float} {x : Binary64} (hx : ofFloat? p = some x) (hzero : 0 ≤ p)
    (hone : p ≤ 1) :
    (1 ≤ p ∧ x.significand = 2 ^ 52 ∧ x.exponent = -52) ∨
      (¬1 ≤ p ∧ 2 ^ 53 * x.significand ≤ (2 ^ 53 - 1) * 2 ^ (-x.exponent).toNat) := by
  obtain ⟨s, hp⟩ | ⟨m, e, hm, hp, horder⟩ := unpack_of_le_one hzero hone
  · obtain rfl : ⟨s == .negative, 0, -1074⟩ = x := by
      rw [ofFloat?_eq, hp] at hx
      exact Option.some.inj hx
    have hlt : ¬1 ≤ p := by
      have hunpack : (1 : Float).toModel.unpack = .finite .positive (2 ^ 52) (-52) (by decide) := rfl
      rw [float_le_iff, hunpack, UnpackedFloat.le, hp]
      simp [UnpackedFloat.compare]
    exact .inr ⟨hlt, Nat.zero_le _⟩
  · obtain rfl : ⟨false, m, e⟩ = x := Option.some.inj ((ofFloat?_of_finite hp).symm.trans hx)
    have hlt : m < 2 ^ 53 := significand_lt hx
    rw [one_le_iff hp]
    dsimp only
    obtain hbelow | ⟨rfl, hle⟩ := horder
    · have hpow : 2 ^ 53 ≤ 2 ^ (-e).toNat := Nat.pow_le_pow_right (by decide) (by omega)
      omega
    · have hpow : 2 ^ (-(-52 : Int)).toNat = 2 ^ 52 := rfl
      rw [hpow]
      omega

/-! ## Rounding to 53 digits -/

/-- No more digits are cut off than there are beyond 53. -/
theorem excess_le {n s : Nat} (h : n < 2 ^ (53 + s)) : bitLength n - 53 ≤ s :=
  Nat.sub_le_of_le_add (Nat.add_comm .. ▸ bitLength_le_iff.2 h)

theorem lt_two_pow_add {n c s : Nat} (hc : c < 2 ^ 53) (h : n ≤ c * 2 ^ s) : n < 2 ^ (53 + s) := by
  rw [Nat.pow_add]
  exact h.trans_lt (Nat.mul_lt_mul_of_pos_right hc (Nat.two_pow_pos s))

theorem mul_two_pow_split {c r s : Nat} (h : r ≤ s) : c * 2 ^ s = c * 2 ^ (s - r) * 2 ^ r := by
  rw [Nat.mul_assoc, ← Nat.pow_add, Nat.sub_add_cancel h]

/-- Rounding does not step over a number that has at most 53 digits before its zeros. -/
theorem round_le {n c s : Nat} (hc : c < 2 ^ 53) (h : n ≤ c * 2 ^ s) :
    (round n).1 * 2 ^ (round n).2 ≤ c * 2 ^ s := by
  have hsplit : c * 2 ^ s = c * 2 ^ (s - (bitLength n - 53)) * 2 ^ (bitLength n - 53) :=
    mul_two_pow_split (excess_le (lt_two_pow_add hc h))
  rw [hsplit]
  exact Nat.mul_le_mul_right _ (roundDivEven_le (Nat.two_pow_pos _) (hsplit ▸ h))

/-- It does not move such a number at all. -/
theorem round_eq {c s : Nat} (hc : c < 2 ^ 53) :
    (round (c * 2 ^ s)).1 * 2 ^ (round (c * 2 ^ s)).2 = c * 2 ^ s := by
  have hsplit : c * 2 ^ s = c * 2 ^ (s - (bitLength (c * 2 ^ s) - 53)) *
      2 ^ (bitLength (c * 2 ^ s) - 53) :=
    mul_two_pow_split (excess_le (lt_two_pow_add hc le_rfl))
  have hround : (round (c * 2 ^ s)).1 = c * 2 ^ (s - (bitLength (c * 2 ^ s) - 53)) := by
    unfold round
    dsimp only
    generalize bitLength (c * 2 ^ s) - 53 = r at hsplit ⊢
    rw [hsplit, roundDivEven_mul _ (Nat.two_pow_pos _)]
  rw [hround]
  exact hsplit.symm

/-- What lies closer to a number of 53 digits than to the next one is not rounded above it. -/
theorem round_le_of_lt_half {n c s : Nat} (hc : 2 ^ 52 ≤ c) (hc' : c < 2 ^ 53)
    (h : 2 * n < (2 * c + 1) * 2 ^ s) : (round n).1 * 2 ^ (round n).2 ≤ c * 2 ^ s := by
  have hpos : 0 < 2 ^ s := Nat.two_pow_pos s
  have hn : n < 2 ^ (53 + s) := by
    rw [Nat.pow_add]
    nlinarith
  rcases (excess_le hn).eq_or_lt with hall | hfewer
  · show roundDivEven n (2 ^ (bitLength n - 53)) * 2 ^ (bitLength n - 53) ≤ c * 2 ^ s
    rw [hall]
    exact Nat.mul_le_mul_right _ (roundDivEven_le_of_lt_half hpos h)
  · -- with fewer digits than `c` before the same zeros, it lies below `2 ^ 52` times them
    have hlow : n < 2 ^ (52 + s) := by
      refine bitLength_le_iff.1 ?_
      omega
    refine (round_le (by decide : 2 ^ 52 < 2 ^ 53) ?_).trans (Nat.mul_le_mul_right _ hc)
    rw [← Nat.pow_add]
    exact hlow.le

/-- The double nearest to a whole number is one of its two neighbours, which have 53 digits before
their zeros; the upper one is taken only where there are zeros. -/
theorem roundNat_cases (n : Nat) :
    ∃ c s, c < 2 ^ 53 ∧ c * 2 ^ s ≤ n ∧
      (roundNat n = c * 2 ^ s ∨ 2 ^ 52 ≤ c ∧ roundNat n = (c + 1) * 2 ^ s) := by
  have hlt : n < 2 ^ (53 + (bitLength n - 53)) := bitLength_le_iff.1 (by omega)
  have hquotient : n / 2 ^ (bitLength n - 53) < 2 ^ 53 := by
    rw [Nat.div_lt_iff_lt_mul (Nat.two_pow_pos _), ← Nat.pow_add]
    exact hlt
  refine ⟨n / 2 ^ (bitLength n - 53), bitLength n - 53, hquotient, Nat.div_mul_le_self .., ?_⟩
  rcases Nat.eq_zero_or_pos (bitLength n - 53) with hnone | hsome
  · left
    simp [roundNat, round, hnone, roundDivEven_one]
  · have hlow : 2 ^ 52 ≤ n / 2 ^ (bitLength n - 53) := by
      rw [Nat.le_div_iff_mul_le (Nat.two_pow_pos _), ← Nat.pow_add, ← Nat.not_lt,
        ← bitLength_le_iff]
      omega
    rcases roundDivEven_cases n (2 ^ (bitLength n - 53)) with heq | heq
    · exact .inl (congrArg (· * 2 ^ (bitLength n - 53)) heq)
    · exact .inr ⟨hlow, congrArg (· * 2 ^ (bitLength n - 53)) heq⟩

theorem exists_roundNat (n : Nat) : ∃ c s, c < 2 ^ 53 ∧ roundNat n = c * 2 ^ s := by
  obtain ⟨c, s, hc, -, heq | ⟨-, heq⟩⟩ := roundNat_cases n
  · exact ⟨c, s, hc, heq⟩
  · rcases Nat.lt_or_eq_of_le (Nat.succ_le_of_lt hc) with hlt | hcarry
    · exact ⟨c + 1, s, hlt, heq⟩
    · -- rounding up has carried into a digit more
      refine ⟨1, 53 + s, by decide, ?_⟩
      rw [heq, Nat.one_mul, Nat.pow_add, ← hcarry]

theorem roundNat_of_lt {n : Nat} (h : n < 2 ^ 53) : roundNat n = n := by
  have hcut : bitLength n - 53 = 0 := Nat.sub_eq_zero_of_le (bitLength_le_iff.2 h)
  simp [roundNat, round, hcut, roundDivEven_one]

end Binary64

end BlockLedger
