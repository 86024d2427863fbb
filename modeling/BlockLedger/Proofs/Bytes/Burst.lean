import BlockLedger.Bytes.Crc32
import BlockLedger.Bytes.LittleEndian

/-
# Bursts of wrong bytes

A step of the register is linear over exclusive or and forgets nothing: the highest bit of the
polynomial is set, so after a step the highest bit of the register tells whether the polynomial was
added.  Four bytes in a row are taken in like one word.  So if some bytes that lie within four in a
row are replaced by others, the checksum changes, whatever stands before and after them.
-/

namespace BlockLedger

namespace LittleEndian

theorem decode_lt (bytes : List UInt8) : decode bytes < 256 ^ bytes.length := by
  induction bytes with
  | nil => decide
  | cons b rest ih =>
    have hb := b.toNat_lt
    rw [decode, List.length_cons, Nat.pow_succ]
    omega

theorem decode_injective {a b : List UInt8} (hlength : a.length = b.length)
    (h : decode a = decode b) : a = b := by
  induction a generalizing b with
  | nil => exact (List.eq_nil_of_length_eq_zero hlength.symm).symm
  | cons x a ih =>
    cases b with
    | nil => cases hlength
    | cons y b =>
      have hx := x.toNat_lt
      have hy := y.toNat_lt
      rw [decode, decode] at h
      obtain ⟨hlow, hhigh⟩ : x.toNat = y.toNat ∧ decode a = decode b := by omega
      rw [UInt8.toNat_inj.mp hlow, ih (Nat.succ.inj hlength) hhigh]

/-- The bytes of a number do not overlap. -/
theorem decode_cons_eq_xor (b : UInt8) (rest : List UInt8) :
    decode (b :: rest) = b.toNat ^^^ (2 ^ 8 * decode rest) := by
  have hb : b.toNat < 2 ^ 8 := b.toNat_lt
  have hlow : (b.toNat ^^^ (2 ^ 8 * decode rest)) % 2 ^ 8 = b.toNat := by
    rw [Nat.xor_mod_two_pow, Nat.mul_mod_right, Nat.xor_zero, Nat.mod_eq_of_lt hb]
  have hhigh : (b.toNat ^^^ (2 ^ 8 * decode rest)) / 2 ^ 8 = decode rest := by
    rw [Nat.xor_div_two_pow, Nat.div_eq_of_lt hb, Nat.zero_xor, Nat.mul_div_cancel_left _ (by decide)]
  rw [decode]
  omega

end LittleEndian

namespace Crc32

/-! ## Steps of the register -/

theorem low_eq_one_iff (r : UInt32) : r &&& 1 = 1 ↔ r.toNat % 2 = 1 := by
  rw [← UInt32.toNat_inj, UInt32.toNat_and]
  show r.toNat &&& 1 = 1 ↔ _
  rw [Nat.and_one_is_mod]

theorem toNat_half (r : UInt32) : (r >>> 1).toNat = r.toNat / 2 := by
  rw [UInt32.toNat_shiftRight]
  exact Nat.shiftRight_eq_div_pow _ 1

theorem shift_xor (x y : UInt32) : shift (x ^^^ y) = shift x ^^^ shift y := by
  have hlow : (x ^^^ y).toNat % 2 = (x.toNat % 2) ^^^ (y.toNat % 2) := by
    rw [UInt32.toNat_xor]
    exact Nat.xor_mod_two_pow (n := 1)
  simp only [shift, low_eq_one_iff, hlow, UInt32.shiftRight_xor]
  rcases Nat.mod_two_eq_zero_or_one x.toNat with hx | hx <;>
    rcases Nat.mod_two_eq_zero_or_one y.toNat with hy | hy <;> rw [hx, hy]
  · rfl
  · exact UInt32.xor_assoc _ _ _
  · show x >>> 1 ^^^ y >>> 1 ^^^ polynomial = x >>> 1 ^^^ polynomial ^^^ y >>> 1
    rw [UInt32.xor_assoc, UInt32.xor_comm (y >>> 1), ← UInt32.xor_assoc]
  · show x >>> 1 ^^^ y >>> 1 = x >>> 1 ^^^ polynomial ^^^ (y >>> 1 ^^^ polynomial)
    rw [UInt32.xor_comm (y >>> 1) polynomial, UInt32.xor_assoc, ← UInt32.xor_assoc polynomial,
      UInt32.xor_self, UInt32.zero_xor]

/-- Only nothing becomes nothing: half of a register is less than the polynomial. -/
theorem eq_zero_of_shift {r : UInt32} (h : shift r = 0) : r = 0 := by
  have hr := r.toNat_lt
  have hhalf := toNat_half r
  simp only [shift, low_eq_one_iff] at h
  split at h
  · rw [UInt32.xor_eq_zero_iff.mp h] at hhalf
    have hpolynomial : polynomial.toNat = 0xEDB88320 := rfl
    omega
  · rw [h, UInt32.toNat_zero] at hhalf
    refine UInt32.toNat_inj.mp ?_
    rw [UInt32.toNat_zero]
    omega

theorem shifts_xor (n : Nat) (x y : UInt32) : shifts n (x ^^^ y) = shifts n x ^^^ shifts n y := by
  induction n generalizing x y with
  | zero => rfl
  | succ n ih => rw [shifts, shift_xor, ih, ← shifts, ← shifts]

theorem eq_zero_of_shifts {n : Nat} {r : UInt32} (h : shifts n r = 0) : r = 0 := by
  induction n generalizing r with
  | zero => exact h
  | succ n ih => exact eq_zero_of_shift (ih h)

theorem shifts_injective {n : Nat} {x y : UInt32} (h : shifts n x = shifts n y) : x = y := by
  rw [← UInt32.xor_eq_zero_iff, ← shifts_xor] at h
  exact UInt32.xor_eq_zero_iff.mp (eq_zero_of_shifts h)

theorem shifts_add (m n : Nat) (r : UInt32) : shifts n (shifts m r) = shifts (m + n) r := by
  induction m generalizing r with
  | zero => rw [shifts, Nat.zero_add]
  | succ m ih => rw [shifts, ih, Nat.succ_add, shifts]

/-- As long as no bit falls out of the register its bits only move. -/
theorem shifts_of_mul {n : Nat} {x y : UInt32} (h : x.toNat = 2 ^ n * y.toNat) :
    shifts n x = y := by
  induction n generalizing x with
  | zero =>
    rw [Nat.pow_zero, Nat.one_mul] at h
    exact UInt32.toNat_inj.mp h
  | succ n ih =>
    rw [Nat.pow_succ', Nat.mul_assoc] at h
    rw [shifts]
    refine ih ?_
    rw [shift, if_neg (by rw [low_eq_one_iff]; omega), toNat_half]
    omega

/-! ## Rows of bytes -/

/-- The register after some bytes tells the register before them. -/
theorem register_injective {r s : UInt32} {bytes : List UInt8}
    (h : register r bytes = register s bytes) : r = s := by
  induction bytes generalizing r s with
  | nil => exact h
  | cons b rest ih => exact (UInt32.xor_left_inj _).mp (shifts_injective (ih h))

/-- Up to four bytes are taken in like the number that they stand for. -/
theorem register_eq_shifts (r : UInt32) {bytes : List UInt8} (h : bytes.length ≤ 4) :
    register r bytes =
      shifts (8 * bytes.length) (r ^^^ UInt32.ofNat (LittleEndian.decode bytes)) := by
  induction bytes generalizing r with
  | nil => exact UInt32.xor_zero.symm
  | cons b rest ih =>
    have hlength : rest.length ≤ 3 := Nat.le_of_succ_le_succ h
    have hrest : LittleEndian.decode rest < 2 ^ 24 :=
      Nat.lt_of_lt_of_le (LittleEndian.decode_lt rest) (Nat.pow_le_pow_right (by decide) hlength)
    -- the bytes that are still to come wait eight bits further up
    have hmove : shifts 8 (UInt32.ofNat (2 ^ 8 * LittleEndian.decode rest)) =
        UInt32.ofNat (LittleEndian.decode rest) := by
      refine shifts_of_mul ?_
      rw [UInt32.toNat_ofNat', UInt32.toNat_ofNat', Nat.mod_eq_of_lt (by omega),
        Nat.mod_eq_of_lt (by omega)]
    have hword : UInt32.ofNat (LittleEndian.decode (b :: rest)) =
        b.toUInt32 ^^^ UInt32.ofNat (2 ^ 8 * LittleEndian.decode rest) := by
      rw [LittleEndian.decode_cons_eq_xor, UInt32.ofNat_xor, UInt32.ofNat_uInt8ToNat]
    calc register r (b :: rest)
      _ = register (step r b) rest := rfl
      _ = shifts (8 * rest.length) (shifts 8 (r ^^^ b.toUInt32) ^^^
            shifts 8 (UInt32.ofNat (2 ^ 8 * LittleEndian.decode rest))) := by
        rw [ih (step r b) (by omega), hmove, step]
      _ = shifts (8 + 8 * rest.length) (r ^^^ UInt32.ofNat (LittleEndian.decode (b :: rest))) := by
        rw [← shifts_xor, shifts_add, hword, UInt32.xor_assoc]
      _ = _ := by rw [List.length_cons, Nat.mul_succ, Nat.add_comm]

/-- Of two different rows of up to four bytes each leaves a register of its own. -/
theorem eq_of_register_eq {r : UInt32} {a b : List UInt8} (hlength : a.length = b.length)
    (hshort : a.length ≤ 4) (h : register r a = register r b) : a = b := by
  have hlt : ∀ bytes : List UInt8, bytes.length ≤ 4 → LittleEndian.decode bytes < 2 ^ 32 :=
    fun bytes hbytes => Nat.lt_of_lt_of_le (LittleEndian.decode_lt bytes)
      (Nat.pow_le_pow_right (by decide) hbytes)
  have hb : b.length ≤ 4 := by omega
  rw [register_eq_shifts r hshort, register_eq_shifts r hb, hlength] at h
  have hword := congrArg UInt32.toNat ((UInt32.xor_right_inj _).mp (shifts_injective h))
  rw [UInt32.toNat_ofNat', UInt32.toNat_ofNat', Nat.mod_eq_of_lt (hlt a hshort),
    Nat.mod_eq_of_lt (hlt b hb)] at hword
  exact LittleEndian.decode_injective hlength hword

end Crc32

/-- Two rows of bytes are equally long and differ at most within four bytes from `start` on. -/
structure Burst (start : Nat) (bytes damaged : List UInt8) : Prop where
  length : damaged.length = bytes.length
  outside : ∀ i, i < start ∨ start + 4 ≤ i → damaged[i]? = bytes[i]?

namespace Burst

variable {start : Nat} {bytes damaged : List UInt8}

theorem take_eq (h : Burst start bytes damaged) : damaged.take start = bytes.take start := by
  ext1 i
  rw [List.getElem?_take, List.getElem?_take]
  split
  · exact h.outside i (.inl ‹_›)
  · rfl

theorem drop_eq (h : Burst start bytes damaged) :
    damaged.drop (start + 4) = bytes.drop (start + 4) := by
  ext1 i
  rw [List.getElem?_drop, List.getElem?_drop]
  exact h.outside _ (.inr (Nat.le_add_right _ _))

/-- The four bytes stand between those before and those after them. -/
theorem split (start : Nat) (bytes : List UInt8) :
    bytes.take start ++ (bytes.drop start).take 4 ++ bytes.drop (start + 4) = bytes := by
  rw [List.append_assoc, ← List.drop_drop, List.take_append_drop, List.take_append_drop]

/-- No burst goes unnoticed. -/
theorem eq_of_checksum_eq (h : Burst start bytes damaged)
    (hchecksum : Crc32.checksum damaged = Crc32.checksum bytes) : damaged = bytes := by
  have hlength : ((damaged.drop start).take 4).length = ((bytes.drop start).take 4).length := by
    rw [List.length_take, List.length_take, List.length_drop, List.length_drop, h.length]
  rw [← split start damaged, ← split start bytes, h.take_eq, h.drop_eq, Crc32.checksum,
    Crc32.checksum, UInt32.xor_left_inj] at hchecksum
  simp only [Crc32.register, List.foldl_append] at hchecksum
  have hburst := Crc32.eq_of_register_eq hlength (List.length_take_le ..)
    (Crc32.register_injective hchecksum)
  rw [← split start damaged, ← split start bytes, h.take_eq, h.drop_eq, hburst]

/-- A byte that is put in the place of another is a burst. -/
theorem set (i : Nat) (b : UInt8) (bytes : List UInt8) : Burst i bytes (bytes.set i b) where
  length := List.length_set
  outside j hj := List.getElem?_set_ne (by omega)

end Burst

end BlockLedger
