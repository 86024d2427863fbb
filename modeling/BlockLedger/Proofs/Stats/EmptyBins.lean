import BlockLedger.Proofs.Stats.Percentile

/-
# Percentiles and empty bins

The counts of the bins are added up exactly, and compared with a rank that comes from their total as
a double.  From `2 ^ 53` on a total may be rounded up on the way.  The rank of the greatest value is
then one that the counts never reach, and the last bin answers, whether it is empty or not.

No other rank is beyond the total.  A fraction below 1 leaves out at least one of `2 ^ 53` pieces,
which is more than half a step between two doubles, and rounding up has added no more than half a
step.
-/

namespace BlockLedger

namespace Histogram

/-- Something has been counted in a bin. -/
def Filled (bins : List Nat) (bin : Nat) : Prop := ∃ n, bins[bin]? = some n ∧ n ≠ 0

/-! ## Ranks beyond the total -/

/-- What is left of the upper neighbour of a number lies closer to the lower one. -/
theorem lt_half_of_below {c s significand pieces : Nat} (hc : 2 ^ 52 ≤ c) (hpieces : 0 < pieces)
    (hbelow : 2 ^ 53 * significand ≤ (2 ^ 53 - 1) * pieces) :
    2 * ((c + 1) * 2 ^ s * significand) < (2 * c + 1) * (2 ^ s * pieces) := by
  have hstep : 0 < 2 ^ s * pieces := Nat.mul_pos (Nat.two_pow_pos s) hpieces
  have hscaled : 2 * (c + 1) * 2 ^ s * (2 ^ 53 * significand) ≤
      2 * (c + 1) * 2 ^ s * ((2 ^ 53 - 1) * pieces) := Nat.mul_le_mul_left _ hbelow
  have hmargin : 2 * (c + 1) * (2 ^ 53 - 1) * (2 ^ s * pieces) <
      2 ^ 53 * (2 * c + 1) * (2 ^ s * pieces) :=
    Nat.mul_lt_mul_of_pos_right (by omega) hstep
  refine Nat.lt_of_mul_lt_mul_left (a := 2 ^ 53) ?_
  calc 2 ^ 53 * (2 * ((c + 1) * 2 ^ s * significand))
      = 2 * (c + 1) * 2 ^ s * (2 ^ 53 * significand) := by ring
    _ ≤ 2 * (c + 1) * 2 ^ s * ((2 ^ 53 - 1) * pieces) := hscaled
    _ = 2 * (c + 1) * (2 ^ 53 - 1) * (2 ^ s * pieces) := by ring
    _ < 2 ^ 53 * (2 * c + 1) * (2 ^ s * pieces) := hmargin
    _ = 2 ^ 53 * ((2 * c + 1) * (2 ^ s * pieces)) := by ring

theorem rank_le_of_below {total : Nat} {x : Binary64} (hx : x.IsFraction) (hpos : 0 < total)
    (hbelow : 2 ^ 53 * x.significand ≤ (2 ^ 53 - 1) * 2 ^ (-x.exponent).toNat) :
    rank total x ≤ total := by
  obtain ⟨c, s, hc, hle, hround⟩ := Binary64.roundNat_cases total
  -- the product is rounded to the lower neighbour of the total at most
  suffices hproduct : (Binary64.round (Binary64.roundNat total * x.significand)).1 *
      2 ^ (Binary64.round (Binary64.roundNat total * x.significand)).2 ≤
        c * 2 ^ (s + (-x.exponent).toNat) by
    refine (rank_le_iff hx.exponent_le).2 ⟨hpos, .inl (hproduct.trans ?_)⟩
    rw [Nat.pow_add, ← Nat.mul_assoc]
    exact Nat.mul_le_mul_right _ hle
  obtain heq | ⟨hc', heq⟩ := hround
  · rw [heq]
    refine Binary64.round_le hc ?_
    rw [Nat.pow_add, ← Nat.mul_assoc]
    exact Nat.mul_le_mul_left _ hx.significand_le
  · rw [heq]
    refine Binary64.round_le_of_lt_half hc' hc ?_
    rw [Nat.pow_add]
    exact lt_half_of_below hc' (Nat.two_pow_pos _) hbelow

/-- The rank at 1 is the total as a double, unless that is too great for its word. -/
theorem rank_one_le_iff {total c : Nat} {x : Binary64} (hsignificand : x.significand = 2 ^ 52)
    (hexponent : x.exponent = -52) :
    rank total x ≤ c ↔ 1 ≤ c ∧ (Binary64.roundNat total ≤ c ∨ ceiling ≤ c) := by
  obtain ⟨d, s, hd, hround⟩ := Binary64.exists_roundNat total
  have hproduct : Binary64.roundNat total * x.significand = d * 2 ^ (s + 52) := by
    rw [hround, hsignificand, Nat.pow_add, Nat.mul_assoc]
  have hpieces : (-x.exponent).toNat = 52 := by omega
  rw [rank_le_iff (by omega), hproduct, Binary64.round_eq hd, hpieces, hround, Nat.pow_add,
    ← Nat.mul_assoc, Nat.mul_le_mul_right_iff (Nat.two_pow_pos 52)]

/-- A rank is beyond the total just if it is the rank at 1 and the total has been rounded up, and
still fits its word when it has. -/
theorem rank_le_total_iff {total : Nat} (hpos : 0 < total) {p : Float} {x : Binary64}
    (hx : Binary64.ofFloat? p = some x) (hzero : 0 ≤ p) (hone : p ≤ 1) :
    rank total x ≤ total ↔ ¬(1 ≤ p ∧ total < min (Binary64.roundNat total) ceiling) := by
  obtain ⟨hge, hsignificand, hexponent⟩ | ⟨hlt, hbelow⟩ := Binary64.one_or_below hx hzero hone
  · rw [rank_one_le_iff hsignificand hexponent, Nat.lt_min, not_and, not_and_or, Nat.not_lt,
      Nat.not_lt]
    exact ⟨fun h _ => h.2, fun h => ⟨hpos, h hge⟩⟩
  · obtain ⟨y, hy, hfraction⟩ := Binary64.exists_isFraction hzero hone
    obtain rfl : y = x := Option.some.inj (hy.symm.trans hx)
    have hle : rank total y ≤ total := rank_le_of_below hfraction hpos hbelow
    exact ⟨fun _ h => hlt h.1, fun _ => hle⟩

/-! ## The bin that is reached -/

theorem isSome_firstReaching {target : Nat} (ns : List Nat) {i sum : Nat} (hbelow : sum < target) :
    (firstReaching target i sum ns).isSome = true ↔ target ≤ sum + ns.sum := by
  induction ns generalizing i sum with
  | nil =>
    rw [List.sum_nil, Nat.add_zero]
    exact ⟨fun h => (Bool.false_ne_true h).elim, fun h => absurd hbelow (Nat.not_lt.2 h)⟩
  | cons n ns ih =>
    rw [firstReaching, List.sum_cons, ← Nat.add_assoc]
    split
    next hreach => exact ⟨fun _ => hreach.trans (Nat.le_add_right ..), fun _ => rfl⟩
    next hmiss => exact ih (Nat.lt_of_not_le hmiss)

/-- Counts reach a rank where something is counted. -/
theorem filled_of_firstReaching {target bin : Nat} {ns : List Nat} {i sum : Nat}
    (hbelow : sum < target) (h : firstReaching target i sum ns = some bin) :
    ∃ j, bin = i + j ∧ Filled ns j := by
  induction ns generalizing i sum with
  | nil => cases h
  | cons n ns ih =>
    rw [firstReaching] at h
    split at h
    next hreach =>
      obtain rfl := Option.some.inj h
      exact ⟨0, rfl, n, rfl, by omega⟩
    next hmiss =>
      obtain ⟨j, rfl, m, hm, hpos⟩ := ih (Nat.lt_of_not_le hmiss) h
      exact ⟨j + 1, by omega, m, hm, hpos⟩

theorem Filled.lt_length {bins : List Nat} {bin : Nat} (h : Filled bins bin) :
    bin < bins.length := by
  obtain ⟨n, hn, -⟩ := h
  exact (List.getElem?_eq_some_iff.1 hn).1

/-! ## Percentiles -/

theorem percentileOf_eq {bins : List Nat} (hlength : bins.length = binCount) (hpos : 0 < bins.sum)
    {p : Float} {x : Binary64} (hx : Binary64.ofFloat? p = some x) (hzero : 0 ≤ p) (hone : p ≤ 1) :
    percentileOf bins p = .ok (some
      (lowerBound ((firstReaching (rank bins.sum x) 0 0 bins).getD (binCount - 1)))) := by
  have hrange : (p < 0 || 1 < p) = false := by
    simp [Binary64.float_not_lt_of_le hzero, Binary64.float_not_lt_of_le hone]
  have htotal : bins.foldl (· + ·) 0 = bins.sum := (List.sum_eq_foldl ..).symm
  simp [percentileOf, hx, hrange, hlength, htotal, hpos.ne']

/-- Which bin a percentile answers with.  The counts reach the rank, in a bin that is not empty,
unless the percentile is the one at 1 and the total has been rounded up: then they never reach it,
and the last bin answers. -/
theorem percentile_filled_iff {bins : List Nat} (hlength : bins.length = binCount)
    (hpos : 0 < bins.sum) {p : Float} (hzero : 0 ≤ p) (hone : p ≤ 1) :
    ∃ t bin, rankOf? bins.sum p = some t ∧ bin < binCount ∧
      percentileOf bins p = .ok (some (lowerBound bin)) ∧
      (t ≤ bins.sum ↔ ¬(1 ≤ p ∧ bins.sum < min (Binary64.roundNat bins.sum) ceiling)) ∧
      (firstReaching t 0 0 bins = if t ≤ bins.sum then some bin else none) ∧
      (Filled bins bin ↔ t ≤ bins.sum ∨ Filled bins (binCount - 1)) := by
  obtain ⟨x, hx, -⟩ := Binary64.exists_isFraction hzero hone
  have hrank : rankOf? bins.sum p = some (rank bins.sum x) := by
    rw [rankOf?, hx]
    rfl
  have htotal := rank_le_total_iff hpos hx hzero hone
  have hanswer := percentileOf_eq hlength hpos hx hzero hone
  have hbelow : 0 < rank bins.sum x := one_le_rank bins.sum x
  have hreach := isSome_firstReaching bins (i := 0) hbelow
  rw [Nat.zero_add] at hreach
  cases hfirst : firstReaching (rank bins.sum x) 0 0 bins with
  | none =>
    have hmiss : ¬rank bins.sum x ≤ bins.sum := by
      rw [← hreach, hfirst]
      exact Bool.false_ne_true
    rw [hfirst] at hanswer
    refine ⟨_, binCount - 1, hrank, by decide, hanswer, htotal, ?_, ?_⟩
    · rw [hfirst, if_neg hmiss]
    · exact ⟨.inr, fun h => h.resolve_left hmiss⟩
  | some bin =>
    obtain ⟨j, rfl, hfilled⟩ := filled_of_firstReaching hbelow hfirst
    have hhit : rank bins.sum x ≤ bins.sum := by
      rw [← hreach, hfirst]
      rfl
    rw [Nat.zero_add] at hfirst
    rw [hfirst] at hanswer
    refine ⟨_, j, hrank, hlength ▸ hfilled.lt_length, hanswer, htotal, ?_, ?_⟩
    · rw [hfirst, if_pos hhit]
    · exact ⟨fun _ => .inl hhit, fun _ => hfilled⟩

/-- Of `2 ^ 53 + 3` zeros, a total that is rounded up, the percentile next to 1 is still a zero. -/
theorem percentile_filled_nearly_all :
    let bins := (2 ^ 53 + 3) :: List.replicate 31 0
    bins.length = binCount ∧ 0 < bins.sum ∧ bins.sum < Binary64.roundNat bins.sum ∧
      (0 : Float) ≤ 0.9999999999999999 ∧ (0.9999999999999999 : Float) ≤ 1 ∧
      ∃ t bin, rankOf? bins.sum 0.9999999999999999 = some t ∧ t ≤ bins.sum ∧ Filled bins bin ∧
        percentileOf bins 0.9999999999999999 = .ok (some (lowerBound bin)) := by
  intro bins
  have hlength : bins.length = binCount := by decide
  have hpos : 0 < bins.sum := by decide
  have hzero : (0 : Float) ≤ 0.9999999999999999 := by decide
  have hone : (0.9999999999999999 : Float) ≤ 1 := by decide
  have hbelow : ¬(1 : Float) ≤ 0.9999999999999999 := by decide
  obtain ⟨t, bin, ht, -, hanswer, htotal, -, hfilled⟩ :=
    percentile_filled_iff hlength hpos hzero hone
  have hle : t ≤ bins.sum := htotal.2 fun h => hbelow h.1
  exact ⟨hlength, hpos, by decide, hzero, hone, t, bin, ht, hle, hfilled.2 (.inl hle), hanswer⟩

/-- The greatest of them is answered with the last bin, which is empty. -/
theorem percentile_of_empty_bin :
    let bins := (2 ^ 53 + 3) :: List.replicate 31 0
    bins.length = binCount ∧ 0 < bins.sum ∧ bins.sum ≤ ceiling ∧
      (0 : Float) ≤ 1 ∧ (1 : Float) ≤ 1 ∧ rankOf? bins.sum 1 = some (bins.sum + 1) ∧
      percentileOf bins 1 = .ok (some (lowerBound 31)) ∧
      ∀ bin, Filled bins bin → lowerBound bin ≠ lowerBound 31 := by
  intro bins
  have hlength : bins.length = binCount := by decide
  have hx : Binary64.ofFloat? 1 = some ⟨false, 2 ^ 52, -52⟩ := by decide
  have hanswer := percentileOf_eq hlength (by decide) hx (by decide) (by decide)
  refine ⟨by decide, by decide, by decide, by decide, by decide, ?_, ?_, ?_⟩
  · rw [rankOf?, hx]
    decide
  · have hmiss : firstReaching (rank bins.sum ⟨false, 2 ^ 52, -52⟩) 0 0 bins = none := by decide
    rw [hanswer, hmiss]
    rfl
  · rintro bin ⟨n, hn, hne⟩
    cases bin with
    | zero => decide
    | succ bin =>
      -- in all other bins there is nothing
      rw [List.getElem?_cons_succ, List.getElem?_replicate] at hn
      split at hn
      · exact absurd (Option.some.inj hn).symm hne
      · cases hn

end Histogram

end BlockLedger
