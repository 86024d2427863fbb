import BlockLedger.Proofs.Number.Fraction
import BlockLedger.Proofs.Store.Charge

/-
# What a percentile says about the values

A percentile is read off the bins, while its meaning is about the values: there is one of the
rank asked for, and the answer is the lower bound of the bin that this value is counted in.
-/

namespace BlockLedger

namespace Histogram

/-- The value of rank `t`, counted from 1, among the values in increasing order. -/
def smallest? (values : List Nat) (t : Nat) : Option Nat := (values.mergeSort (· ≤ ·))[t - 1]?

/-- The rank that the percentile `p` of `total` values is taken at. -/
def rankOf? (total : Nat) (p : Float) : Option Nat := (Binary64.ofFloat? p).map (rank total)

/-- What a lower bound of a bin says about a value: it tells zeros from the others, and it is the
value up to a factor of two unless the value is beyond the last bound. -/
structure Brackets (bound v : Nat) : Prop where
  eq_zero_iff : bound = 0 ↔ v = 0
  le : bound ≤ v
  lt_double : 1 ≤ v → v < 2 ^ 30 → v < 2 * bound
  eq_last : 2 ^ 30 ≤ v → bound = 2 ^ 30

/-! ## Bins -/

theorem val_binOf (v : Nat) : (binOf v : Nat) = min (bitLength v) 31 := by
  unfold binOf bitLength
  split <;> rfl

theorem binOf_mono {v w : Nat} (h : v ≤ w) : (binOf v : Nat) ≤ binOf w := by
  have hlength : bitLength v ≤ bitLength w :=
    bitLength_le_iff.2 (h.trans_lt (bitLength_le_iff.1 le_rfl))
  rw [val_binOf, val_binOf]
  omega

theorem lowerBound_mono {i j : Nat} (h : i ≤ j) : lowerBound i ≤ lowerBound j := by
  unfold lowerBound
  split_ifs
  · exact le_rfl
  · exact Nat.zero_le _
  · omega
  · exact Nat.pow_le_pow_right (by decide) (by omega)

theorem lowerBound_binOf {v : Nat} (hv : v ≠ 0) :
    lowerBound (binOf v) = 2 ^ min v.log2 30 := by
  have hlength : bitLength v = v.log2 + 1 := if_neg hv
  have hbin : (binOf v : Nat) = min v.log2 30 + 1 := by
    rw [val_binOf, hlength]
    omega
  simp [hbin, lowerBound]

theorem brackets_binOf (v : Nat) : Brackets (lowerBound (binOf v)) v := by
  by_cases hv : v = 0
  · subst hv
    exact ⟨by decide, by decide, by omega, by omega⟩
  rw [lowerBound_binOf hv]
  have hlower : 2 ^ v.log2 ≤ v := Nat.log2_self_le hv
  have hupper : v < 2 ^ (v.log2 + 1) := Nat.lt_log2_self
  constructor
  case eq_zero_iff =>
    have hpos : 0 < 2 ^ min v.log2 30 := Nat.two_pow_pos _
    omega
  case le =>
    exact (Nat.pow_le_pow_right (by decide) (Nat.min_le_left ..)).trans hlower
  case lt_double =>
    intro _ hlt
    have hlog : v.log2 < 30 := (Nat.log2_lt hv).2 hlt
    rw [Nat.min_eq_left hlog.le, ← Nat.pow_succ']
    exact hupper
  case eq_last =>
    intro hle
    have hlog : 30 ≤ v.log2 := (Nat.le_log2 hv).2 hle
    rw [Nat.min_eq_right hlog]

/-! ## Counting below a rank -/

/-- In a list in increasing order, the elements of a property that goes down with the order are
those at the front. -/
theorem lt_countP_iff {s : List Nat} (hs : s.Pairwise (· ≤ ·)) {q : Nat → Bool}
    (hq : ∀ a b, a ≤ b → q b → q a) {i : Nat} (hi : i < s.length) :
    i < s.countP q ↔ q s[i] := by
  induction s generalizing i with
  | nil => simp at hi
  | cons a s ih =>
    obtain ⟨hhead, htail⟩ := List.pairwise_cons.1 hs
    by_cases ha : q a
    · cases i with
      | zero => simp [ha]
      | succ i => simpa [ha] using ih htail (by simpa using hi)
    · have hnone : ∀ b ∈ s, ¬ q b := fun b hb hqb => ha (hq a b (hhead b hb) hqb)
      have hcount : (a :: s).countP q = 0 := by
        simpa [ha] using hnone
      have hnot : ¬ q (a :: s)[i] := by
        cases i with
        | zero => exact ha
        | succ i => exact hnone _ (List.getElem_mem _)
      simp [hcount, hnot]

theorem smallest?_mono {values : List Nat} {t t' v v' : Nat} (htt : t ≤ t')
    (hv : smallest? values t = some v) (hv' : smallest? values t' = some v') : v ≤ v' := by
  obtain ⟨hi, rfl⟩ := List.getElem?_eq_some_iff.1 hv
  obtain ⟨hi', rfl⟩ := List.getElem?_eq_some_iff.1 hv'
  have hindex : t - 1 ≤ t' - 1 := Nat.sub_le_sub_right htt 1
  obtain heq | hlt := hindex.eq_or_lt
  · simp [heq]
  · exact List.pairwise_iff_getElem.1 (List.pairwise_mergeSort' (· ≤ ·) values) _ _ hi hi' hlt

theorem firstReaching_eq {target i sum j : Nat} {ns : List Nat} (hj : j < ns.length)
    (hbelow : sum + (ns.take j).sum < target) (hreach : target ≤ sum + (ns.take (j + 1)).sum) :
    firstReaching target i sum ns = some (i + j) := by
  induction ns generalizing i sum j with
  | nil => simp at hj
  | cons n ns ih =>
    cases j with
    | zero => simp_all [firstReaching]
    | succ j =>
      simp only [List.take_succ_cons, List.sum_cons, ← Nat.add_assoc] at hbelow hreach
      have hnot : ¬ target ≤ sum + n := by omega
      rw [firstReaching, if_neg hnot, ih (by simpa using hj) hbelow hreach]
      congr 1
      omega

theorem ofList_concat (values : List Nat) (v : Nat) :
    ofList (values ++ [v]) = (ofList values).record v := by
  simp [ofList]

theorem ofList_bins (values : List Nat) (i : Fin binCount) :
    (ofList values).bins.get i = values.countP (binOf · = i) := by
  induction values using List.reverseRecOn with
  | nil => exact empty_bins i
  | append_singleton values v ih =>
    rw [ofList_concat, List.countP_append, List.countP_singleton, ← ih]
    simp only [decide_eq_true_eq]
    exact record_bins (ofList values) v i

theorem countP_lt_succ (f : Nat → Nat) (values : List Nat) (j : Nat) :
    values.countP (f · < j + 1) = values.countP (f · < j) + values.countP (f · = j) := by
  induction values with
  | nil => rfl
  | cons v values ih =>
    simp only [List.countP_cons, ih, decide_eq_true_eq]
    split_ifs <;> omega

theorem sum_take_bins (values : List Nat) {j : Nat} (hj : j ≤ binCount) :
    ((ofList values).bins.toList.take j).sum = values.countP (fun v => (binOf v : Nat) < j) := by
  induction j with
  | zero => simp
  | succ j ih =>
    have hlength : j < (ofList values).bins.toList.length := by simpa using hj
    have hbin : (ofList values).bins.toList[j] = values.countP (fun v => (binOf v : Nat) = j) := by
      simpa [Vector.get, Fin.ext_iff] using ofList_bins values ⟨j, hj⟩
    rw [List.sum_take_succ _ _ hlength, ih (Nat.le_of_lt hj), hbin, countP_lt_succ]

theorem sum_bins (values : List Nat) : (ofList values).bins.toList.sum = values.length := by
  have htake := sum_take_bins values (le_refl binCount)
  have hall : values.countP (fun v => (binOf v : Nat) < binCount) = values.length :=
    List.countP_eq_length.2 fun v _ => by simp
  rwa [hall, List.take_of_length_le (by simp)] at htake

/-! ## Ranks -/

theorem one_le_rank (total : Nat) (x : Binary64) : 1 ≤ rank total x := Nat.le_max_left ..

/-- A rank is compared with a whole number by comparing the rounded product. -/
theorem rank_le_iff {total c : Nat} {x : Binary64} (hx : x.exponent ≤ 0) :
    rank total x ≤ c ↔ 1 ≤ c ∧
      ((Binary64.round (Binary64.roundNat total * x.significand)).1 *
        2 ^ (Binary64.round (Binary64.roundNat total * x.significand)).2 ≤
          c * 2 ^ (-x.exponent).toNat ∨ ceiling ≤ c) := by
  rw [rank]
  generalize Binary64.round (Binary64.roundNat total * x.significand) = product
  have hwhole : (if 0 ≤ (product.2 : Int) + x.exponent then
        product.1 * 2 ^ ((product.2 : Int) + x.exponent).toNat
      else ceilDiv product.1 (2 ^ (-((product.2 : Int) + x.exponent)).toNat)) ≤ c ↔
      product.1 * 2 ^ product.2 ≤ c * 2 ^ (-x.exponent).toNat := by
    split
    next hwhole =>
      have hplaces : ((product.2 : Int) + x.exponent).toNat + (-x.exponent).toNat = product.2 := by
        omega
      rw [← Nat.mul_le_mul_right_iff (Nat.two_pow_pos (-x.exponent).toNat), Nat.mul_assoc,
        ← Nat.pow_add, hplaces]
    next hbelow =>
      have hplaces :
          (-((product.2 : Int) + x.exponent)).toNat + product.2 = (-x.exponent).toNat := by
        omega
      rw [ceilDiv_le_iff (Nat.two_pow_pos _), ← Nat.mul_le_mul_right_iff (Nat.two_pow_pos product.2),
        Nat.mul_assoc, ← Nat.pow_add, hplaces]
  rw [Nat.max_le, min_le_iff, hwhole]

theorem rank_le {total : Nat} {x : Binary64} (hx : x.IsFraction) (hpos : 0 < total)
    (hlt : total < 2 ^ 53) : rank total x ≤ total := by
  refine (rank_le_iff hx.exponent_le).2 ⟨hpos, .inl ?_⟩
  rw [Binary64.roundNat_of_lt hlt]
  exact Binary64.round_le hlt (Nat.mul_le_mul_left total hx.significand_le)

/-! ## Percentiles -/

/-- The bin of the value of a rank is the first at which the counts reach the rank. -/
theorem firstReaching_bins {values : List Nat} {t v : Nat} (ht : 1 ≤ t)
    (hv : smallest? values t = some v) :
    firstReaching t 0 0 (ofList values).bins.toList = some (binOf v : Nat) := by
  obtain ⟨hi, hget⟩ := List.getElem?_eq_some_iff.1 hv
  -- how many values lie in the first bins is told by whether `v` is one of them
  have hfront (j : Nat) (hj : j ≤ binCount) :
      t ≤ ((ofList values).bins.toList.take j).sum ↔ (binOf v : Nat) < j := by
    have hdown (a b : Nat) (hab : a ≤ b) (hb : decide ((binOf b : Nat) < j)) :
        decide ((binOf a : Nat) < j) := by
      simp only [decide_eq_true_eq] at hb ⊢
      exact (binOf_mono hab).trans_lt hb
    have hcount := lt_countP_iff (List.pairwise_mergeSort' (· ≤ ·) values) hdown hi
    rw [(List.mergeSort_perm values _).countP_eq, hget, decide_eq_true_eq] at hcount
    rw [sum_take_bins values hj, ← hcount]
    omega
  have hbin : (binOf v : Nat) < binCount := (binOf v).isLt
  have hbelow : 0 + ((ofList values).bins.toList.take (binOf v)).sum < t := by
    rw [Nat.zero_add, ← Nat.not_le, hfront _ hbin.le]
    exact lt_irrefl _
  have hreach : t ≤ 0 + ((ofList values).bins.toList.take (binOf v + 1)).sum := by
    rw [Nat.zero_add, hfront _ hbin]
    exact Nat.lt_succ_self _
  rw [firstReaching_eq (by simp) hbelow hreach, Nat.zero_add]

theorem percentile_eq {values : List Nat} (hpos : 0 < values.length)
    (hlt : values.length < 2 ^ 53) {p : Float} (hzero : 0 ≤ p) (hone : p ≤ 1) :
    ∃ t v, rankOf? values.length p = some t ∧ 1 ≤ t ∧ t ≤ values.length ∧
      smallest? values t = some v ∧
      (ofList values).percentile p = .ok (some (lowerBound (binOf v))) := by
  obtain ⟨x, hx, hfraction⟩ := Binary64.exists_isFraction hzero hone
  have hge : 1 ≤ rank values.length x := one_le_rank values.length x
  have hle : rank values.length x ≤ values.length := rank_le hfraction hpos hlt
  have hi : rank values.length x - 1 < (values.mergeSort (· ≤ ·)).length := by
    rw [List.length_mergeSort]
    omega
  have ht : rankOf? values.length p = some (rank values.length x) := by
    rw [rankOf?, hx]
    rfl
  have hv : smallest? values (rank values.length x)
      = some (values.mergeSort (· ≤ ·))[rank values.length x - 1] :=
    List.getElem?_eq_getElem hi
  refine ⟨_, _, ht, hge, hle, hv, ?_⟩
  have hrange : (p < 0 || 1 < p) = false := by
    simp [Binary64.float_not_lt_of_le hzero, Binary64.float_not_lt_of_le hone]
  have htotal : (ofList values).bins.toList.foldl (· + ·) 0 = values.length := by
    rw [← List.sum_eq_foldl, sum_bins]
  have hlength : (ofList values).bins.toList.length = binCount := by simp
  have hfirst := firstReaching_bins hge hv
  simp [percentile, percentileOf, hx, hrange, htotal, hlength, hfirst, hpos.ne']

theorem percentile_brackets {values : List Nat} (hne : values ≠ []) (hlt : values.length < 2 ^ 53)
    {p : Float} (hzero : 0 ≤ p) (hone : p ≤ 1) :
    ∃ t v, rankOf? values.length p = some t ∧ 1 ≤ t ∧ t ≤ values.length ∧
      smallest? values t = some v ∧
      (ofList values).percentile p = .ok (some (lowerBound (binOf v))) ∧
      Brackets (lowerBound (binOf v)) v ∧
      ∀ q t' bound, 0 ≤ q → q ≤ 1 → rankOf? values.length q = some t' →
        (ofList values).percentile q = .ok (some bound) → t ≤ t' → lowerBound (binOf v) ≤ bound := by
  have hpos : 0 < values.length := List.length_pos_iff.2 hne
  obtain ⟨t, v, ht, hge, hle, hv, hp⟩ := percentile_eq hpos hlt hzero hone
  refine ⟨t, v, ht, hge, hle, hv, hp, brackets_binOf v, ?_⟩
  intro q t' bound hzero' hone' ht' hq htt
  obtain ⟨u, v', hu, -, -, hv', hq'⟩ := percentile_eq hpos hlt hzero' hone'
  obtain rfl : u = t' := by simpa [hu] using ht'
  obtain rfl : lowerBound (binOf v') = bound := by simpa [hq'] using hq
  exact lowerBound_mono (binOf_mono (smallest?_mono htt hv hv'))

/-- The median of five values is the third of them, which the answer is below by less than a
factor of two. -/
theorem percentile_brackets_median :
    rankOf? 5 0.5 = some 3 ∧ smallest? [5, 0, 3, 2 ^ 30, 7] 3 = some 5 ∧
      (ofList [5, 0, 3, 2 ^ 30, 7]).percentile 0.5 = .ok (some 4) ∧ Brackets 4 5 := by
  have hrank : rankOf? 5 0.5 = some 3 := by decide
  have hmedian : smallest? [5, 0, 3, 2 ^ 30, 7] 3 = some 5 := by cbv
  obtain ⟨t, v, ht, -, -, hv, hp, hbrackets, -⟩ :=
    percentile_brackets (List.cons_ne_nil 5 [0, 3, 2 ^ 30, 7]) (by decide) (p := 0.5)
      (by decide) (by decide)
  obtain rfl : 3 = t := by simpa [hrank] using ht
  obtain rfl : 5 = v := by simpa [hmedian] using hv
  have hbound : lowerBound (binOf 5) = 4 := by decide
  rw [hbound] at hp hbrackets
  exact ⟨hrank, hmedian, hp, hbrackets⟩

end Histogram

end BlockLedger
