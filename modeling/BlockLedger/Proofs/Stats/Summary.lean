import BlockLedger.Proofs.Stats.Percentile
import BlockLedger.Proofs.Wire.Record

/-
# What a histogram tells of its values

A bin counts the values that have the same number of bits, so it stands for a range between two
powers of two.  Together the bins account for every value.  The sum of the values is told as long as
it fits into a word, and so are the least and the greatest of them.

A value adds its part to each of these whatever came before it, so the order of the values is of no
account, and what counts for a histogram that is reset now and then are the values since the last
time.
-/

namespace BlockLedger

namespace Histogram

/-! ## Bins as ranges -/

theorem binOf_le_iff {v i : Nat} (hi : i < 31) : (binOf v : Nat) ≤ i ↔ v < 2 ^ i := by
  rw [val_binOf, ← bitLength_le_iff]
  omega

theorem binOf_eq_zero_iff {v : Nat} : (binOf v : Nat) = 0 ↔ v = 0 := by
  rw [← Nat.le_zero, binOf_le_iff (by decide)]
  exact Nat.lt_one_iff

theorem binOf_eq_iff {v i : Nat} (hone : 1 ≤ i) (hi : i ≤ 30) :
    (binOf v : Nat) = i ↔ 2 ^ (i - 1) ≤ v ∧ v < 2 ^ i := by
  rw [← Nat.not_lt, ← binOf_le_iff (by omega), ← binOf_le_iff (by omega)]
  omega

theorem binOf_eq_last_iff {v : Nat} : (binOf v : Nat) = 31 ↔ 2 ^ 30 ≤ v := by
  have hle : (binOf v : Nat) ≤ 31 := Nat.le_of_lt_succ (binOf v).isLt
  rw [← Nat.not_lt, ← binOf_le_iff (by decide)]
  omega

/-- The zeros before its highest bit tell how many bits a word has. -/
theorem bitLength_toNat (v : UInt64) : bitLength v.toNat = 64 - v.toBitVec.clz.toNat := by
  refine le_antisymm (bitLength_le_iff.2 BitVec.toNat_lt_two_pow_sub_clz) ?_
  by_cases hv : v.toBitVec = 0#64
  · rw [BitVec.clz_eq_iff_eq_zero.2 hv]
    exact Nat.zero_le _
  · -- the bit below the leading zeros is set
    have hlower := BitVec.two_pow_sub_clz_le_toNat_of_ne_zero (by decide) hv
    have hlength : ¬bitLength v.toNat ≤ 64 - 1 - v.toBitVec.clz.toNat := by
      rw [bitLength_le_iff]
      exact Nat.not_lt.2 hlower
    omega

theorem bins_ofList (values : List Nat) {i : Nat} (hi : i < binCount) :
    (ofList values).bins[i]? = some (values.countP fun v => (binOf v : Nat) = i) := by
  rw [Vector.getElem?_eq_getElem hi]
  simpa [Vector.get, Fin.ext_iff] using ofList_bins values ⟨i, hi⟩

/-! ## Sums and extremes -/

theorem count_ofList (values : List Nat) : (ofList values).count = values.length := by
  induction values using List.reverseRecOn with
  | nil => rfl
  | append_singleton values v ih =>
    have hstep : (ofList (values ++ [v])).count = (ofList values).count + 1 := by
      rw [ofList_concat, record]
    rw [hstep, ih, List.length_append, List.length_singleton]

/-- A sum that has reached the ceiling stays there. -/
theorem total_ofList (values : List Nat) : (ofList values).total = min values.sum ceiling := by
  induction values using List.reverseRecOn with
  | nil => rfl
  | append_singleton values v ih =>
    have hstep : (ofList (values ++ [v])).total = min ((ofList values).total + v) ceiling := by
      rw [ofList_concat, record]
    rw [hstep, ih, List.sum_append, List.sum_singleton]
    omega

theorem least_foldl_record (values : List Nat) (h : Histogram) :
    (values.foldl record h).least = values.foldl min h.least := by
  induction values generalizing h with
  | nil => rfl
  | cons v values ih => exact ih (h.record v)

theorem greatest_foldl_record (values : List Nat) (h : Histogram) :
    (values.foldl record h).greatest = values.foldl max h.greatest := by
  induction values generalizing h with
  | nil => rfl
  | cons v values ih => exact ih (h.record v)

theorem least_eq_min (values : List Nat) :
    (ofList values).least = min ceiling (values.min?.getD ceiling) := by
  rw [ofList, least_foldl_record, List.foldl_min]
  rfl

theorem greatest_ofList (values : List Nat) :
    (ofList values).greatest = values.max?.getD 0 := by
  rw [ofList, greatest_foldl_record, List.foldl_max]
  exact Nat.zero_max _

section Words

variable {values : List Nat} (hvalues : ∀ v ∈ values, v ≤ ceiling)
include hvalues

theorem least_ofList : (ofList values).least = values.min?.getD ceiling := by
  rw [least_eq_min]
  cases hmin : values.min? with
  | none => rfl
  | some v => exact Nat.min_eq_right (hvalues v (List.min?_mem hmin))

theorem least?_ofList : (ofList values).least? = values.min? := by
  rw [least?, isEmpty, count_ofList, least_ofList hvalues]
  cases values with
  | nil => rfl
  | cons v values =>
    rw [List.min?_cons']
    rfl

/-- As long as the number of values fits into a word, all numbers do. -/
theorem fits_ofList (hlength : values.length < 2 ^ 64) : (ofList values).Fits where
  bins n hn := by
    have hle : n ≤ (ofList values).bins.toList.sum := List.le_sum_of_mem hn
    rw [sum_bins] at hle
    exact Nat.lt_of_le_of_lt hle hlength
  count := (count_ofList values).symm ▸ hlength
  total := by
    rw [total_ofList]
    exact Nat.lt_of_le_of_lt (Nat.min_le_right ..) (by decide)
  least := by
    rw [least_eq_min]
    exact Nat.lt_of_le_of_lt (Nat.min_le_left ..) (by decide)
  greatest := by
    rw [greatest_ofList]
    cases hmax : values.max? with
    | none => decide
    | some v => exact Nat.lt_of_le_of_lt (hvalues v (List.max?_mem hmax)) (by decide)

end Words

/-! ## What is told -/

/-- What a histogram tells of its values. -/
structure Summarizes (h : Histogram) (values : List Nat) : Prop where
  zeros : h.bins[0]? = some (values.count 0)
  between : ∀ i, 1 ≤ i → i ≤ 30 →
    h.bins[i]? = some (values.countP fun v => 2 ^ (i - 1) ≤ v ∧ v < 2 ^ i)
  beyond : h.bins[31]? = some (values.countP (2 ^ 30 ≤ ·))
  count : h.count = values.length
  sum_bins : h.bins.sum = h.count
  total : h.total = min values.sum (2 ^ 64 - 1)
  /-- The least value, if there is one. -/
  least? : h.least? = values.min?
  least : h.least = values.min?.getD (2 ^ 64 - 1)
  greatest : h.greatest = values.max?.getD 0

theorem summarizes_ofList {values : List Nat} (hvalues : ∀ v ∈ values, v ≤ ceiling) :
    (ofList values).Summarizes values where
  zeros := by
    rw [bins_ofList values (by decide), List.count_eq_countP]
    simp only [binOf_eq_zero_iff]
    rfl
  between i hone hi := by
    rw [bins_ofList values (Nat.lt_of_le_of_lt hi (by decide))]
    simp only [binOf_eq_iff hone hi]
  beyond := by
    rw [bins_ofList values (by decide)]
    simp only [binOf_eq_last_iff]
  count := count_ofList values
  sum_bins := by rw [← Vector.sum_toList, sum_bins, count_ofList]
  total := total_ofList values
  least? := least?_ofList hvalues
  least := least_ofList hvalues
  greatest := greatest_ofList values

/-! ## The order of the values -/

theorem record_right_comm (h : Histogram) (v w : Nat) :
    (h.record v).record w = (h.record w).record v := by
  rw [Histogram.mk.injEq]
  refine ⟨Vector.ext fun i hi => ?tallies, rfl, ?sums, min_right_comm .., max_right_comm ..⟩
  case tallies =>
    have hleft := record_bins (h.record v) w ⟨i, hi⟩
    have hright := record_bins (h.record w) v ⟨i, hi⟩
    rw [record_bins h v] at hleft
    rw [record_bins h w] at hright
    exact hleft.trans ((Nat.add_right_comm ..).trans hright.symm)
  case sums =>
    simp only [record]
    omega

instance : RightCommutative record := ⟨record_right_comm⟩

theorem ofList_perm {values others : List Nat} (h : values.Perm others) :
    ofList values = ofList others := h.foldl_eq empty

/-! ## Histograms that are reset -/

/-- What happens to a histogram. -/
inductive Change where
  | record (us : UInt64)
  /-- It is empty from now on, as at the start of a period. -/
  | reset

/-- Carries out a change. -/
def change (h : Histogram) : Change → Histogram
  | .record us => h.record us.toNat
  | .reset => empty

/-- An empty histogram after some changes. -/
def after (changes : List Change) : Histogram := changes.foldl change empty

/-- The values that a change leaves to be told of. -/
def Change.keep (values : List UInt64) : Change → List UInt64
  | record us => values ++ [us]
  | reset => []

/-- The values since the latest reset. -/
def sinceReset (changes : List Change) : List UInt64 := changes.foldl Change.keep []

theorem change_ofList (values : List UInt64) (c : Change) :
    (ofList (values.map UInt64.toNat)).change c = ofList ((c.keep values).map UInt64.toNat) := by
  cases c with
  | record us =>
    rw [Change.keep, List.map_append]
    exact (ofList_concat _ us.toNat).symm
  | reset => rfl

theorem after_eq (changes : List Change) :
    after changes = ofList ((sinceReset changes).map UInt64.toNat) := by
  -- values may stand in the histogram already
  have hrun : ∀ values, changes.foldl change (ofList (values.map UInt64.toNat)) =
      ofList ((changes.foldl Change.keep values).map UInt64.toNat) := by
    induction changes with
    | nil => exact fun _ => rfl
    | cons c changes ih =>
      intro values
      rw [List.foldl_cons, change_ofList, ih, List.foldl_cons]
  exact hrun []

/-- A histogram tells faithfully of the values since its latest reset, in whatever order they came,
and all its numbers fit into words if their number does.  The bin of a value is found by looking for
its highest bit. -/
theorem tells_values (changes : List Change) :
    let values := (sinceReset changes).map UInt64.toNat
    (after changes).Summarizes values ∧
      (∀ others, (sinceReset others).Perm (sinceReset changes) → after others = after changes) ∧
      (values.length < 2 ^ 64 → (after changes).Fits) ∧
      ∀ us : UInt64, (binOf us.toNat : Nat) = min (64 - us.toBitVec.clz.toNat) 31 := by
  intro values
  have hvalues : ∀ v ∈ values, v ≤ ceiling := by
    intro v hv
    obtain ⟨us, -, rfl⟩ := List.mem_map.1 hv
    exact Nat.le_of_lt_succ us.toNat_lt
  rw [after_eq changes]
  refine ⟨summarizes_ofList hvalues, fun others hperm => ?_, fits_ofList hvalues, fun us => ?_⟩
  · rw [after_eq others]
    exact ofList_perm (hperm.map _)
  · rw [val_binOf, bitLength_toNat]

/-- What came before a reset is forgotten, and the sum of what came after it stops at the ceiling,
with the greatest word first as well as last. -/
theorem tells_saturated :
    let changes := [.record 9, .reset, .record 5, .record 2, .record 0xFFFFFFFFFFFFFFFF]
    let others := [.record 0xFFFFFFFFFFFFFFFF, .record 2, .record 5]
    (sinceReset others).Perm (sinceReset changes) ∧ after others = after changes ∧
      (after changes).count = 3 ∧ (after changes).bins[3]? = some 1 ∧
      (after changes).total = 2 ^ 64 - 1 ∧ (after changes).least? = some 2 ∧
      (after changes).greatest = 2 ^ 64 - 1 ∧ (after changes).Fits := by
  intro changes others
  have hperm : (sinceReset others).Perm (sinceReset changes) := by decide
  have hvalues : (sinceReset changes).map UInt64.toNat = [5, 2, 2 ^ 64 - 1] := by decide
  obtain ⟨htells, horder, hfits, -⟩ := tells_values changes
  rw [hvalues] at htells
  refine ⟨hperm, horder others hperm, htells.count, ?_, ?_, ?_, ?_, hfits (by decide)⟩
  · exact (htells.between 3 (by decide) (by decide)).trans (by decide)
  · exact htells.total.trans (by decide)
  · exact htells.least?.trans (by decide)
  · exact htells.greatest.trans (by decide)

end Histogram

end BlockLedger
