import Mathlib.Algebra.Order.BigOperators.Group.List
import Mathlib.Algebra.Order.Ring.Rat
import Mathlib.Data.Nat.Cast.Order.Field
import Mathlib.Tactic.FieldSimp
import Mathlib.Tactic.Ring
import BlockLedger.Proofs.Cluster.Redirection

/-
# The textbook formulas

The recursion that keeps the moments of a sequence is the same over any numbers.  Over the rationals,
where nothing is rounded, its three fields stand for three sums: how many numbers there were, what
they add up to, and what their squares add up to.  Each new number adds its part to each of them, so
that the fields are given by the textbook formulas and the order of the numbers is of no account.

That is so from any state on, and so it does not matter either in which order the open runs of
several forks come to the entry that they are recorded in together.
-/

namespace BlockLedger

instance : Scalar ℚ where
  ofCount n := n

namespace Moments

/-! ## The three sums -/

section Sums

variable (m : Moments ℚ)

/-- What the numbers add up to. -/
def total : ℚ := m.count * m.mean

/-- What the squares of the numbers add up to. -/
def power : ℚ := m.squares + m.count * m.mean ^ 2

theorem mean_record (x : ℚ) : (m.record x).mean = m.mean + (x - m.mean) / (m.count + 1) := by
  show m.mean + (x - m.mean) / ((m.count + 1 : ℕ) : ℚ) = _
  rw [Nat.cast_add_one]

theorem squares_record (x : ℚ) :
    (m.record x).squares = m.squares + (x - m.mean) * (x - (m.record x).mean) := rfl

theorem total_record (x : ℚ) : (m.record x).total = m.total + x := by
  have hcount : (m.count : ℚ) + 1 ≠ 0 := Nat.cast_add_one_ne_zero m.count
  rw [total, total, mean_record, record_count, Nat.cast_add_one]
  field_simp
  ring

theorem power_record (x : ℚ) : (m.record x).power = m.power + x ^ 2 := by
  have hcount : (m.count : ℚ) + 1 ≠ 0 := Nat.cast_add_one_ne_zero m.count
  rw [power, power, squares_record, mean_record, record_count, Nat.cast_add_one]
  field_simp
  ring

end Sums

/-- Where there was a number, the three sums tell the moments. -/
theorem eq_of_sums {m n : Moments ℚ} (hpos : m.count ≠ 0) (hcount : m.count = n.count)
    (htotal : m.total = n.total) (hpower : m.power = n.power) : m = n := by
  have hcast : (m.count : ℚ) ≠ 0 := Nat.cast_ne_zero.2 hpos
  have hmean : m.mean = n.mean := by
    rw [total, total, ← hcount] at htotal
    exact mul_left_cancel₀ hcast htotal
  have hsquares : m.squares = n.squares := by
    rw [power, power, ← hcount, ← hmean] at hpower
    exact add_right_cancel hpower
  cases m
  cases n
  simp_all

/-- Two numbers may come in either order. -/
theorem record_right_comm (m : Moments ℚ) (x y : ℚ) :
    (m.record x).record y = (m.record y).record x := by
  refine eq_of_sums (Nat.succ_ne_zero _) rfl ?_ ?_
  · rw [total_record, total_record, total_record, total_record]
    exact add_right_comm ..
  · rw [power_record, power_record, power_record, power_record]
    exact add_right_comm ..

/-! ## The moments of a list -/

section Lists

variable {α : Type} [Scalar α]

theorem foldl_record_count (xs : List α) (m : Moments α) :
    (xs.foldl record m).count = m.count + xs.length := by
  induction xs generalizing m with
  | nil => rfl
  | cons x xs ih =>
    rw [List.foldl_cons, ih, record_count, List.length_cons]
    omega

theorem count_ofList (xs : List α) : (ofList xs).count = xs.length := by
  rw [ofList, foldl_record_count, empty_count, Nat.zero_add]

end Lists

theorem total_foldl_record (xs : List ℚ) (m : Moments ℚ) :
    (xs.foldl record m).total = m.total + xs.sum := by
  induction xs generalizing m with
  | nil => exact (add_zero _).symm
  | cons x xs ih => rw [List.foldl_cons, ih, total_record, List.sum_cons, add_assoc]

theorem power_foldl_record (xs : List ℚ) (m : Moments ℚ) :
    (xs.foldl record m).power = m.power + (xs.map (· ^ 2)).sum := by
  induction xs generalizing m with
  | nil => exact (add_zero _).symm
  | cons x xs ih =>
    rw [List.foldl_cons, ih, power_record, List.map_cons, List.sum_cons, add_assoc]

theorem sum_sq_deviations (xs : List ℚ) (c : ℚ) :
    (xs.map fun x => (x - c) ^ 2).sum =
      (xs.map (· ^ 2)).sum - 2 * c * xs.sum + xs.length * c ^ 2 := by
  induction xs with
  | nil => simp
  | cons x xs ih =>
    simp only [List.map_cons, List.sum_cons, ih, List.length_cons, Nat.cast_add_one]
    ring

theorem mean_ofList (xs : List ℚ) : (ofList xs).mean = xs.sum / xs.length := by
  cases xs with
  | nil => simp [ofList, empty]
  | cons x xs =>
    have hlength : ((x :: xs).length : ℚ) ≠ 0 := Nat.cast_ne_zero.2 (Nat.succ_ne_zero _)
    have htotal : (ofList (x :: xs)).total = (x :: xs).sum := by
      rw [ofList, total_foldl_record]
      simp [total, empty]
    rw [total, count_ofList] at htotal
    rw [eq_div_iff hlength, mul_comm, htotal]

theorem squares_ofList (xs : List ℚ) :
    (ofList xs).squares = (xs.map fun x => (x - (ofList xs).mean) ^ 2).sum := by
  cases xs with
  | nil => rfl
  | cons x xs =>
    have hlength : ((x :: xs).length : ℚ) ≠ 0 := Nat.cast_ne_zero.2 (Nat.succ_ne_zero _)
    have hsum : (x :: xs).sum = (x :: xs).length * (ofList (x :: xs)).mean := by
      rw [mean_ofList, mul_div_cancel₀ _ hlength]
    have hpower : (ofList (x :: xs)).power = ((x :: xs).map (· ^ 2)).sum := by
      rw [ofList, power_foldl_record]
      simp [power, empty]
    rw [power, count_ofList] at hpower
    rw [sum_sq_deviations, ← hpower, hsum]
    ring

theorem variance_ofList {xs : List ℚ} (h : 2 ≤ xs.length) :
    (ofList xs).variance =
      (xs.map fun x => (x - (ofList xs).mean) ^ 2).sum / ((xs.length : ℚ) - 1) := by
  have hpred : ((xs.length - 1 : ℕ) : ℚ) = (xs.length : ℚ) - 1 := Nat.cast_pred (by omega)
  rw [variance, count_ofList, if_neg (by omega), squares_ofList, ← hpred]
  rfl

instance : RightCommutative (record : Moments ℚ → ℚ → Moments ℚ) := ⟨record_right_comm⟩

theorem ofList_perm {xs ys : List ℚ} (h : xs.Perm ys) : ofList xs = ofList ys := h.foldl_eq empty

/-! ## Open runs that are recorded in one entry -/

section Recorded

variable {α : Type} [Scalar α]

/-- Takes in the lengths of runs, of which 0 stands for none. -/
def recordRuns (m : Moments α) (lengths : List Nat) : Moments α :=
  ((lengths.filter (· ≠ 0)).map Scalar.ofCount).foldl record m

theorem recordRuns_perm (m : Moments ℚ) {ms ns : List Nat} (h : ms.Perm ns) :
    m.recordRuns ms = m.recordRuns ns :=
  ((h.filter _).map _).foldl_eq m

end Recorded

end Moments

/-- The run lengths of traffic are kept by the same recursion, over doubles. -/
theorem Traffic.runs_foldl_endRun (t : Traffic) (lengths : List Nat) :
    (lengths.foldl Traffic.endRun t).runs = t.runs.recordRuns lengths := by
  induction lengths generalizing t with
  | nil => rfl
  | cons n lengths ih =>
    rw [List.foldl_cons, ih, Traffic.endRun]
    split
    · rename_i hn
      simp [Moments.recordRuns, hn]
    · rename_i hn
      simp only [Moments.recordRuns, ne_eq, hn, not_false_eq_true, decide_true,
        List.filter_cons_of_pos, List.map_cons, List.foldl_cons]
      rfl

/-- The lengths of the runs in a list that are recorded under a key in a direction. -/
def EndedRun.blocksUnder (k : Key) (d : Direction) (rs : List EndedRun) : List Nat :=
  (rs.filter fun r => r.key = k ∧ r.direction = d).map EndedRun.blocks

/-- A backend that hands out its open runs records them one after the other. -/
theorem Backend.traffic_flushRuns (b : Backend) (l : Ledger) (k : Key) (d : Direction) :
    ((b.flushRuns l).2.2.store.traffic k d).runs =
      (l.store.traffic k d).runs.recordRuns (EndedRun.blocksUnder k d (b.lateRuns l)) := by
  rw [(b.flushRuns_moves l).path.traffic_ended k d, Traffic.runs_foldl_endRun]
  rfl

namespace Moments

/-- Over the rationals the moments of a list are those of the textbook, and the list may be in any
order.  Nor does the order matter in which a backend hands out its open runs: what it records under a
key is what the recursion makes of their lengths, which over the rationals is the same in any
order. -/
theorem textbook (xs : List ℚ) (b : Backend) (l : Ledger) (k : Key) (d : Direction) :
    let m := ofList xs
    let squaredDeviations := (xs.map fun x => (x - m.mean) ^ 2).sum
    (m.count = xs.length ∧ m.mean = xs.sum / xs.length ∧ m.squares = squaredDeviations ∧
      0 ≤ m.squares ∧ (2 ≤ xs.length → m.variance = squaredDeviations / (xs.length - 1)) ∧
      ∀ ys, xs.Perm ys → ofList ys = m) ∧
    ((b.flushRuns l).2.2.store.traffic k d).runs =
      (l.store.traffic k d).runs.recordRuns (EndedRun.blocksUnder k d (b.lateRuns l)) ∧
    ∀ order, order.Perm (b.lateRuns l) → ∀ before : Moments ℚ,
      before.recordRuns (EndedRun.blocksUnder k d order) =
        before.recordRuns (EndedRun.blocksUnder k d (b.lateRuns l)) := by
  intro m squaredDeviations
  have hsquares : m.squares = squaredDeviations := squares_ofList xs
  have hnonneg : 0 ≤ squaredDeviations := by
    refine List.sum_nonneg fun y hy => ?_
    obtain ⟨x, -, rfl⟩ := List.mem_map.mp hy
    exact sq_nonneg _
  refine ⟨⟨count_ofList xs, mean_ofList xs, hsquares, hsquares ▸ hnonneg, variance_ofList,
    fun ys hperm => (ofList_perm hperm).symm⟩, b.traffic_flushRuns l k d,
    fun order hperm before => before.recordRuns_perm ((hperm.filter _).map _)⟩

/-- A backend that has read two forks of one database, which are both recorded with its temporary
relations: one for two blocks and the other one for three. -/
def twoForks : Backend :=
  { Backend.new {} 1 with
    runs := ⟨.ofList
      [(⟨⟨1663, 5, 16400⟩, .main⟩, { reads := ⟨some 1, 2⟩, account := some (.temporaries 5) }),
        (⟨⟨1663, 5, 16401⟩, .main⟩, { reads := ⟨some 2, 3⟩, account := some (.temporaries 5) })]⟩ }

/-- The moments of the numbers from one to five, forwards and backwards, and of two runs. -/
theorem textbook_one_to_five :
    let numbers : List ℚ := [1, 2, 3, 4, 5]
    let l : Ledger := { store := (({} : Store).ensure (.temporaries 5)).1 }
    let recorded := EndedRun.blocksUnder (.temporaries 5) .read
    (ofList numbers).mean = 3 ∧ (ofList numbers).variance = 5 / 2 ∧
      ofList numbers.reverse = ofList numbers ∧
      (empty : Moments ℚ).recordRuns (recorded (twoForks.lateRuns l).reverse) =
        (empty : Moments ℚ).recordRuns (recorded (twoForks.lateRuns l)) := by
  intro numbers l recorded
  obtain ⟨⟨-, hmean, -, -, hvariance, hperm⟩, -, horder⟩ :=
    textbook numbers twoForks l (.temporaries 5) .read
  have hthree : (ofList numbers).mean = 3 := by
    rw [hmean]
    norm_num [numbers]
  refine ⟨hthree, ?_, hperm _ (List.reverse_perm numbers).symm,
    horder _ (List.reverse_perm _) empty⟩
  rw [hvariance (by decide), hthree]
  norm_num [numbers]

end Moments

end BlockLedger
