import BlockLedger.Entry
import Mathlib.Algebra.BigOperators.Group.List.Basic
import Mathlib.Algebra.GroupWithZero.Nat
import Mathlib.Algebra.Order.BigOperators.Group.List
import Mathlib.Algebra.Order.Group.Nat
import Mathlib.Data.Finset.Card
import Mathlib.Data.Finset.Dedup

/-
# Active seconds over the life of an entry

A reset clears the number of active seconds and keeps the last of them.  So a second in which one
period ends and a later one begins is counted in the first of the two only, and all periods together
count every second once, just as if there had been no reset.  What a single period lacks is at most
its first second.

The number of active seconds is a word of 32 bits.  A period that has more of them than the word
holds is told short by whole multiples of it, unless the program looks out for that and crashes.
-/

namespace BlockLedger

namespace Entry

/-- Notes activity at one time after the other. -/
def touchAll (e : Entry) (times : List Int) : Entry := times.foldl touch e

/-- The number of active seconds at the end of every period, each of which is a row of touches.
Between two periods there is a reset, and the last period still goes on. -/
def counts (e : Entry) : List (List Int) → List Nat
  | [] => []
  | period :: later =>
    (e.touchAll period).activeSeconds :: (e.touchAll period).reset.counts later

/-- Notes activity as a program does that looks out for numbers that leave their words: `none` if it
crashes. -/
def touch? (e : Entry) (now : Int) : Option Entry :=
  if secondOf now ≠ e.lastActiveSecond ∧ 2 ^ 32 ≤ e.activeSeconds + 1 then none
  else some (e.touch now)

/-- What such a program counts in every period. -/
def counts? (e : Entry) : List (List Int) → Option (List Nat)
  | [] => some []
  | period :: later => do
    let e ← period.foldlM touch? e
    let ns ← e.reset.counts? later
    return e.activeSeconds :: ns

/-- The seconds that some times lie in. -/
def seconds (times : List Int) : Finset Int := (times.map secondOf).toFinset

theorem secondOf_mono {t u : Int} (h : t ≤ u) : secondOf t ≤ secondOf u := by
  rw [secondOf, secondOf, Int.fdiv_eq_ediv_of_nonneg _ (by decide),
    Int.fdiv_eq_ediv_of_nonneg _ (by decide)]
  exact Int.ediv_le_ediv (by decide) h

theorem mem_seconds {times : List Int} {s : Int} :
    s ∈ seconds times ↔ ∃ t ∈ times, secondOf t = s := by
  rw [seconds, List.mem_toFinset, List.mem_map]

/-! ## What a row of touches adds -/

/-- The last second of a row of touches that comes after a second. -/
def lastSecond (last : Int) (times : List Int) : Int := (times.getLast?.map secondOf).getD last

/-- How many active seconds are added by a row of touches that comes after a second. -/
def gained (last : Int) : List Int → Nat
  | [] => 0
  | t :: rest => (if secondOf t = last then 0 else 1) + gained (secondOf t) rest

theorem lastSecond_of_getLast? {last w : Int} {times : List Int} (h : times.getLast? = some w) :
    lastSecond last times = secondOf w := by
  rw [lastSecond, h]
  rfl

theorem le_of_getLast? {t w : Int} {times : List Int} (hsorted : times.Pairwise (· ≤ ·))
    (hw : times.getLast? = some w) (ht : t ∈ times) : t ≤ w := by
  obtain ⟨before, rfl⟩ := List.getLast?_eq_some_iff.mp hw
  rcases List.mem_append.mp ht with h | h
  · exact (List.pairwise_append.mp hsorted).2.2 t h w (List.mem_singleton_self w)
  · rw [List.mem_singleton.mp h]

theorem lastSecond_cons (last t : Int) (rest : List Int) :
    lastSecond last (t :: rest) = lastSecond (secondOf t) rest := by
  rw [lastSecond, lastSecond, List.getLast?_cons]
  cases rest.getLast? <;> rfl

theorem lastSecond_append (last : Int) (times times' : List Int) :
    lastSecond last (times ++ times') = lastSecond (lastSecond last times) times' := by
  rw [lastSecond, lastSecond, lastSecond, List.getLast?_append]
  cases times'.getLast? <;> rfl

theorem gained_append (last : Int) (times times' : List Int) :
    gained last (times ++ times') = gained last times + gained (lastSecond last times) times' := by
  induction times generalizing last with
  | nil => exact (Nat.zero_add _).symm
  | cons t rest ih => rw [List.cons_append, gained, gained, ih, lastSecond_cons, Nat.add_assoc]

theorem lastActiveSecond_touchAll (e : Entry) (times : List Int) :
    (e.touchAll times).lastActiveSecond = lastSecond e.lastActiveSecond times := by
  induction times generalizing e with
  | nil => rfl
  | cons t rest ih =>
    rw [lastSecond_cons]
    exact ih (e.touch t)

theorem activeSeconds_touch (e : Entry) (now : Int) :
    (e.touch now).activeSeconds =
      if secondOf now = e.lastActiveSecond then e.activeSeconds
      else (e.activeSeconds + 1) % 2 ^ 32 := rfl

theorem activeSeconds_touch_lt {e : Entry} (h : e.activeSeconds < 2 ^ 32) (now : Int) :
    (e.touch now).activeSeconds < 2 ^ 32 := by
  rw [activeSeconds_touch]
  split
  · exact h
  · exact Nat.mod_lt _ (by decide)

/-- What is left of the exact number in a word. -/
theorem activeSeconds_touchAll {e : Entry} (h : e.activeSeconds < 2 ^ 32) (times : List Int) :
    (e.touchAll times).activeSeconds =
      (e.activeSeconds + gained e.lastActiveSecond times) % 2 ^ 32 := by
  induction times generalizing e with
  | nil => exact (Nat.mod_eq_of_lt h).symm
  | cons t rest ih =>
    calc (e.touchAll (t :: rest)).activeSeconds
      _ = ((e.touch t).activeSeconds + gained (secondOf t) rest) % 2 ^ 32 :=
        ih (activeSeconds_touch_lt h t)
      _ = (e.activeSeconds + gained e.lastActiveSecond (t :: rest)) % 2 ^ 32 := by
        rw [activeSeconds_touch, gained]
        split
        · rw [Nat.zero_add]
        · rw [Nat.mod_add_mod, Nat.add_assoc]

/-- If no time goes back every second is added once, but for the one before the first of them. -/
theorem gained_eq_card {last : Int} {times : List Int} (hsorted : times.Pairwise (· ≤ ·))
    (hlast : ∀ t ∈ times, last ≤ secondOf t) :
    gained last times = ((seconds times).erase last).card := by
  induction times generalizing last with
  | nil => rfl
  | cons t rest ih =>
    obtain ⟨hfirst, hrest⟩ := List.pairwise_cons.mp hsorted
    have hcons : seconds (t :: rest) = insert (secondOf t) (seconds rest) := by
      rw [seconds, List.map_cons, List.toFinset_cons, seconds]
    have hmem : secondOf t ∈ insert (secondOf t) (seconds rest) := Finset.mem_insert_self _ _
    rw [gained, ih hrest fun u hu => secondOf_mono (hfirst u hu), hcons,
      ← Finset.erase_insert_eq_erase]
    split
    · rename_i hsame
      rw [hsame, Nat.zero_add]
    · rename_i hother
      -- all seconds lie behind the last one
      have hbehind : last ∉ insert (secondOf t) (seconds rest) := by
        intro h
        rcases Finset.mem_insert.mp h with h | h
        · exact hother h.symm
        · obtain ⟨u, hu, rfl⟩ := mem_seconds.1 h
          have hu' := secondOf_mono (hfirst u hu)
          have ht := hlast t List.mem_cons_self
          omega
      rw [Finset.erase_eq_of_notMem hbehind, Nat.add_comm, Finset.card_erase_add_one hmem]

/-- A program that looks out crashes just if the exact number leaves its word. -/
theorem foldlM_touch? {e : Entry} (h : e.activeSeconds < 2 ^ 32) (times : List Int) :
    times.foldlM touch? e =
      if e.activeSeconds + gained e.lastActiveSecond times < 2 ^ 32 then some (e.touchAll times)
      else none := by
  induction times generalizing e with
  | nil => rw [if_pos (by exact h)]; rfl
  | cons t rest ih =>
    rw [List.foldlM_cons, touch?, gained]
    by_cases hsame : secondOf t = e.lastActiveSecond
    · have hkept : (e.touch t).activeSeconds = e.activeSeconds := by
        rw [activeSeconds_touch, if_pos hsame]
      rw [if_neg fun hover => hover.1 hsame, if_pos hsame, Nat.zero_add, ← hkept]
      exact ih (hkept ▸ h)
    · by_cases hfull : 2 ^ 32 ≤ e.activeSeconds + 1
      · rw [if_pos ⟨hsame, hfull⟩, if_neg hsame, if_neg (by omega)]
        rfl
      · have hmore : (e.touch t).activeSeconds = e.activeSeconds + 1 := by
          rw [activeSeconds_touch, if_neg hsame, Nat.mod_eq_of_lt (Nat.lt_of_not_le hfull)]
        rw [if_neg fun hover => hfull hover.2, if_neg hsame, ← Nat.add_assoc, ← hmore]
        exact ih (activeSeconds_touch_lt h t)

/-! ## Periods -/

/-- How many active seconds every period adds. -/
def gains (last : Int) : List (List Int) → List Nat
  | [] => []
  | period :: later => gained last period :: gains (lastSecond last period) later

/-- All periods together add as much as if there were no resets. -/
theorem sum_gains (last : Int) (periods : List (List Int)) :
    (gains last periods).sum = gained last periods.flatten := by
  induction periods generalizing last with
  | nil => rfl
  | cons period later ih => rw [gains, List.sum_cons, ih, List.flatten_cons, gained_append]

/-- What a period adds depends on the last second before it. -/
theorem getElem?_gains (last : Int) (earlier : List (List Int)) (period : List Int)
    (later : List (List Int)) :
    (gains last (earlier ++ period :: later))[earlier.length]? =
      some (gained (lastSecond last earlier.flatten) period) := by
  induction earlier generalizing last with
  | nil => rfl
  | cons first rest ih =>
    rw [List.flatten_cons, lastSecond_append, ← ih (lastSecond last first)]
    rfl

theorem mem_gains {last : Int} {periods : List (List Int)} {n : Nat} :
    n ∈ gains last periods ↔ ∃ earlier period later, periods = earlier ++ period :: later ∧
      gained (lastSecond last earlier.flatten) period = n := by
  constructor
  · intro hn
    induction periods generalizing last with
    | nil => cases hn
    | cons first rest ih =>
      rcases List.mem_cons.mp hn with rfl | hn
      · exact ⟨[], first, rest, rfl, rfl⟩
      · obtain ⟨earlier, period, later, rfl, hgained⟩ := ih hn
        exact ⟨first :: earlier, period, later, rfl, by
          rw [List.flatten_cons, lastSecond_append, hgained]⟩
  · rintro ⟨earlier, period, later, rfl, rfl⟩
    exact List.mem_of_getElem? (getElem?_gains last earlier period later)

/-- A period counts what it adds, in a word. -/
theorem counts_eq {e : Entry} (h : e.activeSeconds = 0) (periods : List (List Int)) :
    e.counts periods = (gains e.lastActiveSecond periods).map (· % 2 ^ 32) := by
  induction periods generalizing e with
  | nil => rfl
  | cons period later ih =>
    have hreset : (e.touchAll period).reset.lastActiveSecond =
        lastSecond e.lastActiveSecond period := e.lastActiveSecond_touchAll period
    rw [counts, gains, List.map_cons, ih rfl, hreset, activeSeconds_touchAll (by rw [h]; decide), h,
      Nat.zero_add]

/-- A program that looks out tells the same, or crashes in a period that adds too much. -/
theorem counts?_eq {e : Entry} (h : e.activeSeconds = 0) (periods : List (List Int)) :
    e.counts? periods =
      if ∀ n ∈ gains e.lastActiveSecond periods, n < 2 ^ 32 then some (e.counts periods)
      else none := by
  induction periods generalizing e with
  | nil => simp [counts?, counts, gains]
  | cons period later ih =>
    have hreset : (e.touchAll period).reset.lastActiveSecond =
        lastSecond e.lastActiveSecond period := e.lastActiveSecond_touchAll period
    have hperiod := foldlM_touch? (e := e) (by rw [h]; decide) period
    rw [h, Nat.zero_add] at hperiod
    simp only [counts?, hperiod, gains, List.forall_mem_cons]
    by_cases hfits : gained e.lastActiveSecond period < 2 ^ 32
    · rw [if_pos hfits, Option.bind_eq_bind, Option.bind_some, ih rfl, hreset]
      by_cases hlater : ∀ n ∈ gains (lastSecond e.lastActiveSecond period) later, n < 2 ^ 32
      · rw [if_pos hlater, if_pos ⟨hfits, hlater⟩]
        rfl
      · rw [if_neg hlater, if_neg fun hall => hlater hall.2]
        rfl
    · rw [if_neg hfits, if_neg fun hall => hfits hall.1]
      rfl

theorem counts_new (key : Key) (periods : List (List Int)) :
    (new key).counts periods = (gains 0 periods).map (· % 2 ^ 32) :=
  counts_eq rfl periods

theorem counts?_new (key : Key) (periods : List (List Int)) :
    (new key).counts? periods =
      if ∀ n ∈ gains 0 periods, n < 2 ^ 32 then some ((new key).counts periods) else none :=
  counts?_eq rfl periods

/-- A sum of remainders is the sum of the numbers just if all of them are remainders already. -/
theorem sum_map_mod_eq_iff {m : Nat} (ns : List Nat) (hm : 0 < m) :
    (ns.map (· % m)).sum = ns.sum ↔ ∀ n ∈ ns, n < m := by
  induction ns with
  | nil => simp
  | cons n ns ih =>
    have hle : (ns.map (· % m)).sum ≤ (ns.map id).sum :=
      List.sum_le_sum fun n _ => Nat.mod_le n m
    rw [List.map_id] at hle
    have hn := Nat.mod_le n m
    rw [List.map_cons, List.sum_cons, List.sum_cons, List.forall_mem_cons, ← ih,
      ← Nat.mod_eq_iff_lt hm.ne']
    omega

/-- A period begins in the second in which an earlier one ended. -/
def Straddles (earlier : List (List Int)) (period : List Int) : Prop :=
  period ≠ [] ∧ ∃ p ∈ earlier, p.getLast?.map secondOf = period.head?.map secondOf

instance (earlier : List (List Int)) (period : List Int) : Decidable (Straddles earlier period) :=
  inferInstanceAs (Decidable (_ ∧ _))

theorem straddles_iff {earlier : List (List Int)} {period : List Int}
    (hsorted : (earlier.flatten ++ period).Pairwise (· ≤ ·))
    (hpositive : ∀ t ∈ period, 0 < secondOf t) :
    Straddles earlier period ↔ lastSecond 0 earlier.flatten ∈ seconds period := by
  obtain ⟨hearlier, hperiod, horder⟩ := List.pairwise_append.mp hsorted
  cases period with
  | nil => simp [Straddles, seconds]
  | cons first rest =>
    have hbefore : ∀ w, earlier.flatten.getLast? = some w → secondOf w ≤ secondOf first :=
      fun w hw => secondOf_mono (horder w (List.mem_of_getLast? hw) first List.mem_cons_self)
    constructor
    · rintro ⟨-, p, hp, hsame⟩
      obtain ⟨t, ht, hsecond⟩ := Option.map_eq_some_iff.mp hsame
      have hmem : t ∈ earlier.flatten := List.mem_flatten_of_mem hp (List.mem_of_getLast? ht)
      obtain ⟨w, hw⟩ := Option.isSome_iff_exists.mp
        (List.getLast?_isSome.mpr (List.ne_nil_of_mem hmem))
      -- the last touch lies between `t` and the start of the period
      have hlow := secondOf_mono (le_of_getLast? hearlier hw hmem)
      have hhigh := hbefore w hw
      rw [lastSecond_of_getLast? hw]
      exact mem_seconds.2 ⟨first, List.mem_cons_self, by omega⟩
    · intro hmem
      obtain ⟨u, hu, hsecond⟩ := mem_seconds.1 hmem
      cases hlast : earlier.flatten.getLast? with
      | none =>
        rw [lastSecond, hlast] at hsecond
        exact absurd hsecond (hpositive u hu).ne'
      | some w =>
        rw [lastSecond_of_getLast? hlast] at hsecond
        have hlow := hbefore w hlast
        have hhigh : secondOf first ≤ secondOf u := by
          rcases List.mem_cons.mp hu with rfl | hrest
          · exact Int.le_refl _
          · exact secondOf_mono ((List.pairwise_cons.mp hperiod).1 u hrest)
        rw [List.getLast?_flatten] at hlast
        obtain ⟨p, hp, hplast⟩ := List.exists_of_findSome?_eq_some hlast
        refine ⟨List.cons_ne_nil _ _, p, List.mem_reverse.mp hp, ?_⟩
        rw [hplast]
        exact congrArg some (by omega)

/-- Every period has so few seconds that are counted in it that a word holds their number. -/
def SecondsFit (periods : List (List Int)) : Prop :=
  ∀ earlier period later, periods = earlier ++ period :: later →
    (seconds period).card < 2 ^ 32 + if Straddles earlier period then 1 else 0

section Life

variable {periods : List (List Int)} (hsorted : periods.flatten.Pairwise (· ≤ ·))
  (hlate : ∀ t ∈ periods.flatten, 1000000 ≤ t)

include hlate in
theorem secondOf_pos {t : Int} (ht : t ∈ periods.flatten) : 0 < secondOf t :=
  Int.lt_of_lt_of_le (by decide) (secondOf_mono (hlate t ht))

include hsorted hlate in
/-- All seconds are added once. -/
theorem gained_flatten : gained 0 periods.flatten = (seconds periods.flatten).card := by
  rw [gained_eq_card hsorted fun t ht => (secondOf_pos hlate ht).le, Finset.erase_eq_of_notMem]
  intro hzero
  obtain ⟨t, ht, hsecond⟩ := mem_seconds.1 hzero
  exact (secondOf_pos hlate ht).ne' hsecond

include hsorted hlate in
/-- A period adds all its seconds, but for the first one if an earlier period ended in it. -/
theorem gained_period {earlier later : List (List Int)} {period : List Int}
    (hperiods : periods = earlier ++ period :: later) :
    gained (lastSecond 0 earlier.flatten) period + (if Straddles earlier period then 1 else 0) =
      (seconds period).card := by
  subst hperiods
  have hpositive := fun t ht => secondOf_pos hlate (t := t) ht
  rw [List.flatten_append, List.flatten_cons, ← List.append_assoc] at hsorted hpositive
  have hpart := (List.pairwise_append.mp hsorted).1
  obtain ⟨-, hperiod, horder⟩ := List.pairwise_append.mp hpart
  have hstraddles := straddles_iff hpart fun t ht => hpositive t (by simp [ht])
  have hlast : ∀ t ∈ period, lastSecond 0 earlier.flatten ≤ secondOf t := by
    intro t ht
    cases hlast : earlier.flatten.getLast? with
    | none =>
      rw [lastSecond, hlast]
      exact (hpositive t (by simp [ht])).le
    | some w =>
      rw [lastSecond_of_getLast? hlast]
      exact secondOf_mono (horder w (List.mem_of_getLast? hlast) t ht)
  rw [gained_eq_card hperiod hlast, if_congr hstraddles rfl rfl]
  split
  · rename_i hmem
    exact Finset.card_erase_add_one hmem
  · rename_i hmem
    rw [Finset.erase_eq_of_notMem hmem, Nat.add_zero]

include hsorted hlate in
theorem secondsFit_iff : SecondsFit periods ↔ ∀ n ∈ gains 0 periods, n < 2 ^ 32 := by
  constructor
  · rintro hfit n hn
    obtain ⟨earlier, period, later, hperiods, rfl⟩ := mem_gains.mp hn
    have hperiod := gained_period hsorted hlate hperiods
    have hlt := hfit earlier period later hperiods
    omega
  · rintro hall earlier period later hperiods
    have hperiod := gained_period hsorted hlate hperiods
    have hlt := hall _ (mem_gains.mpr ⟨earlier, period, later, hperiods, rfl⟩)
    omega

end Life

/-- Every period counts all its seconds, but for the first one if an earlier period ended in it; what
is told is what is left of their number in a word.  So all periods together count every second once
just if the words hold the numbers of all periods.  If one does not, a program that looks out
crashes, and one that does not tells a sum that lacks multiples of what a word holds. -/
theorem counts_seconds_once (key : Key) (periods : List (List Int))
    (hsorted : periods.flatten.Pairwise (· ≤ ·)) (hlate : ∀ t ∈ periods.flatten, 1000000 ≤ t) :
    (∀ earlier period later, periods = earlier ++ period :: later →
      ∃ n, n + (if Straddles earlier period then 1 else 0) = (seconds period).card ∧
        ((new key).counts periods)[earlier.length]? = some (n % 2 ^ 32)) ∧
    (((new key).counts periods).sum = (seconds periods.flatten).card ↔ SecondsFit periods) ∧
    ((new key).counts periods).sum % 2 ^ 32 = (seconds periods.flatten).card % 2 ^ 32 ∧
    ∀ ns, (new key).counts? periods = some ns ↔
      SecondsFit periods ∧ ns = (new key).counts periods := by
  have hsum : (gains 0 periods).sum = (seconds periods.flatten).card :=
    (sum_gains 0 periods).trans (gained_flatten hsorted hlate)
  refine ⟨?_, ?_, ?_, fun ns => ?_⟩
  · intro earlier period later hperiods
    refine ⟨_, gained_period hsorted hlate hperiods, ?_⟩
    rw [counts_new, List.getElem?_map, hperiods, getElem?_gains, Option.map_some]
  · rw [counts_new, ← hsum, sum_map_mod_eq_iff _ (by decide), secondsFit_iff hsorted hlate]
  · rw [counts_new, ← hsum, ← List.sum_nat_mod]
  · rw [secondsFit_iff hsorted hlate, counts?_new]
    split <;> rename_i hfits
    · rw [and_iff_right hfits, Option.some_inj, eq_comm]
    · exact ⟨nofun, fun h => absurd h.1 hfits⟩

/-- The second second is touched in three periods, and counted in the first of them. -/
theorem counts_seconds_once_straddling :
    ((new default).counts [[1000000, 2100000], [2500000], [], [2900000, 3000000]]).sum = 3 ∧
      ((new default).counts [[1000000, 2100000], [2500000], [], [2900000, 3000000]])[3]? = some 1 := by
  obtain ⟨heach, hsum, -⟩ := counts_seconds_once default
    [[1000000, 2100000], [2500000], [], [2900000, 3000000]] (by decide) (by decide)
  obtain ⟨n, hcard, hn⟩ := heach [[1000000, 2100000], [2500000], []] [2900000, 3000000] [] rfl
  have hthree : (seconds [1000000, 2100000, 2500000, 2900000, 3000000]).card = 3 := by
    decide
  have htwo : (seconds [2900000, 3000000]).card = 2 := by
    decide
  have hstraddles : Straddles [[1000000, 2100000], [2500000], []] [2900000, 3000000] := by
    decide
  rw [if_pos hstraddles, htwo] at hcard
  obtain rfl : n = 1 := by omega
  refine ⟨(hsum.mpr ?_).trans hthree, hn⟩
  -- no period has more seconds than touches
  rintro earlier period later hperiods
  have hmem : period ∈ [[1000000, 2100000], [2500000], [], [2900000, 3000000]] := by
    rw [hperiods]
    simp
  have hfew : ∀ p ∈ ([[1000000, 2100000], [2500000], [], [2900000, 3000000]] : List (List Int)),
      (seconds p).card < 2 ^ 32 := by decide
  exact Nat.lt_of_lt_of_le (hfew period hmem) (Nat.le_add_right ..)

/-! ## A period with too many seconds -/

/-- Activity in each of the first seconds after 1970. -/
def everySecond (n : Nat) : List Int := (List.range n).map fun i : Nat => ((i : Int) + 1) * 1000000

theorem secondOf_everySecond (i : Nat) : secondOf (((i : Int) + 1) * 1000000) = i + 1 :=
  Int.mul_fdiv_cancel _ (by decide)

theorem everySecond_sorted (n : Nat) : (everySecond n).Pairwise (· ≤ ·) := by
  refine List.pairwise_map.mpr (List.pairwise_lt_range.imp fun {i j} hij => ?_)
  omega

theorem bounds_everySecond {n : Nat} {t : Int} (ht : t ∈ everySecond n) :
    1000000 ≤ t ∧ t ≤ n * 1000000 := by
  obtain ⟨i, hi, rfl⟩ := List.mem_map.mp ht
  have := List.mem_range.mp hi
  omega

theorem card_seconds_everySecond (n : Nat) : (seconds (everySecond n)).card = n := by
  have hmap : (everySecond n).map secondOf = (List.range n).map fun i : Nat => (i : Int) + 1 := by
    rw [everySecond, List.map_map]
    refine List.map_congr_left fun i _ => ?_
    rw [Function.comp_apply, secondOf_everySecond i]
  have hnodup : ((List.range n).map fun i : Nat => (i : Int) + 1).Nodup :=
    List.nodup_range.map fun i j hij => by omega
  rw [seconds, hmap, List.toFinset_card_of_nodup hnodup, List.length_map, List.length_range]

/-- With one touch in every second, the first period to have more active seconds than a word of 32
bits tells is told to have none; a program that looks out crashes. -/
theorem counts_no_seconds :
    (everySecond (2 ^ 32)).Pairwise (· ≤ ·) ∧
      (∀ t ∈ everySecond (2 ^ 32), 1000000 ≤ t ∧ t < 2 ^ 63) ∧
      (seconds (everySecond (2 ^ 32))).card = 2 ^ 32 ∧
      (new default).counts [everySecond (2 ^ 32)] = [0] ∧
      (new default).counts? [everySecond (2 ^ 32)] = none := by
  have hcard := card_seconds_everySecond (2 ^ 32)
  have hlate : ∀ t ∈ [everySecond (2 ^ 32)].flatten, 1000000 ≤ t := by
    intro t ht
    rw [List.flatten_singleton] at ht
    exact (bounds_everySecond ht).1
  have hsorted : [everySecond (2 ^ 32)].flatten.Pairwise (· ≤ ·) := by
    rw [List.flatten_singleton]
    exact everySecond_sorted _
  have hgained : gained 0 (everySecond (2 ^ 32)) = 2 ^ 32 := by
    have hflatten := gained_flatten hsorted hlate
    rwa [List.flatten_singleton, hcard] at hflatten
  have hgains : gains 0 [everySecond (2 ^ 32)] = [2 ^ 32] := by
    rw [gains, gains, hgained]
  refine ⟨everySecond_sorted _, fun t ht => ?_, hcard, ?_, ?_⟩
  · obtain ⟨hlow, hhigh⟩ := bounds_everySecond ht
    exact ⟨hlow, by omega⟩
  · rw [counts_new, hgains]
    rfl
  · rw [counts?_new, if_neg (by simp [hgains])]

end Entry

end BlockLedger
