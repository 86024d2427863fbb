import BlockLedger.Proofs.Runs.Detection
import Mathlib.Algebra.BigOperators.Group.Finset.Piecewise
import Mathlib.Data.List.SplitBy

/-
# Counting runs

The accesses of all backends are listed in the order in which their detectors take them in, each
with the number of its backend.  A run is a maximal row of accesses of one backend to one fork in
one direction, each of which starts right after the last block of the one before; the runs of a key
are those of the accesses that are counted under it.

An access that does not carry on a run starts one, and ends the one before if there is any: the
number of runs goes up with the runs that are ended and with those that are open.
-/

namespace BlockLedger

namespace Touch

/-- Whether an access starts right after the last block of the one before. -/
def joins (t u : Touch) : Bool := u.block.toNat == t.block.toNat + t.blocks.toNat

/-- An access moves at least one block, and ends at the last block number or before. -/
structure Fits (t : Touch) : Prop where
  nonempty : 0 < t.blocks.toNat
  bounded : t.block.toNat + t.blocks.toNat ≤ 2 ^ 32

theorem Fits.toNat_last {t : Touch} (h : t.Fits) :
    t.last.toNat + 1 = t.block.toNat + t.blocks.toNat := by
  have hnonempty := h.nonempty
  have hbounded := h.bounded
  rw [last, UInt32.toNat_sub, UInt32.toNat_add]
  have hone : (1 : UInt32).toNat = 1 := rfl
  omega

end Touch

theorem Cursor.continues_iff {c : Cursor} {t : Touch} (ht : t.Fits) (hc : c.last = some t.last)
    (u : Touch) : c.continues u.block = t.joins u := by
  have hlast := ht.toNat_last
  have hbounded := ht.bounded
  have hblock := u.block.toNat_lt
  have hmax : (4294967295 : UInt32).toNat = 4294967295 := rfl
  have hone : (1 : UInt32).toNat = 1 := rfl
  rw [Bool.eq_iff_iff, continues, hc]
  simp only [Touch.joins, ne_eq, ← UInt32.toNat_inj, hmax, hone, UInt32.toNat_add, Bool.and_eq_true,
    decide_eq_true_eq, beq_iff_eq]
  -- the block after the last one is 0 only for the last block number, which is left out
  omega

namespace Runs

/-- Whether an access ends a run that is to be recorded under a key. -/
def ends (r : Runs) (k : Key) (d : Direction) (u : Touch) : Bool :=
  u.key = k ∧ u.direction = d ∧ (r.judge u).ended ≠ 0

variable {ts : List Touch}

/-- The open run of a fork is not empty, and lies before the block that it is to go on with. -/
theorem run_bounds (hts : ∀ t ∈ ts, t.Fits) {f : Key} {d : Direction} {t : Touch}
    (h : latest ts f d = some t) :
    0 < (((noteAll {} ts).pattern f).cursor d).run.toNat ∧
      (((noteAll {} ts).pattern f).cursor d).run.toNat ≤ t.block.toNat + t.blocks.toNat := by
  induction ts using List.reverseRecOn generalizing t with
  | nil => cases h
  | append_singleton ts u ih =>
    have hbefore : ∀ v ∈ ts, v.Fits := fun v hv => hts v (List.mem_append_left _ hv)
    have hu : u.Fits := hts u (by simp)
    have hnonempty := hu.nonempty
    have hbounded := hu.bounded
    rw [latest_concat] at h
    rw [noteAll_concat, pattern_note]
    by_cases hfork : u.fork = f
    · rw [if_pos hfork, Pattern.cursor_note]
      by_cases hdirection : u.direction = d
      · obtain rfl : u = t := by rwa [if_pos ⟨hfork, hdirection⟩, Option.some_inj] at h
        have hlast := last_noteAll ts f d
        rw [if_pos hdirection, Cursor.run_step]
        split <;> rename_i hcontinues
        · -- the run goes on from the block where the latest access ended
          cases hlatest : latest ts f d with
          | none =>
            rw [hlatest] at hlast
            simp [Cursor.continues, hlast] at hcontinues
          | some v =>
            rw [hlatest, Option.map_some] at hlast
            rw [Cursor.continues_iff (hbefore v (mem_of_latest hlatest).1) hlast u, Touch.joins,
              beq_iff_eq] at hcontinues
            have hrun := ih hbefore hlatest
            rw [Nat.mod_eq_of_lt (by omega)]
            omega
        · omega
      · rw [if_neg hdirection]
        exact ih hbefore (by rwa [if_neg fun hc => hdirection hc.2] at h)
    · rw [if_neg hfork]
      exact ih hbefore (by rwa [if_neg fun hc => hfork hc.1] at h)

/-- Once a fork has been accessed in a direction, a run is open. -/
theorem run_ne_zero_iff (hts : ∀ t ∈ ts, t.Fits) (f : Key) (d : Direction) :
    (((noteAll {} ts).pattern f).cursor d).run ≠ 0 ↔ (latest ts f d).isSome := by
  cases h : latest ts f d with
  | none => simp [cursor_of_latest ts f d h]
  | some t =>
    have hrun := (run_bounds hts h).1
    simp only [Option.isSome_some, iff_true]
    intro hzero
    rw [hzero] at hrun
    exact absurd hrun (Nat.lt_irrefl 0)

/-- An access ends a run unless it carries on the one that is open, if any. -/
theorem ended_judge (hts : ∀ t ∈ ts, t.Fits) (u : Touch) :
    ((noteAll {} ts).judge u).ended ≠ 0 ↔
      ∃ t, latest ts u.fork u.direction = some t ∧ t.joins u = false := by
  have hopen := run_ne_zero_iff hts u.fork u.direction
  have hlast := last_noteAll ts u.fork u.direction
  rw [judge_eq, Cursor.ended_step]
  cases h : latest ts u.fork u.direction with
  | none =>
    rw [h] at hopen
    simp only [Option.isSome_none, Bool.false_eq_true, iff_false, not_not] at hopen
    simp [hopen]
  | some t =>
    rw [h, Option.map_some] at hlast
    have hrun := (run_bounds hts h).1.ne'
    rw [Cursor.continues_iff (hts t (mem_of_latest h).1) hlast u]
    cases hjoins : t.joins u <;> simp [hjoins, hrun]

end Runs

/-! ## Maximal rows -/

theorem length_splitByLoop_concat {α : Type} (r : α → α → Bool) (l : List α) (a x : α)
    (g : List α) (gs : List (List α)) :
    (List.splitBy.loop r (l ++ [x]) a g gs).length =
      (List.splitBy.loop r l a g gs).length +
        if r ((a :: l).getLast (List.cons_ne_nil a l)) x then 0 else 1 := by
  induction l generalizing a g gs with
  | nil =>
    cases h : r a x <;> simp [List.splitBy.loop, h]
  | cons b l ih =>
    rw [List.getLast_cons (List.cons_ne_nil b l), List.cons_append]
    unfold List.splitBy.loop
    cases r a b <;> exact ih ..

/-- One more element starts a new row, unless it joins the last one. -/
theorem length_splitBy_concat {α : Type} (r : α → α → Bool) (l : List α) (x : α) :
    ((l ++ [x]).splitBy r).length =
      (l.splitBy r).length + if ∃ a, l.getLast? = some a ∧ r a x = true then 0 else 1 := by
  cases l with
  | nil => simp [List.splitBy, List.splitBy.loop]
  | cons a l =>
    rw [List.getLast?_eq_some_getLast (List.cons_ne_nil a l)]
    simpa [List.splitBy] using length_splitByLoop_concat r l a x [] []

/-! ## The accesses of all backends -/

/-- The accesses of one backend. -/
def own (i : Nat) (ys : List (Nat × Touch)) : List Touch :=
  (ys.filter fun y => y.1 = i).map Prod.snd

/-- The accesses of a backend to a fork in one direction that are counted under a key. -/
def along (ys : List (Nat × Touch)) (k : Key) (d : Direction) (x : Nat × Key) : List Touch :=
  (own x.1 ys).filter fun t => t.fork = x.2 ∧ t.key = k ∧ t.direction = d

/-- The backends and forks that are counted under a key in one direction. -/
def series (ys : List (Nat × Touch)) (k : Key) (d : Direction) : Finset (Nat × Key) :=
  ((ys.filter fun y => y.2.key = k ∧ y.2.direction = d).map fun y => (y.1, y.2.fork)).toFinset

/-- How many runs the accesses to a key fall into in one direction. -/
def runCount (ys : List (Nat × Touch)) (k : Key) (d : Direction) : Nat :=
  ∑ x ∈ series ys k d, ((along ys k d x).splitBy Touch.joins).length

/-- How many runs of a key are open in one direction, but for the backends that have left. -/
def openCount (ys : List (Nat × Touch)) (gone : List Nat) (k : Key) (d : Direction) : Nat :=
  ((series ys k d).filter fun x => x.1 ∉ gone).card

section Log

variable (ys : List (Nat × Touch)) (y : Nat × Touch) (k : Key) (d : Direction)

@[simp] theorem own_append (i : Nat) (zs : List (Nat × Touch)) :
    own i (ys ++ zs) = own i ys ++ own i zs := by
  simp [own]

@[simp] theorem own_nil (i : Nat) : own i [] = [] := rfl

/-- The accesses of one backend, seen from any backend. -/
theorem own_map (i j : Nat) (ts : List Touch) :
    own i (ts.map fun t => (j, t)) = if j = i then ts else [] := by
  split <;> rename_i h <;> simp [own, h, List.filter_map, Function.comp_def]

theorem mem_own (i : Nat) (t : Touch) : t ∈ own i ys ↔ (i, t) ∈ ys := by
  simp [own]

theorem mem_series (x : Nat × Key) :
    x ∈ series ys k d ↔ ∃ t, (x.1, t) ∈ ys ∧ t.fork = x.2 ∧ t.key = k ∧ t.direction = d := by
  obtain ⟨i, f⟩ := x
  simp only [series, List.mem_toFinset, List.mem_map, List.mem_filter, decide_eq_true_eq,
    Prod.mk.injEq, Prod.exists]
  constructor
  · rintro ⟨j, t, ⟨ht, hk, hd⟩, rfl, rfl⟩
    exact ⟨t, ht, rfl, hk, hd⟩
  · rintro ⟨t, ht, rfl, hk, hd⟩
    exact ⟨i, t, ⟨ht, hk, hd⟩, rfl, rfl⟩

theorem along_eq_nil (x : Nat × Key) : along ys k d x = [] ↔ x ∉ series ys k d := by
  simp [along, mem_series, mem_own]

theorem along_concat (x : Nat × Key) :
    along (ys ++ [y]) k d x =
      along ys k d x ++
        if y.1 = x.1 ∧ y.2.fork = x.2 ∧ y.2.key = k ∧ y.2.direction = d then [y.2] else [] := by
  by_cases hi : y.1 = x.1 <;> simp [along, own, hi, List.filter_singleton]

theorem series_concat :
    series (ys ++ [y]) k d =
      if y.2.key = k ∧ y.2.direction = d then insert (y.1, y.2.fork) (series ys k d)
      else series ys k d := by
  unfold series
  rw [List.filter_append, List.map_append, List.toFinset_append]
  split <;> rename_i h <;> simp [h, Finset.union_comm]

/-- Backends and forks that are not counted under the key add nothing. -/
theorem runCount_eq_sum {xs : Finset (Nat × Key)} (h : series ys k d ⊆ xs) :
    runCount ys k d = ∑ x ∈ xs, ((along ys k d x).splitBy Touch.joins).length := by
  refine Finset.sum_subset h fun x _ hx => ?_
  rw [(along_eq_nil ys k d x).mpr hx]
  rfl

variable {y k d}

/-- One more access starts a new run, unless it carries on the latest one. -/
theorem runCount_concat (hk : y.2.key = k) (hd : y.2.direction = d) :
    runCount (ys ++ [y]) k d = runCount ys k d +
      if ∃ t, (along ys k d (y.1, y.2.fork)).getLast? = some t ∧ t.joins y.2 = true then 0
      else 1 := by
  have hseries : series (ys ++ [y]) k d = insert (y.1, y.2.fork) (series ys k d) := by
    rw [series_concat, if_pos ⟨hk, hd⟩]
  rw [runCount_eq_sum ys k d (Finset.subset_insert (y.1, y.2.fork) _), runCount, hseries]
  -- only the row of the backend and the fork of the access is continued
  have hrow : ∀ x : Nat × Key, ((along (ys ++ [y]) k d x).splitBy Touch.joins).length =
      ((along ys k d x).splitBy Touch.joins).length +
        if x = (y.1, y.2.fork) then
          if ∃ t, (along ys k d (y.1, y.2.fork)).getLast? = some t ∧ t.joins y.2 = true then 0
          else 1
        else 0 := by
    intro x
    rw [along_concat]
    by_cases hx : x = (y.1, y.2.fork)
    · subst hx
      rw [if_pos ⟨rfl, rfl, hk, hd⟩, if_pos rfl]
      exact length_splitBy_concat ..
    · have hne : ¬(y.1 = x.1 ∧ y.2.fork = x.2 ∧ y.2.key = k ∧ y.2.direction = d) :=
        fun h => hx (Prod.ext h.1.symm h.2.1.symm)
      rw [if_neg hne, if_neg hx, List.append_nil, Nat.add_zero]
  rw [Finset.sum_congr rfl fun x _ => hrow x, Finset.sum_add_distrib, Finset.sum_ite_eq',
    if_pos (Finset.mem_insert_self _ _)]

theorem openCount_concat (hk : y.2.key = k) (hd : y.2.direction = d) {gone : List Nat}
    (hy : y.1 ∉ gone) :
    openCount (ys ++ [y]) gone k d =
      openCount ys gone k d + if (y.1, y.2.fork) ∈ series ys k d then 0 else 1 := by
  unfold openCount
  rw [series_concat, if_pos ⟨hk, hd⟩, Finset.filter_insert, if_pos hy]
  split <;> rename_i h
  · rw [Finset.insert_eq_self.mpr (by simp [h, hy])]
    rfl
  · exact Finset.card_insert_of_notMem (by simp [h])

/-- Who has left before leaves nothing open. -/
theorem openCount_of_mem {gone : List Nat} {i : Nat} (hi : i ∈ gone) :
    openCount ys (gone ++ [i]) k d = openCount ys gone k d := by
  have hgone : ∀ j, j ∈ gone ++ [i] ↔ j ∈ gone := by
    intro j
    rw [List.mem_append, List.mem_singleton, or_iff_left_of_imp]
    rintro rfl
    exact hi
  simp only [openCount, hgone]

/-- Accesses that are counted elsewhere change nothing. -/
theorem counts_concat_of_ne (h : ¬(y.2.key = k ∧ y.2.direction = d)) (gone : List Nat) :
    runCount (ys ++ [y]) k d = runCount ys k d ∧
      openCount (ys ++ [y]) gone k d = openCount ys gone k d := by
  have hseries : series (ys ++ [y]) k d = series ys k d := by
    rw [series_concat, if_neg h]
  refine ⟨?_, by rw [openCount, hseries, openCount]⟩
  rw [runCount, hseries, runCount]
  refine Finset.sum_congr rfl fun x _ => ?_
  rw [along_concat, if_neg fun hx => h hx.2.2, List.append_nil]

end Log

/-! ## Open runs -/

/-- Every fork is counted under one key. -/
def Steady (ys : List (Nat × Touch)) : Prop :=
  ∀ y ∈ ys, ∀ z ∈ ys, y.2.fork = z.2.fork → y.2.key = z.2.key

section Steady

variable {ys : List (Nat × Touch)} {y : Nat × Touch}

theorem Steady.getLast?_along (h : Steady (ys ++ [y])) :
    (along ys y.2.key y.2.direction (y.1, y.2.fork)).getLast? =
      latest (own y.1 ys) y.2.fork y.2.direction := by
  unfold along latest
  congr 1
  refine List.filter_congr fun t ht => ?_
  have hkey : t.fork = y.2.fork → t.key = y.2.key :=
    h (y.1, t) (List.mem_append_left _ ((mem_own ys y.1 t).mp ht)) y (by simp)
  simp only [decide_eq_decide]
  exact ⟨fun h => ⟨h.1, h.2.2⟩, fun h => ⟨h.1, hkey h.1, h.2⟩⟩

/-- The open runs of a fork are handed out under the key that its accesses are counted under. -/
theorem Steady.destination_eq (h : Steady ys) {i : Nat} {t : Touch} (ht : (i, t) ∈ ys) :
    destination (own i ys) t.fork = t.key := by
  have hmem := (mem_own ys i t).mpr ht
  rcases destination_eq_or (own i ys) t.fork with ⟨hall, heq⟩ | ⟨u, hu, hfork, -, heq⟩
  · rw [heq, hall t hmem rfl]
  · rw [heq]
    exact h (i, u) ((mem_own ys i u).mp hu) (i, t) ht hfork

variable (k : Key) (d : Direction)

/-- An access that is counted under a key makes one run more, which is open then, and may end one
that was open before. -/
theorem Steady.balance (h : Steady (ys ++ [y])) (hfits : ∀ z ∈ ys, z.2.Fits) {gone : List Nat}
    (hy : y.1 ∉ gone) :
    runCount (ys ++ [y]) k d + openCount ys gone k d =
      runCount ys k d + openCount (ys ++ [y]) gone k d +
        if (Runs.noteAll {} (own y.1 ys)).ends k d y.2 then 1 else 0 := by
  simp only [Runs.ends, decide_eq_true_eq]
  by_cases hkd : y.2.key = k ∧ y.2.direction = d
  · obtain ⟨rfl, rfl⟩ := hkd
    have hown : ∀ t ∈ own y.1 ys, t.Fits := fun t ht => hfits _ ((mem_own ys y.1 t).mp ht)
    have hseries := along_eq_nil ys y.2.key y.2.direction (y.1, y.2.fork)
    rw [← List.getLast?_eq_none_iff, h.getLast?_along] at hseries
    simp only [runCount_concat ys rfl rfl, openCount_concat ys rfl rfl hy, h.getLast?_along,
      Runs.ended_judge hown, true_and]
    cases hlatest : latest (own y.1 ys) y.2.fork y.2.direction with
    | none =>
      rw [if_neg (hseries.mp hlatest)]
      simp only [reduceCtorEq, false_and, exists_false, if_false]
      omega
    | some t =>
      have hmem : (y.1, y.2.fork) ∈ series ys y.2.key y.2.direction := by
        by_contra hnot
        rw [hseries.mpr hnot] at hlatest
        cases hlatest
      rw [if_pos hmem]
      cases hjoins : t.joins y.2 <;> simp [hjoins]
      omega
  · obtain ⟨hrun, hopen⟩ := counts_concat_of_ne ys hkd gone
    rw [hrun, hopen, if_neg fun hc => hkd ⟨hc.1, hc.2.1⟩, Nat.add_zero]

/-- What a backend hands out under a key are the runs of the forks that are counted under it. -/
theorem Steady.mem_openSeries (h : Steady ys) (hfits : ∀ z ∈ ys, z.2.Fits) (i : Nat) {r : Runs}
    (hr : r = Runs.noteAll {} (own i ys)) (x : Key × Direction) :
    x ∈ r.openSeries ∧ (r.openRun x).key = k ∧ x.2 = d ↔ x.2 = d ∧ (i, x.1) ∈ series ys k d := by
  subst hr
  obtain ⟨f, d'⟩ := x
  have hown : ∀ t ∈ own i ys, t.Fits := fun t ht => hfits _ ((mem_own ys i t).mp ht)
  have hopen : (f, d') ∈ (Runs.noteAll {} (own i ys)).openSeries ↔
      ∃ t ∈ own i ys, t.fork = f ∧ t.direction = d' := by
    rw [Runs.mem_openSeries, ← latest_isSome]
    exact Runs.run_ne_zero_iff hown f d'
  have hkey : ((Runs.noteAll {} (own i ys)).openRun (f, d')).key = destination (own i ys) f :=
    Runs.account_noteAll _ f
  simp only [hopen, hkey, mem_series, mem_own]
  constructor
  · rintro ⟨⟨t, ht, rfl, rfl⟩, hk, hd⟩
    rw [h.destination_eq ht] at hk
    exact ⟨hd, t, ht, rfl, hk, hd⟩
  · rintro ⟨rfl, t, ht, rfl, hk, hd⟩
    exact ⟨⟨t, ht, rfl, hd⟩, (h.destination_eq ht).trans hk, rfl⟩

theorem Steady.countP_openRuns (h : Steady ys) (hfits : ∀ z ∈ ys, z.2.Fits) (i : Nat) :
    ((Runs.noteAll {} (own i ys)).openRuns.countP fun r => r.key = k ∧ r.direction = d) =
      ((series ys k d).filter fun x => x.1 = i).card := by
  let r := Runs.noteAll {} (own i ys)
  let handed := r.openSeries.filter fun x => (r.openRun x).key = k ∧ x.2 = d
  have hhanded : ∀ x, x ∈ handed ↔ x.2 = d ∧ (i, x.1) ∈ series ys k d := by
    intro x
    rw [← h.mem_openSeries k d hfits i (r := r) rfl x, List.mem_filter, decide_eq_true_eq]
  -- all of them run in the same direction, so that they are told apart by their forks
  have hnodup : (handed.map fun x => (i, x.1)).Nodup := by
    refine List.Nodup.map_on (fun x hx y hy heq => ?_) (r.openSeries_nodup.filter _)
    have hdirection := ((hhanded x).mp hx).1.trans ((hhanded y).mp hy).1.symm
    exact Prod.ext (Prod.mk.inj heq).2 hdirection
  have hfinset : (handed.map fun x => (i, x.1)).toFinset =
      (series ys k d).filter fun x => x.1 = i := by
    ext ⟨j, f⟩
    simp only [List.mem_toFinset, List.mem_map, Finset.mem_filter, hhanded, Prod.mk.injEq]
    constructor
    · rintro ⟨x, ⟨-, hx⟩, rfl, rfl⟩
      exact ⟨hx, rfl⟩
    · rintro ⟨hx, rfl⟩
      exact ⟨(f, d), ⟨rfl, hx⟩, rfl, rfl⟩
  calc r.openRuns.countP (fun r => r.key = k ∧ r.direction = d)
      = handed.length := by
        rw [Runs.openRuns_eq, List.countP_map, List.countP_eq_length_filter]
        rfl
    _ = ((series ys k d).filter fun x => x.1 = i).card := by
        rw [← hfinset, List.toFinset_card_of_nodup hnodup, List.length_map]

/-- A backend that leaves hands out its open runs, each under the key that it belongs to. -/
theorem Steady.leave (h : Steady ys) (hfits : ∀ z ∈ ys, z.2.Fits) {gone : List Nat} {i : Nat}
    (hi : i ∉ gone) :
    openCount ys gone k d = openCount ys (gone ++ [i]) k d +
      (Runs.noteAll {} (own i ys)).openRuns.countP fun r => r.key = k ∧ r.direction = d := by
  have hsplit := Finset.card_filter_add_card_filter_not
    (s := (series ys k d).filter fun x => x.1 ∉ gone) (fun x => x.1 = i)
  have hleaving : (((series ys k d).filter fun x => x.1 ∉ gone).filter fun x => x.1 = i) =
      (series ys k d).filter fun x => x.1 = i := by
    rw [Finset.filter_filter]
    refine Finset.filter_congr fun x _ => ⟨fun hx => hx.2, fun hx => ⟨?_, hx⟩⟩
    rw [hx]
    exact hi
  have hstaying : (((series ys k d).filter fun x => x.1 ∉ gone).filter fun x => ¬x.1 = i) =
      (series ys k d).filter fun x => x.1 ∉ gone ++ [i] := by
    rw [Finset.filter_filter]
    refine Finset.filter_congr fun x _ => ?_
    simp
  rw [hleaving, hstaying] at hsplit
  rw [h.countP_openRuns k d hfits i, openCount, openCount, ← hsplit, Nat.add_comm]

end Steady

end BlockLedger
