import BlockLedger.Proofs.Store.Leftover
import Mathlib.Algebra.BigOperators.Group.Finset.Piecewise
import Mathlib.Data.Fintype.Basic

/-
# Coherent entries

The figures of an entry depend on each other: every access is counted as one of two kinds and in one
bin, there is activity exactly if there was an operation, and an entry was not active in more seconds
than it has operations.  All of this is about one period, and a period begins with an entry in which
nothing is counted.

The gaps between accesses are different, since they reach back into earlier periods: only the very
first access to a key has no gap before it.  How many gaps a period has is therefore told from the
copies that were taken before.
-/

namespace BlockLedger

/-! ## Histograms -/

namespace Histogram

/-- The number of values and the extremes of a histogram agree with its bins. -/
structure Coherent (h : Histogram) : Prop where
  bins : h.count = ∑ i : Fin binCount, h.bins.get i
  extremes : h.count ≠ 0 → h.least ≤ h.greatest
  sentinels : h.count = 0 → h.least = ceiling ∧ h.greatest = 0

theorem empty_coherent : empty.Coherent where
  bins := by
    have hnone : ∑ i : Fin binCount, empty.bins.get i = 0 :=
      Finset.sum_eq_zero fun i _ => empty_bins i
    rw [hnone]
    rfl
  extremes h := absurd rfl h
  sentinels _ := ⟨rfl, rfl⟩

theorem Coherent.record {h : Histogram} (hh : h.Coherent) (us : Nat) : (h.record us).Coherent where
  bins := by
    have hone : ∑ i : Fin binCount, (if binOf us = i then 1 else 0) = 1 := by simp
    have hrecord : ∑ i : Fin binCount, (h.record us).bins.get i =
        ∑ i : Fin binCount, (h.bins.get i + if binOf us = i then 1 else 0) :=
      Finset.sum_congr rfl fun i _ => record_bins h us i
    rw [hrecord, Finset.sum_add_distrib, hone, ← hh.bins]
    rfl
  extremes _ := le_trans (Nat.min_le_right _ _) (Nat.le_max_right _ _)
  sentinels hzero := absurd hzero (Nat.succ_ne_zero _)

end Histogram

/-! ## Traffic -/

namespace Traffic

/-- Every access is of one of the two kinds, and its latency is recorded. -/
structure Coherent (t : Traffic) : Prop where
  kinds : t.count = t.sequential + t.random
  latencies : t.count = t.latency.count
  histogram : t.latency.Coherent

theorem coherent_reset (t : Traffic) : t.reset.Coherent :=
  ⟨rfl, rfl, Histogram.empty_coherent⟩

theorem account_count (t : Traffic) (blocks us : Nat) (a : Access) (now : Int) :
    (t.account blocks us a now).count = t.count + 1 := by
  cases ha : a.sequential <;> simp [account, classify, ha]

theorem Coherent.account {t : Traffic} (h : t.Coherent) (blocks us : Nat) (a : Access)
    (now : Int) : (t.account blocks us a now).Coherent := by
  have hlatency : (t.account blocks us a now).latency = t.latency.record us := by
    cases ha : a.sequential <;> simp [Traffic.account, classify, ha]
  have hkinds := h.kinds
  refine ⟨?_, ?_, ?_⟩
  · rw [account_count]
    cases ha : a.sequential <;> simp [Traffic.account, classify, ha] <;> omega
  · rw [account_count, hlatency, h.latencies]
    rfl
  · rw [hlatency]
    exact h.histogram.record us

theorem Coherent.endRun {t : Traffic} (h : t.Coherent) (n : Nat) : (t.endRun n).Coherent := by
  rw [endRun_eq]
  exact ⟨h.kinds, h.latencies, h.histogram⟩

/-! ### Gaps -/

/-- As many gaps as there should be in a period, if there were `earlier` accesses in the periods
before it: one less than accesses in the period of the very first access, and in every other period
as many as accesses. -/
def Spaced (earlier : Nat) (t : Traffic) : Prop :=
  if earlier = 0 ∧ t.count ≠ 0 then t.gaps.count + 1 = t.count else t.gaps.count = t.count

/-- The gaps so far are as they should be, and so will be the next one: the time of the latest access
is there if there was any. -/
structure Dated (earlier : Nat) (t : Traffic) : Prop where
  spaced : t.Spaced earlier
  last : t.last = 0 ↔ earlier + t.count = 0

theorem dated_new : ({} : Traffic).Dated 0 := ⟨rfl, by simp⟩

theorem Dated.account {earlier : Nat} {t : Traffic} (h : t.Dated earlier) (blocks us : Nat)
    (a : Access) {now : Int} (hnow : now ≠ 0) : (t.account blocks us a now).Dated earlier := by
  have hlast : (t.account blocks us a now).last = now := rfl
  have hgaps : (t.account blocks us a now).gaps.count =
      if t.last = 0 then t.gaps.count else t.gaps.count + 1 := by
    have hkept : ((t.classify a.sequential).endRun a.ended).gaps = t.gaps ∧
        ((t.classify a.sequential).endRun a.ended).last = t.last := by
      rw [endRun_eq]
      unfold classify
      split <;> exact ⟨rfl, rfl⟩
    simp only [Traffic.account, arrive, hkept]
    split <;> rfl
  obtain ⟨hspaced, hiff⟩ := h
  unfold Spaced at hspaced
  refine ⟨?_, by rw [hlast, account_count]; omega⟩
  rw [Spaced, hgaps, account_count]
  -- the first access of all has no gap before it, and every other one has
  by_cases hfirst : earlier + t.count = 0
  · rw [if_pos (hiff.mpr hfirst)]
    split at hspaced <;> split <;> omega
  · rw [if_neg fun h => hfirst (hiff.mp h)]
    split at hspaced <;> split <;> omega

theorem Dated.endRun {earlier : Nat} {t : Traffic} (h : t.Dated earlier) (n : Nat) :
    (t.endRun n).Dated earlier := by
  rw [endRun_eq]
  exact ⟨h.spaced, h.last⟩

/-- In the next period, the accesses of this one are earlier ones. -/
theorem Dated.reset {earlier : Nat} {t : Traffic} (h : t.Dated earlier) :
    t.reset.Dated (earlier + t.count) := by
  refine ⟨?_, h.last⟩
  have hcount : t.reset.count = 0 := rfl
  rw [Spaced, if_neg fun h => h.2 hcount]
  rfl

end Traffic

/-! ## Entries -/

namespace Entry

/-- How many operations there were in the period. -/
def operations (e : Entry) : Nat :=
  e.reads.count + e.writes.count + e.extensions + e.truncations + e.syncs

/-- The figures of an entry agree with each other. -/
structure Coherent (e : Entry) : Prop where
  traffic : ∀ d, (e.traffic d).Coherent
  times : e.firstAccess ≤ e.lastAccess
  activity : e.firstAccess ≠ 0 ↔ 0 < e.operations
  seconds : e.activeSeconds ≤ e.operations

theorem coherent_new (k : Key) : (new k).Coherent where
  traffic d := by
    rw [traffic_new]
    exact Traffic.coherent_reset {}
  times := le_refl _
  activity := by simp [new, operations]
  seconds := Nat.zero_le _

theorem coherent_reset (e : Entry) : e.reset.Coherent where
  traffic d := by
    rw [traffic_reset]
    exact Traffic.coherent_reset (e.traffic d)
  times := le_refl _
  activity := by simp [reset, operations, Traffic.reset]
  seconds := Nat.zero_le _

theorem Coherent.identify {e : Entry} (h : e.Coherent) (i : Identity) :
    (e.identify i).Coherent := by
  refine ⟨fun d => ?_, ?_, ?_, ?_⟩
  · rw [traffic_identify]
    exact h.traffic d
  all_goals rw [identify_eq]
  · exact h.times
  · exact h.activity
  · exact h.seconds

theorem Coherent.endRun {e : Entry} (h : e.Coherent) (d : Direction) (n : Nat) :
    (e.withTraffic d fun t => t.endRun n).Coherent := by
  have hoperations : (e.withTraffic d fun t => t.endRun n).operations = e.operations := by
    cases d <;> simp [operations, withTraffic]
  refine ⟨fun d' => ?_, ?_, ?_, ?_⟩
  · rw [traffic_withTraffic]
    split
    · exact (h.traffic d).endRun n
    · exact h.traffic d'
  · cases d <;> exact h.times
  · rw [hoperations]
    cases d <;> exact h.activity
  · rw [hoperations]
    cases d <;> exact h.seconds

/-- One more operation, and activity at a time that is not 0: then the times and the seconds of
activity go along with the operations. -/
theorem Coherent.touch {e t : Entry} (h : e.Coherent) (htraffic : ∀ d, (t.traffic d).Coherent)
    (hoperations : t.operations = e.operations + 1) (hfirst : t.firstAccess = e.firstAccess)
    (hlast : t.lastAccess = e.lastAccess) (hseconds : t.activeSeconds = e.activeSeconds)
    {now : Int} (hnow : now ≠ 0) : (t.touch now).Coherent := by
  have htouched : (t.touch now).operations = e.operations + 1 := hoperations
  have hactive := active_touch t hnow
  refine ⟨fun d => ?_, ?_, ?_, ?_⟩
  · rw [traffic_touch]
    exact htraffic d
  · have htimes := h.times
    simp only [Entry.touch, hfirst, hlast]
    split <;> omega
  · rw [htouched]
    simpa [active] using hactive
  · have hbefore := h.seconds
    rw [htouched]
    simp only [Entry.touch, hseconds]
    split <;> omega

theorem Coherent.apply {e : Entry} (h : e.Coherent) (c : Charge) {now : Int} (hnow : now ≠ 0) :
    (c.apply now e).Coherent := by
  cases c with
  | access d blocks us a =>
    refine h.touch (fun d' => ?_) ?_ ?_ ?_ ?_ hnow
    · rw [traffic_withTraffic]
      split
      · exact (h.traffic d).account blocks us a now
      · exact h.traffic d'
    · cases d <;> simp only [operations, withTraffic, Traffic.account_count] <;> omega
    all_goals cases d <;> rfl
  | extension blocks =>
    refine h.touch
      (t := { e with
        extensions := e.extensions + 1
        extendedBlocks := e.extendedBlocks + blocks }) h.traffic ?_ rfl rfl rfl hnow
    simp only [operations]
    omega
  | truncation =>
    refine h.touch (t := { e with truncations := e.truncations + 1 }) h.traffic ?_ rfl rfl rfl hnow
    simp only [operations]
    omega
  | sync => exact h.touch (t := { e with syncs := e.syncs + 1 }) h.traffic rfl rfl rfl rfl hnow

theorem Coherent.closed {e : Entry} (h : e.Coherent) : e.closed.Coherent := by
  unfold Entry.closed
  split
  · exact e.coherent_reset
  · exact h

/-- The gaps of an entry are as they should be, if `earlier` tells how many accesses there were in the
periods before. -/
def Dated (earlier : Direction → Nat) (e : Entry) : Prop :=
  ∀ d, (e.traffic d).Dated (earlier d)

theorem Dated.apply {earlier : Direction → Nat} {e : Entry} (h : e.Dated earlier) (c : Charge)
    {now : Int} (hnow : now ≠ 0) : (c.apply now e).Dated earlier := by
  cases c with
  | access d blocks us a =>
    intro d'
    rw [Charge.apply, account, traffic_touch, traffic_withTraffic]
    split
    · subst d'
      exact (h d).account blocks us a hnow
    · exact h d'
  | extension | truncation | sync =>
    intro d
    rw [Charge.apply, traffic_touch]
    exact h d

theorem Dated.endRun {earlier : Direction → Nat} {e : Entry} (h : e.Dated earlier) (d : Direction)
    (n : Nat) : (e.withTraffic d fun t => t.endRun n).Dated earlier := by
  intro d'
  rw [traffic_withTraffic]
  split
  · subst d'
    exact (h d).endRun n
  · exact h d'

/-- An entry is coherent, and has as many gaps as it should have, given the copies that were taken in
the periods before. -/
structure Follows (e : Entry) (es : List Entry) : Prop where
  coherent : e.Coherent
  spaced : ∀ d, (e.traffic d).Spaced (Store.held e.key (.accesses d) es)

end Entry

/-! ## Along a path -/

namespace Store

/-- What is found under a key is as it should be, given the copies that were taken so far. -/
def Regular (k : Key) (es : List Entry) : Option Entry → Prop
  | none => ∀ d, held k (.accesses d) es = 0
  | some e => e.Coherent ∧ ∀ d, (e.traffic d).Dated (held k (.accesses d) es)

theorem Regular.follows {k : Key} {es : List Entry} {e : Entry} (h : Regular k es (some e))
    (hkey : e.key = k) : e.Follows es := by
  subst hkey
  exact ⟨h.1, fun d => (h.2 d).spaced⟩

/-- Copies of other entries do not matter. -/
theorem held_concat_of_ne {k : Key} {e : Entry} (h : e.key ≠ k) (f : Field) (es : List Entry) :
    held k f (es ++ [e]) = held k f es := by
  simp [held, h]

theorem Touch.regular_silent {k : Key} {es : List Entry} {o o' : Option Entry}
    (h : Touch k none o o') (ho : Regular k es o) : Regular k es o' := by
  cases h with
  | other => exact ho
  | create =>
    -- there was no entry so far, so no copy of one either
    refine ⟨Entry.coherent_new k, fun d => ?_⟩
    rw [Entry.traffic_new, ho d]
    exact Traffic.dated_new
  | identify e i =>
    refine ⟨ho.1.identify i, fun d => ?_⟩
    rw [Entry.traffic_identify]
    exact ho.2 d

theorem Touch.regular {k : Key} {es : List Entry} {d : Mark} {o o' : Option Entry}
    (h : Touch k (some d) o o') (hclock : ∀ p, d = .posted p → p.now ≠ 0)
    (hkey : ∀ e, o = some e → e.key = k) (hcopy : ∀ e, d.copy? = some e → d.key? = some e.key)
    (ho : Regular k es o) : Regular k (es ++ copies [d]) o' := by
  cases h with
  | other o h =>
    have hd : d.key? ≠ some k := by simpa using h
    rw [copies_singleton]
    cases hc : d.copy? with
    | none => simpa using ho
    | some e =>
      have he : e.key ≠ k := fun he => hd (he ▸ hcopy e hc)
      cases o <;> simpa only [Option.toList_some, Regular, held_concat_of_ne he] using ho
  | post p hp e =>
    have hnow := hclock p rfl
    have hdated : e.Dated fun d => held k (.accesses d) es := ho.2
    have hnone : es ++ copies [.posted p] = es := List.append_nil es
    rw [hnone]
    exact ⟨ho.1.apply p.charge hnow, hdated.apply p.charge hnow⟩
  | endRun r hr e =>
    have hdated : e.Dated fun d => held k (.accesses d) es := ho.2
    have hnone : es ++ copies [.ended r] = es := List.append_nil es
    rw [hnone]
    exact ⟨ho.1.endRun r.direction r.blocks, hdated.endRun r.direction r.blocks⟩
  | take o =>
    rw [copies_singleton]
    cases o with
    | none => simpa [Mark.copy?] using ho
    | some e =>
      obtain ⟨hcoherent, hdated⟩ := ho
      cases ha : e.active with
      | false =>
        -- an entry without activity is not taken along, and its period goes on
        simp only [Mark.copy?, Option.filter, ha, Bool.false_eq_true, if_false, Option.toList_none,
          List.append_nil, Option.map_some, Entry.closed_of_inactive ha]
        exact ⟨hcoherent, hdated⟩
      | true =>
        have he : e.key = k := hkey e rfl
        have hheld : ∀ d, held k (.accesses d) (es ++ [e]) =
            held k (.accesses d) es + (e.traffic d).count := by
          intro d
          simp [held, he, Entry.value]
        simp only [Mark.copy?, Option.filter, ha, if_true, Option.toList_some, Option.map_some,
          Entry.closed_of_active ha]
        refine ⟨e.coherent_reset, fun d => ?_⟩
        rw [hheld, Entry.traffic_reset]
        exact (hdated d).reset

/-- A copy is of an entry as it was found. -/
theorem Step.copied {s t : Store} {d : Mark} (h : Step s (some d) t) (hs : s.Keyed) {e : Entry}
    (he : d.copy? = some e) : s.find? e.key = some e := by
  cases h with
  | take k =>
    rw [Mark.copy?, take_fst, Option.filter_eq_some_iff] at he
    rw [hs k e he.1]
    exact he.1
  | post | endRun | turn => cases he

/-- Along a path every entry is as it should be, and so is every copy in its place among those that
are taken. -/
theorem Path.regular {s t : Store} {ds : List Mark} (h : s.Path ds t) (hkeyed : s.Keyed)
    (hs : ∀ k, Regular k [] (s.find? k)) (hclock : ∀ p, .posted p ∈ ds → p.now ≠ 0) :
    (∀ k, Regular k (copies ds) (t.find? k)) ∧
      ∀ before e after, copies ds = before ++ e :: after → e.Follows before := by
  induction h with
  | refl => exact ⟨hs, fun before e after h => by simp at h⟩
  | silent _ hstep ih =>
    obtain ⟨hregular, hcopies⟩ := ih hclock
    exact ⟨fun k => (hstep.touch k).regular_silent (hregular k), hcopies⟩
  | @mark ds d t u hpath hstep ih =>
    obtain ⟨hregular, hcopies⟩ := ih fun p hp => hclock p (List.mem_append_left _ hp)
    have hkeys := hpath.keyed hkeyed
    have hcopy : ∀ e, d.copy? = some e → d.key? = some e.key := fun _ => hstep.copy_key hkeys
    rw [copies_append]
    refine ⟨fun k => ?_, fun before e after heq => ?_⟩
    · refine (hstep.touch k).regular (fun p hp => hclock p ?_) (hkeys k) hcopy (hregular k)
      simp [hp]
    · rw [copies_singleton] at heq
      cases hc : d.copy? with
      | none =>
        rw [hc, Option.toList_none, List.append_nil] at heq
        exact hcopies before e after heq
      | some e' =>
        rw [hc, Option.toList_some] at heq
        rcases List.eq_nil_or_concat after with rfl | ⟨rest, x, rfl⟩
        · -- the copy that has just been taken is of an entry as it was found
          obtain ⟨rfl, hlast⟩ := List.append_inj' heq rfl
          obtain rfl : e' = e := by simpa using hlast
          have hfound := hregular e'.key
          rw [hstep.copied hkeys hc] at hfound
          exact hfound.follows rfl
        · rw [List.concat_eq_append, ← List.cons_append, ← List.append_assoc] at heq
          exact hcopies before e rest (List.append_inj' heq rfl).1

end Store

end BlockLedger
