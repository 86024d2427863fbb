import BlockLedger.Store

/-
# What is counted

Each number that an entry adds up is a field.  An operation that has come back successful is a
charge to the entry of its key; every charge raises each field by an amount that is known from the
charge alone, and nothing else raises a field.  A new entry, and an entry whose period has just
begun, has 0 in all of them.
-/

namespace BlockLedger

/-- The numbers that an entry adds up. -/
inductive Field where
  | accesses (d : Direction)
  | blocks (d : Direction)
  | sequential (d : Direction)
  | random (d : Direction)
  /-- A bin of the latencies. -/
  | bin (d : Direction) (i : Fin Histogram.binCount)
  | extensions
  | extendedBlocks
  | truncations
  | syncs
  deriving DecidableEq, Repr

/-- What a successful operation is counted as. -/
inductive Charge where
  | access (d : Direction) (blocks us : Nat) (access : Access)
  | extension (blocks : Nat)
  | truncation
  | sync
  deriving DecidableEq, Repr

/-- A charge to the entry of a key, at a time. -/
structure Posting where
  key : Key
  charge : Charge
  now : Int
  deriving DecidableEq, Repr

namespace Charge

/-- By how much a charge raises a field. -/
def amount : Charge → Field → Nat
  | access d _ _ _, .accesses d' => if d = d' then 1 else 0
  | access d blocks _ _, .blocks d' => if d = d' then blocks else 0
  | access d _ _ a, .sequential d' => if d = d' ∧ a.sequential then 1 else 0
  | access d _ _ a, .random d' => if d = d' ∧ !a.sequential then 1 else 0
  | access d _ us _, .bin d' i => if d = d' ∧ Histogram.binOf us = i then 1 else 0
  | extension _, .extensions => 1
  | extension blocks, .extendedBlocks => blocks
  | truncation, .truncations => 1
  | sync, .syncs => 1
  | _, _ => 0

/-- Takes a charge into an entry. -/
def apply (c : Charge) (now : Int) (e : Entry) : Entry :=
  match c with
  | access d blocks us a => e.account d blocks us a now
  | extension blocks =>
    { e with
      extensions := e.extensions + 1
      extendedBlocks := e.extendedBlocks + blocks }.touch now
  | truncation => { e with truncations := e.truncations + 1 }.touch now
  | sync => { e with syncs := e.syncs + 1 }.touch now

@[simp] theorem apply_key (c : Charge) (now : Int) (e : Entry) : (c.apply now e).key = e.key := by
  cases c <;> simp [apply]

end Charge

namespace Traffic

@[simp] theorem arrive_count (t : Traffic) (now : Int) : (t.arrive now).count = t.count := rfl

@[simp] theorem arrive_blocks (t : Traffic) (now : Int) : (t.arrive now).blocks = t.blocks := rfl

@[simp] theorem arrive_latency (t : Traffic) (now : Int) : (t.arrive now).latency = t.latency := rfl

@[simp] theorem arrive_sequential (t : Traffic) (now : Int) :
    (t.arrive now).sequential = t.sequential := rfl

@[simp] theorem arrive_random (t : Traffic) (now : Int) : (t.arrive now).random = t.random := rfl

theorem endRun_eq (t : Traffic) (blocks : Nat) :
    t.endRun blocks = { t with runs := (t.endRun blocks).runs } := by
  unfold endRun
  split <;> rfl

@[simp] theorem endRun_count (t : Traffic) (n : Nat) : (t.endRun n).count = t.count := by
  rw [endRun_eq]

@[simp] theorem endRun_blocks (t : Traffic) (n : Nat) : (t.endRun n).blocks = t.blocks := by
  rw [endRun_eq]

@[simp] theorem endRun_latency (t : Traffic) (n : Nat) : (t.endRun n).latency = t.latency := by
  rw [endRun_eq]

@[simp] theorem endRun_sequential (t : Traffic) (n : Nat) :
    (t.endRun n).sequential = t.sequential := by
  rw [endRun_eq]

@[simp] theorem endRun_random (t : Traffic) (n : Nat) : (t.endRun n).random = t.random := by
  rw [endRun_eq]

end Traffic

namespace Histogram

theorem empty_bins (i : Fin binCount) : empty.bins[i] = 0 := by
  simp [empty]

theorem record_bins (h : Histogram) (us : Nat) (i : Fin binCount) :
    (h.record us).bins[i] = h.bins[i] + if binOf us = i then 1 else 0 := by
  by_cases hi : binOf us = i
  · subst hi
    simp [record]
  · have hne : ((binOf us : Fin binCount) : Nat) ≠ i := fun hc => hi (Fin.ext hc)
    simp [record, Vector.getElem_set_ne, hne, hi]

end Histogram

namespace Entry

/-- The number in a field. -/
def value (e : Entry) : Field → Nat
  | .accesses d => (e.traffic d).count
  | .blocks d => (e.traffic d).blocks
  | .sequential d => (e.traffic d).sequential
  | .random d => (e.traffic d).random
  | .bin d i => (e.traffic d).latency.bins[i]
  | .extensions => e.extensions
  | .extendedBlocks => e.extendedBlocks
  | .truncations => e.truncations
  | .syncs => e.syncs

@[simp] theorem traffic_touch (e : Entry) (now : Int) (d : Direction) :
    (e.touch now).traffic d = e.traffic d := by
  cases d <;> rfl

theorem traffic_withTraffic (e : Entry) (d d' : Direction) (f : Traffic → Traffic) :
    (e.withTraffic d f).traffic d' = if d = d' then f (e.traffic d) else e.traffic d' := by
  cases d <;> cases d' <;> rfl

@[simp] theorem traffic_new (k : Key) (d : Direction) : (new k).traffic d = {} := by
  cases d <;> rfl

@[simp] theorem traffic_reset (e : Entry) (d : Direction) :
    e.reset.traffic d = { last := (e.traffic d).last } := by
  cases d <;> rfl

@[simp] theorem value_touch (e : Entry) (now : Int) (f : Field) :
    (e.touch now).value f = e.value f := by
  cases f <;> simp only [value, traffic_touch] <;> rfl

@[simp] theorem value_new (k : Key) (f : Field) : (new k).value f = 0 := by
  cases f <;> simp only [value, traffic_new] <;> first | rfl | exact Histogram.empty_bins _

@[simp] theorem value_reset (e : Entry) (f : Field) : e.reset.value f = 0 := by
  cases f <;> simp only [value, traffic_reset] <;> first | rfl | exact Histogram.empty_bins _

/-- A run that ends does not count by itself. -/
@[simp] theorem value_endRun (e : Entry) (d : Direction) (n : Nat) (f : Field) :
    (e.withTraffic d fun t => t.endRun n).value f = e.value f := by
  cases f with
  | extensions | extendedBlocks | truncations | syncs => cases d <;> rfl
  | accesses d' | blocks d' | sequential d' | random d' | bin d' i =>
    simp only [value, traffic_withTraffic]
    split
    · subst d'
      simp
    · rfl

theorem value_account (e : Entry) (d : Direction) (blocks us : Nat) (a : Access) (now : Int)
    (f : Field) :
    (e.account d blocks us a now).value f =
      e.value f + (Charge.access d blocks us a).amount f := by
  -- a field of the other direction is in another record, and is not touched
  rw [account, value_touch]
  cases f with
  | extensions | extendedBlocks | truncations | syncs => cases d <;> rfl
  | accesses d' | blocks d' | sequential d' | random d' =>
    simp only [value, traffic_withTraffic, Charge.amount]
    by_cases hd : d = d'
    · subst hd
      cases ha : a.sequential <;> simp [Traffic.account, Traffic.classify, ha]
    · simp [hd]
  | bin d' i =>
    simp only [value, traffic_withTraffic, Charge.amount]
    by_cases hd : d = d'
    · subst hd
      have hlatency : ((e.traffic d).account blocks us a now).latency
          = (e.traffic d).latency.record us := by
        cases ha : a.sequential <;> simp [Traffic.account, Traffic.classify, ha]
      simpa [hlatency] using Histogram.record_bins (e.traffic d).latency us i
    · simp [hd]

/-- A charge raises each field by its amount. -/
theorem value_apply (c : Charge) (now : Int) (e : Entry) (f : Field) :
    (c.apply now e).value f = e.value f + c.amount f := by
  cases c with
  | access d blocks us a => exact value_account e d blocks us a now f
  | extension blocks | truncation | sync =>
    rw [Charge.apply, value_touch]
    cases f <;> rfl

/-- Identities are no figures. -/
@[simp] theorem value_identify (e : Entry) (i : Identity) (f : Field) :
    (e.identify i).value f = e.value f := by
  unfold identify
  split
  · cases f with
    | accesses d | blocks d | sequential d | random d | bin d _ => cases d <;> rfl
    | _ => rfl
  · rfl

end Entry

end BlockLedger
