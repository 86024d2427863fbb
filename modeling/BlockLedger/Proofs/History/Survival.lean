import BlockLedger.Catalog.Listed
import BlockLedger.Proofs.Cluster.Moves
import Mathlib.Tactic.Set

/-
# When a cycle survives

A collection cycle over history ends in a report or in a crash.  Whatever the store holds, whatever
the catalogs answer and whatever lies in the folder, there is only one thing that it can crash at:
the time before which segments are to be removed.  The calendar has a first second, and a retention
that reaches back behind it takes the collector with it, though settings with such a retention are
accepted.
-/

namespace BlockLedger

namespace Timestamp

theorem isSome_ofMicros? (micros : Int) :
    (ofMicros? micros).isSome = true ↔
      minSeconds ≤ micros.fdiv 1000000 ∧ micros.fdiv 1000000 ≤ maxSeconds := by
  unfold ofMicros?
  dsimp only
  split <;> rename_i hrange <;> simp [hrange]

end Timestamp

namespace History

/-- The calendar reaches back as many hours before a time. -/
def Reachable (now : Int) (hours : Nat) : Prop :=
  Timestamp.minSeconds + 3600 * hours ≤ now.fdiv 1000000

instance (now : Int) (hours : Nat) : Decidable (Reachable now hours) :=
  inferInstanceAs (Decidable (_ ≤ _))

/-- Whole hours are whole seconds. -/
theorem fdiv_limit (now : Int) (hours : Nat) :
    (limit now hours).fdiv 1000000 = now.fdiv 1000000 - 3600 * hours := by
  unfold limit
  rw [Int.fdiv_eq_ediv_of_nonneg _ (by decide), Int.fdiv_eq_ediv_of_nonneg _ (by decide)]
  omega

/-- Only the start of the calendar is in the way, for the limit does not lie in the future. -/
theorem isSome_limit {now : Int} (hnow : (Timestamp.ofMicros? now).isSome = true) (hours : Nat) :
    (Timestamp.ofMicros? (limit now hours)).isSome = true ↔ Reachable now hours := by
  rw [Timestamp.isSome_ofMicros?] at hnow
  rw [Timestamp.isSome_ofMicros?, fdiv_limit, Reachable]
  omega

/-- Nothing is trimmed without a folder, and nothing is looked up in the calendar for 0 hours. -/
def Trimmable (h : History) (hours : Nat) (now : Int) : Prop :=
  h.folder = none ∨ hours = 0 ∨ Reachable now hours

theorem trim_survives_iff (h : History) (hours : Nat) {now : Int}
    (hnow : (Timestamp.ofMicros? now).isSome = true) :
    (h.trim hours now).1 ≠ .outOfCalendar ↔ h.Trimmable hours now := by
  rw [Trimmable, ← isSome_limit hnow]
  unfold trim
  cases h.folder with
  | none => simp
  | some f =>
    dsimp only
    by_cases hzero : hours = 0
    · simp [hzero]
    · cases hlimit : Timestamp.ofMicros? (limit now hours) <;> simp [hzero]

/-- A record leaves the folder where it is. -/
theorem folder_store (h : History) (r : SegmentRecord) :
    (h.store r).2.2.folder = none ↔ h.folder = none := by
  unfold store
  cases hfolder : h.folder with
  | none => simp [hfolder]
  | some f =>
    dsimp only
    rcases f.run (writeSteps h.compress r) with ⟨_ | e, f'⟩ <;> simp

end History

namespace Collector

/-- Handing a record to history ends in no crash. -/
theorem persist_survives (r : SegmentRecord) (l : Ledger) (h : History) :
    ∃ taken, (persist r l h).1 = some taken := by
  unfold persist
  split
  · exact ⟨true, rfl⟩
  · simp only [Sink.store]
    rcases h.store r with ⟨_ | e, events, h'⟩
    · exact ⟨true, rfl⟩
    · exact ⟨false, rfl⟩

theorem folder_persist (r : SegmentRecord) (l : Ledger) (h : History) :
    (persist r l h).2.2.folder = none ↔ h.folder = none := by
  have hfolder := h.folder_store r
  unfold persist
  split
  · exact Iff.rfl
  · simp only [Sink.store]
    rcases hstore : h.store r with ⟨_ | e, events, h'⟩ <;> rw [hstore] at hfolder <;> exact hfolder

theorem trimTime_of_isSome {clock : Clock} {t : Int}
    (h : (Timestamp.ofMicros? t).isSome = true) : trimTime clock t = t :=
  if_pos h

theorem trim_survives_iff (l : Ledger) (h : History)
    (hclock : (Timestamp.ofMicros? l.clock.now).isSome = true) :
    (trim l.clock.now l h).1 = true ↔ h.Trimmable l.tunables.retention l.clock.now := by
  have htrim := h.trim_survives_iff l.tunables.retention hclock
  unfold trim
  by_cases hzero : l.tunables.retention = 0
  · simp [hzero, History.Trimmable]
  · rw [if_neg hzero, trimTime_of_isSome hclock, ← htrim]
    simp only [Sink.trim]
    rcases h.trim l.tunables.retention l.clock.now with ⟨_ | _ | _, events, h'⟩ <;> simp

/-- What is collected is always handed over; after that history is trimmed. -/
theorem deliver_survives_iff (bucket : Nat) (es : List Entry) (resolved : Nat)
    (associations : List Association) (l : Ledger) (h : History)
    (hclock : (Timestamp.ofMicros? l.clock.now).isSome = true) :
    (∃ report, (deliver bucket es resolved associations l h).1 = some report) ↔
      h.Trimmable l.tunables.retention l.clock.now := by
  obtain ⟨j₁, hquiet₁⟩ := persist_quiet (.bucket ⟨bucket, l.clock.now, es⟩) l h
  obtain ⟨first, hfirst⟩ := persist_survives (.bucket ⟨bucket, l.clock.now, es⟩) l h
  have hfolder₁ := folder_persist (.bucket ⟨bucket, l.clock.now, es⟩) l h
  unfold deliver
  dsimp only
  rcases hbucket : persist (.bucket ⟨bucket, l.clock.now, es⟩) l h with ⟨o₁, l₁, h₁⟩
  rw [hbucket] at hquiet₁ hfirst hfolder₁
  subst hquiet₁ hfirst
  dsimp only
  set r := SegmentRecord.associations ⟨bucket, l.clock.now, associations⟩
  obtain ⟨j₂, hquiet₂⟩ := persist_quiet r { l with journal := j₁ } h₁
  obtain ⟨second, hsecond⟩ := persist_survives r { l with journal := j₁ } h₁
  have hfolder₂ := folder_persist r { l with journal := j₁ } h₁
  rcases hassociations : persist r { l with journal := j₁ } h₁ with ⟨o₂, l₂, h₂⟩
  rw [hassociations] at hquiet₂ hsecond hfolder₂
  subst hquiet₂ hsecond
  dsimp only
  have htrim := trim_survives_iff { l with journal := j₂ } h₂ hclock
  have htrimmable : h₂.Trimmable l.tunables.retention l.clock.now ↔
      h.Trimmable l.tunables.retention l.clock.now := by
    rw [History.Trimmable, History.Trimmable, hfolder₂, hfolder₁]
  rw [← htrimmable, ← htrim]
  rcases trim l.clock.now { l with journal := j₂ } h₂ with ⟨_ | _, l₃, h₃⟩ <;> simp

variable {C : Type} [Catalog C]

theorem cycle_survives_iff (session : Session) (l : Ledger) (catalog : C) (h : History)
    (hclock : (Timestamp.ofMicros? l.clock.now).isSome = true) :
    (∃ report, (cycle session l catalog h).1 = some report) ↔
      h.Trimmable l.tunables.retention l.clock.now := by
  rw [cycle_eq]
  set closed : Ledger := { l with store := l.store.close.2.2 }
  have hidentify := (identifyAll_learns session l.store.close.2.1 closed catalog).moves
  unfold conclude
  rcases hall : identifyAll session l.store.close.2.1 closed catalog with
    ⟨⟨copies, resolved⟩, l₁, catalog₁⟩
  rw [hall] at hidentify
  have hdrain := hidentify.trans_silent (drain_moves l₁)
  dsimp only
  have hdeliver := deliver_survives_iff l.store.close.1 copies resolved (drain l₁).1 (drain l₁).2 h
    (by rw [hdrain.clock]; exact hclock)
  rw [hdrain.clock, hdrain.tunables] at hdeliver
  exact hdeliver

/-- Over history, a cycle comes to a report and trimming to an outcome exactly if the calendar
reaches back far enough, or nothing is to be trimmed.  It does not matter what is in the ledger, what
the catalog answers and what is in the folder. -/
theorem survives_iff (session : Session) (l : Ledger) (catalog : C) (h : History)
    (hclock : (Timestamp.ofMicros? l.clock.now).isSome = true) :
    ((∃ report, (cycle session l catalog h).1 = some report) ↔
      h.folder = none ∨ l.tunables.retention = 0 ∨
        Timestamp.minSeconds + 3600 * l.tunables.retention ≤ l.clock.now.fdiv 1000000) ∧
    ∀ hours, ((∃ t, (h.trim hours l.clock.now).1 = .done t) ∨
        (∃ e, (h.trim hours l.clock.now).1 = .failed e) ↔
      h.folder = none ∨ hours = 0 ∨
        Timestamp.minSeconds + 3600 * hours ≤ l.clock.now.fdiv 1000000) := by
  refine ⟨cycle_survives_iff session l catalog h hclock, fun hours => ?_⟩
  have htrim := h.trim_survives_iff hours hclock
  rw [← History.Reachable, ← History.Trimmable, ← htrim]
  rcases h.trim hours l.clock.now with ⟨_ | _ | _, events, h'⟩ <;> simp

/-- An empty folder. -/
def emptyHistory : History := { base := "history", folder := some {} }

/-- A ledger in the year 2026, with a retention. -/
def dated (retention : Nat) : Ledger :=
  .start { retention } { now := 1792418400000000 }

/-- With a retention of 228000 years a cycle comes to its report. -/
theorem survives_far_back :
    ∃ report, (cycle {} (dated 2000000000) ListedCatalog.empty emptyHistory).1 = some report := by
  have hclock : (Timestamp.ofMicros? (dated 2000000000).clock.now).isSome = true := by
    decide
  exact (survives_iff {} (dated 2000000000) ListedCatalog.empty emptyHistory hclock).1.mpr
    (.inr (.inr (by decide)))

/-- The greatest retention that fits its word is accepted, and every cycle crashes at it. -/
theorem crashes_at_greatest_retention :
    let settings : Settings := { retention := 4294967295 }
    settings.validate = .ok () ∧ settings.retention < 2 ^ 32 ∧
      (Timestamp.ofMicros? (dated settings.retention).clock.now).isSome = true ∧
      (cycle {} (dated settings.retention) ListedCatalog.empty emptyHistory).1 = none ∧
      (emptyHistory.trim settings.retention (dated settings.retention).clock.now).1 =
        .outOfCalendar := by
  intro settings
  have hclock : (Timestamp.ofMicros? (dated settings.retention).clock.now).isSome = true := by
    decide
  have hbehind : ¬emptyHistory.Trimmable settings.retention 1792418400000000 := by
    rintro (hnone | hzero | hreach)
    · cases hnone
    · cases hzero
    · revert hreach
      decide
  have hcycle := (cycle_survives_iff {} (dated settings.retention) ListedCatalog.empty emptyHistory
    hclock).not.mpr hbehind
  have htrim := (emptyHistory.trim_survives_iff settings.retention hclock).not.mpr hbehind
  refine ⟨rfl, by decide, hclock, ?_, Classical.not_not.mp htrim⟩
  cases hreport : (cycle {} (dated settings.retention) ListedCatalog.empty emptyHistory).1 with
  | none => rfl
  | some report => exact absurd ⟨report, hreport⟩ hcycle

end Collector

end BlockLedger
