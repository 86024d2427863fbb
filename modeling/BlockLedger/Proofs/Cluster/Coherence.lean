import BlockLedger.Proofs.Cluster.Leftover
import BlockLedger.Proofs.Store.Coherence

/-
# Every entry stays coherent

In an interplay whose clock does not read 0, wherever else it may be put, the figures of all live
entries agree with each other at any time, and so do those of all copies that snapshots take, whether
they close a bucket or not.  The times between accesses are counted across buckets: a period has as
many of them as accesses, but for the one in which the key was accessed for the first time.
-/

namespace BlockLedger

namespace Interplay

variable {P C S : Type}

/-- A snapshot that closes nothing takes along live entries as they are. -/
theorem Sound.find?_of_mem_peek {s : Interplay P C S} (hs : s.Sound) {e : Entry}
    (he : e ∈ s.store.peek) : s.store.find? e.key = some e := by
  obtain ⟨k, -, hk⟩ := List.mem_filterMap.mp (List.mem_of_mem_filter he)
  rw [hs.keyed k e hk]
  exact hk

variable [Catalog C] [Sink S] [QuietSink S]

/-- Live entries, copies of closing snapshots and copies of other snapshots are coherent, and have as
many gaps as they should have after the copies of their key that were taken before them. -/
theorem stays_coherent (blank : P) (settings : Settings) (clock : Clock) (catalog : C)
    (session : Session) (sink : S) (acts : List (Act P)) (hnow : clock.now ≠ 0)
    (hticks : ∀ c, .tick c ∈ acts → c.now ≠ 0) :
    let start : Interplay P C S := start settings clock catalog session sink
    let now := start.run blank acts
    (∀ k e, now.store.find? k = some e → e.key = k ∧ e.Follows now.collected) ∧
      (∀ before e after, now.collected = before ++ e :: after → e.Follows before) ∧
      ∀ e ∈ now.store.peek, now.store.find? e.key = some e := by
  intro start now
  have hstart : start.Sound := start_sound settings clock catalog session sink
  obtain ⟨hsound, hpath, hcollected⟩ := hstart.run blank acts
  have hempty : ∀ k, Store.Regular k [] (start.store.find? k) := by
    intro k
    rw [start_store]
    exact fun _ => rfl
  have hclock := hstart.now_ne_zero blank hnow hticks
  obtain ⟨hlive, hcopies⟩ := hpath.regular hstart.keyed hempty hclock
  have hall : now.collected = copies (start.trace blank acts) := hcollected
  rw [← hall] at hlive hcopies
  refine ⟨fun k e he => ?_, hcopies, fun e he => hsound.find?_of_mem_peek he⟩
  have hkey : e.key = k := hsound.keyed k e he
  have hregular := hlive k
  rw [he] at hregular
  exact ⟨hkey, hregular.follows hkey⟩

/-- The first write to a key has no gap before it. -/
theorem stays_coherent_writing :
    (1 : Int) ≠ 0 ∧ (∀ c, .tick c ∈ writing → c.now ≠ 0) ∧
      ∃ e, (begun.run () writing).store.find? grown = some e ∧ e.Coherent ∧ e.firstAccess ≠ 0 ∧
        (e.traffic .write).count = 1 ∧ (e.traffic .write).gaps.count = 0 := by
  have hticks : ∀ c, .tick c ∈ writing → c.now ≠ 0 := by simp [writing]
  obtain ⟨he, -⟩ := writing_leaves
  have hoperations : writtenEntry.operations = 2 := rfl
  have hcount : (writtenEntry.traffic .write).count = 1 := rfl
  obtain ⟨-, hcoherent, hspaced⟩ := (stays_coherent () {} { now := 1 } ListedCatalog.empty {}
    (default : History) writing (by decide) hticks).1 grown _ he
  -- no bucket has been closed, so this is the period of the first write
  have hnone : (begun.run () writing).collected = [] := rfl
  have hgaps : (writtenEntry.traffic .write).Spaced (Store.held writtenEntry.key
      (.accesses .write) (begun.run () writing).collected) := hspaced .write
  rw [hnone, Traffic.Spaced, hcount, if_pos ⟨rfl, by decide⟩] at hgaps
  refine ⟨by decide, hticks, _, he, hcoherent, ?_, hcount, Nat.succ.inj hgaps⟩
  rw [hcoherent.activity, hoperations]
  decide

end Interplay

end BlockLedger
