import BlockLedger.Proofs.Cluster.Interplay
import BlockLedger.Proofs.Store.Order

/-
# A closing snapshot that nobody interrupts

The steps that a closing snapshot is cut into are steps of the snapshot that is taken in one go.
Carried out one right after the other they come to the same store, hand back the same copies and
close the same bucket.  This rests on the order of the keys: the keys of all partitions, put
together, are all keys, and coming to an entry neither adds nor removes a key.
-/

namespace BlockLedger

namespace Interplay

variable {P C S : Type}

/-- An interplay with another store, and with a closing snapshot under way. -/
def onWalk (s : Interplay P C S) (store : Store) (w : Walk) : Interplay P C S :=
  { s.withStore store with walk := some w }

/-- The keys of the first `n` partitions. -/
def keysBefore (s : Store) (n : Nat) : List Key :=
  (List.range n).flatMap fun p => s.keys.filter fun k => k.partition = p

/-- The steps of a closing snapshot through the first `n` partitions of a store. -/
def through (s : Store) (n : Nat) : List (Act P) :=
  (List.range n).flatMap fun p => .list :: (s.keys.filter fun k => k.partition = p).map .visit

/-- All steps of a closing snapshot of a store. -/
def uncut (s : Store) : List (Act P) :=
  .openWalk :: (through s Key.partitionCount ++ [.endWalk])

variable [Catalog C] [Sink S] (blank : P) (s : Interplay P C S) (store : Store)

theorem run_append (acts acts' : List (Act P)) :
    s.run blank (acts ++ acts') = (s.run blank acts).run blank acts' :=
  List.foldl_append

theorem run_visits (w : Walk) :
    (s.onWalk store w).run blank (w.ahead.map .visit) =
      s.onWalk (store.takeAll w.ahead).2
        { w with ahead := [], copies := w.copies ++ (store.takeAll w.ahead).1 } := by
  obtain ⟨bucket, next, ahead, copies⟩ := w
  induction ahead generalizing store copies with
  | nil => simp [run, Store.takeAll]
  | cons k rest ih =>
    have hvisit : (s.onWalk store ⟨bucket, next, k :: rest, copies⟩).step blank (.visit k) =
        s.onWalk (store.take k).2 ⟨bucket, next, rest, copies ++ (store.take k).1.toList⟩ := by
      simp [step, onWalk, withStore, withCluster, Interplay.store, Cluster.withLedger]
    have hrest := ih (store.take k).2 (copies ++ (store.take k).1.toList)
    rw [List.map_cons, run, List.foldl_cons, hvisit]
    simpa [run, Store.takeAll_cons] using hrest

/-- Going through partitions comes to the entries of their keys, one after the other. -/
theorem run_through (bucket n : Nat) (hn : n ≤ Key.partitionCount) :
    (s.onWalk store { bucket }).run blank (through store n) =
      s.onWalk (store.takeAll (keysBefore store n)).2
        { bucket, next := n, copies := (store.takeAll (keysBefore store n)).1 } := by
  induction n with
  | zero => rfl
  | succ n ih =>
    set reached := store.takeAll (keysBefore store n) with hreached
    set keys := store.keys.filter fun k => k.partition = n with hkeys
    have hlist : (s.onWalk reached.2 { bucket, next := n, copies := reached.1 }).step blank .list =
        s.onWalk reached.2 { bucket, next := n + 1, ahead := keys, copies := reached.1 } := by
      have hstore : reached.2.keys = store.keys := store.keys_takeAll _
      have hlt : n < Key.partitionCount := hn
      simp [step, onWalk, withStore, withCluster, Interplay.store, Cluster.withLedger, hlt, hstore,
        hkeys]
    have hthrough : (through store (n + 1) : List (Act P)) =
        through store n ++ .list :: keys.map .visit := by
      simp [through, List.range_succ, hkeys]
    have hbefore : keysBefore store (n + 1) = keysBefore store n ++ keys := by
      simp [keysBefore, List.range_succ, hkeys]
    rw [hthrough, run_append, ih (Nat.le_of_succ_le hn), run, List.foldl_cons, hlist, hbefore,
      Store.takeAll_append]
    exact s.run_visits blank reached.2 _

/-- A closing snapshot can be taken in one go or step by step. -/
theorem run_uncut (hwalk : s.walk = none) :
    s.run blank (uncut s.store) = s.step blank .close := by
  -- turning to the next bucket leaves the keys as they are
  set turned := s.store.nextBucket.2
  have hopen : s.step blank .openWalk = s.onWalk turned { bucket := s.store.bucket } := by
    simp only [step, hwalk]
    rfl
  have hthrough := s.run_through blank turned s.store.bucket _ (Nat.le_refl _)
  have hkeys : keysBefore turned Key.partitionCount = turned.keys := turned.keys_eq_flatMap.symm
  rw [hkeys] at hthrough
  have hend : ∀ (t : Store) (bucket : Nat) (copies : List Entry),
      (s.onWalk t { bucket, next := Key.partitionCount, copies }).step blank .endWalk =
        (s.withStore t).handBack bucket copies := by
    intro t bucket copies
    simp [step, onWalk, Interplay.handBack]
  calc s.run blank (uncut s.store)
      = ((s.step blank .openWalk).run blank (through turned Key.partitionCount)).step blank
          .endWalk := by
        rw [uncut, ← run_concat]
        rfl
    _ = (s.withStore (turned.takeAll turned.keys).2).handBack s.store.bucket
          (turned.takeAll turned.keys).1 := by rw [hopen, hthrough, hend]
    _ = s.step blank .close := by
        simp only [step, hwalk]
        rfl

end Interplay

end BlockLedger
