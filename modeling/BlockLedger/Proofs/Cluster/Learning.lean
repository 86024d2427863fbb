import BlockLedger.Cluster
import BlockLedger.Proofs.Store.Known

/-
# Finding identities out

Whoever finds identities out, a backend or the collector, does no more to the ledger than to offer
them to entries and to report.  However often that is done, no entry comes or goes, and the ring is
left alone.
-/

namespace BlockLedger

namespace Store

variable (s : Store) (i : Identity) (k k' : Key)

theorem isSome_identify : ((s.identify k i).1.find? k').isSome = (s.find? k').isSome := by
  rw [find?_identify]
  split
  · subst k'
    simp
  · rfl

theorem isSome_identifyAll (ks : List Key) :
    ((s.identifyAll i ks).2.find? k).isSome = (s.find? k).isSome := by
  induction ks generalizing s with
  | nil => rfl
  | cons k' rest ih => exact (ih _).trans (s.isSome_identify i k' k)

/-- An offer neither creates nor removes an entry. -/
theorem isSome_resolve : ((s.resolve k i).2.find? k').isSome = (s.find? k').isSome := by
  have hself := s.isSome_identify i k k'
  unfold resolve
  rcases h : s.identify k i with ⟨t, _ | _⟩ <;> rw [h] at hself
  · exact hself
  · exact (t.isSome_identifyAll i k' k.siblings).trans hself

end Store

namespace Ledger

/-- A ledger goes on, and all that happens to it is that identities are offered and that something
is reported. -/
inductive Learns (l : Ledger) : Ledger → Prop
  | refl : Learns l l
  | offer {l' : Ledger} (h : Learns l l') (key : Key) (i : Identity) :
      Learns l { l' with store := (l'.store.resolve key i).2 }
  | report {l' : Ledger} (h : Learns l l') (e : Event) : Learns l (l'.report e)

namespace Learns

variable {l l' l'' : Ledger}

theorem trans (h : l.Learns l') (h' : l'.Learns l'') : l.Learns l'' := by
  induction h' with
  | refl => exact h
  | offer _ key i ih => exact ih.offer key i
  | report _ e ih => exact ih.report e

theorem ring (h : l.Learns l') : l'.ring = l.ring := by
  induction h with
  | refl => rfl
  | offer _ key i ih => exact ih
  | report _ e ih => exact ih

theorem isSome (h : l.Learns l') (k : Key) :
    (l'.store.find? k).isSome = (l.store.find? k).isSome := by
  induction h with
  | refl => rfl
  | offer _ key i ih => exact (Store.isSome_resolve _ i key k).trans ih
  | report _ e ih => exact ih

end Learns

end Ledger

section Catalog

variable {C : Type} [Catalog C]

/-! ## Pending keys -/

theorem Pending.ask_learns (session : Session) (key : Key) (l : Ledger) (catalog : C) :
    l.Learns (ask session key l catalog).2.1 := by
  unfold ask
  split
  · exact .offer .refl key _
  · exact .report .refl _
  · exact .refl
  · exact .report .refl _

theorem Pending.settle_learns (session : Session) (key : Key) (l : Ledger) (catalog : C) :
    l.Learns (settle session key l catalog).2.1 := by
  unfold settle
  split
  · exact .refl
  · split
    · exact .refl
    · exact ask_learns session key l catalog

theorem Pending.settleAll_learns (session : Session) (ks : List Key) (l : Ledger) (catalog : C) :
    l.Learns (settleAll session ks l catalog).2.1 := by
  induction ks generalizing l catalog with
  | nil => exact .refl
  | cons k rest ih => exact (settle_learns session k l catalog).trans (ih _ _)

/-! ## Class tables -/

theorem Bulk.schemaName_learns (schema : Oid) (l : Ledger) (catalog : C) :
    l.Learns (schemaName schema l catalog).2.1 := by
  unfold schemaName
  split
  · exact .refl
  · exact .report .refl _

theorem Bulk.applyAll_learns (ts : List (Key × ClassTuple)) (l : Ledger) (catalog : C) :
    l.Learns (applyAll ts l catalog).2.1 := by
  induction ts generalizing l catalog with
  | nil => exact .refl
  | cons t rest ih =>
    have hname := schemaName_learns t.2.schema l catalog
    exact (hname.offer t.1 (identityOf t.2 (schemaName t.2.schema l catalog).1)).trans (ih _ _)

theorem Bulk.scan_learns (pages : ClassPages) (database tablespace : Oid) (count page : Nat)
    (l : Ledger) (catalog : C) :
    l.Learns (scan pages database tablespace count page l catalog).2.1 := by
  induction count generalizing page l catalog with
  | zero => exact .refl
  | succ count ih =>
    unfold scan
    split
    · exact .refl
    · rename_i tuples _
      have hpage := applyAll_learns (candidates l.store database tablespace maxCandidates tuples)
        l catalog
      rcases happly : applyAll (candidates l.store database tablespace maxCandidates tuples) l
        catalog with ⟨n, l', catalog'⟩
      rw [happly] at hpage
      -- what has been found stays, even if a later page cannot be read
      have hrest := hpage.trans (ih (page + 1) l' catalog')
      dsimp only
      split <;> rename_i heq <;> rw [heq] at hrest <;> exact hrest

theorem Bulk.resolveDatabase_learns (pages : ClassPages) (database tablespace : Oid) (l : Ledger)
    (catalog : C) : l.Learns (resolveDatabase pages database tablespace l catalog).2.1 := by
  unfold resolveDatabase
  split
  · exact .refl
  · exact .refl
  · rename_i count _ _
    have hscan := scan_learns pages database tablespace count 0 l catalog
    split <;> rename_i heq <;> rw [heq] at hscan
    · exact hscan.report _
    · exact hscan

/-! ## Backends -/

theorem Backend.resolvePending_learns (b : Backend) (l : Ledger) (catalog : C) :
    l.Learns (b.resolvePending l catalog).2.2.1 :=
  Pending.settleAll_learns b.session b.pending l catalog

theorem Backend.resolveCreated_learns (b : Backend) (database tablespace : Oid) (l : Ledger)
    (catalog : C) : l.Learns (b.resolveCreated database tablespace l catalog).1 := by
  unfold resolveCreated
  split
  · exact .report .refl _
  · rename_i pages _
    have hbulk := Bulk.resolveDatabase_learns pages database tablespace l catalog
    split <;> rename_i heq <;> rw [heq] at hbulk <;> exact hbulk.report _

theorem Backend.finish_learns (b : Backend) (work : Work) (l : Ledger) (catalog : C) :
    l.Learns (b.finish work l catalog).2.2.1 := by
  unfold finish
  split
  · exact (b.resolveCreated_learns _ _ l catalog).trans (b.resolvePending_learns _ _)
  · exact b.resolvePending_learns l catalog

/-! ## The collector -/

namespace Collector

theorem identityFor_learns (session : Session) (key : Key) (l : Ledger) (catalog : C) :
    l.Learns (identityFor session key l catalog).2.1 := by
  unfold identityFor
  split
  · exact .refl
  · split
    · exact .offer .refl key _
    · exact .report .refl _
    · exact .refl

theorem identifyCopies_learns (session : Session) (es : List Entry) (found : Found) (l : Ledger)
    (catalog : C) : l.Learns (identifyCopies session es found l catalog).2.1 := by
  induction es generalizing found l catalog with
  | nil => exact .refl
  | cons e rest ih =>
    unfold identifyCopies
    split
    · exact ih found l catalog
    · split
      · exact ih found l catalog
      · have hfor := identityFor_learns session e.key l catalog
        split <;> rename_i heq <;> rw [heq] at hfor <;> exact hfor.trans (ih _ _ _)

theorem identifyAll_learns (session : Session) (es : List Entry) (l : Ledger) (catalog : C) :
    l.Learns (identifyAll session es l catalog).2.1 :=
  identifyCopies_learns session.enter es {} l catalog

end Collector

end Catalog

end BlockLedger
