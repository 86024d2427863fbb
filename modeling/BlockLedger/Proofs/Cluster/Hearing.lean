import BlockLedger.Proofs.Cluster.Watching
import BlockLedger.Proofs.Store.Rightful
import Mathlib.Data.List.Forall2

/-
# Who may be told what

A catalog is asked by tablespace and number, and answers without regard to the database.  What it
says therefore holds good only for the database of the session that has asked, and for relations
that all databases share.  Backends and the collector mind this: a session asks only about its own
business, and what a class table says is given to keys of the database whose table it is.

All statements here are about watched catalogs.  Of what a session has been answered, what concerns
its own business is taken to have been told, and from this it follows that a rightful store stays
so.
-/

namespace BlockLedger

/-- A row of questions has been answered with `i` for a number in a tablespace: at once, or, after
there was none there, when the default tablespace was asked for next. -/
def Answered (inquiries : List Inquiry) (tablespace number : Oid) (i : Identity) : Prop :=
  ⟨tablespace, number, .ok (some i)⟩ ∈ inquiries ∨
    [⟨tablespace, number, .ok none⟩, ⟨0, number, .ok (some i)⟩] <:+: inquiries

theorem Answered.mono {qs qs' : List Inquiry} {tablespace number : Oid} {i : Identity}
    (h : Answered qs tablespace number i) (hqs : qs <+: qs') :
    Answered qs' tablespace number i :=
  h.imp (fun h => hqs.subset h) fun h => h.trans hqs.isInfix

/-- What a session has been answered about its own business has been told. -/
def Session.Hears (session : Session) (told : Locator → Identity → Prop)
    (inquiries : List Inquiry) : Prop :=
  ∀ l i, session.owns l.database = true → Answered inquiries l.tablespace l.number i → told l i

variable {told : Locator → Identity → Prop} {C S : Type} [Catalog C]

theorem Session.Hears.mono {session : Session} {qs qs' : List Inquiry}
    (h : session.Hears told qs') (hqs : qs <+: qs') : session.Hears told qs :=
  fun l i howns hanswered => h l i howns (hanswered.mono hqs)

/-! ## Asking the catalog -/

section Asking

variable (w : WatchedCatalog C)

theorem Catalog.search_inquiries (tablespace number : Oid) :
    w.inquiries <+: (search w tablespace number).2.inquiries := by
  unfold search
  simp only [relation]
  rcases relation w.catalog tablespace number with ⟨_ | _ | i, c⟩
  · exact List.prefix_append ..
  · dsimp only
    split
    · exact List.prefix_append ..
    · exact (List.prefix_append ..).trans (List.prefix_append ..)
  · exact List.prefix_append ..

theorem Catalog.search_answered {tablespace number : Oid} {i : Identity} {w' : WatchedCatalog C}
    (h : search w tablespace number = (.ok (some i), w')) :
    Answered w'.inquiries tablespace number i := by
  unfold search at h
  simp only [relation] at h
  rcases hfirst : relation w.catalog tablespace number with ⟨_ | _ | j, c⟩ <;>
    simp only [hfirst] at h
  · cases h
  · split at h
    · cases h
    · -- there was none, and then the default tablespace was asked for
      obtain ⟨hanswer, rfl⟩ := Prod.mk.inj h
      refine .inr ⟨w.inquiries, [], ?_⟩
      rw [hanswer]
      simp
  · obtain ⟨hanswer, rfl⟩ := Prod.mk.inj h
    refine .inl ?_
    rw [← hanswer]
    simp

theorem Catalog.find_inquiries (session : Session) (key : Key) :
    w.inquiries <+: (find w session key).2.inquiries := by
  have hsearch := search_inquiries w key.locator.tablespace key.locator.number
  unfold find
  split
  · exact List.prefix_refl _
  · split
    · exact List.prefix_refl _
    · rcases h : search w key.locator.tablespace key.locator.number with ⟨_ | _ | i, w'⟩ <;>
        rw [h] at hsearch <;> exact hsearch

theorem Catalog.find_answered {session : Session} {key : Key} {i : Identity}
    {w' : WatchedCatalog C} (hkey : key.isTemporaries = false)
    (h : find w session key = (.found i, w')) :
    Answered w'.inquiries key.locator.tablespace key.locator.number i := by
  unfold find at h
  rw [hkey] at h
  split at h
  · contradiction
  · split at h
    · cases h
    · rcases hsearch : search w key.locator.tablespace key.locator.number with ⟨_ | _ | j, c⟩ <;>
        rw [hsearch] at h <;> cases h
      exact search_answered w hsearch

end Asking

/-! ## Pending keys -/

namespace Pending

variable (w : WatchedCatalog C) (session : Session)

theorem ask_inquiries (key : Key) (l : Ledger) :
    w.inquiries <+: (ask session key l w).2.2.inquiries := by
  have hfind := Catalog.find_inquiries w session key
  unfold ask
  rcases h : Catalog.find w session key with ⟨_ | _ | _ | _, w'⟩ <;> rw [h] at hfind <;>
    exact hfind

theorem settle_inquiries (key : Key) (l : Ledger) :
    w.inquiries <+: (settle session key l w).2.2.inquiries := by
  unfold settle
  split
  · exact List.prefix_refl _
  · split
    · exact List.prefix_refl _
    · exact ask_inquiries w session key l

theorem settleAll_inquiries (ks : List Key) (l : Ledger) :
    w.inquiries <+: (settleAll session ks l w).2.2.inquiries := by
  induction ks generalizing l w with
  | nil => exact List.prefix_refl _
  | cons key rest ih => exact (settle_inquiries w session key l).trans (ih _ _)

variable {w session} {l : Ledger}

theorem ask_rightful {key : Key} (hs : l.store.Rightful told)
    (hkey : l.store.unresolved key = true) (howns : session.owns key.locator.database = true)
    (hears : session.Hears told (ask session key l w).2.2.inquiries) :
    (ask session key l w).2.1.store.Rightful told := by
  unfold ask at hears ⊢
  rcases h : Catalog.find w session key with ⟨_ | _ | _ | _, w'⟩ <;> rw [h] at hears
  · refine hs.resolve fun _ => hears key.locator _ howns ?_
    exact Catalog.find_answered w (hs.not_temporaries hkey) h
  · exact hs
  · exact hs
  · exact hs

theorem settle_rightful {key : Key} (hs : l.store.Rightful told)
    (hears : session.Hears told (settle session key l w).2.2.inquiries) :
    (settle session key l w).2.1.store.Rightful told := by
  unfold settle at hears ⊢
  split
  · exact hs
  · split
    · exact hs
    · rename_i howns hkey
      rw [if_neg howns, if_neg hkey] at hears
      exact ask_rightful hs (by simpa using hkey) (by simpa using howns) hears

theorem settleAll_rightful {ks : List Key} (hs : l.store.Rightful told)
    (hears : session.Hears told (settleAll session ks l w).2.2.inquiries) :
    (settleAll session ks l w).2.1.store.Rightful told := by
  induction ks generalizing l w with
  | nil => exact hs
  | cons key rest ih =>
    -- what has been asked for the first key is asked no later than what is asked for all
    have hfirst := hears.mono (settleAll_inquiries _ session rest _)
    exact ih (settle_rightful hs hfirst) hears

end Pending

/-! ## Class tables -/

namespace Bulk

/-- What the class table of a database says has been told. -/
def Tells (pages : ClassPages) (database tablespace : Oid) (told : Locator → Identity → Prop) :
    Prop :=
  ∀ n tuples t schema, pages.page database tablespace n = .ok tuples → t ∈ tuples →
    t.trackable = true → told (t.key database tablespace).locator (identityOf t schema)

theorem mem_candidates {s : Store} {database tablespace : Oid} {room : Nat}
    {tuples : List ClassTuple} {key : Key} {t : ClassTuple}
    (h : (key, t) ∈ candidates s database tablespace room tuples) :
    t ∈ tuples ∧ t.trackable = true ∧ key = t.key database tablespace := by
  induction tuples generalizing room with
  | nil => cases room <;> cases h
  | cons u rest ih =>
    cases room with
    | zero => cases h
    | succ room =>
      unfold candidates at h
      dsimp only at h
      split at h
      · rename_i hu
        rcases List.mem_cons.mp h with h | h
        · obtain ⟨rfl, rfl⟩ := Prod.mk.inj h
          rw [Bool.and_eq_true] at hu
          exact ⟨List.mem_cons_self, hu.1, rfl⟩
        · exact (ih h).imp_left (List.mem_cons_of_mem u)
      · exact (ih h).imp_left (List.mem_cons_of_mem u)

theorem applyAll_rightful {ts : List (Key × ClassTuple)} {l : Ledger} (catalog : C)
    (hs : l.store.Rightful told)
    (htells : ∀ key t schema, (key, t) ∈ ts → told key.locator (identityOf t schema)) :
    (applyAll ts l catalog).2.1.store.Rightful told := by
  induction ts generalizing l catalog with
  | nil => exact hs
  | cons kt rest ih =>
    obtain ⟨key, t⟩ := kt
    have hname : (schemaName t.schema l catalog).2.1.store.Rightful told := by
      unfold schemaName
      split <;> exact hs
    refine ih _ ?_ fun key' t' schema h => htells key' t' schema (List.mem_cons_of_mem _ h)
    exact hname.resolve fun _ => htells key t _ List.mem_cons_self

theorem scan_rightful {pages : ClassPages} {database tablespace : Oid}
    (htells : Tells pages database tablespace told) (count page : Nat) {l : Ledger} (catalog : C)
    (hs : l.store.Rightful told) :
    (scan pages database tablespace count page l catalog).2.1.store.Rightful told := by
  induction count generalizing page l catalog with
  | zero => exact hs
  | succ count ih =>
    unfold scan
    split
    · exact hs
    · rename_i tuples hread
      have hpage : (applyAll (candidates l.store database tablespace maxCandidates tuples) l
          catalog).2.1.store.Rightful told := by
        refine applyAll_rightful catalog hs fun key t schema h => ?_
        obtain ⟨hmem, htrackable, rfl⟩ := mem_candidates h
        exact htells page tuples t schema hread hmem htrackable
      rcases happly : applyAll (candidates l.store database tablespace maxCandidates tuples) l
        catalog with ⟨n, l', catalog'⟩
      rw [happly] at hpage
      have hrest := ih (page + 1) catalog' hpage
      dsimp only
      split <;> rename_i heq <;> rw [heq] at hrest <;> exact hrest

theorem resolveDatabase_rightful {pages : ClassPages} {database tablespace : Oid}
    (htells : Tells pages database tablespace told) {l : Ledger} (catalog : C)
    (hs : l.store.Rightful told) :
    (resolveDatabase pages database tablespace l catalog).2.1.store.Rightful told := by
  unfold resolveDatabase
  split
  · exact hs
  · exact hs
  · rename_i count _ _
    have hscan := scan_rightful htells count 0 catalog hs
    split <;> rename_i heq <;> rw [heq] at hscan <;> exact hscan

end Bulk

/-! ## Backends -/

namespace Backend

variable {b : Backend} {l : Ledger}

theorem resolvePending_rightful {w : WatchedCatalog C} (hs : l.store.Rightful told)
    (hears : b.session.Hears told (b.resolvePending l w).2.2.2.inquiries) :
    (b.resolvePending l w).2.2.1.store.Rightful told :=
  Pending.settleAll_rightful hs hears

theorem resolveCreated_rightful {database tablespace : Oid}
    (htells : ∀ pages, b.classes = some pages → Bulk.Tells pages database tablespace told)
    (catalog : C) (hs : l.store.Rightful told) :
    (b.resolveCreated database tablespace l catalog).1.store.Rightful told := by
  unfold resolveCreated
  split
  · exact hs
  · rename_i pages hpages
    have hbulk := Bulk.resolveDatabase_rightful (htells pages hpages) catalog hs
    split <;> rename_i heq <;> rw [heq] at hbulk <;> exact hbulk

theorem finish_rightful {work : Work} {w : WatchedCatalog C} (hs : l.store.Rightful told)
    (htells : ∀ database tablespace pages, work = .utility (some (database, tablespace)) true →
      b.classes = some pages → Bulk.Tells pages database tablespace told)
    (hears : b.session.Hears told (b.finish work l w).2.2.2.inquiries) :
    (b.finish work l w).2.2.1.store.Rightful told := by
  rcases work with _ | ⟨_ | ⟨database, tablespace⟩, _ | _⟩
  case utility.some.true =>
    exact resolvePending_rightful (resolveCreated_rightful (htells _ _ · rfl) w hs) hears
  all_goals exact resolvePending_rightful hs hears

theorem flushRuns_keeps (b : Backend) (l : Ledger) : l.store.Keeps (b.flushRuns l).2.2.store :=
  .of_known (l.store.known_endRuns · _)

theorem shutdown_rightful {w : WatchedCatalog C} (hs : l.store.Rightful told)
    (hears : b.session.Hears told (b.shutdown l w).2.2.2.inquiries) :
    (b.shutdown l w).2.2.1.store.Rightful told :=
  resolvePending_rightful (b := (b.flushRuns l).2.1) (hs.keeps (b.flushRuns_keeps l)) hears

end Backend

/-! ## The collector -/

namespace Collector

variable {w : WatchedCatalog C} {session : Session} {l : Ledger}

/-- All that has been found in a cycle has been told. -/
def Found.Told (told : Locator → Identity → Prop) (found : Found) : Prop :=
  ∀ m i, found[m]? = some i → i.valid = true → told m i

theorem Found.Told.insert {found : Found} (h : found.Told told) {m : Locator} {i : Identity}
    (hi : i.valid = true → told m i) : Found.Told told (found.insert m i) := by
  intro m' j hj
  rw [Std.HashMap.getElem?_insert] at hj
  split at hj
  · rename_i hm
    obtain rfl := eq_of_beq hm
    obtain rfl := Option.some.inj hj
    exact hi
  · exact h m' j hj

theorem identityFor_inquiries (session : Session) (key : Key) (l : Ledger)
    (w : WatchedCatalog C) : w.inquiries <+: (identityFor session key l w).2.2.inquiries := by
  have hfind := Catalog.find_inquiries w session key
  unfold identityFor
  split
  · exact List.prefix_refl _
  · rcases h : Catalog.find w session key with ⟨_ | _ | _ | _, w'⟩ <;> rw [h] at hfind <;>
      exact hfind

theorem identityFor_rightful {key : Key} (hs : l.store.Rightful told)
    (hkey : key.isTemporaries = false) (howns : session.owns key.locator.database = true)
    (hears : session.Hears told (identityFor session key l w).2.2.inquiries) :
    (identityFor session key l w).2.1.store.Rightful told ∧
      ∀ i, (identityFor session key l w).1 = some i → i.valid = true → told key.locator i := by
  unfold identityFor at hears ⊢
  split
  · -- what the live entry has by now was told before, since the store is rightful
    rename_i e he
    rw [Option.filter_eq_some_iff] at he
    refine ⟨hs, fun i hi hvalid => ?_⟩
    obtain rfl := Option.some.inj hi
    refine (hs key e.identity ?_).told_of_valid hkey hvalid
    rw [Store.known, he.1]
    rfl
  · rename_i hlive
    rw [hlive] at hears
    rcases h : Catalog.find w session key with ⟨i | _ | _ | _, w'⟩ <;> rw [h] at hears
    · have htold : told key.locator i :=
        hears key.locator i howns (Catalog.find_answered w hkey h)
      refine ⟨hs.resolve fun _ => htold, fun j hj _ => ?_⟩
      obtain rfl := Option.some.inj hj
      exact htold
    all_goals exact ⟨hs, fun _ h => by cases h⟩

theorem identifyCopies_inquiries (session : Session) (es : List Entry) (found : Found) (l : Ledger)
    (w : WatchedCatalog C) :
    w.inquiries <+: (identifyCopies session es found l w).2.2.inquiries := by
  induction es generalizing found l w with
  | nil => exact List.prefix_refl _
  | cons e rest ih =>
    unfold identifyCopies
    split
    · exact ih found l w
    · split
      · exact ih found l w
      · have hfor := identityFor_inquiries session e.key l w
        split <;> rename_i heq <;> rw [heq] at hfor <;> exact hfor.trans (ih _ _ _)

/-- What passing over copies comes to: they are rightful, and so is the store, and all that has been
found has been told. -/
structure Identified (told : Locator → Identity → Prop)
    (r : (List Entry × Nat × Found) × Ledger × WatchedCatalog C) : Prop where
  copies : ∀ e ∈ r.1.1, e.Rightful told
  found : Found.Told told r.1.2.2
  store : r.2.1.store.Rightful told

omit [Catalog C] in
theorem Identified.cons {r : (List Entry × Nat × Found) × Ledger × WatchedCatalog C}
    (h : Identified told r) {e : Entry} (he : e.Rightful told) (n : Nat) :
    Identified told ((e :: r.1.1, n, r.1.2.2), r.2) :=
  ⟨List.forall_mem_cons.mpr ⟨he, h.copies⟩, h.found, h.store⟩

/-- An identity that was found for one fork is given to the others, which is right because they lie at
the same locator, and because no copy that stands for temporary relations is without one. -/
theorem identifyCopies_identified {es : List Entry} {found : Found}
    (hs : l.store.Rightful told) (hes : ∀ e ∈ es, e.Rightful told) (hfound : found.Told told)
    (hears : session.Hears told (identifyCopies session es found l w).2.2.inquiries) :
    Identified told (identifyCopies session es found l w) := by
  induction es generalizing found l w with
  | nil => exact ⟨fun _ he => absurd he List.not_mem_nil, hfound, hs⟩
  | cons e rest ih =>
    obtain ⟨he, hrest⟩ := List.forall_mem_cons.mp hes
    unfold identifyCopies at hears ⊢
    split
    · rename_i hskip
      rw [if_pos hskip] at hears
      exact (ih hs hrest hfound hears).cons he _
    · rename_i hask
      rw [if_neg hask] at hears
      simp only [Bool.or_eq_true, Bool.not_eq_true', not_or, Bool.not_eq_true,
        Bool.not_eq_false] at hask
      have hkey := BlockLedger.Rightful.not_temporaries he hask.1
      split
      · rename_i i hi
        rw [hi] at hears
        refine (ih hs hrest hfound hears).cons ?_ _
        exact rightful_of_told hkey (hfound e.key.locator i hi)
      · rename_i hnone
        rw [hnone] at hears
        dsimp only at hears
        -- the questions for the copies behind this one come after those for this one
        have hfor := identityFor_rightful hs hkey hask.2 (w := w)
        rcases hi : identityFor session e.key l w with ⟨_ | i, l', w'⟩ <;> rw [hi] at hears hfor
        · obtain ⟨hs', -⟩ := hfor (hears.mono (identifyCopies_inquiries session rest found l' w'))
          exact (ih hs' hrest hfound hears).cons he _
        · obtain ⟨hs', htold⟩ := hfor (hears.mono (identifyCopies_inquiries session rest _ l' w'))
          refine (ih hs' hrest (hfound.insert (htold i rfl)) hears).cons ?_ _
          exact rightful_of_told hkey (htold i rfl)

theorem catchUp_rightful {found : Found} {es : List Entry} (hes : ∀ e ∈ es, e.Rightful told)
    (hfound : found.Told told) : ∀ e ∈ (catchUp found es).1, e.Rightful told := by
  induction es with
  | nil => exact hes
  | cons e rest ih =>
    obtain ⟨he, hrest⟩ := List.forall_mem_cons.mp hes
    unfold catchUp
    dsimp only
    split
    · exact List.forall_mem_cons.mpr ⟨he, ih hrest⟩
    · rename_i hunknown
      split
      · rename_i i hi
        refine List.forall_mem_cons.mpr ⟨?_, ih hrest⟩
        exact rightful_of_told (BlockLedger.Rightful.not_temporaries he (by simpa using hunknown))
          (hfound e.key.locator i hi)
      · exact List.forall_mem_cons.mpr ⟨he, ih hrest⟩

theorem identifyAll_rightful {es : List Entry} (hs : l.store.Rightful told)
    (hes : ∀ e ∈ es, e.Rightful told)
    (hears : session.Hears told (identifyAll session es l w).2.2.inquiries) :
    (∀ e ∈ (identifyAll session es l w).1.1, e.Rightful told) ∧
      (identifyAll session es l w).2.1.store.Rightful told := by
  have h : Identified told (identifyCopies session.enter es {} l w) :=
    identifyCopies_identified hs hes (fun _ _ h => by simp at h) hears
  exact ⟨catchUp_rightful h.copies h.found, h.store⟩

end Collector

/-! ## Records -/

/-- All identities in a record are rightful, if it is handed over when the store is `s`. -/
def SegmentRecord.Rightful (told : Locator → Identity → Prop) (s : Store) : SegmentRecord → Prop
  | .bucket r => ∀ e ∈ r.entries, e.Rightful told
  | .associations r => ∀ a ∈ r.associations, ∀ i, a.identity = some i →
      i.valid = true ∧ s.known ⟨a.source, a.fork⟩ = some i

namespace SegmentRecord

/-- What a sink is handed of a record: nothing, if there is nothing in it. -/
def offered (r : SegmentRecord) : List SegmentRecord := if r.size = 0 then [] else [r]

theorem eq_of_mem_offered {r x : SegmentRecord} (h : x ∈ r.offered) : x = r := by
  unfold offered at h
  split at h
  · cases h
  · exact List.mem_singleton.mp h

end SegmentRecord

namespace Collector

theorem drain_store (l : Ledger) : (drain l).2.store = l.store := by
  unfold drain
  split <;> rfl

/-- The identity that a relocation is given is what is known of the entry that the storage had
before. -/
theorem drain_known {l : Ledger} {a : Association} (ha : a ∈ (drain l).1) {i : Identity}
    (hi : a.identity = some i) :
    i.valid = true ∧ l.store.known ⟨a.source, a.fork⟩ = some i := by
  have hstore : (if 0 < l.ring.dropped then l.report (.relocationsLost l.ring.dropped)
      else l).store = l.store := by
    split <;> rfl
  unfold drain at ha
  dsimp only at ha
  rw [hstore] at ha
  obtain ⟨r, -, rfl⟩ := List.mem_map.mp ha
  rw [associate, Option.filter_eq_some_iff] at hi
  exact ⟨hi.2, hi.1⟩

variable [Sink S]

theorem deliver_store [QuietSink S] (bucket : Nat) (es : List Entry) (resolved : Nat)
    (associations : List Association) (l : Ledger) (sink : S) :
    (deliver bucket es resolved associations l sink).2.1.store = l.store := by
  obtain ⟨journal, h⟩ := deliver_quiet bucket es resolved associations l sink
  rw [h]

theorem persist_records (r : SegmentRecord) (l : Ledger) (w : WatchedSink S) :
    (persist r l w).2.2.records = w.records ++ r.offered := by
  unfold persist SegmentRecord.offered
  split
  · exact (List.append_nil _).symm
  · simp only [Sink.store]
    rcases Sink.store w.sink r l with ⟨_ | _ | _, sink, l'⟩ <;> rfl

theorem trim_records (collectedAt : Int) (l : Ledger) (w : WatchedSink S) :
    (trim collectedAt l w).2.2.records = w.records := by
  unfold trim
  split
  · rfl
  · simp only [Sink.trim]
    rcases Sink.trim w.sink l.tunables.retention (trimTime l.clock collectedAt) l with
      ⟨_ | _ | _, sink, l'⟩ <;> rfl

/-- The copies are always handed to the sink, and then the relocations, if there was no crash. -/
theorem deliver_records (bucket : Nat) (es : List Entry) (resolved : Nat)
    (associations : List Association) (l : Ledger) (w : WatchedSink S) :
    (deliver bucket es resolved associations l w).2.2.records =
      w.records ++ (SegmentRecord.bucket ⟨bucket, l.clock.now, es⟩).offered ++
        if (persist (.bucket ⟨bucket, l.clock.now, es⟩) l w).1 = none then []
        else (SegmentRecord.associations ⟨bucket, l.clock.now, associations⟩).offered := by
  have hbucket := persist_records (.bucket ⟨bucket, l.clock.now, es⟩) l w
  unfold deliver
  dsimp only
  split <;> rename_i heq <;> rw [heq] at hbucket ⊢
  · rw [hbucket, if_pos rfl, List.append_nil]
  · rename_i l₁ w₁
    have hassociations := persist_records (.associations ⟨bucket, l.clock.now, associations⟩) l₁ w₁
    rw [hbucket] at hassociations
    rw [if_neg (Option.some_ne_none _)]
    split <;> rename_i heq <;> rw [heq] at hassociations
    · exact hassociations
    · rename_i l₂ w₂
      have htrim := trim_records l.clock.now l₂ w₂
      split <;> rename_i heq <;> rw [heq] at htrim <;> exact htrim.trans hassociations

variable [QuietSink S]

/-- The rest of a cycle leaves a rightful store and rightful records behind, if all copies in the
bucket that was closed are rightful. -/
theorem conclude_rightful {v : WatchedCatalog C} {w : WatchedSink S} {session : Session}
    {bucket : Nat} {es : List Entry} {l : Ledger} (hs : l.store.Rightful told)
    (hes : ∀ e ∈ es, e.Rightful told)
    (hears : session.Hears told (conclude session bucket es l v w).2.2.1.inquiries) :
    (conclude session bucket es l v w).2.1.store.Rightful told ∧
      ∀ r ∈ (conclude session bucket es l v w).2.2.2.records,
        r ∈ w.records ∨ r.Rightful told (conclude session bucket es l v w).2.1.store := by
  unfold conclude at hears ⊢
  dsimp only at hears ⊢
  obtain ⟨hcopies, hstore⟩ := identifyAll_rightful hs hes hears
  rw [deliver_store, drain_store]
  refine ⟨hstore, fun r hr => ?_⟩
  rw [deliver_records, List.mem_append, List.mem_append] at hr
  rcases hr with (hr | hr) | hr
  · exact .inl hr
  · obtain rfl := SegmentRecord.eq_of_mem_offered hr
    exact .inr hcopies
  · split at hr
    · cases hr
    · obtain rfl := SegmentRecord.eq_of_mem_offered hr
      exact .inr fun a ha i hi => drain_known ha hi

theorem cycle_rightful {v : WatchedCatalog C} {w : WatchedSink S} {session : Session} {l : Ledger}
    (hs : l.store.Rightful told) (hkeyed : l.store.Keyed)
    (hears : session.Hears told (cycle session l v w).2.2.1.inquiries) :
    (cycle session l v w).2.1.store.Rightful told ∧
      ∀ r ∈ (cycle session l v w).2.2.2.records,
        r ∈ w.records ∨ r.Rightful told (cycle session l v w).2.1.store := by
  have hclosed : l.store.close.2.2.Rightful told :=
    hs.keeps (.of_known fun k => l.store.known_close k)
  rw [cycle_eq] at hears ⊢
  exact conclude_rightful hclosed (fun e he => hs.close hkeyed he) hears

end Collector

/-! ## What is handed over -/

namespace Entry

/-- Whether an entry is a copy of another.  It may have been given an identity if the other has
none. -/
def CopyOf (c e : Entry) : Prop :=
  ∃ identity, (e.identity.valid = true → identity = e.identity) ∧ c = { e with identity }

variable {b c e : Entry}

theorem CopyOf.refl (e : Entry) : e.CopyOf e := ⟨e.identity, fun _ => rfl, rfl⟩

theorem CopyOf.of_unknown (h : ¬e.identity.valid = true) (identity : Identity) :
    CopyOf { e with identity } e :=
  ⟨identity, fun hvalid => absurd hvalid h, rfl⟩

theorem CopyOf.eq (h : c.CopyOf e) (hvalid : e.identity.valid = true) : c = e := by
  obtain ⟨identity, hidentity, rfl⟩ := h
  rw [hidentity hvalid]

theorem CopyOf.trans (h : c.CopyOf b) (h' : b.CopyOf e) : c.CopyOf e := by
  obtain ⟨identity, hidentity, rfl⟩ := h
  obtain ⟨identity', hidentity', rfl⟩ := h'
  refine ⟨identity, fun hvalid => ?_, rfl⟩
  have hbefore := hidentity' hvalid
  rw [hidentity (by rw [hbefore]; exact hvalid), hbefore]

variable {copies es : List Entry}

theorem CopyOf.exists_mem (h : List.Forall₂ CopyOf copies es) (he : e ∈ es) :
    ∃ c ∈ copies, c.CopyOf e := by
  induction h with
  | nil => cases he
  | cons hcopy _ ih =>
    rcases List.mem_cons.mp he with rfl | he
    · exact ⟨_, List.mem_cons_self, hcopy⟩
    · obtain ⟨c, hc, hcopy'⟩ := ih he
      exact ⟨c, List.mem_cons_of_mem _ hc, hcopy'⟩

/-- Copies of entries that have identities are as they are. -/
theorem CopyOf.all_eq (h : List.Forall₂ CopyOf copies es)
    (hvalid : ∀ e ∈ es, e.identity.valid = true) : copies = es := by
  induction h with
  | nil => rfl
  | cons hcopy _ ih =>
    obtain ⟨he, hrest⟩ := List.forall_mem_cons.mp hvalid
    rw [hcopy.eq he, ih hrest]

end Entry

namespace Collector

theorem identifyCopies_cons (session : Session) (e : Entry) (rest : List Entry) (found : Found)
    (l : Ledger) (catalog : C) :
    ∃ (c : Entry) (found' : Found) (l' : Ledger) (catalog' : C), c.CopyOf e ∧
      (identifyCopies session (e :: rest) found l catalog).1.1 =
        c :: (identifyCopies session rest found' l' catalog').1.1 := by
  rw [identifyCopies]
  split
  · exact ⟨e, found, l, catalog, .refl e, rfl⟩
  · rename_i hask
    have hunknown : ¬e.identity.valid = true := fun h => hask (by rw [h]; rfl)
    split
    · exact ⟨_, found, l, catalog, .of_unknown hunknown _, rfl⟩
    · split
      · rename_i identity l' catalog' _
        exact ⟨_, found.insert e.key.locator identity, l', catalog', .of_unknown hunknown _, rfl⟩
      · rename_i l' catalog' _
        exact ⟨e, found, l', catalog', .refl e, rfl⟩

theorem catchUp_cons (found : Found) (e : Entry) (rest : List Entry) :
    ∃ c : Entry, c.CopyOf e ∧ (catchUp found (e :: rest)).1 = c :: (catchUp found rest).1 := by
  rw [catchUp]
  dsimp only
  split
  · exact ⟨e, .refl e, rfl⟩
  · rename_i hunknown
    split
    · exact ⟨_, .of_unknown hunknown _, rfl⟩
    · exact ⟨e, .refl e, rfl⟩

/-- An identity is all that copies are given, and no copy gets lost. -/
theorem identifyAll_copies (session : Session) (es : List Entry) (l : Ledger) (catalog : C) :
    List.Forall₂ Entry.CopyOf (identifyAll session es l catalog).1.1 es := by
  have hcopies : ∀ (more found : Found) (l : Ledger) (catalog : C), List.Forall₂ Entry.CopyOf
      (catchUp more (identifyCopies session.enter es found l catalog).1.1).1 es := by
    intro more
    induction es with
    | nil => exact fun _ _ _ => .nil
    | cons e rest ih =>
      intro found l catalog
      obtain ⟨b, found', l', catalog', hcopy, hcons⟩ :=
        identifyCopies_cons session.enter e rest found l catalog
      obtain ⟨c, hcopy', hcons'⟩ := catchUp_cons more b
        (identifyCopies session.enter rest found' l' catalog').1.1
      rw [hcons, hcons']
      exact .cons (hcopy'.trans hcopy) (ih found' l' catalog')
  exact hcopies _ {} l catalog

variable [Sink S]

/-- In a cycle the sink is handed a copy of every entry with activity. -/
theorem cycle_records (session : Session) {l : Ledger} {k : Key} {e : Entry}
    (he : l.store.find? k = some e) (hactive : e.active = true) (catalog : C)
    (w : WatchedSink S) :
    ∃ r c, .bucket r ∈ (cycle session l catalog w).2.2.2.records ∧ c ∈ r.entries ∧ c.CopyOf e := by
  have hclose : e ∈ l.store.close.2.1 := (l.store.mem_close e).mpr ⟨k, he, hactive⟩
  rw [cycle_eq]
  unfold conclude
  dsimp only
  generalize { l with store := l.store.close.2.2 } = l'
  obtain ⟨c, hmem, hcopy⟩ := Entry.CopyOf.exists_mem (identifyAll_copies session _ l' catalog) hclose
  rcases hall : identifyAll session l.store.close.2.1 l' catalog with
    ⟨⟨copies, resolved⟩, l₁, catalog₁⟩
  rw [hall] at hmem
  have hsize : (SegmentRecord.bucket
      ⟨l.store.close.1, (drain l₁).2.clock.now, copies⟩).size ≠ 0 :=
    fun h => List.ne_nil_of_mem hmem (List.length_eq_zero_iff.mp h)
  refine ⟨⟨l.store.close.1, (drain l₁).2.clock.now, copies⟩, c, ?_, hmem, hcopy⟩
  rw [deliver_records, SegmentRecord.offered, if_neg hsize]
  simp

end Collector

end BlockLedger
