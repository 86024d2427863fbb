import BlockLedger.Proofs.Cluster.Interplay

/-
# Watched catalogs and sinks

A catalog or a sink can have another one behind it, which it passes everything on to.  Nobody can
tell it from the one behind, so that the same happens in an interplay with either of them.

In this way a catalog can be watched: every question for a relation that is put to it is written
down, with its answer.  A sink can be watched too, and then every record that is handed to it is
written down.
-/

namespace BlockLedger

variable {D C T S : Type}

/-- A way to put catalogs in front of others. -/
structure CatalogView (D C : Type) [Catalog D] [Catalog C] where
  /-- The catalog behind. -/
  behind : D → C
  relation_behind (d : D) (tablespace number : Oid) :
    Catalog.relation (behind d) tablespace number =
      ((Catalog.relation d tablespace number).1, behind (Catalog.relation d tablespace number).2)
  schema_behind (d : D) (oid : Oid) :
    Catalog.schema (behind d) oid = ((Catalog.schema d oid).1, behind (Catalog.schema d oid).2)

/-- A way to put sinks in front of others. -/
structure SinkView (T S : Type) [Sink T] [Sink S] where
  /-- The sink behind. -/
  behind : T → S
  store_behind (t : T) (r : SegmentRecord) (l : Ledger) :
    Sink.store (behind t) r l =
      ((Sink.store t r l).1, behind (Sink.store t r l).2.1, (Sink.store t r l).2.2)
  trim_behind (t : T) (hours : Nat) (now : Int) (l : Ledger) :
    Sink.trim (behind t) hours now l =
      ((Sink.trim t hours now l).1, behind (Sink.trim t hours now l).2.1,
        (Sink.trim t hours now l).2.2)

/-- Nothing is put in front of a catalog. -/
def CatalogView.plain (C : Type) [Catalog C] : CatalogView C C where
  behind := id
  relation_behind _ _ _ := rfl
  schema_behind _ _ := rfl

/-- Nothing is put in front of a sink. -/
def SinkView.plain (S : Type) [Sink S] : SinkView S S where
  behind := id
  store_behind _ _ _ := rfl
  trim_behind _ _ _ _ := rfl

/-! ## Questions -/

section Questions

variable [Catalog D] [Catalog C] (v : CatalogView D C) (d : D)

theorem Catalog.search_behind (tablespace number : Oid) :
    search (v.behind d) tablespace number =
      ((search d tablespace number).1, v.behind (search d tablespace number).2) := by
  unfold search
  rw [v.relation_behind]
  rcases relation d tablespace number with ⟨_ | _ | i, d'⟩
  · rfl
  · dsimp only
    split
    · rfl
    · exact v.relation_behind d' 0 number
  · rfl

theorem Catalog.find_behind (session : Session) (key : Key) :
    find (v.behind d) session key = ((find d session key).1, v.behind (find d session key).2) := by
  unfold find
  rw [search_behind]
  split
  · rfl
  · split
    · rfl
    · rcases search d key.locator.tablespace key.locator.number with ⟨_ | _ | i, d'⟩ <;> rfl

/-- The outcome of something, seen with the catalog behind. -/
def CatalogView.outcome {α : Type} (r : α × Ledger × D) : α × Ledger × C :=
  (r.1, r.2.1, v.behind r.2.2)

theorem Pending.ask_behind (session : Session) (key : Key) (l : Ledger) :
    ask session key l (v.behind d) = v.outcome (ask session key l d) := by
  unfold ask
  rw [Catalog.find_behind]
  rcases Catalog.find d session key with ⟨_ | _ | _ | _, d'⟩ <;> rfl

theorem Pending.settle_behind (session : Session) (key : Key) (l : Ledger) :
    settle session key l (v.behind d) = v.outcome (settle session key l d) := by
  unfold settle
  rw [ask_behind]
  split
  · rfl
  · split <;> rfl

theorem Pending.settleAll_behind (session : Session) (ks : List Key) (l : Ledger) :
    settleAll session ks l (v.behind d) = v.outcome (settleAll session ks l d) := by
  induction ks generalizing l d with
  | nil => rfl
  | cons key rest ih =>
    unfold settleAll
    rw [settle_behind]
    dsimp only [CatalogView.outcome]
    rw [ih]
    rfl

theorem Bulk.schemaName_behind (schema : Oid) (l : Ledger) :
    schemaName schema l (v.behind d) = v.outcome (schemaName schema l d) := by
  unfold schemaName
  rw [v.schema_behind]
  rcases Catalog.schema d schema with ⟨_ | _, d'⟩ <;> rfl

theorem Bulk.applyAll_behind (ts : List (Key × ClassTuple)) (l : Ledger) :
    applyAll ts l (v.behind d) = v.outcome (applyAll ts l d) := by
  induction ts generalizing l d with
  | nil => rfl
  | cons t rest ih =>
    unfold applyAll
    rw [schemaName_behind]
    dsimp only [CatalogView.outcome]
    rw [ih]
    rfl

theorem Bulk.scan_behind (pages : ClassPages) (database tablespace : Oid) (count page : Nat)
    (l : Ledger) :
    scan pages database tablespace count page l (v.behind d) =
      v.outcome (scan pages database tablespace count page l d) := by
  induction count generalizing page l d with
  | zero => rfl
  | succ count ih =>
    unfold scan
    split
    · rfl
    · rename_i tuples _
      rw [applyAll_behind]
      rcases applyAll (candidates l.store database tablespace maxCandidates tuples) l d with
        ⟨n, l', d'⟩
      dsimp only [CatalogView.outcome]
      rw [ih]
      rcases scan pages database tablespace count (page + 1) l' d' with ⟨_ | m, l'', d''⟩ <;> rfl

theorem Bulk.resolveDatabase_behind (pages : ClassPages) (database tablespace : Oid)
    (l : Ledger) :
    resolveDatabase pages database tablespace l (v.behind d) =
      v.outcome (resolveDatabase pages database tablespace l d) := by
  unfold resolveDatabase
  split
  · rfl
  · rfl
  · rename_i count _ _
    rw [scan_behind]
    rcases scan pages database tablespace count 0 l d with ⟨_ | n, l', d'⟩ <;> rfl

theorem Collector.identityFor_behind (session : Session) (key : Key) (l : Ledger) :
    identityFor session key l (v.behind d) = v.outcome (identityFor session key l d) := by
  unfold identityFor
  split
  · rfl
  · rw [Catalog.find_behind]
    rcases Catalog.find d session key with ⟨_ | _ | _ | _, d'⟩ <;> rfl

theorem Collector.identifyCopies_behind (session : Session) (es : List Entry) (found : Found)
    (l : Ledger) :
    identifyCopies session es found l (v.behind d) =
      v.outcome (identifyCopies session es found l d) := by
  induction es generalizing found l d with
  | nil => rfl
  | cons e rest ih =>
    unfold identifyCopies
    split
    · rw [ih]
      rfl
    · split
      · rw [ih]
        rfl
      · rw [identityFor_behind]
        rcases identityFor session e.key l d with ⟨_ | i, l', d'⟩
        · dsimp only [CatalogView.outcome]
          rw [ih]
          rfl
        · dsimp only [CatalogView.outcome]
          rw [ih]
          rfl

theorem Collector.identifyAll_behind (session : Session) (es : List Entry) (l : Ledger) :
    identifyAll session es l (v.behind d) = v.outcome (identifyAll session es l d) := by
  unfold identifyAll
  rw [identifyCopies_behind]
  rfl

/-! ## Backends -/

theorem Backend.resolvePending_behind (b : Backend) (l : Ledger) :
    b.resolvePending l (v.behind d) =
      ((b.resolvePending l d).1, (b.resolvePending l d).2.1, (b.resolvePending l d).2.2.1,
        v.behind (b.resolvePending l d).2.2.2) := by
  unfold resolvePending
  rw [Pending.settleAll_behind]
  rfl

theorem Backend.resolveCreated_behind (b : Backend) (database tablespace : Oid) (l : Ledger) :
    b.resolveCreated database tablespace l (v.behind d) =
      ((b.resolveCreated database tablespace l d).1,
        v.behind (b.resolveCreated database tablespace l d).2) := by
  unfold resolveCreated
  split
  · rfl
  · rename_i pages _
    rw [Bulk.resolveDatabase_behind]
    rcases Bulk.resolveDatabase pages database tablespace l d with ⟨_ | n, l', d'⟩ <;> rfl

theorem Backend.finish_behind (b : Backend) (work : Work) (l : Ledger) :
    b.finish work l (v.behind d) =
      ((b.finish work l d).1, (b.finish work l d).2.1, (b.finish work l d).2.2.1,
        v.behind (b.finish work l d).2.2.2) := by
  unfold finish
  split
  · rw [resolveCreated_behind]
    dsimp only
    rw [resolvePending_behind]
  · rw [resolvePending_behind]

theorem Backend.shutdown_behind (b : Backend) (l : Ledger) :
    b.shutdown l (v.behind d) =
      ((b.shutdown l d).1, (b.shutdown l d).2.1, (b.shutdown l d).2.2.1,
        v.behind (b.shutdown l d).2.2.2) := by
  unfold shutdown
  dsimp only
  rw [resolvePending_behind]

end Questions

/-! ## Records -/

namespace Collector

section Records

variable [Sink T] [Sink S] (f : SinkView T S) (t : T)

theorem persist_behind (r : SegmentRecord) (l : Ledger) :
    persist r l (f.behind t) =
      ((persist r l t).1, (persist r l t).2.1, f.behind (persist r l t).2.2) := by
  unfold persist
  split
  · rfl
  · rw [f.store_behind]
    rcases Sink.store t r l with ⟨_ | _ | _, t', l'⟩ <;> rfl

theorem trim_behind (collectedAt : Int) (l : Ledger) :
    trim collectedAt l (f.behind t) =
      ((trim collectedAt l t).1, (trim collectedAt l t).2.1,
        f.behind (trim collectedAt l t).2.2) := by
  unfold trim
  split
  · rfl
  · rw [f.trim_behind]
    rcases Sink.trim t l.tunables.retention (trimTime l.clock collectedAt) l with
      ⟨_ | _ | _, t', l'⟩ <;> rfl

theorem deliver_behind (bucket : Nat) (es : List Entry) (resolved : Nat)
    (associations : List Association) (l : Ledger) :
    deliver bucket es resolved associations l (f.behind t) =
      ((deliver bucket es resolved associations l t).1,
        (deliver bucket es resolved associations l t).2.1,
        f.behind (deliver bucket es resolved associations l t).2.2) := by
  unfold deliver
  dsimp only
  rw [persist_behind]
  rcases persist (.bucket ⟨bucket, l.clock.now, es⟩) l t with ⟨_ | first, l₁, t₁⟩
  · rfl
  · dsimp only
    rw [persist_behind]
    rcases persist (.associations ⟨bucket, l.clock.now, associations⟩) l₁ t₁ with
      ⟨_ | second, l₂, t₂⟩
    · rfl
    · dsimp only
      rw [trim_behind]
      rcases trim l.clock.now l₂ t₂ with ⟨_ | _, l₃, t₃⟩ <;> rfl

variable [Catalog D] [Catalog C] (v : CatalogView D C) (d : D)

theorem conclude_behind (session : Session) (bucket : Nat) (es : List Entry) (l : Ledger) :
    conclude session bucket es l (v.behind d) (f.behind t) =
      ((conclude session bucket es l d t).1, (conclude session bucket es l d t).2.1,
        v.behind (conclude session bucket es l d t).2.2.1,
        f.behind (conclude session bucket es l d t).2.2.2) := by
  unfold conclude
  rw [identifyAll_behind]
  dsimp only [CatalogView.outcome]
  rw [deliver_behind]

theorem cycle_behind (session : Session) (l : Ledger) :
    cycle session l (v.behind d) (f.behind t) =
      ((cycle session l d t).1, (cycle session l d t).2.1, v.behind (cycle session l d t).2.2.1,
        f.behind (cycle session l d t).2.2.2) := by
  rw [cycle_eq, cycle_eq, conclude_behind]

end Records

end Collector

/-! ## Interplays -/

namespace Interplay

variable {P : Type} [Catalog D] [Catalog C] [Sink T] [Sink S]

/-- The interplay, seen with the catalog and the sink behind. -/
def behind (v : CatalogView D C) (f : SinkView T S) (s : Interplay P D T) : Interplay P C S :=
  { s with
    cluster := { s.cluster with
      catalog := v.behind s.cluster.catalog
      sink := f.behind s.cluster.sink } }

/-- Whatever is behind a catalog and a sink, the same comes of an act. -/
theorem behind_step (v : CatalogView D C) (f : SinkView T S) (blank : P) (s : Interplay P D T)
    (a : Act P) : (s.step blank a).behind v f = (s.behind v f).step blank a := by
  cases a with
  | join | session | reload | tick | peek => rfl
  | call i q =>
    simp only [step, Cluster.call, behind, withCluster]
    cases s.cluster.members[i]? <;> rfl
  | complete i handle result =>
    simp only [step, Cluster.complete, behind, withCluster]
    cases s.cluster.members[i]? <;> rfl
  | flush i =>
    simp only [step, behind, withCluster]
    cases s.cluster.members[i]? <;> rfl
  | finish i work =>
    simp only [step, Cluster.finish, behind, withCluster]
    cases s.cluster.members[i]? with
    | none => rfl
    | some m =>
      dsimp only
      rw [Backend.finish_behind]
      rfl
  | shutdown i =>
    simp only [step, Cluster.shutdown, behind, withCluster]
    cases s.cluster.members[i]? with
    | none => rfl
    | some m =>
      dsimp only
      rw [Backend.shutdown_behind]
      rfl
  | conclude =>
    simp only [step, behind, withCluster]
    cases s.returned.getLast? with
    | none => rfl
    | some r =>
      dsimp only
      rw [Collector.conclude_behind]
  | close | openWalk =>
    obtain ⟨cluster, walk, returned⟩ := s
    cases walk <;> rfl
  | cycle =>
    obtain ⟨cluster, walk, returned⟩ := s
    cases walk with
    | none =>
      simp only [step, Cluster.cycle, behind, withCluster]
      rw [Collector.cycle_behind]
      rfl
    | some w => rfl
  | list | visit key | endWalk =>
    obtain ⟨cluster, walk, returned⟩ := s
    cases walk with
    | none => rfl
    | some w =>
      simp only [step, behind]
      split <;> rfl

end Interplay

/-! ## Watching -/

/-- A question for a relation, and the answer. -/
structure Inquiry where
  tablespace : Oid
  number : Oid
  answer : Except CatalogError (Option Identity)

/-- A catalog, and what it has been asked. -/
structure WatchedCatalog (C : Type) where
  catalog : C
  /-- The questions, oldest first. -/
  inquiries : List Inquiry := []

/-- A sink, and what it has been handed. -/
structure WatchedSink (S : Type) where
  sink : S
  /-- The records, oldest first, whether the sink took them or not. -/
  records : List SegmentRecord := []

instance [Catalog C] : Catalog (WatchedCatalog C) where
  relation w tablespace number :=
    match Catalog.relation w.catalog tablespace number with
    | (answer, catalog) => (answer, ⟨catalog, w.inquiries ++ [⟨tablespace, number, answer⟩]⟩)
  schema w oid :=
    match Catalog.schema w.catalog oid with
    | (name, catalog) => (name, { w with catalog })

instance [Sink S] : Sink (WatchedSink S) where
  store w r l :=
    match Sink.store w.sink r l with
    | (outcome, sink, l) => (outcome, ⟨sink, w.records ++ [r]⟩, l)
  trim w hours now l :=
    match Sink.trim w.sink hours now l with
    | (outcome, sink, l) => (outcome, { w with sink }, l)

instance [Sink S] [QuietSink S] : QuietSink (WatchedSink S) where
  store_quiet w r l := QuietSink.store_quiet w.sink r l
  trim_quiet w hours now l := QuietSink.trim_quiet w.sink hours now l

/-- A watched catalog is in front of the one that is watched. -/
def WatchedCatalog.view (C : Type) [Catalog C] : CatalogView (WatchedCatalog C) C where
  behind := catalog
  relation_behind _ _ _ := rfl
  schema_behind _ _ := rfl

/-- A watched sink is in front of the one that is watched. -/
def WatchedSink.view (S : Type) [Sink S] : SinkView (WatchedSink S) S where
  behind := sink
  store_behind _ _ _ := rfl
  trim_behind _ _ _ _ := rfl

namespace Collector

variable [Catalog C] [Sink S] (w : WatchedSink S)

theorem conclude_watchedSink (session : Session) (bucket : Nat) (es : List Entry) (l : Ledger)
    (catalog : C) :
    conclude session bucket es l catalog w.sink =
      ((conclude session bucket es l catalog w).1, (conclude session bucket es l catalog w).2.1,
        (conclude session bucket es l catalog w).2.2.1,
        (conclude session bucket es l catalog w).2.2.2.sink) :=
  conclude_behind (WatchedSink.view S) w (.plain C) catalog session bucket es l

theorem cycle_watchedSink (session : Session) (l : Ledger) (catalog : C) :
    cycle session l catalog w.sink =
      ((cycle session l catalog w).1, (cycle session l catalog w).2.1,
        (cycle session l catalog w).2.2.1, (cycle session l catalog w).2.2.2.sink) :=
  cycle_behind (WatchedSink.view S) w (.plain C) catalog session l

end Collector

namespace Interplay

variable {P : Type}

/-- The interplay, with its catalog and its sink watched from now on. -/
def watched (s : Interplay P C S) : Interplay P (WatchedCatalog C) (WatchedSink S) :=
  { s with
    cluster := { s.cluster with
      catalog := { catalog := s.cluster.catalog }
      sink := { sink := s.cluster.sink } } }

/-- The interplay, when it is forgotten that it was watched. -/
def unwatched (s : Interplay P (WatchedCatalog C) (WatchedSink S)) : Interplay P C S :=
  { s with
    cluster := { s.cluster with
      catalog := s.cluster.catalog.catalog
      sink := s.cluster.sink.sink } }

/-- Watching changes nothing. -/
theorem step_watched [Catalog C] [Sink S] (blank : P) (s : Interplay P C S) (a : Act P) :
    (s.watched.step blank a).unwatched = s.step blank a :=
  behind_step (WatchedCatalog.view C) (WatchedSink.view S) blank s.watched a

end Interplay

end BlockLedger
