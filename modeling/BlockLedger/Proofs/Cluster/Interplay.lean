import BlockLedger.Proofs.Cluster.Calls

/-
# Interplays

An interplay is a cluster in the course of a run.  Backends join it and do their work, settings and
time change, and the collector collects.  A closing snapshot need not be taken in one go: it can be
cut into its steps, so that everybody else may come in between.  It turns to the next bucket, lists
the keys of one partition after the other, and comes to the entries of the keys that it has listed,
in any order.  As long as it is under way no other snapshot begins.

What an act leaves behind in the store is told from the act and the interplay alone, by its marks.
-/

namespace BlockLedger

/-- A closing snapshot under way. -/
structure Walk where
  /-- The bucket that it closes. -/
  bucket : Nat
  /-- The partition that it lists next. -/
  next : Nat := 0
  /-- The keys that it has listed and not come to yet. -/
  ahead : List Key := []
  copies : List Entry := []

/-- A cluster in the course of a run. -/
structure Interplay (P C S : Type) where
  cluster : Cluster P C S
  walk : Option Walk := none
  /-- The closing snapshots so far, oldest first: their buckets, and their copies. -/
  returned : List (Nat × List Entry) := []

/-- What can happen in an interplay. -/
inductive Act (P : Type) where
  | join (session : Session) (concurrency : Nat) (classes : Option ClassPages) (chain : List Link)
  /-- A member sends a request along its chain. -/
  | call (i : Nat) (q : Request P)
  /-- An asynchronous read of a member has ended. -/
  | complete (i : Nat) (handle : Handle) (result : Completion)
  /-- A member has finished a piece of work. -/
  | finish (i : Nat) (work : Work)
  /-- A member hands out its open runs. -/
  | flush (i : Nat)
  | shutdown (i : Nat)
  | session (i : Nat) (f : Session → Session)
  | reload (settings : Settings)
  | tick (clock : Clock)
  /-- A snapshot that closes nothing. -/
  | peek
  /-- A closing snapshot in one go. -/
  | close
  /-- A collection cycle in one go. -/
  | cycle
  /-- A closing snapshot begins: it turns to the next bucket. -/
  | openWalk
  /-- It lists the keys of a partition. -/
  | list
  /-- It comes to an entry. -/
  | visit (key : Key)
  /-- It has come to all entries. -/
  | endWalk
  /-- The collector goes on with the latest closing snapshot. -/
  | conclude

namespace Act

/-- Whether an act belongs to a closing snapshot. -/
def collects {P : Type} : Act P → Bool
  | close | cycle | openWalk | list | visit _ | endWalk => true
  | _ => false

end Act

namespace Interplay

variable {P C S : Type}

/-- The interplay before anybody has joined. -/
def start (settings : Settings) (clock : Clock) (catalog : C) (session : Session) (sink : S) :
    Interplay P C S :=
  { cluster := { members := [], ledger := .start settings clock, catalog, session, sink } }

/-- The store of the ledger. -/
def store (s : Interplay P C S) : Store := s.cluster.ledger.store

/-- Changes the cluster. -/
def withCluster (s : Interplay P C S) (cluster : Cluster P C S) : Interplay P C S :=
  { s with cluster }

/-- Changes the store. -/
def withStore (s : Interplay P C S) (store : Store) : Interplay P C S :=
  s.withCluster (s.cluster.withLedger fun l => { l with store })

/-- The closing snapshot has come to its end. -/
def handBack (s : Interplay P C S) (bucket : Nat) (copies : List Entry) : Interplay P C S :=
  { s with walk := none, returned := s.returned ++ [(bucket, copies)] }

section Acts

variable [Catalog C] [Sink S]

/-- Carries out an act.  What cannot be done now changes nothing. -/
def step (blank : P) (s : Interplay P C S) : Act P → Interplay P C S
  | .join session concurrency classes chain =>
    let backend := { Backend.new session concurrency with classes }
    s.withCluster { s.cluster with members := s.cluster.members ++ [⟨backend, chain⟩] }
  | .call i q => s.withCluster (s.cluster.call blank i q).2
  | .complete i handle result => s.withCluster (s.cluster.complete i handle result).2
  | .finish i work => s.withCluster (s.cluster.finish i work).2
  | .flush i =>
    match s.cluster.members[i]? with
    | none => s
    | some m =>
      match m.backend.flushRuns s.cluster.ledger with
      | (_, b, ledger) => s.withCluster { s.cluster.withBackend i b with ledger }
  | .shutdown i => s.withCluster (s.cluster.shutdown i).2
  | .session i f => s.withCluster (s.cluster.withSession i f)
  | .reload settings => s.withCluster (s.cluster.withLedger fun l => l.reload settings)
  | .tick clock => s.withCluster (s.cluster.withLedger fun l => { l with clock })
  | .peek => s
  | .close =>
    match s.walk with
    | none =>
      match s.store.close with
      | (bucket, copies, store) => (s.withStore store).handBack bucket copies
    | some _ => s
  | .cycle =>
    match s.walk with
    | none =>
      match s.store.close with
      | (bucket, copies, _) => (s.withCluster s.cluster.cycle.2).handBack bucket copies
    | some _ => s
  | .openWalk =>
    match s.walk with
    | none =>
      match s.store.nextBucket with
      | (bucket, store) => { s.withStore store with walk := some { bucket } }
    | some _ => s
  | .list =>
    match s.walk with
    | some w =>
      if w.ahead = [] ∧ w.next < Key.partitionCount then
        let ahead := s.store.keys.filter fun key => key.partition = w.next
        { s with walk := some { w with next := w.next + 1, ahead } }
      else s
    | none => s
  | .visit key =>
    match s.walk with
    | some w =>
      if key ∈ w.ahead then
        match s.store.take key with
        | (copy, store) =>
          { s.withStore store with
            walk := some
              { w with ahead := w.ahead.erase key, copies := w.copies ++ copy.toList } }
      else s
    | none => s
  | .endWalk =>
    match s.walk with
    | some w =>
      if w.ahead = [] ∧ w.next = Key.partitionCount then s.handBack w.bucket w.copies else s
    | none => s
  | .conclude =>
    match s.returned.getLast? with
    | some (bucket, copies) =>
      match Collector.conclude s.cluster.session bucket copies s.cluster.ledger s.cluster.catalog
        s.cluster.sink with
      | (_, ledger, catalog, sink) => s.withCluster { s.cluster with ledger, catalog, sink }
    | none => s

/-- The marks of an act. -/
def marks (blank : P) (s : Interplay P C S) : Act P → List Mark
  | .call i q =>
    match s.cluster.members[i]? with
    | some m => (Chain.dues blank m.chain q (s.cluster.siteOf m)).map .posted
    | none => []
  | .complete i handle result =>
    match s.cluster.members[i]? with
    | some m => Chain.settlements m.chain handle result (s.cluster.siteOf m)
    | none => []
  | .flush i | .shutdown i =>
    match s.cluster.members[i]? with
    | some m => (m.backend.lateRuns s.cluster.ledger).map .ended
    | none => []
  | .close | .cycle => if s.walk.isNone then s.store.closing else []
  | .openWalk => if s.walk.isNone then [.turned s.store.bucket] else []
  | .visit key =>
    match s.walk with
    | some w => if key ∈ w.ahead then [.taken key (s.store.take key).1] else []
    | none => []
  | _ => []

/-- Carries out one act after the other. -/
def run (blank : P) (s : Interplay P C S) (acts : List (Act P)) : Interplay P C S :=
  acts.foldl (step blank) s

/-- The marks of one act after the other. -/
def trace (blank : P) (s : Interplay P C S) : List (Act P) → List Mark
  | [] => []
  | a :: rest => s.marks blank a ++ (s.step blank a).trace blank rest

theorem run_concat (blank : P) (s : Interplay P C S) (acts : List (Act P)) (a : Act P) :
    s.run blank (acts ++ [a]) = (s.run blank acts).step blank a := by
  simp [run]

theorem trace_concat (blank : P) (s : Interplay P C S) (acts : List (Act P)) (a : Act P) :
    s.trace blank (acts ++ [a]) = s.trace blank acts ++ (s.run blank acts).marks blank a := by
  induction acts generalizing s with
  | nil => simp [trace, run]
  | cons b rest ih =>
    rw [List.cons_append, trace, ih, trace, List.append_assoc]
    rfl

/-! ## The steps of closing snapshots -/

/-- The acts that belong to closing snapshots, each with what it needs, the marks that it leaves and
what it changes.  Whenever something that it needs is missing, an act is idle. -/
inductive Collecting (s : Interplay P C S) : Act P → List Mark → Interplay P C S → Prop
  | idle (a : Act P) : Collecting s a [] s
  | close (h : s.walk = none) :
      Collecting s .close s.store.closing
        ((s.withStore s.store.close.2.2).handBack s.store.close.1 s.store.close.2.1)
  | cycle (h : s.walk = none) :
      Collecting s .cycle s.store.closing
        ((s.withCluster s.cluster.cycle.2).handBack s.store.close.1 s.store.close.2.1)
  | openWalk (h : s.walk = none) :
      Collecting s .openWalk [.turned s.store.bucket]
        { s.withStore s.store.nextBucket.2 with walk := some { bucket := s.store.bucket } }
  | list (w : Walk) (h : s.walk = some w) :
      Collecting s .list []
        { s with
          walk := some
            { w with
              next := w.next + 1
              ahead := s.store.keys.filter fun key => key.partition = w.next } }
  | visit (w : Walk) (key : Key) (h : s.walk = some w) (listed : key ∈ w.ahead) :
      Collecting s (.visit key) [.taken key (s.store.take key).1]
        { s.withStore (s.store.take key).2 with
          walk := some
            { w with
              ahead := w.ahead.erase key
              copies := w.copies ++ (s.store.take key).1.toList } }
  | endWalk (w : Walk) (h : s.walk = some w) :
      Collecting s .endWalk [] (s.handBack w.bucket w.copies)

theorem collecting_of_step (blank : P) (s : Interplay P C S) {a : Act P} (ha : a.collects = true) :
    s.Collecting a (s.marks blank a) (s.step blank a) := by
  cases a with
  | close =>
    simp only [marks, step]
    cases hw : s.walk with
    | none => exact .close hw
    | some w => exact .idle _
  | cycle =>
    simp only [marks, step]
    cases hw : s.walk with
    | none => exact .cycle hw
    | some w => exact .idle _
  | openWalk =>
    simp only [marks, step]
    cases hw : s.walk with
    | none => exact .openWalk hw
    | some w => exact .idle _
  | list =>
    simp only [marks, step]
    cases hw : s.walk with
    | none => exact .idle _
    | some w =>
      dsimp only
      split
      · exact .list w hw
      · exact .idle _
  | visit key =>
    simp only [marks, step]
    cases hw : s.walk with
    | none => exact .idle _
    | some w =>
      dsimp only
      split
      · exact .visit w key hw ‹_›
      · exact .idle _
  | endWalk =>
    simp only [marks, step]
    cases hw : s.walk with
    | none => exact .idle _
    | some w =>
      dsimp only
      split
      · exact .endWalk w hw
      · exact .idle _
  | _ => cases ha

end Acts

/-! ## What an act does -/

/-- Every key that a member has staged has an entry. -/
def Covered (s : Interplay P C S) : Prop :=
  ∀ (i : Nat) (m : Member), s.cluster.members[i]? = some m → m.backend.Covered s.cluster.ledger

/-- An interplay goes on, with some marks in its store. -/
structure Moves (s : Interplay P C S) (ds : List Mark) (t : Interplay P C S) : Prop where
  path : s.store.Path ds t.store
  covered : t.Covered

variable {s t : Interplay P C S} {ds : List Mark}

theorem Covered.moves (hs : s.Covered) (hl : s.store.Path ds t.store)
    (hmembers : t.cluster.members = s.cluster.members) : s.Moves ds t := by
  refine ⟨hl, fun i m hm n staged k hn hk => ?_⟩
  rw [hmembers] at hm
  exact hl.isSome (hs i m hm n staged k hn hk)

theorem Covered.refl (hs : s.Covered) : s.Moves [] s := hs.moves .refl rfl

/-- One member goes on, and the others stand by. -/
theorem Covered.modify (hs : s.Covered) (hl : s.store.Path ds t.store) {i : Nat}
    {f : Member → Member} (hmembers : t.cluster.members = s.cluster.members.modify i f)
    (hf : ∀ m, s.cluster.members[i]? = some m → (f m).backend.Covered t.cluster.ledger) :
    s.Moves ds t := by
  refine ⟨hl, fun j m hm => ?_⟩
  rw [hmembers, List.getElem?_modify] at hm
  obtain ⟨m', hm', rfl⟩ := Option.map_eq_some_iff.mp hm
  split
  · subst j
    exact hf m' hm'
  · exact fun n staged k hn hk => hl.isSome (hs j m' hm' n staged k hn hk)

theorem Covered.withSite (hs : s.Covered) {i : Nat} {m : Member} {site : Site P}
    (hm : s.cluster.members[i]? = some m) (h : (s.cluster.siteOf m).Moves ds site) :
    s.Moves ds (s.withCluster (s.cluster.withSite i site)) :=
  hs.modify h.ledger.path rfl fun _ _ => h.covered (hs i m hm)

theorem Covered.withBackend (hs : s.Covered) {i : Nat} {m : Member} {b : Backend} {l : Ledger}
    {catalog : C} (hm : s.cluster.members[i]? = some m) (hl : s.cluster.ledger.Moves ds l)
    (hslots : b.slots = m.backend.slots) :
    s.Moves ds (s.withCluster { s.cluster.withBackend i b with ledger := l, catalog }) := by
  refine hs.modify hl.path rfl fun _ _ n staged k hn hk => ?_
  dsimp only at hn
  rw [hslots] at hn
  exact hl.path.isSome (hs i m hm n staged k hn hk)

variable [Catalog C] [Sink S]

theorem step_join (hs : s.Covered) (blank : P) (session : Session) (concurrency : Nat)
    (classes : Option ClassPages) (chain : List Link) :
    s.Moves [] (s.step blank (.join session concurrency classes chain)) := by
  refine ⟨.refl, fun i m hm => ?_⟩
  rw [step, withCluster, List.getElem?_append] at hm
  split at hm
  · exact hs i m hm
  · -- nothing has been staged by a backend that has just joined
    obtain rfl := List.mem_singleton.mp (List.mem_of_getElem? hm)
    intro n staged k hn
    simp [Backend.new, Slots.new] at hn

theorem Collecting.moves [QuietSink S] {a : Act P} (h : s.Collecting a ds t) (hs : s.Covered) :
    s.Moves ds t := by
  cases h with
  | idle => exact hs.refl
  | close => exact hs.moves s.store.close_path rfl
  | cycle => exact hs.moves (Collector.cycle_moves ..).path rfl
  | openWalk => exact hs.moves Store.Step.turn.path rfl
  | list | endWalk => exact hs.moves .refl rfl
  | visit w key => exact hs.moves (Store.Step.take key).path rfl

/-- Every act leaves its marks in the store. -/
theorem Covered.step [QuietSink S] (hs : s.Covered) (blank : P) (a : Act P) :
    s.Moves (s.marks blank a) (s.step blank a) := by
  cases a with
  | close | cycle | openWalk | list | visit | endWalk =>
    exact (s.collecting_of_step blank rfl).moves hs
  | join session concurrency classes chain => exact step_join hs blank ..
  | call i q =>
    simp only [marks, Interplay.step, Cluster.call]
    cases hm : s.cluster.members[i]? with
    | none => exact hs.refl
    | some m => exact hs.withSite hm (Chain.call_moves blank m.chain q _)
  | complete i handle result =>
    simp only [marks, Interplay.step, Cluster.complete]
    cases hm : s.cluster.members[i]? with
    | none => exact hs.refl
    | some m => exact hs.withSite hm (Chain.complete_moves m.chain handle result (hs i m hm))
  | finish i work =>
    simp only [marks, Interplay.step, Cluster.finish]
    cases hm : s.cluster.members[i]? with
    | none => exact hs.refl
    | some m =>
      exact hs.withBackend hm (m.backend.finish_learns work _ _).moves
        (m.backend.finish_slots work _ _)
  | flush i =>
    simp only [marks, Interplay.step]
    cases hm : s.cluster.members[i]? with
    | none => exact hs.refl
    | some m => exact hs.withBackend hm (m.backend.flushRuns_moves _) rfl
  | shutdown i =>
    simp only [marks, Interplay.step, Cluster.shutdown]
    cases hm : s.cluster.members[i]? with
    | none => exact hs.refl
    | some m =>
      exact hs.withBackend hm (m.backend.shutdown_moves _ _) (m.backend.shutdown_slots _ _)
  | session i f => exact hs.modify .refl rfl fun m hm => hs i m hm
  | reload settings =>
    refine hs.moves ?_ rfl
    simp only [Interplay.step, withCluster, Cluster.withLedger, Interplay.store,
      Ledger.reload_store]
    exact .refl
  | tick clock => exact hs.moves .refl rfl
  | peek => exact hs.refl
  | conclude =>
    simp only [marks, Interplay.step]
    cases s.returned.getLast? with
    | none => exact hs.refl
    | some r => exact hs.moves (Collector.conclude_moves ..).path rfl

end Interplay

end BlockLedger
