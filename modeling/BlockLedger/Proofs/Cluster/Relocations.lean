import BlockLedger.Proofs.Cluster.Flights
import BlockLedger.Proofs.Cluster.Provenance
import BlockLedger.Proofs.Ring.Waiting

/-
# From the storage to history

Whenever a member whose chain counts right above the device has created the storage that a relation
moves to, the relocation goes to the ring, and no other act brings anything there.  Every cycle
takes out what waits, and hands it to its sink under the number of the bucket that it collects.
Hence nothing is handed over twice, nothing out of order, and what is neither handed over nor waits
has come while 1023 others did.
-/

namespace BlockLedger

/-- The relocation that comes of a request if it is carried out: another storage than before is
created for a relation that is not temporary. -/
def Request.relocation? {P : Type} (q : Request P) : Option Relocation :=
  match q.operation with
  | .create old redo =>
    if q.relation.temporary = false ∧ old.number ≠ 0 ∧ old.number ≠ q.relation.locator.number then
      some ⟨old, q.relation.locator, q.fork, redo⟩
    else none
  | _ => none

/-- The relocations in a record. -/
def SegmentRecord.relocations : SegmentRecord → List Relocation
  | bucket _ => []
  | associations r => r.associations.map Association.toRelocation

theorem SegmentRecord.relocations_offered (r : SegmentRecord) :
    r.offered.flatMap relocations = r.relocations := by
  unfold offered
  split
  · rename_i h
    cases r with
    | bucket r => rfl
    | associations r =>
      have hnone : r.associations = [] := List.length_eq_zero_iff.mp h
      rw [relocations, hnone]
      rfl
  · simp

/-- A ring after something may have been brought to it. -/
def Ring.offered (r : Ring) : Option Relocation → Ring
  | some e => (r.enqueue e).1
  | none => r

/-! ## Calls -/

namespace Site

variable {P : Type} (s : Site P)

@[simp] theorem ring_register (key : Key) : (s.register key).ledger.ring = s.ledger.ring := by
  rw [register_eq]

@[simp] theorem ring_introduce (relation : Relation) (fork : Fork) :
    (s.introduce relation fork).ledger.ring = s.ledger.ring := by
  unfold introduce
  split <;> simp

@[simp] theorem ring_update (key : Key) (f : Entry → Entry) :
    (s.update key f).ledger.ring = s.ledger.ring :=
  s.ring_register key

@[simp] theorem ring_account (q : Request P) (block count : BlockNumber) (d : Direction) :
    (s.account q block count d).ledger.ring = s.ledger.ring := by
  unfold account
  split
  · rfl
  · exact ring_update ..

@[simp] theorem ring_bump (q : Request P) (f : Entry → Entry) :
    (s.bump q f).ledger.ring = s.ledger.ring := by
  unfold bump
  split
  · rfl
  · exact ring_update ..

theorem ring_prepare (q : Request P) : (s.prepare q).ledger.ring = s.ledger.ring := by
  unfold prepare stage
  split
  · split
    · rfl
    · exact s.ring_register _
  · rfl

theorem ring_count (q : Request P) :
    (s.count q).ledger.ring = s.ledger.ring.offered q.relocation? := by
  obtain ⟨relation, fork, operation⟩ := q
  cases operation with
  | create old redo =>
    have hmoves : relocates (⟨relation, fork, .create old redo⟩ : Request P) old = true ↔
        relation.temporary = false ∧ old.number ≠ 0 ∧ old.number ≠ relation.locator.number := by
      simp [relocates, and_assoc]
    simp only [count, Request.relocation?, hmoves]
    split
    · rw [ring_introduce, Ledger.relocate_ring]
      rfl
    · rw [ring_introduce]
      rfl
  | attach => exact s.ring_introduce ..
  | read | write => exact s.ring_account ..
  | submit => rfl
  | append | lengthen | truncate | sync => exact s.ring_bump ..

theorem ring_settle (handle : Handle) (result : Completion) :
    (s.settle handle result).ledger.ring = s.ledger.ring := by
  unfold settle
  split <;> rfl

end Site

namespace Chain

variable {P : Type} (s : Site P)

/-- What a call comes to, as far as relocations go. -/
def relocation? (blank : P) (chain : List Link) (q : Request P) : Option Relocation :=
  match (call blank chain q s).1 with
  | .ok _ => q.relocation?
  | .error _ => none

theorem ring_call (blank : P) (q : Request P) :
    (call blank direct q s).2.ledger.ring =
      s.ledger.ring.offered (relocation? s blank direct q) := by
  have hprepare := s.ring_prepare q
  simp only [relocation?, direct, call]
  cases (s.prepare q).device.perform blank q with
  | error e => exact hprepare
  | ok r =>
    dsimp only
    rw [Site.ring_count]
    exact congrArg (·.offered q.relocation?) hprepare

theorem ring_complete (chain : List Link) (handle : Handle) (result : Completion) :
    (complete chain handle result s).2.ledger.ring = s.ledger.ring := by
  induction chain generalizing s with
  | nil => rfl
  | cons link rest ih =>
    cases link with
    | device | passing name => exact ih s
    | counting => exact (ih _).trans (s.ring_settle handle result)

end Chain

/-! ## Cycles -/

/-- A sink that does not crash when it is handed a record, whether it takes it or not. -/
class SteadySink (S : Type) [Sink S] : Prop where
  store_steady (sink : S) (r : SegmentRecord) (l : Ledger) : (Sink.store sink r l).1 ≠ .crashed

instance : SteadySink History where
  store_steady h r l := by
    simp only [Sink.store]
    split <;> simp

instance : SteadySink RefusingHistory where
  store_steady h r l := by
    simp only [Sink.store]
    split
    · simp
    · exact SteadySink.store_steady h.history r l

instance {S : Type} [Sink S] [SteadySink S] : SteadySink (WatchedSink S) where
  store_steady w r l := SteadySink.store_steady w.sink r l

namespace Collector

variable {C S : Type} [Catalog C] [Sink S]

/-- A drain takes out what waits in the ring; the identities that are added to relocations leave
them as they are. -/
theorem drain_relocations (l : Ledger) :
    (drain l).2.ring = l.ring.drain.2 ∧
      (drain l).1.map Association.toRelocation = l.ring.drain.1 := by
  have hring : (if 0 < l.ring.dropped then l.report (.relocationsLost l.ring.dropped)
      else l).ring = l.ring := by
    split <;> rfl
  have hassociate : ∀ s, Association.toRelocation ∘ associate s = id := fun s => rfl
  unfold drain
  dsimp only
  rw [hring, List.map_map, hassociate, List.map_id]
  exact ⟨rfl, rfl⟩

theorem conclude_ring [QuietSink S] (session : Session) (bucket : Nat) (es : List Entry)
    (l : Ledger) (catalog : C) (sink : S) :
    (conclude session bucket es l catalog sink).2.1.ring = l.ring.drain.2 := by
  have hidentify := (identifyAll_learns session es l catalog).ring
  unfold conclude
  dsimp only
  obtain ⟨journal, h⟩ := deliver_quiet bucket (identifyAll session es l catalog).1.1
    (identifyAll session es l catalog).1.2 (drain (identifyAll session es l catalog).2.1).1
    (drain (identifyAll session es l catalog).2.1).2 sink
  rw [h, ← hidentify]
  exact (drain_relocations _).1

theorem persist_steady [SteadySink S] (r : SegmentRecord) (l : Ledger) (sink : S) :
    (persist r l sink).1 ≠ none := by
  unfold persist
  split
  · exact Option.some_ne_none _
  · have hsteady := SteadySink.store_steady sink r l
    split <;> rename_i heq
    · exact Option.some_ne_none _
    · exact Option.some_ne_none _
    · exact absurd (congrArg Prod.fst heq) hsteady

/-- The records that are handed to the sink when a bucket has been closed. -/
def handover (session : Session) (bucket : Nat) (es : List Entry) (l : Ledger) (catalog : C) :
    List SegmentRecord :=
  (SegmentRecord.bucket
    ⟨bucket, l.clock.now, (identifyAll session es l catalog).1.1⟩).offered ++
  (SegmentRecord.associations
    ⟨bucket, l.clock.now, (drain (identifyAll session es l catalog).2.1).1⟩).offered

theorem conclude_handover [SteadySink S] (session : Session) (bucket : Nat) (es : List Entry)
    (l : Ledger) (catalog : C) (w : WatchedSink S) :
    (conclude session bucket es l catalog w).2.2.2.records =
      w.records ++ handover session bucket es l catalog := by
  have hclock : (drain (identifyAll session es l catalog).2.1).2.clock = l.clock :=
    (drain_moves _).clock.trans (identifyAll_learns session es l catalog).moves.clock
  unfold conclude handover
  dsimp only
  rw [deliver_records, if_neg, List.append_assoc, hclock]
  exact persist_steady _ _ w

/-- Of all that waits in the ring, nothing is held back from the sink. -/
theorem handover_relocations (session : Session) (bucket : Nat) (es : List Entry) (l : Ledger)
    (catalog : C) :
    (handover session bucket es l catalog).flatMap SegmentRecord.relocations = l.ring.drain.1 := by
  rw [← (identifyAll_learns session es l catalog).ring, ← (drain_relocations _).2, handover,
    List.flatMap_append, SegmentRecord.relocations_offered, SegmentRecord.relocations_offered,
    SegmentRecord.relocations, SegmentRecord.relocations, List.nil_append]

/-- The records of a cycle belong to its bucket and its time. -/
theorem of_mem_handover {session : Session} {bucket : Nat} {es : List Entry} {l : Ledger}
    {catalog : C} {r : SegmentRecord} (hr : r ∈ handover session bucket es l catalog) :
    r.number = bucket ∧ r.collectedAt = l.clock.now := by
  rcases List.mem_append.mp hr with hr | hr
  · obtain rfl := SegmentRecord.eq_of_mem_offered hr
    exact ⟨rfl, rfl⟩
  · obtain rfl := SegmentRecord.eq_of_mem_offered hr
    exact ⟨rfl, rfl⟩

end Collector

/-! ## Acts -/

/-- The chain that an act adds. -/
def Act.chain? {P : Type} : Act P → Option (List Link)
  | join _ _ _ chain => some chain
  | _ => none

namespace Interplay

variable {P C S : Type}

/-- The ring of the ledger. -/
def ring (s : Interplay P C S) : Ring := s.cluster.ledger.ring

/-- The chains of the members. -/
def chains (s : Interplay P C S) : List (List Link) := s.cluster.members.map Member.chain

/-- The number of the bucket that is handed to the sink in an act. -/
def bucket? (s : Interplay P C S) : Act P → Option Nat
  | .cycle => if s.walk.isNone then some s.store.bucket else none
  | .conclude => s.returned.getLast?.map Prod.fst
  | _ => none

/-- The relocation that is carried out in an act. -/
def relocation? (blank : P) (s : Interplay P C S) : Act P → Option Relocation
  | .call i q =>
    match (s.cluster.call blank i q).1 with
    | .ok _ => q.relocation?
    | .error _ => none
  | _ => none

theorem Stands.relocation? {blank : P} {s : Interplay P C S} {i : Nat} {f : Footing}
    {q : Request P} (h : s.Stands i f) (hq : f.Admits q) :
    s.relocation? blank (.call i q) = q.relocation? := by
  obtain ⟨pages, hanswer⟩ := h.answer blank hq
  simp only [Interplay.relocation?, hanswer]

section Members

variable {s t : Interplay P C S}

/-- What is taken from every member goes along when one of them goes on. -/
theorem map_modify {α : Type} (g : Member → α) (f' : α → α) {f : Member → Member}
    (h : ∀ m, g (f m) = f' (g m)) (members : List Member) (i : Nat) :
    (members.modify i f).map g = (members.map g).modify i f' := by
  refine List.ext_getElem? fun j => ?_
  rw [List.getElem?_map, List.getElem?_modify, List.getElem?_modify, List.getElem?_map]
  cases members[j]? with
  | none => rfl
  | some m =>
    refine congrArg some ?_
    dsimp only
    split
    · exact h m
    · rfl

theorem chains_modify {i : Nat} {f : Member → Member}
    (h : t.cluster.members = s.cluster.members.modify i f) (hf : ∀ m, (f m).chain = m.chain) :
    t.chains = s.chains := by
  rw [chains, h, map_modify Member.chain id hf, List.modify_id, chains]

variable [Catalog C] [Sink S]

/-- The chain of a member stays as it is. -/
theorem chains_stay (blank : P) (s : Interplay P C S) {a : Act P} (ha : a.chain? = none) :
    (s.step blank a).chains = s.chains := by
  cases a with
  | join => cases ha
  | reload | tick | peek => rfl
  | close | cycle | openWalk | list | visit | endWalk =>
    rw [chains, (s.collecting_of_step blank rfl).members, chains]
  | session i f =>
    exact chains_modify (f := fun m => { m with backend := m.backend.withSession f }) rfl
      fun m => rfl
  | call i q =>
    simp only [step, Cluster.call]
    cases s.cluster.members[i]? with
    | none => rfl
    | some m => exact chains_modify rfl fun m => rfl
  | complete i handle result =>
    simp only [step, Cluster.complete]
    cases s.cluster.members[i]? with
    | none => rfl
    | some m => exact chains_modify rfl fun m => rfl
  | finish i work =>
    simp only [step, Cluster.finish]
    cases s.cluster.members[i]? with
    | none => rfl
    | some m => exact chains_modify rfl fun m => rfl
  | flush i =>
    simp only [step]
    cases s.cluster.members[i]? with
    | none => rfl
    | some m => exact chains_modify rfl fun m => rfl
  | shutdown i =>
    simp only [step, Cluster.shutdown]
    cases s.cluster.members[i]? with
    | none => rfl
    | some m => exact chains_modify rfl fun m => rfl
  | conclude =>
    simp only [step]
    cases s.returned.getLast? <;> rfl

theorem chains_step (blank : P) (s : Interplay P C S) (a : Act P) :
    (s.step blank a).chains = s.chains ++ a.chain?.toList := by
  cases h : a.chain? with
  | none => exact (s.chains_stay blank h).trans (List.append_nil _).symm
  | some chain =>
    cases a with
    | join session concurrency classes chain' =>
      obtain rfl := Option.some.inj h
      simp [step, chains, withCluster]
    | _ => cases h

theorem chains_turn (blank : P) (s : Interplay P C S) (t : Turn P C) :
    (s.turn blank t).chains = s.chains ++ (t.act?.bind Act.chain?).toList := by
  cases t with
  | act a => exact s.chains_step blank a
  | catalog catalog => exact (List.append_nil _).symm
  | classes i classes =>
    have hsame : (s.turn blank (.classes i classes)).chains = s.chains :=
      chains_modify (f := fun m => { m with backend := { m.backend with classes } }) rfl
        fun m => rfl
    exact hsame.trans (List.append_nil _).symm

end Members

section Rings

variable [Catalog C] [Sink S]

/-- A closing snapshot that nothing is delivered of leaves ring and sink alone. -/
theorem Collecting.uncollected {s t : Interplay P C S} {a : Act P} {ds : List Mark}
    (h : s.Collecting a ds t) (ha : s.bucket? a = none) :
    t.ring = s.ring ∧ t.cluster.sink = s.cluster.sink := by
  cases h with
  | cycle hw => simp [bucket?, hw] at ha
  | _ => exact ⟨rfl, rfl⟩

/-- Nothing comes to the ring but relocations that are carried out, and nothing goes from it but
what is handed to the sink in a cycle. -/
theorem ring_step (blank : P) {s : Interplay P C S} (hs : ∀ chain ∈ s.chains, chain = Chain.direct)
    {a : Act P} (ha : s.bucket? a = none) :
    (s.step blank a).ring = s.ring.offered (s.relocation? blank a) := by
  cases a with
  | join | session | tick | peek => rfl
  | reload settings => exact s.cluster.ledger.reload_ring settings
  | call i q =>
    simp only [step, Cluster.call, relocation?]
    cases hm : s.cluster.members[i]? with
    | none => rfl
    | some m =>
      have hdirect : m.chain = Chain.direct :=
        hs m.chain (List.mem_map_of_mem (List.mem_of_getElem? hm))
      dsimp only
      rw [hdirect]
      exact Chain.ring_call (s.cluster.siteOf m) blank q
  | complete i handle result =>
    simp only [step, Cluster.complete]
    cases s.cluster.members[i]? with
    | none => rfl
    | some m => exact Chain.ring_complete _ m.chain handle result
  | finish i work =>
    simp only [step, Cluster.finish]
    cases s.cluster.members[i]? with
    | none => rfl
    | some m => exact (m.backend.finish_learns work _ _).ring
  | flush i =>
    simp only [step]
    cases s.cluster.members[i]? <;> rfl
  | shutdown i =>
    simp only [step, Cluster.shutdown]
    cases s.cluster.members[i]? with
    | none => rfl
    | some m => exact ((m.backend.flushRuns s.cluster.ledger).2.1.resolvePending_learns _ _).ring
  | close | cycle | openWalk | list | visit | endWalk =>
    exact ((s.collecting_of_step blank rfl).uncollected ha).1
  | conclude =>
    simp only [bucket?, Option.map_eq_none_iff] at ha
    simp only [step, ha]
    rfl

/-- Nothing is handed to the sink but in a cycle. -/
theorem sink_step (blank : P) {s : Interplay P C S} {a : Act P} (ha : s.bucket? a = none) :
    (s.step blank a).cluster.sink = s.cluster.sink := by
  cases hresolves : a.resolves with
  | false => exact (s.step_keeps blank hresolves).2
  | true =>
    cases a with
    | finish i work =>
      simp only [step, Cluster.finish]
      cases s.cluster.members[i]? <;> rfl
    | shutdown i =>
      simp only [step, Cluster.shutdown]
      cases s.cluster.members[i]? <;> rfl
    | cycle => exact ((s.collecting_of_step blank rfl).uncollected ha).2
    | conclude =>
      simp only [bucket?, Option.map_eq_none_iff] at ha
      simp only [step, ha]
    | _ => cases hresolves

theorem records_of_uncollected (blank : P) {s : Interplay P C S} {a : Act P}
    (ha : s.bucket? a = none) : s.records blank a = [] := by
  have hsink : (s.watched.step blank a).cluster.sink = s.watched.cluster.sink :=
    sink_step blank ha
  rw [records, hsink]
  rfl

/-- In a cycle all that waits in the ring is taken out and handed to the sink. -/
theorem ring_collect [QuietSink S] (blank : P) {s : Interplay P C S} {a : Act P} {bucket : Nat}
    (ha : s.bucket? a = some bucket) : (s.step blank a).ring = s.ring.drain.2 := by
  cases a with
  | cycle =>
    cases hw : s.walk with
    | none =>
      simp only [step, hw, Cluster.cycle, Collector.cycle_eq]
      exact Collector.conclude_ring ..
    | some w => simp [bucket?, hw] at ha
  | conclude =>
    simp only [bucket?, Option.map_eq_some_iff] at ha
    obtain ⟨r, hr, -⟩ := ha
    simp only [step, hr]
    exact Collector.conclude_ring ..
  | _ => cases ha

/-- In a cycle a bucket that has been closed is handed over. -/
theorem sink_collect (blank : P) {s : Interplay P C S} {a : Act P} {bucket : Nat}
    (ha : s.bucket? a = some bucket) :
    ∃ es l, l.clock = s.cluster.ledger.clock ∧ l.tunables = s.cluster.ledger.tunables ∧
      l.ring = s.ring ∧ (s.step blank a).cluster.sink =
        (Collector.conclude s.cluster.session bucket es l s.cluster.catalog
          s.cluster.sink).2.2.2 := by
  cases a with
  | cycle =>
    cases hw : s.walk with
    | none =>
      have hbucket : s.store.bucket = bucket := by simpa [bucket?, hw] using ha
      obtain rfl : s.cluster.ledger.store.close.1 = bucket := hbucket
      refine ⟨s.cluster.ledger.store.close.2.1,
        { s.cluster.ledger with store := s.cluster.ledger.store.close.2.2 }, rfl, rfl, rfl, ?_⟩
      simp only [step, hw, withCluster, handBack, Cluster.cycle, Collector.cycle_eq]
    | some w => simp [bucket?, hw] at ha
  | conclude =>
    simp only [bucket?, Option.map_eq_some_iff] at ha
    obtain ⟨r, hr, rfl⟩ := ha
    refine ⟨r.2, s.cluster.ledger, rfl, rfl, rfl, ?_⟩
    simp only [step, hr, withCluster]
  | _ => cases ha

/-- What a cycle hands over, and what becomes of its sink. -/
theorem collects [SteadySink S] (blank : P) {s : Interplay P C S} {a : Act P} {bucket : Nat}
    (ha : s.bucket? a = some bucket) :
    ∃ es l, l.clock = s.cluster.ledger.clock ∧ l.tunables = s.cluster.ledger.tunables ∧
      l.ring = s.ring ∧
      s.records blank a =
        Collector.handover s.cluster.session bucket es l s.watched.cluster.catalog ∧
      (s.step blank a).cluster.sink =
        (Collector.conclude s.cluster.session bucket es l s.watched.cluster.catalog
          s.cluster.sink).2.2.2 := by
  have hwatched : s.watched.bucket? a = some bucket := ha
  obtain ⟨es, l, hclock, htunables, hring, hsink⟩ := sink_collect blank hwatched
  refine ⟨es, l, hclock, htunables, hring, ?_, ?_⟩
  · -- a sink that is watched from the beginning of an act has been handed nothing before
    rw [records, hsink]
    exact Collector.conclude_handover ..
  · have hstep : (s.step blank a).cluster.sink = (s.watched.step blank a).cluster.sink.sink :=
      congrArg (fun t => t.cluster.sink) (step_watched blank s a).symm
    have hplain : s.cluster.sink = s.watched.cluster.sink.sink := rfl
    have hsession : s.watched.cluster.session = s.cluster.session := rfl
    rw [hstep, hsink, hplain, Collector.conclude_watchedSink, hsession]

/-- A cycle in one go hands over what it has closed itself. -/
theorem records_cycle [SteadySink S] (blank : P) {s : Interplay P C S} (hwalk : s.walk = none) :
    s.records blank .cycle =
      Collector.handover s.cluster.session s.store.bucket s.store.close.2.1
        { s.cluster.ledger with store := s.store.close.2.2 } s.watched.cluster.catalog := by
  have hwatched : s.watched.walk = none := hwalk
  simp only [records, step, hwatched, withCluster, handBack, Cluster.cycle, Collector.cycle_eq]
  exact Collector.conclude_handover ..

/-- What is handed over in a cycle bears the number of its bucket. -/
theorem records_collect [SteadySink S] (blank : P) {s : Interplay P C S} {a : Act P} {bucket : Nat}
    (ha : s.bucket? a = some bucket) :
    (s.records blank a).flatMap SegmentRecord.relocations = s.ring.drain.1 ∧
      ∀ r ∈ s.records blank a, r.number = bucket := by
  obtain ⟨es, l, -, -, hring, hrecords, -⟩ := collects blank ha
  rw [hrecords, Collector.handover_relocations, hring]
  exact ⟨rfl, fun r hr => (Collector.of_mem_handover hr).1⟩

/-! ## Runs -/

/-- The relocations that are carried out in one turn after the other, each with how many waited when
it was. -/
def relocations (blank : P) (s : Interplay P C S) : List (Turn P C) → List (Relocation × Nat)
  | [] => []
  | t :: rest =>
    ((t.act?.bind (s.relocation? blank)).map fun r => (r, s.ring.length)).toList ++
      (s.turn blank t).relocations blank rest

theorem relocations_concat (blank : P) (s : Interplay P C S) (turns : List (Turn P C))
    (t : Turn P C) :
    s.relocations blank (turns ++ [t]) =
      s.relocations blank turns ++
        ((t.act?.bind ((s.play blank turns).relocation? blank)).map fun r =>
          (r, (s.play blank turns).ring.length)).toList := by
  induction turns generalizing s with
  | nil => simp [relocations, play]
  | cons u rest ih =>
    rw [List.cons_append, relocations, ih, relocations, List.append_assoc]
    rfl

variable [QuietSink S] [SteadySink S] {s : Interplay P C S} {brought : List (Relocation × Nat)}
  {taken : List Relocation}

/-- An act keeps the books of the ring. -/
theorem booked_step (blank : P) (hs : ∀ chain ∈ s.chains, chain = Chain.direct)
    (h : s.ring.Booked brought taken) (a : Act P) :
    (s.step blank a).ring.Booked
      (brought ++ ((s.relocation? blank a).map fun r => (r, s.ring.length)).toList)
      (taken ++ (s.records blank a).flatMap SegmentRecord.relocations) := by
  cases ha : s.bucket? a with
  | none =>
    rw [ring_step blank hs ha, records_of_uncollected blank ha]
    cases s.relocation? blank a with
    | none => simpa [Ring.offered] using h
    | some r => simpa [Ring.offered] using h.enqueue r
  | some bucket =>
    have hnone : s.relocation? blank a = none := by
      cases a with
      | call => cases ha
      | _ => rfl
    rw [ring_collect blank ha, (records_collect blank ha).1, hnone]
    simpa using h.drain

theorem booked_turn (blank : P) (hs : ∀ chain ∈ s.chains, chain = Chain.direct)
    (h : s.ring.Booked brought taken) (t : Turn P C) :
    (s.turn blank t).ring.Booked
      (brought ++
        ((t.act?.bind (s.relocation? blank)).map fun r => (r, s.ring.length)).toList)
      (taken ++
        (t.act?.toList.flatMap (s.records blank)).flatMap SegmentRecord.relocations) := by
  cases t with
  | act a => simpa [Turn.act?, turn] using booked_step blank hs h a
  | catalog catalog =>
    have hring : (s.turn blank (.catalog catalog)).ring = s.ring := rfl
    simpa [Turn.act?, hring] using h
  | classes i classes =>
    have hring : (s.turn blank (.classes i classes)).ring = s.ring := rfl
    simpa [Turn.act?, hring] using h

end Rings

section Start

variable [Catalog C] [Sink S] (settings : Settings) (clock : Clock) (catalog : C)
  (session : Session) (sink : S) {turns : List (Turn P C)}

/-- The members of an interplay have the chains that they joined with. -/
theorem mem_chains_play (blank : P) {chain : List Link}
    (h : chain ∈ ((start settings clock catalog session sink).play blank turns).chains) :
    ∃ session concurrency classes, .act (.join session concurrency classes chain) ∈ turns := by
  induction turns using List.reverseRecOn with
  | nil => cases h
  | append_singleton turns t ih =>
    rw [play_concat, chains_turn, List.mem_append] at h
    rcases h with h | h
    · obtain ⟨session, concurrency, classes, hmem⟩ := ih h
      exact ⟨session, concurrency, classes, List.mem_append_left _ hmem⟩
    · rw [Option.mem_toList, Option.bind_eq_some_iff] at h
      obtain ⟨a, ha, hchain⟩ := h
      cases t with
      | catalog | classes => cases ha
      | act b =>
        obtain rfl := Option.some.inj ha
        cases b with
        | join session concurrency classes chain' =>
          obtain rfl := Option.some.inj hchain
          exact ⟨session, concurrency, classes, by simp⟩
        | _ => cases hchain

variable [QuietSink S] [SteadySink S]

/-- The books of the ring agree at any time. -/
theorem booked_play (blank : P)
    (direct : ∀ session concurrency classes chain,
      .act (.join session concurrency classes chain) ∈ turns → chain = Chain.direct) :
    let start := start settings clock catalog session sink
    (start.play blank turns).ring.Booked (start.relocations blank turns)
      ((start.handed blank turns).flatMap SegmentRecord.relocations) := by
  intro start
  induction turns using List.reverseRecOn with
  | nil => exact .empty
  | append_singleton turns t ih =>
    have hrest := ih fun session concurrency classes chain hmem =>
      direct session concurrency classes chain (List.mem_append_left _ hmem)
    have hchains : ∀ chain ∈ (start.play blank turns).chains, chain = Chain.direct := by
      intro chain hmem
      obtain ⟨session, concurrency, classes, hjoin⟩ := mem_chains_play _ _ _ _ _ blank hmem
      exact direct session concurrency classes chain (List.mem_append_left _ hjoin)
    rw [play_concat, relocations_concat, handed_concat, List.flatMap_append]
    exact booked_turn blank hchains hrest t

/-- What is handed over in the course of an interplay, and then what still waits, is what has been
relocated, one after the other, but for what found 1023 others waiting.  What is handed over in an
act bears the number of the bucket that is collected in it.  And as long as fewer than `2 ^ 64`
relocations have found room, a cycle leaves nothing behind. -/
theorem relocations_arrive (blank : P)
    (direct : ∀ session concurrency classes chain,
      .act (.join session concurrency classes chain) ∈ turns → chain = Chain.direct) :
    let start := start settings clock catalog session sink
    let now := start.play blank turns
    let brought := start.relocations blank turns
    (start.handed blank turns).flatMap SegmentRecord.relocations ++ now.ring.waiting =
        (brought.filter fun b => b.2 ≠ 1023).map Prod.fst ∧
      now.ring.dropped = (brought.filter fun b => b.2 = 1023).length ∧
      (∀ a, ∀ r ∈ now.records blank a, now.bucket? a = some r.number) ∧
      ((brought.filter fun b => b.2 ≠ 1023).length < 2 ^ 64 → ∀ a, (now.bucket? a).isSome →
        (now.step blank a).ring.waiting = []) := by
  intro start now brought
  have h : now.ring.Booked brought _ := booked_play settings clock catalog session sink blank direct
  refine ⟨h.order, ?_, fun a r hr => ?_, fun hlt a ha => ?_⟩
  · rw [h.dropped, Ring.refused, List.length_map]
  · cases ha : now.bucket? a with
    | none =>
      rw [records_of_uncollected blank ha] at hr
      cases hr
    | some bucket => rw [(records_collect blank ha).2 r hr]
  · obtain ⟨bucket, ha⟩ := Option.isSome_iff_exists.mp ha
    rw [ring_collect blank ha]
    refine h.waiting_drain ?_
    rwa [Ring.admitted, List.length_map]

end Start

/-! ## A relation that moves -/

/-- The storage of a relation before it moves. -/
def vacated : Locator := ⟨1663, 5, 100⟩

/-- Its storage afterwards. -/
def settled : Locator := ⟨1663, 5, 200⟩

/-- A backend moves a relation fork by fork, and attaches it. -/
def moving : List (Turn Unit ListedCatalog) :=
  [.act (.join { database := 5 } 1 none [.counting, .device]),
    .act (.call 0 ⟨⟨settled, false⟩, .main, .create vacated false⟩),
    .act (.call 0 ⟨⟨settled, false⟩, .init, .create vacated true⟩),
    .act (.call 0 ⟨⟨settled, false⟩, .main, .attach⟩)]

theorem relocations_moving :
    silence.relocations () moving =
      [(⟨vacated, settled, .main, false⟩, 0), (⟨vacated, settled, .init, true⟩, 1)] := by
  have hjoined : (silence.step () (.join { database := 5 } 1 none Chain.direct)).Stands 0 _ :=
    .start_join () {} { now := 1 } ListedCatalog.empty {} (default : History) { database := 5 } 1
      none _ rfl
  have hchains : ∀ chain ∈ (silence.step () (.join { database := 5 } 1 none Chain.direct)).chains,
      chain = Chain.direct := fun _ => List.mem_singleton.mp
  have hempty : (silence.step () (.join { database := 5 } 1 none Chain.direct)).ring = {} := rfl
  simp only [moving, relocations, Turn.act?, Option.bind_some, turn]
  rw [← Chain.direct]
  generalize silence.step () (.join { database := 5 } 1 none Chain.direct) = s at *
  set main : Request Unit := ⟨⟨settled, false⟩, .main, .create vacated false⟩
  set init : Request Unit := ⟨⟨settled, false⟩, .init, .create vacated true⟩
  have hmain : s.relocation? () (.call 0 main) = some ⟨vacated, settled, .main, false⟩ :=
    hjoined.relocation? (by decide)
  have hstands := hjoined.call () (q := main) (by decide)
  have hinit : (s.step () (.call 0 main)).relocation? () (.call 0 init) =
      some ⟨vacated, settled, .init, true⟩ := hstands.relocation? (by decide)
  have hattached : ((s.step () (.call 0 main)).step () (.call 0 init)).relocation? ()
      (.call 0 ⟨⟨settled, false⟩, .main, .attach⟩) = none :=
    (hstands.call () (by decide)).relocation? (by decide)
  have hone : (s.step () (.call 0 main)).ring.length = 1 := by
    rw [ring_step () hchains rfl, hmain, hempty]
    exact Ring.whole_empty.length_enqueue (by decide) _
  have hnone : s.ring.length = 0 := by
    rw [hempty]
    rfl
  rw [hmain, hinit, hattached, hone, hnone]
  rfl

/-- Both relocations are handed over in the next cycle. -/
theorem relocations_arrive_moving :
    (∀ session concurrency classes chain,
      .act (.join session concurrency classes chain) ∈ moving ++ [.act .cycle] →
        chain = Chain.direct) ∧
      (silence.handed () (moving ++ [.act .cycle])).flatMap SegmentRecord.relocations =
        [⟨vacated, settled, .main, false⟩, ⟨vacated, settled, .init, true⟩] := by
  have hdirect : ∀ session concurrency classes chain,
      .act (.join session concurrency classes chain) ∈ moving → chain = Chain.direct := by
    simp [moving, Chain.direct]
  have hdirect' : ∀ session concurrency classes chain,
      .act (.join session concurrency classes chain) ∈ moving ++ [.act .cycle] →
        chain = Chain.direct := by
    simpa using hdirect
  have hbrought : silence.relocations () (moving ++ [.act .cycle]) =
      silence.relocations () moving := by
    simp [relocations_concat, Turn.act?, relocation?]
  have hbucket : ((silence.play () moving).bucket? .cycle).isSome := by
    simp [silence, moving, play, turn, step, withCluster, Interplay.start, bucket?]
  have hroom : ((silence.relocations () moving).filter fun b => b.2 ≠ 1023).length < 2 ^ 64 := by
    rw [relocations_moving]
    decide
  have hleft : ((silence.play () moving).step () .cycle).ring.waiting = [] :=
    (relocations_arrive {} { now := 1 } ListedCatalog.empty {} (default : History) () hdirect).2.2.2
      hroom .cycle hbucket
  have harrive : (silence.handed () (moving ++ [.act .cycle])).flatMap SegmentRecord.relocations ++
      (silence.play () (moving ++ [.act .cycle])).ring.waiting =
        ((silence.relocations () (moving ++ [.act .cycle])).filter fun b => b.2 ≠ 1023).map
          Prod.fst :=
    (relocations_arrive {} { now := 1 } ListedCatalog.empty {} (default : History) ()
      hdirect').1
  rw [play_concat, turn, hleft, List.append_nil, hbrought, relocations_moving] at harrive
  exact ⟨hdirect', harrive⟩

end Interplay

end BlockLedger
