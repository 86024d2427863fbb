import BlockLedger.Catalog.Listed
import BlockLedger.Proofs.Cluster.Conservation
import BlockLedger.Proofs.Cluster.Hearing
import BlockLedger.Proofs.Store.Filling

/-
# Where identities come from

No identity is ever given to a relation of another database, or to another relation of its own.
Whatever is known of a live entry or of a copy can be traced back to a source: to a question that
the catalog was asked about the locator of the entry, by a session of its database; or to a tuple
in the class table of its database that describes the storage at that locator.  Only the keys that
stand for all temporary relations need no source.  The identity that goes with a relocation is the
one that is known of the storage before it moved.

The catalog may say something else every time, to everybody, and so may the class tables: in
between any two acts all of them may change.
-/

namespace BlockLedger

/-! ## Calls find nothing out -/

namespace Site

variable {P : Type} (s : Site P)

theorem register_keeps (key : Key) : s.ledger.store.Keeps (s.register key).ledger.store := by
  rw [register_eq]
  exact s.ledger.store.keeps_ensure key

theorem introduce_keeps (relation : Relation) (fork : Fork) :
    s.ledger.store.Keeps (s.introduce relation fork).ledger.store := by
  unfold introduce
  split
  · exact s.register_keeps _
  · exact .refl _

theorem update_keeps (key : Key) {f : Entry → Entry} (hf : ∀ e, (f e).identity = e.identity) :
    s.ledger.store.Keeps (s.update key f).ledger.store :=
  (s.register_keeps key).trans (.of_known fun k => Store.known_modify _ key k hf)

theorem account_keeps (q : Request P) (block count : BlockNumber) (d : Direction) :
    s.ledger.store.Keeps (s.account q block count d).ledger.store := by
  unfold account
  split
  · exact .refl _
  · exact update_keeps _ _ fun e => e.account_identity ..

theorem bump_keeps (q : Request P) {f : Entry → Entry} (hf : ∀ e, (f e).identity = e.identity) :
    s.ledger.store.Keeps (s.bump q f).ledger.store := by
  unfold bump
  split
  · exact .refl _
  · exact update_keeps _ _ hf

theorem count_keeps (q : Request P) : s.ledger.store.Keeps (s.count q).ledger.store := by
  obtain ⟨relation, fork, operation⟩ := q
  cases operation with
  | attach => exact s.introduce_keeps relation .main
  | create old redo =>
    unfold count
    dsimp only
    split
    · refine (Store.Keeps.of_known fun k => ?_).trans (introduce_keeps _ relation fork)
      dsimp only
      rw [Ledger.relocate_store]
    · exact s.introduce_keeps relation fork
  | read block n => exact s.account_keeps _ block _ .read
  | write block pages => exact s.account_keeps _ block _ .write
  | submit handle block => exact .refl _
  | append | lengthen | truncate | sync => exact s.bump_keeps _ fun _ => rfl

theorem prepare_keeps (q : Request P) : s.ledger.store.Keeps (s.prepare q).ledger.store := by
  unfold prepare stage
  split
  · split
    · exact .refl _
    · exact s.register_keeps _
  · exact .refl _

theorem settle_keeps (handle : Handle) (result : Completion) :
    s.ledger.store.Keeps (s.settle handle result).ledger.store := by
  unfold settle
  split
  · refine .of_known fun k => Store.known_modify _ _ k fun e => ?_
    split <;> simp
  · exact .refl _

end Site

namespace Chain

variable {P : Type}

theorem call_keeps (blank : P) (chain : List Link) (q : Request P) (s : Site P) :
    s.ledger.store.Keeps (call blank chain q s).2.ledger.store := by
  induction chain generalizing s with
  | nil => exact .refl _
  | cons link rest ih =>
    cases link with
    | device =>
      unfold call
      split <;> exact .refl _
    | passing name => exact ih s
    | counting =>
      have hrest := (s.prepare_keeps q).trans (ih (s.prepare q))
      unfold call
      rcases h : call blank rest q (s.prepare q) with ⟨_ | pages, t⟩ <;> rw [h] at hrest
      · exact hrest
      · exact hrest.trans (t.count_keeps q)

theorem complete_keeps (chain : List Link) (handle : Handle) (result : Completion) (s : Site P) :
    s.ledger.store.Keeps (complete chain handle result s).2.ledger.store := by
  induction chain generalizing s with
  | nil => exact .refl _
  | cons link rest ih =>
    cases link with
    | device | passing name => exact ih s
    | counting => exact (s.settle_keeps handle result).trans (ih _)

end Chain

/-! ## Sources -/

/-- Where an identity can come from. -/
inductive Source where
  /-- What a session has asked the catalog in the course of an act. -/
  | lookups (session : Session) (inquiries : List Inquiry)
  /-- The class table of a database, which is given together with its default tablespace. -/
  | classes (pages : ClassPages) (database tablespace : Oid)

/-- What can be told from a source about the relation at a locator.  The catalog has been asked for
it by a session of its database, or it is shared.  Or a tuple of its database's class table
describes it: of a relation that is not shared and has files of its own. -/
def Source.Tells : Source → Locator → Identity → Prop
  | lookups session inquiries, l, i =>
    session.owns l.database = true ∧ Answered inquiries l.tablespace l.number i
  | classes pages database tablespace, l, i =>
    ∃ n tuples t kind schema, pages.page database tablespace n = .ok tuples ∧ t ∈ tuples ∧
      t.shared = false ∧ RelKind.ofLetter? t.letter = some kind ∧ kind.hasStorage = true ∧
      l = ⟨if t.tablespace = 0 then tablespace else t.tablespace, database, t.number⟩ ∧
      i = Bulk.identityOf t schema

/-- What can be told from one of several sources. -/
def toldBy (sources : List Source) (l : Locator) (i : Identity) : Prop :=
  ∃ x ∈ sources, x.Tells l i

theorem ClassTuple.kind_of_trackable {t : ClassTuple} (h : t.trackable = true) :
    t.shared = false ∧
      ∃ kind, RelKind.ofLetter? t.letter = some kind ∧ kind.hasStorage = true := by
  unfold trackable at h
  simp only [Bool.and_eq_true, Bool.not_eq_true'] at h
  obtain ⟨⟨hshared, -⟩, hkind⟩ := h
  cases hletter : RelKind.ofLetter? t.letter with
  | none => simp [hletter] at hkind
  | some kind =>
    rw [hletter] at hkind
    exact ⟨hshared, kind, rfl, hkind⟩

variable {told : Locator → Identity → Prop}

theorem Session.hears_of_tells {session : Session} {qs : List Inquiry}
    (h : ∀ l i, (Source.lookups session qs).Tells l i → told l i) : session.Hears told qs :=
  fun l i howns hanswered => h l i ⟨howns, hanswered⟩

theorem Bulk.tells_of_tells {pages : ClassPages} {database tablespace : Oid}
    (h : ∀ l i, (Source.classes pages database tablespace).Tells l i → told l i) :
    Tells pages database tablespace told := by
  intro n tuples t schema hpage ht htrackable
  obtain ⟨hshared, kind, hletter, hstorage⟩ := t.kind_of_trackable htrackable
  exact h _ _ ⟨n, tuples, t, kind, schema, hpage, ht, hshared, hletter, hstorage, rfl, rfl⟩

/-- Whether identities may be found out in an act. -/
def Act.resolves {P : Type} : Act P → Bool
  | .finish .. | .shutdown _ | .cycle | .conclude => true
  | _ => false

namespace Interplay

variable {P C S : Type}

/-- The session that may ask the catalog in an act. -/
def asker? (s : Interplay P C S) : Act P → Option Session
  | .finish i _ | .shutdown i => s.cluster.members[i]?.map fun m => m.backend.session
  | .cycle | .conclude => some s.cluster.session
  | _ => none

/-- The class table that is gone through in an act. -/
def table? (s : Interplay P C S) : Act P → Option Source
  | .finish i (.utility (some (database, tablespace)) true) =>
    (s.cluster.members[i]?.bind fun m => m.backend.classes).map fun pages =>
      .classes pages database tablespace
  | _ => none

variable [Catalog C] [Sink S]

/-- The questions that are put to the catalog in an act, oldest first. -/
def inquiries (blank : P) (s : Interplay P C S) (a : Act P) : List Inquiry :=
  (s.watched.step blank a).cluster.catalog.inquiries

/-- The records that are handed to the sink in an act. -/
def records (blank : P) (s : Interplay P C S) (a : Act P) : List SegmentRecord :=
  (s.watched.step blank a).cluster.sink.records

/-- The sources that are drawn on in an act. -/
def sources (blank : P) (s : Interplay P C S) (a : Act P) : List Source :=
  ((s.asker? a).map fun session => Source.lookups session (s.inquiries blank a)).toList ++
    (s.table? a).toList

/-! ## Acts -/

/-- All that is known in an interplay is rightful. -/
structure Rightful (told : Locator → Identity → Prop) (s : Interplay P C S) : Prop where
  store : s.store.Rightful told
  copies : ∀ e ∈ s.collected, e.Rightful told

omit [Catalog C] [Sink S] in
theorem mem_collected_of_getLast? {s : Interplay P C S} {bucket : Nat} {es : List Entry}
    (h : s.returned.getLast? = some (bucket, es)) {e : Entry} (he : e ∈ es) : e ∈ s.collected :=
  List.mem_append_left _ (List.mem_flatMap.mpr ⟨_, List.mem_of_getLast? h, he⟩)

/-- Most acts find nothing out, and hand nothing over. -/
theorem step_keeps (blank : P) (s : Interplay P C S) {a : Act P} (ha : a.resolves = false) :
    s.store.Keeps (s.step blank a).store ∧ (s.step blank a).cluster.sink = s.cluster.sink := by
  have hself : s.store.Keeps s.store ∧ s.cluster.sink = s.cluster.sink := ⟨.refl _, rfl⟩
  cases a with
  | finish | shutdown | cycle | conclude => cases ha
  | join | session | tick | peek => exact hself
  | reload settings =>
    refine ⟨.of_known fun k => ?_, rfl⟩
    simp only [step, withCluster, Cluster.withLedger, Interplay.store, Ledger.reload_store]
  | call i q =>
    simp only [step, Cluster.call]
    cases s.cluster.members[i]? with
    | none => exact hself
    | some m => exact ⟨Chain.call_keeps blank m.chain q _, rfl⟩
  | complete i handle result =>
    simp only [step, Cluster.complete]
    cases s.cluster.members[i]? with
    | none => exact hself
    | some m => exact ⟨Chain.complete_keeps m.chain handle result _, rfl⟩
  | flush i =>
    simp only [step]
    cases s.cluster.members[i]? with
    | none => exact hself
    | some m => exact ⟨m.backend.flushRuns_keeps _, rfl⟩
  | close =>
    simp only [step]
    cases s.walk with
    | none => exact ⟨.of_known fun k => s.store.known_close k, rfl⟩
    | some w => exact hself
  | openWalk =>
    simp only [step]
    cases s.walk with
    | none => exact ⟨.of_known fun k => s.store.known_nextBucket k, rfl⟩
    | some w => exact hself
  | list | endWalk =>
    simp only [step]
    cases s.walk with
    | none => exact hself
    | some w =>
      dsimp only
      split
      · exact ⟨.refl _, rfl⟩
      · exact hself
  | visit key =>
    simp only [step]
    cases s.walk with
    | none => exact hself
    | some w =>
      dsimp only
      split
      · exact ⟨.of_known fun k => s.store.known_take key k, rfl⟩
      · exact hself

/-- In a cycle the sink is handed a copy of every entry that has activity and an identity. -/
theorem cycle_records {s : Interplay P C S} (blank : P) (hwalk : s.walk = none) {k : Key}
    {e : Entry} (he : s.store.find? k = some e) (hactive : e.active = true)
    (hvalid : e.identity.valid = true) :
    ∃ r, .bucket r ∈ s.records blank .cycle ∧ e ∈ r.entries := by
  have hwatched : s.watched.walk = none := hwalk
  have hsink : (s.watched.step blank .cycle).cluster.sink =
      (Collector.cycle s.watched.cluster.session s.watched.cluster.ledger s.watched.cluster.catalog
        s.watched.cluster.sink).2.2.2 := by
    simp only [step, hwatched, withCluster, handBack, Cluster.cycle]
  have hfind : s.watched.cluster.ledger.store.find? k = some e := he
  rw [records, hsink]
  obtain ⟨r, c, hr, hc, hcopy⟩ := Collector.cycle_records s.watched.cluster.session hfind hactive
    s.watched.cluster.catalog s.watched.cluster.sink
  rw [hcopy.eq hvalid] at hc
  exact ⟨r, hr, hc⟩

section Watched

variable {s : Interplay P (WatchedCatalog C) (WatchedSink S)}

/-- What an act leaves behind is rightful: the store, and the records that have been handed over. -/
structure Leaves (told : Locator → Identity → Prop)
    (s t : Interplay P (WatchedCatalog C) (WatchedSink S)) : Prop where
  store : t.store.Rightful told
  records : ∀ r ∈ t.cluster.sink.records,
    r ∈ s.cluster.sink.records ∨ r.Rightful told t.store

omit [Catalog C] [Sink S] in
theorem Leaves.refl (hs : s.store.Rightful told) : Leaves told s s := ⟨hs, fun _ hr => .inl hr⟩

/-- Nothing but what is rightful comes of an act, if all has been told that its session is answered
and that the class table says. -/
theorem Rightful.leaves [QuietSink S] (hs : s.Rightful told) (hkeyed : s.store.Keyed) (blank : P)
    (a : Act P)
    (hears : ∀ session, s.asker? a = some session →
      session.Hears told (s.step blank a).cluster.catalog.inquiries)
    (htells : ∀ pages database tablespace, s.table? a = some (.classes pages database tablespace) →
      Bulk.Tells pages database tablespace told) :
    Leaves told s (s.step blank a) := by
  cases ha : a.resolves with
  | false =>
    obtain ⟨hkeeps, hsink⟩ := s.step_keeps blank ha
    exact ⟨hs.store.keeps hkeeps, fun r hr => .inl (hsink ▸ hr)⟩
  | true =>
    cases a with
    | finish i work =>
      simp only [asker?, step, Cluster.finish] at hears ⊢
      cases hm : s.cluster.members[i]? with
      | none => exact .refl hs.store
      | some m =>
        rw [hm] at hears
        refine ⟨Backend.finish_rightful hs.store ?_ (hears _ rfl), fun r hr => .inl hr⟩
        rintro database tablespace pages rfl hpages
        refine htells pages database tablespace ?_
        simp only [table?, hm, Option.bind_some, hpages, Option.map_some]
    | shutdown i =>
      simp only [asker?, step, Cluster.shutdown] at hears ⊢
      cases hm : s.cluster.members[i]? with
      | none => exact .refl hs.store
      | some m =>
        rw [hm] at hears
        exact ⟨Backend.shutdown_rightful hs.store (hears _ rfl), fun r hr => .inl hr⟩
    | cycle =>
      simp only [asker?, step, Cluster.cycle] at hears ⊢
      cases hw : s.walk with
      | some w => exact .refl hs.store
      | none =>
        rw [hw] at hears
        obtain ⟨hstore, hrecords⟩ := Collector.cycle_rightful (w := s.cluster.sink) hs.store
          hkeyed (hears _ rfl)
        exact ⟨hstore, hrecords⟩
    | conclude =>
      simp only [asker?, step] at hears ⊢
      cases hlast : s.returned.getLast? with
      | none => exact .refl hs.store
      | some r =>
        obtain ⟨bucket, es⟩ := r
        rw [hlast] at hears
        obtain ⟨hstore, hrecords⟩ := Collector.conclude_rightful (w := s.cluster.sink) hs.store
          (fun e he => hs.copies e (mem_collected_of_getLast? hlast he)) (hears _ rfl)
        exact ⟨hstore, hrecords⟩
    | _ => cases ha

end Watched

/-- The copies that are taken along in an act are rightful. -/
theorem Rightful.marks [QuietSink S] {s : Interplay P C S} (hs : s.Rightful told)
    (hkeyed : s.store.Keyed) (blank : P) (a : Act P) :
    ∀ e ∈ BlockLedger.copies (s.marks blank a), e.Rightful told := by
  cases ha : a.collects with
  | false =>
    rw [(s.marks_frame blank ha).1]
    exact fun _ he => absurd he List.not_mem_nil
  | true =>
    have h := s.collecting_of_step blank ha
    generalize s.marks blank a = ds, s.step blank a = t at h
    cases h with
    | close | cycle =>
      rw [Store.copies_closing]
      exact fun e he => hs.store.close hkeyed he
    | visit w key =>
      rw [copies_singleton]
      exact fun e he => hs.store.take hkeyed (Option.mem_toList.mp he)
    | idle | openWalk | list | endWalk => exact fun _ he => absurd he List.not_mem_nil

variable [QuietSink S] {s : Interplay P C S}

/-- What an act knows, it knows from its sources. -/
theorem Rightful.step (hs : s.Rightful told) (hkeyed : s.store.Keyed) (blank : P) (a : Act P)
    (hsources : ∀ l i, toldBy (s.sources blank a) l i → told l i) :
    (s.step blank a).Rightful told ∧
      ∀ r ∈ s.records blank a, r.Rightful told (s.step blank a).store := by
  have hleaves : Leaves told s.watched (s.watched.step blank a) := by
    have hwatched : s.watched.Rightful told := ⟨hs.store, hs.copies⟩
    refine hwatched.leaves hkeyed blank a ?_ ?_
    · intro session hsession
      refine Session.hears_of_tells fun l i h => hsources l i ⟨_, ?_, h⟩
      have hasker : s.asker? a = some session := hsession
      rw [sources, hasker]
      exact List.mem_append_left _ List.mem_cons_self
    · intro pages database tablespace htable
      refine Bulk.tells_of_tells fun l i h => hsources l i ⟨_, ?_, h⟩
      have htable : s.table? a = some (.classes pages database tablespace) := htable
      rw [sources, htable]
      exact List.mem_append_right _ List.mem_cons_self
  have hstore : (s.watched.step blank a).store = (s.step blank a).store := by
    rw [← s.step_watched blank a]
    rfl
  rw [← hstore]
  refine ⟨⟨hstore ▸ hleaves.store, fun e he => ?_⟩, fun r hr => ?_⟩
  · rw [s.collected_step blank a, List.mem_append] at he
    exact he.elim (hs.copies e) (hs.marks hkeyed blank a e)
  · -- nothing had been handed over when the act began
    exact (hleaves.records r hr).resolve_left List.not_mem_nil

end Interplay

theorem SegmentRecord.Rightful.path {r : SegmentRecord} {u v : Store} {ds : List Mark}
    (h : r.Rightful told u) (hpath : u.Path ds v) : r.Rightful told v := by
  cases r with
  | bucket r => exact h
  | associations r =>
    intro a ha i hi
    obtain ⟨hvalid, hknown⟩ := h a ha i hi
    exact ⟨hvalid, hpath.known hknown hvalid⟩

/-! ## Turns -/

/-- A turn of an interplay: somebody acts, or what the catalogs have to say changes. -/
inductive Turn (P C : Type) where
  | act (a : Act P)
  /-- The questions from now on are put to another catalog. -/
  | catalog (catalog : C)
  /-- The class tables that a member has access to are others from now on. -/
  | classes (i : Nat) (classes : Option ClassPages)

/-- The act of a turn. -/
def Turn.act? {P C : Type} : Turn P C → Option (Act P)
  | act a => some a
  | _ => none

namespace Interplay

variable {P C S : Type} [Catalog C] [Sink S]

/-- Takes a turn. -/
def turn (blank : P) (s : Interplay P C S) : Turn P C → Interplay P C S
  | .act a => s.step blank a
  | .catalog catalog => s.withCluster { s.cluster with catalog }
  | .classes i classes =>
    s.withCluster
      { s.cluster with
        members := s.cluster.members.modify i fun m =>
          { m with backend := { m.backend with classes } } }

/-- Takes one turn after the other. -/
def play (blank : P) (s : Interplay P C S) (turns : List (Turn P C)) : Interplay P C S :=
  turns.foldl (turn blank) s

/-- A run is taken in turns in which the catalogs stay as they are. -/
theorem play_act (blank : P) (s : Interplay P C S) (acts : List (Act P)) :
    s.play blank (acts.map .act) = s.run blank acts :=
  List.foldl_map

theorem play_concat (blank : P) (s : Interplay P C S) (turns : List (Turn P C)) (t : Turn P C) :
    s.play blank (turns ++ [t]) = (s.play blank turns).turn blank t := by
  simp [play]

/-- The sources that are drawn on in one turn after the other. -/
def heard (blank : P) (s : Interplay P C S) : List (Turn P C) → List Source
  | [] => []
  | t :: rest => t.act?.toList.flatMap (s.sources blank) ++ (s.turn blank t).heard blank rest

/-- The records that are handed to the sink in one turn after the other. -/
def handed (blank : P) (s : Interplay P C S) : List (Turn P C) → List SegmentRecord
  | [] => []
  | t :: rest => t.act?.toList.flatMap (s.records blank) ++ (s.turn blank t).handed blank rest

theorem handed_concat (blank : P) (s : Interplay P C S) (turns : List (Turn P C)) (t : Turn P C) :
    s.handed blank (turns ++ [t]) =
      s.handed blank turns ++ t.act?.toList.flatMap ((s.play blank turns).records blank) := by
  induction turns generalizing s with
  | nil => simp [handed, play]
  | cons u rest ih =>
    rw [List.cons_append, handed, ih, handed, List.append_assoc]
    rfl

variable [QuietSink S] {s : Interplay P C S}

theorem Sound.turn (hs : s.Sound) (blank : P) (t : Turn P C) :
    (s.turn blank t).Sound ∧ ∃ ds, s.store.Path ds (s.turn blank t).store := by
  obtain ⟨hbucket, hwalk, hreturned⟩ := hs.numbered
  cases t with
  | act a => exact ⟨hs.step blank a, _, (hs.covered.step blank a).path⟩
  | catalog catalog => exact ⟨⟨hs.keyed, hs.covered, ⟨hbucket, hwalk, hreturned⟩⟩, [], .refl⟩
  | classes i classes =>
    have hmoves : s.Moves [] (s.turn blank (.classes i classes)) :=
      hs.covered.modify .refl rfl fun m hm => hs.covered i m hm
    exact ⟨⟨hs.keyed, hmoves.covered, ⟨hbucket, hwalk, hreturned⟩⟩, [], .refl⟩

theorem Sound.play (hs : s.Sound) (blank : P) (turns : List (Turn P C)) :
    (s.play blank turns).Sound ∧ ∃ ds, s.store.Path ds (s.play blank turns).store := by
  induction turns generalizing s with
  | nil => exact ⟨hs, [], .refl⟩
  | cons t rest ih =>
    obtain ⟨hturn, ds, hpath⟩ := hs.turn blank t
    obtain ⟨hplay, es, hrest⟩ := ih hturn
    exact ⟨hplay, ds ++ es, hpath.trans hrest⟩

theorem Rightful.turn (hs : s.Rightful told) (hkeyed : s.store.Keyed) (blank : P) (t : Turn P C)
    (hsources : ∀ l i, toldBy (t.act?.toList.flatMap (s.sources blank)) l i → told l i) :
    (s.turn blank t).Rightful told ∧
      ∀ r ∈ t.act?.toList.flatMap (s.records blank), r.Rightful told (s.turn blank t).store := by
  cases t with
  | act a =>
    simp only [Turn.act?, Option.toList_some, List.flatMap_cons, List.flatMap_nil,
      List.append_nil] at hsources ⊢
    exact hs.step hkeyed blank a hsources
  | catalog | classes => exact ⟨⟨hs.store, hs.copies⟩, fun _ hr => absurd hr List.not_mem_nil⟩

theorem Rightful.play (hs : s.Rightful told) (hsound : s.Sound) (blank : P)
    (turns : List (Turn P C)) (hsources : ∀ l i, toldBy (s.heard blank turns) l i → told l i) :
    (s.play blank turns).Rightful told ∧
      ∀ r ∈ s.handed blank turns, r.Rightful told (s.play blank turns).store := by
  induction turns generalizing s with
  | nil => exact ⟨hs, fun _ hr => absurd hr List.not_mem_nil⟩
  | cons t rest ih =>
    have hsplit : ∀ x ∈ t.act?.toList.flatMap (s.sources blank) ++
        (s.turn blank t).heard blank rest, ∀ l i, x.Tells l i → told l i :=
      fun x hx l i h => hsources l i ⟨x, hx, h⟩
    obtain ⟨hnext, hrecords⟩ := hs.turn hsound.keyed blank t fun l i ⟨x, hx, h⟩ =>
      hsplit x (List.mem_append_left _ hx) l i h
    obtain ⟨hsound', -⟩ := hsound.turn blank t
    obtain ⟨hlast, hrest⟩ := ih hnext hsound' fun l i ⟨x, hx, h⟩ =>
      hsplit x (List.mem_append_right _ hx) l i h
    refine ⟨hlast, fun r hr => ?_⟩
    rcases List.mem_append.mp hr with hr | hr
    · -- what has been known when a record was handed over is still known at the end
      obtain ⟨-, ds, hpath⟩ := hsound'.play blank rest
      exact (hrecords r hr).path hpath
    · exact hrest r hr

/-- All that is known at any time, of live entries, of copies and of relocations, has been told by
sources of its own database. -/
theorem known_is_told (blank : P) (settings : Settings) (clock : Clock) (catalog : C)
    (session : Session) (sink : S) (turns : List (Turn P C)) :
    let start : Interplay P C S := start settings clock catalog session sink
    let now := start.play blank turns
    let told := toldBy (start.heard blank turns)
    (∀ k e, now.store.find? k = some e → BlockLedger.Rightful told k e.identity) ∧
      ∀ r ∈ start.handed blank turns, r.Rightful told now.store := by
  intro start now told
  have hsound : start.Sound := start_sound settings clock catalog session sink
  have hstart : start.Rightful told := by
    refine ⟨fun k i hi => ?_, fun _ he => absurd he List.not_mem_nil⟩
    rw [Store.known, start_store] at hi
    cases hi
  obtain ⟨hnow, hrecords⟩ := hstart.play hsound blank turns fun _ _ h => h
  refine ⟨fun k e he => hnow.store k e.identity ?_, hrecords⟩
  rw [Store.known, he]
  rfl

/-! ## A fork that is named after the default tablespace -/

/-- A catalog that lists one relation, in the default tablespace. -/
def listing : ListedCatalog := ListedCatalog.empty.addRelation 0 100 ⟨7, 0, .table, "t", 2200⟩

/-- What it says about that relation. -/
def named : Identity := ⟨7, 0, some .table, "t", "public", true⟩

/-- An interplay with an empty catalog, in which the clock reads 1. -/
def silence : Interplay Unit ListedCatalog History := start {} { now := 1 } .empty {} default

/-- A session that may ask the catalog. -/
def asker : Session := { database := 5, inTransaction := true }

/-- A backend creates a fork of the relation and lengthens it, and the catalog is asked twice: before
the relation is listed, and when it is. -/
def asking : List (Turn Unit ListedCatalog) :=
  [.act (.join asker 1 none Chain.direct), .act (.call 0 (.creation grown)),
    .act (.call 0 (.growth grown 4)), .act (.finish 0 .data), .catalog listing,
    .act (.finish 0 .data)]

/-- The entry of the fork by then. -/
def namedEntry : Entry := { (Charge.extension 4).apply 1 (.new grown) with identity := named }

theorem find_unlisted {k : Key} (hk : k.locator = grown.locator) :
    (Catalog.find ListedCatalog.empty asker k).1 = .missing := by
  have htemp : k.isTemporaries = false := by simp [Key.isTemporaries, hk, grown]
  simp [Catalog.find, htemp, Catalog.refusal, Catalog.search, Catalog.relation, asker, hk, grown,
    ListedCatalog.empty]

theorem find_listed {k : Key} (hk : k.locator = grown.locator) :
    (Catalog.find listing asker k).1 = .found named := by
  have htemp : k.isTemporaries = false := by simp [Key.isTemporaries, hk, grown]
  simp [Catalog.find, htemp, Catalog.refusal, Catalog.search, Catalog.relation, asker, hk, grown,
    listing, ListedCatalog.empty, ListedCatalog.addRelation, ListedCatalog.identityOf, named]

omit [QuietSink S] in
/-- By then there is activity of the fork, and it has its identity. -/
theorem asking_finds (retention : Nat) (sink : S) :
    let now := (start { retention } { now := 1 } .empty {} sink :
      Interplay Unit ListedCatalog S).play () asking
    (∀ k, now.store.find? k = if grown = k then some namedEntry else none) ∧ now.walk = none := by
  intro now
  obtain ⟨⟨t, ht, hfounds⟩, hcatalog⟩ := (Alone.start_join () { retention } { now := 1 }
    ListedCatalog.empty {} sink asker 1 none).founded () (k := grown) (Site.fork?_fresh ..)
    (Site.find?_fresh ..) 4
  have hentry : t.ledger.store.find? grown = some ((Charge.extension 4).apply 1 (.new grown)) := by
    rw [hfounds.entries, if_pos rfl]
    rfl
  have hunresolved : t.ledger.store.unresolved grown = true := by
    rw [Store.unresolved, hentry]
    rfl
  have hsession : t.backend.session = asker := hfounds.session
  have hpending : t.backend.pending = [grown] := hfounds.pending
  have howns : t.backend.session.owns grown.locator.database = true := by
    rw [hsession]
    decide
  have hunlisted : (Catalog.find ListedCatalog.empty t.backend.session grown).1 = .missing := by
    rw [hsession]
    exact find_unlisted rfl
  have hlisted : (Catalog.find listing t.backend.session grown).1 = .found named := by
    rw [hsession]
    exact find_listed rfl
  have hmissed := ht.finish_of_missing () hcatalog hpending howns hunresolved hunlisted
  have hfound := (hmissed.withCatalog listing).finish_of_found () rfl hpending howns hunresolved
    hlisted
  have hnow : now.store = (t.ledger.store.resolve grown named).2 := by
    simp only [now, play, asking, List.foldl, turn]
    exact hfound
  refine ⟨fun k => ?_, rfl⟩
  rw [hnow, Store.find?_resolve _ _ _ hunresolved rfl]
  by_cases hk : grown = k
  · subst hk
    rw [if_pos rfl, if_pos rfl, hentry]
    rfl
  · have hnone : t.ledger.store.find? k = none := by
      rw [hfounds.entries, if_neg hk]
      exact Site.find?_fresh ..
    rw [hnone, if_neg hk]
    split <;> rfl

/-- Then a cycle hands over what has been told. -/
theorem known_is_told_asking :
    ∃ r e, .bucket r ∈ silence.handed () (asking ++ [.act .cycle]) ∧ e ∈ r.entries ∧
      e.key = grown ∧ e.identity = named ∧
      toldBy (silence.heard () (asking ++ [.act .cycle])) grown.locator named := by
  obtain ⟨hentries, hwalk⟩ := asking_finds 0 (default : History)
  have he : (silence.play () asking).store.find? grown = some namedEntry := by
    rw [silence, hentries, if_pos rfl]
  obtain ⟨r, hr, hmem⟩ := cycle_records (s := silence.play () asking) () hwalk he rfl rfl
  have hhanded : .bucket r ∈ silence.handed () (asking ++ [.act .cycle]) := by
    rw [handed_concat]
    exact List.mem_append_right _ (by simpa [Turn.act?] using hr)
  have hrecord : (SegmentRecord.bucket r).Rightful _ _ :=
    (known_is_told () {} { now := 1 } ListedCatalog.empty {} (default : History)
      (asking ++ [Turn.act Act.cycle])).2 _ hhanded
  have htold := hrecord namedEntry hmem
  exact ⟨r, namedEntry, hhanded, hmem, rfl, rfl, htold.told_of_valid (by decide) rfl⟩

end Interplay

end BlockLedger
