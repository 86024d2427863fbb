import BlockLedger.Proofs.Worker.LastCycle

/-
# Cycles with any sink

A sink sees the ledger and may do anything to it.  What a cycle does nevertheless comes down to what
the two operations of its sink do: what both leave alone comes through the cycle as it comes through
finding out identities, and a cycle crashes only if one of them does.  In a cycle that does not crash
the sink is asked once to trim, for as many hours as the tunables say, or not at all if they say 0.
-/

namespace BlockLedger

variable {C S : Type} [Catalog C] [Sink S]

/-! ## What comes through a cycle -/

/-- A sink leaves alone what is told of a ledger. -/
structure Sink.Spares (S : Type) [Sink S] {α : Type} (told : Ledger → α) : Prop where
  store : ∀ (sink : S) r l, told (Sink.store sink r l).2.2 = told l
  trim : ∀ (sink : S) hours now l, told (Sink.trim sink hours now l).2.2 = told l

omit [Catalog C] in
/-- A sink that does no more than to report leaves alone all but the journal. -/
theorem Sink.Spares.of_quiet [QuietSink S] {α : Type} {told : Ledger → α}
    (h : ∀ l journal, told { l with journal } = told l) : Sink.Spares S told where
  store sink r l := by
    obtain ⟨journal, hquiet⟩ := QuietSink.store_quiet sink r l
    rw [hquiet, h]
  trim sink hours now l := by
    obtain ⟨journal, hquiet⟩ := QuietSink.trim_quiet sink hours now l
    rw [hquiet, h]

namespace Collector

/-- What is left of a cycle after the bucket has been closed ends with a delivery. -/
theorem conclude_delivers (session : Session) (bucket : Nat) (es : List Entry) (l : Ledger)
    (catalog : C) (sink : S) :
    ∃ named resolved associations l₂ catalog₂, l.Moves [] l₂ ∧
      conclude session bucket es l catalog sink =
        ((deliver bucket named resolved associations l₂ sink).1,
          (deliver bucket named resolved associations l₂ sink).2.1, catalog₂,
          (deliver bucket named resolved associations l₂ sink).2.2) := by
  have hidentify := (identifyAll_learns session es l catalog).moves
  unfold conclude
  rcases hi : identifyAll session es l catalog with ⟨⟨named, resolved⟩, l₁, catalog₁⟩
  rw [hi] at hidentify
  have hdrain := drain_moves l₁
  dsimp only
  rcases hd : drain l₁ with ⟨associations, l₂⟩
  rw [hd] at hdrain
  exact ⟨named, resolved, associations, l₂, catalog₁, hidentify.trans_silent hdrain, rfl⟩

section Spares

variable {α : Type} {told : Ledger → α} (h : Sink.Spares S told)
  (hmoves : ∀ {l l' : Ledger}, l.Moves [] l' → told l' = told l)
include h hmoves

omit [Catalog C]

theorem persist_spares (r : SegmentRecord) (l : Ledger) (sink : S) :
    told (persist r l sink).2.1 = told l := by
  have hstore := h.store sink r l
  unfold persist
  split
  · rfl
  · split <;> rename_i heq <;> rw [heq] at hstore
    · exact hstore
    · exact (hmoves ((Ledger.Moves.refl _).report _)).trans hstore
    · exact hstore

theorem trim_spares (collectedAt : Int) (l : Ledger) (sink : S) :
    told (trim collectedAt l sink).2.1 = told l := by
  have htrim := h.trim sink l.tunables.retention (trimTime l.clock collectedAt) l
  unfold trim
  split
  · rfl
  · split <;> rename_i heq <;> rw [heq] at htrim
    · dsimp only
      split
      · exact (hmoves ((Ledger.Moves.refl _).report _)).trans htrim
      · exact htrim
    · exact (hmoves ((Ledger.Moves.refl _).report _)).trans htrim
    · exact htrim

theorem deliver_spares (bucket : Nat) (es : List Entry) (resolved : Nat)
    (associations : List Association) (l : Ledger) (sink : S) :
    told (deliver bucket es resolved associations l sink).2.1 = told l := by
  have hbucket := persist_spares h hmoves (.bucket ⟨bucket, l.clock.now, es⟩) l sink
  unfold deliver
  dsimp only
  split <;> rename_i heq <;> rw [heq] at hbucket
  · exact hbucket
  · rename_i l₁ sink₁
    have hassociations :=
      persist_spares h hmoves (.associations ⟨bucket, l.clock.now, associations⟩) l₁ sink₁
    split <;> rename_i heq <;> rw [heq] at hassociations
    · exact hassociations.trans hbucket
    · rename_i l₂ sink₂
      have htrim := trim_spares h hmoves l.clock.now l₂ sink₂
      split <;> rename_i heq <;> rw [heq] at htrim
      · exact htrim.trans (hassociations.trans hbucket)
      · exact (hmoves ((Ledger.Moves.refl _).report _)).trans
          (htrim.trans (hassociations.trans hbucket))

theorem conclude_spares {C : Type} [Catalog C] (session : Session) (bucket : Nat)
    (es : List Entry) (l : Ledger) (catalog : C) (sink : S) :
    told (conclude session bucket es l catalog sink).2.1 = told l := by
  obtain ⟨named, resolved, associations, l₂, catalog₂, hmoved, heq⟩ :=
    conclude_delivers session bucket es l catalog sink
  rw [heq]
  exact (deliver_spares h hmoves bucket named resolved associations l₂ sink).trans (hmoves hmoved)

end Spares

theorem ledger_collect (c : Collector C S) :
    c.collect.2.ledger = (cycle c.session c.ledger c.catalog c.sink).2.1 := by
  unfold collect
  rcases cycle c.session c.ledger c.catalog c.sink with ⟨report, ledger, catalog, sink⟩
  rfl

/-- A cycle leaves the tunables alone if its sink does. -/
theorem tunables_collect (h : Sink.Spares S Ledger.tunables) (c : Collector C S) :
    c.collect.2.ledger.tunables = c.ledger.tunables := by
  rw [ledger_collect, cycle_eq]
  exact conclude_spares h (fun hmoves => hmoves.tunables) ..

/-- A cycle goes on to the next bucket, and so does nobody else if its sink does not. -/
theorem bucket_collect (h : Sink.Spares S fun l => l.store.bucket) (c : Collector C S) :
    c.collect.2.ledger.store.bucket = c.ledger.store.bucket + 1 := by
  have hclose : c.ledger.store.close.2.2.bucket = c.ledger.store.bucket + 1 := by
    rw [c.ledger.store.close_path.bucket, Store.turns_closing, List.length_singleton]
  rw [ledger_collect, cycle_eq, ← hclose]
  exact conclude_spares h (fun hmoves => hmoves.path.bucket) ..

/-- A cycle reports the bucket that was being filled when it began. -/
theorem bucket_of_collect {c : Collector C S} {report : CycleReport}
    (h : c.collect.1 = some report) : report.bucket = c.ledger.store.bucket := by
  rw [report_collect, cycle_eq] at h
  obtain ⟨named, resolved, associations, l, catalog, -, heq⟩ :=
    conclude_delivers c.session c.ledger.store.close.1 c.ledger.store.close.2.1
      { c.ledger with store := c.ledger.store.close.2.2 } c.catalog c.sink
  rw [heq, deliver] at h
  dsimp only at h
  split at h
  · cases h
  · split at h
    · cases h
    · split at h
      · cases h
      · obtain rfl := Option.some.inj h
        rfl

/-! ## What a cycle leaves in the store -/

/-- The ledger of a cycle when it turns to the sink. -/
def identified (c : Collector C S) : Ledger :=
  (identifyAll c.session c.ledger.store.close.2.1
    { c.ledger with store := c.ledger.store.close.2.2 } c.catalog).2.1

end Collector

namespace Store

/-- There is no activity in any entry. -/
def Idle (s : Store) : Prop := ∀ k e, s.find? k = some e → e.active = false

theorem idle_close (s : Store) : s.close.2.2.Idle := by
  intro k e he
  rw [find?_close] at he
  obtain ⟨e', -, rfl⟩ := Option.map_eq_some_iff.mp he
  exact e'.closed_active

/-- Finding out identities is no activity. -/
theorem Path.idle {s t : Store} (h : s.Path [] t) (hs : s.Idle) : t.Idle := by
  -- the induction is on the steps, of which those that mark an entry are ruled out by `hds`
  generalize hds : ([] : List Mark) = ds at h
  induction h with
  | refl => exact hs
  | mark => simp at hds
  | @silent _ t u _ hstep ih =>
    intro k e he
    have htouch := hstep.touch k
    rw [he] at htouch
    generalize ho : t.find? k = o at htouch
    cases htouch with
    | other => exact ih hds k e ho
    | create => rfl
    | identify e' i =>
      rw [Entry.active_identify]
      exact ih hds k e' ho

end Store

namespace Collector

omit [Sink S] in
/-- There is no activity in the store when a cycle turns to the sink. -/
theorem idle_identified (c : Collector C S) : c.identified.store.Idle :=
  (identifyAll_learns ..).moves.path.idle c.ledger.store.idle_close

end Collector

namespace Collector

/-- A sink that does no more than to report leaves the store as the cycle hands it over. -/
theorem store_collect [QuietSink S] (c : Collector C S) :
    c.collect.2.ledger.store = c.identified.store := by
  rw [ledger_collect, cycle_eq, identified]
  unfold conclude
  rcases identifyAll c.session c.ledger.store.close.2.1
    { c.ledger with store := c.ledger.store.close.2.2 } c.catalog with ⟨⟨named, resolved⟩, l, _⟩
  dsimp only
  rw [deliver_store, drain_store]

end Collector

/-! ## Crashes -/

/-- A sink of some sort never crashes, and stays of that sort. -/
structure Sink.Sturdy {S : Type} [Sink S] (P : S → Prop) : Prop where
  store : ∀ sink r l, P sink → (Sink.store sink r l).1 ≠ .crashed ∧ P (Sink.store sink r l).2.1
  trim : ∀ sink hours now l, P sink →
    (Sink.trim sink hours now l).1 ≠ .crashed ∧ P (Sink.trim sink hours now l).2.1

/-- History whose folder is not there refuses everything, and that is all. -/
theorem History.sturdy : Sink.Sturdy fun h : History => h.folder = none where
  store h r l hfolder := by
    simp [Sink.store, History.store, hfolder]
  trim h hours now l hfolder := by
    simp [Sink.trim, History.trim, hfolder]

namespace Collector

section Sturdy

variable {P : S → Prop} (h : Sink.Sturdy P)
include h

omit [Catalog C]

theorem persist_sturdy (r : SegmentRecord) (l : Ledger) {sink : S} (hsink : P sink) :
    (persist r l sink).1.isSome = true ∧ P (persist r l sink).2.2 := by
  have hstore := h.store sink r l hsink
  unfold persist
  split
  · exact ⟨rfl, hsink⟩
  · split <;> rename_i heq <;> rw [heq] at hstore
    · exact ⟨rfl, hstore.2⟩
    · exact ⟨rfl, hstore.2⟩
    · exact absurd rfl hstore.1

theorem trim_sturdy (collectedAt : Int) (l : Ledger) {sink : S} (hsink : P sink) :
    (trim collectedAt l sink).1 = true ∧ P (trim collectedAt l sink).2.2 := by
  have htrim := h.trim sink l.tunables.retention (trimTime l.clock collectedAt) l hsink
  unfold trim
  split
  · exact ⟨rfl, hsink⟩
  · split <;> rename_i heq <;> rw [heq] at htrim
    · exact ⟨rfl, htrim.2⟩
    · exact ⟨rfl, htrim.2⟩
    · exact absurd rfl htrim.1

theorem deliver_sturdy (bucket : Nat) (es : List Entry) (resolved : Nat)
    (associations : List Association) (l : Ledger) {sink : S} (hsink : P sink) :
    (deliver bucket es resolved associations l sink).1.isSome = true ∧
      P (deliver bucket es resolved associations l sink).2.2 := by
  have hbucket := persist_sturdy h (.bucket ⟨bucket, l.clock.now, es⟩) l hsink
  unfold deliver
  dsimp only
  split <;> rename_i heq <;> rw [heq] at hbucket
  · cases hbucket.1
  · rename_i l₁ sink₁
    have hassociations :=
      persist_sturdy h (.associations ⟨bucket, l.clock.now, associations⟩) l₁ hbucket.2
    split <;> rename_i heq <;> rw [heq] at hassociations
    · cases hassociations.1
    · rename_i l₂ sink₂
      have htrim := trim_sturdy h l.clock.now l₂ hassociations.2
      split <;> rename_i heq <;> rw [heq] at htrim
      · cases htrim.1
      · exact ⟨rfl, htrim.2⟩

end Sturdy

/-- The collector crashes only if its sink does. -/
theorem collect_sturdy {P : S → Prop} (h : Sink.Sturdy P) {c : Collector C S} (hsink : P c.sink) :
    c.collect.1.isSome = true ∧ P c.collect.2.sink := by
  obtain ⟨named, resolved, associations, l, catalog, -, heq⟩ :=
    conclude_delivers c.session c.ledger.store.close.1 c.ledger.store.close.2.1
      { c.ledger with store := c.ledger.store.close.2.2 } c.catalog c.sink
  rw [report_collect, sink_collect, cycle_eq, heq]
  exact deliver_sturdy h _ named resolved associations l hsink

end Collector

/-! ## Trimming -/

/-- A sink, and for how many hours it was asked to trim, oldest first. -/
structure TimedSink (S : Type) where
  sink : S
  hours : List Nat := []

instance : Sink (TimedSink S) where
  store t r l :=
    match Sink.store t.sink r l with
    | (outcome, sink, l) => (outcome, { t with sink }, l)
  trim t hours now l :=
    match Sink.trim t.sink hours now l with
    | (outcome, sink, l) => (outcome, ⟨sink, t.hours ++ [hours]⟩, l)

/-- A sink with this note taken is in front of the sink itself. -/
def TimedSink.view (S : Type) [Sink S] : SinkView (TimedSink S) S where
  behind := sink
  store_behind _ _ _ := rfl
  trim_behind _ _ _ _ := rfl

omit [Catalog C] in
theorem Sink.Spares.timed {α : Type} {told : Ledger → α} (h : Sink.Spares S told) :
    Sink.Spares (TimedSink S) told :=
  ⟨fun t r l => h.store t.sink r l, fun t hours now l => h.trim t.sink hours now l⟩

namespace Collector

section Timed

variable (t : TimedSink S)

omit [Catalog C]

theorem persist_hours (r : SegmentRecord) (l : Ledger) : (persist r l t).2.2.hours = t.hours := by
  unfold persist
  split
  · rfl
  · simp only [Sink.store]
    rcases Sink.store t.sink r l with ⟨_ | _ | _, sink, l'⟩ <;> rfl

theorem trim_hours (collectedAt : Int) (l : Ledger) :
    (trim collectedAt l t).2.2.hours =
      t.hours ++ if l.tunables.retention = 0 then [] else [l.tunables.retention] := by
  unfold trim
  split
  · exact (List.append_nil _).symm
  · simp only [Sink.trim]
    rcases Sink.trim t.sink l.tunables.retention (trimTime l.clock collectedAt) l with
      ⟨_ | _ | _, sink, l'⟩ <;> rfl

/-- A delivery that does not crash comes to trimming. -/
theorem deliver_hours (h : Sink.Spares S Ledger.tunables) (bucket : Nat) (es : List Entry)
    (resolved : Nat) (associations : List Association) (l : Ledger)
    (hdone : (deliver bucket es resolved associations l t).1.isSome = true) :
    (deliver bucket es resolved associations l t).2.2.hours =
      t.hours ++ if l.tunables.retention = 0 then [] else [l.tunables.retention] := by
  -- the tunables that the trimming goes by are read after both records have been stored
  have hbucket := persist_spares h.timed (fun hmoves => hmoves.tunables)
    (.bucket ⟨bucket, l.clock.now, es⟩) l t
  have hhours := persist_hours t (.bucket ⟨bucket, l.clock.now, es⟩) l
  unfold deliver at hdone ⊢
  dsimp only at hdone ⊢
  rcases hb : persist (.bucket ⟨bucket, l.clock.now, es⟩) l t with ⟨_ | first, l₁, t₁⟩ <;>
    rw [hb] at hbucket hhours hdone
  · cases hdone
  · have hassociations := persist_spares h.timed (fun hmoves => hmoves.tunables)
      (.associations ⟨bucket, l.clock.now, associations⟩) l₁ t₁
    have hhours₁ := persist_hours t₁ (.associations ⟨bucket, l.clock.now, associations⟩) l₁
    dsimp only at hdone ⊢
    rcases ha : persist (.associations ⟨bucket, l.clock.now, associations⟩) l₁ t₁ with
      ⟨_ | second, l₂, t₂⟩ <;> rw [ha] at hassociations hhours₁ hdone
    · cases hdone
    · have htrim := trim_hours t₂ l.clock.now l₂
      dsimp only at hbucket hhours hassociations hhours₁ hdone ⊢
      rw [hassociations, hbucket, hhours₁, hhours] at htrim
      rcases ht : trim l.clock.now l₂ t₂ with ⟨_ | _, l₃, t₃⟩ <;> rw [ht] at htrim hdone
      · cases hdone
      · exact htrim

end Timed

/-- The collector, with note taken of what its sink is asked from now on. -/
def timed (c : Collector C S) : Collector C (TimedSink S) :=
  { session := c.session, ledger := c.ledger, catalog := c.catalog, sink := { sink := c.sink } }

/-- For how many hours the sink is asked to trim when the collector collects. -/
def trims (c : Collector C S) : List Nat := c.timed.collect.2.sink.hours

/-- Taking note changes nothing. -/
theorem collect_timed (c : Collector C S) :
    c.timed.collect.1 = c.collect.1 ∧ c.timed.collect.2.ledger = c.collect.2.ledger ∧
      c.timed.collect.2.sink.sink = c.collect.2.sink := by
  obtain ⟨session, ledger, catalog, sink⟩ := c
  have hcycle : cycle session ledger catalog sink = _ :=
    cycle_behind (TimedSink.view S) ⟨sink, []⟩ (.plain C) catalog session ledger
  simp only [report_collect, ledger_collect, sink_collect, timed]
  rw [hcycle]
  exact ⟨rfl, rfl, rfl⟩

theorem trims_eq (h : Sink.Spares S Ledger.tunables) {c : Collector C S}
    (hdone : c.collect.1.isSome = true) :
    c.trims =
      if c.ledger.tunables.retention = 0 then [] else [c.ledger.tunables.retention] := by
  rw [← c.collect_timed.1, report_collect, cycle_eq] at hdone
  rw [trims, sink_collect, cycle_eq]
  obtain ⟨named, resolved, associations, l, catalog, hmoves, heq⟩ :=
    conclude_delivers c.timed.session c.timed.ledger.store.close.1 c.timed.ledger.store.close.2.1
      { c.timed.ledger with store := c.timed.ledger.store.close.2.2 } c.timed.catalog c.timed.sink
  rw [heq] at hdone ⊢
  have hhours := deliver_hours c.timed.sink h _ named resolved associations l hdone
  rw [hmoves.tunables] at hhours
  exact hhours

end Collector

end BlockLedger
