import BlockLedger.History.Refusing
import BlockLedger.Proofs.Cluster.Learning

/-
# Moves of the ledger

Backends and the collector change the store of the ledger along paths, and leave the clock and the
tunables alone.
Finding out identities is silent, whatever the catalog answers; so is what the collector does with
a bucket once it has been closed, provided that its sink keeps its hands off the ledger.  A backend
that leaves counts its open runs late.
-/

namespace BlockLedger

namespace Ledger

/-- A ledger goes on, with some marks in its store. -/
structure Moves (l : Ledger) (ds : List Mark) (l' : Ledger) : Prop where
  path : l.store.Path ds l'.store
  clock : l'.clock = l.clock
  tunables : l'.tunables = l.tunables

namespace Moves

variable {l l' l'' : Ledger} {ds es : List Mark}

theorem refl (l : Ledger) : l.Moves [] l := ⟨.refl, rfl, rfl⟩

theorem trans (h : l.Moves ds l') (h' : l'.Moves es l'') : l.Moves (ds ++ es) l'' :=
  ⟨h.path.trans h'.path, h'.clock.trans h.clock, h'.tunables.trans h.tunables⟩

theorem trans_silent (h : l.Moves [] l') (h' : l'.Moves es l'') : l.Moves es l'' := h.trans h'

theorem silent_trans (h : l.Moves ds l') (h' : l'.Moves [] l'') : l.Moves ds l'' := by
  simpa using h.trans h'

theorem report (h : l.Moves ds l') (e : Event) : l.Moves ds (l'.report e) :=
  ⟨h.path, h.clock, h.tunables⟩

theorem withRing (h : l.Moves ds l') (ring : Ring) : l.Moves ds { l' with ring } :=
  ⟨h.path, h.clock, h.tunables⟩

theorem of_path {s : Store} (h : l.store.Path ds s) : l.Moves ds { l with store := s } :=
  ⟨h, rfl, rfl⟩

end Moves

end Ledger

/-! ## Identities -/

namespace Store

theorem identifyAll_path (s : Store) (i : Identity) (ks : List Key) :
    s.Path [] (s.identifyAll i ks).2 := by
  induction ks generalizing s with
  | nil => exact .refl
  | cons k rest ih => exact (Step.identify k i).path_silent.trans (ih _)

theorem resolve_path (s : Store) (k : Key) (i : Identity) : s.Path [] (s.resolve k i).2 := by
  have hpath : s.Path [] (s.identify k i).1 := (Step.identify k i).path_silent
  unfold resolve
  rcases h : s.identify k i with ⟨t, _ | _⟩ <;> rw [h] at hpath
  · exact hpath
  · exact hpath.trans (identifyAll_path t i _)

end Store

/-- To find something out is silent. -/
theorem Ledger.Learns.moves {l l' : Ledger} (h : l.Learns l') : l.Moves [] l' := by
  induction h with
  | refl => exact .refl l
  | offer _ key i ih => exact ih.trans_silent (.of_path (Store.resolve_path _ key i))
  | report _ e ih => exact ih.report e

section Identities

variable {C : Type} [Catalog C]

theorem Backend.finish_slots (b : Backend) (work : Work) (l : Ledger) (catalog : C) :
    (b.finish work l catalog).2.1.slots = b.slots := by
  unfold finish
  split <;> rfl

theorem Backend.finish_runs (b : Backend) (work : Work) (l : Ledger) (catalog : C) :
    (b.finish work l catalog).2.1.runs = b.runs := by
  unfold finish
  split <;> rfl

end Identities

/-! ## Leaving -/

theorem Store.endRuns_path (s : Store) (rs : List EndedRun)
    (present : ∀ r ∈ rs, (s.find? r.key).isSome) :
    s.Path (rs.map .ended) (rs.foldl Store.endRun s) := by
  induction rs generalizing s with
  | nil => exact .refl
  | cons r rest ih =>
    have hstep : s.Path [.ended r] (s.endRun r) :=
      (Step.endRun r (present r List.mem_cons_self)).path
    refine hstep.trans (ih _ fun r' hr' => ?_)
    exact hstep.isSome (present r' (List.mem_cons_of_mem _ hr'))

namespace Backend

/-- The runs that a backend would count late if it left now. -/
def lateRuns (b : Backend) (l : Ledger) : List EndedRun :=
  b.runs.openRuns.filter fun run => (l.store.find? run.key).isSome

theorem flushRuns_moves (b : Backend) (l : Ledger) :
    l.Moves ((b.lateRuns l).map .ended) (b.flushRuns l).2.2 := by
  refine .of_path (Store.endRuns_path _ _ fun r hr => ?_)
  simpa using (List.mem_filter.mp hr).2

theorem shutdown_moves {C : Type} [Catalog C] (b : Backend) (l : Ledger) (catalog : C) :
    l.Moves ((b.lateRuns l).map .ended) (b.shutdown l catalog).2.2.1 := by
  have hflush := b.flushRuns_moves l
  have hrest := (b.flushRuns l).2.1.resolvePending_learns (b.flushRuns l).2.2 catalog
  exact (hflush.silent_trans hrest.moves).report _

theorem shutdown_slots {C : Type} [Catalog C] (b : Backend) (l : Ledger) (catalog : C) :
    (b.shutdown l catalog).2.1.slots = b.slots :=
  rfl

end Backend

/-! ## Collecting -/

/-- A sink that does no more to the ledger than to report. -/
class QuietSink (S : Type) [Sink S] : Prop where
  store_quiet (sink : S) (r : SegmentRecord) (l : Ledger) :
    ∃ journal, (Sink.store sink r l).2.2 = { l with journal }
  trim_quiet (sink : S) (hours : Nat) (now : Int) (l : Ledger) :
    ∃ journal, (Sink.trim sink hours now l).2.2 = { l with journal }

theorem Ledger.reportAll_eq (l : Ledger) (events : List Event) :
    ∃ journal, l.reportAll events = { l with journal } := by
  induction events generalizing l with
  | nil => exact ⟨l.journal, rfl⟩
  | cons e rest ih =>
    obtain ⟨journal, h⟩ := ih (l.report e)
    exact ⟨journal, h⟩

instance : QuietSink History where
  store_quiet h r l := by
    simp only [Sink.store]
    split <;> exact l.reportAll_eq _
  trim_quiet h hours now l := by
    simp only [Sink.trim]
    split <;> exact l.reportAll_eq _

instance : QuietSink RefusingHistory where
  store_quiet h r l := by
    have hquiet := QuietSink.store_quiet h.history r l
    simp only [Sink.store] at hquiet ⊢
    split
    · exact ⟨l.journal, rfl⟩
    · exact hquiet
  trim_quiet h hours now l := by
    have hquiet := QuietSink.trim_quiet h.history hours now l
    simp only [Sink.trim] at hquiet ⊢
    split
    · exact ⟨l.journal, rfl⟩
    · exact hquiet

namespace Collector

theorem drain_moves (l : Ledger) : l.Moves [] (drain l).2 := by
  unfold drain
  split
  · exact ((Ledger.Moves.refl l).report _).withRing _
  · exact (Ledger.Moves.refl l).withRing _

variable {C S : Type} [Catalog C] [Sink S]

/-- What is left of a cycle when the bucket has been closed. -/
def conclude (session : Session) (bucket : Nat) (copies : List Entry) (l : Ledger) (catalog : C)
    (sink : S) : Option CycleReport × Ledger × C × S :=
  match identifyAll session copies l catalog with
  | ((copies, resolved), l, catalog) =>
    let (associations, l) := drain l
    match deliver bucket copies resolved associations l sink with
    | (report, l, sink) => (report, l, catalog, sink)

theorem cycle_eq (session : Session) (l : Ledger) (catalog : C) (sink : S) :
    cycle session l catalog sink =
      conclude session l.store.close.1 l.store.close.2.1 { l with store := l.store.close.2.2 }
        catalog sink := by
  unfold cycle conclude
  rcases l.store.close with ⟨bucket, copies, store⟩
  dsimp only

variable [QuietSink S]

theorem persist_quiet (r : SegmentRecord) (l : Ledger) (sink : S) :
    ∃ journal, (persist r l sink).2.1 = { l with journal } := by
  unfold persist
  split
  · exact ⟨l.journal, rfl⟩
  · obtain ⟨journal, h⟩ := QuietSink.store_quiet sink r l
    split <;> rename_i heq <;> rw [heq] at h <;> subst h <;> exact ⟨_, rfl⟩

theorem trim_quiet (collectedAt : Int) (l : Ledger) (sink : S) :
    ∃ journal, (trim collectedAt l sink).2.1 = { l with journal } := by
  unfold trim
  split
  · exact ⟨l.journal, rfl⟩
  · obtain ⟨journal, h⟩ :=
      QuietSink.trim_quiet sink l.tunables.retention (trimTime l.clock collectedAt) l
    split <;> rename_i heq <;> rw [heq] at h <;> subst h
    · dsimp only
      split <;> exact ⟨_, rfl⟩
    · exact ⟨_, rfl⟩
    · exact ⟨_, rfl⟩

/-- Nothing comes of handing records to a sink but what is reported. -/
theorem deliver_quiet (bucket : Nat) (es : List Entry) (resolved : Nat)
    (associations : List Association) (l : Ledger) (sink : S) :
    ∃ journal, (deliver bucket es resolved associations l sink).2.1 = { l with journal } := by
  obtain ⟨j₁, hbucket⟩ := persist_quiet (.bucket ⟨bucket, l.clock.now, es⟩) l sink
  unfold deliver
  dsimp only
  split <;> rename_i heq <;> rw [heq] at hbucket <;> subst hbucket
  · exact ⟨j₁, rfl⟩
  · rename_i sink₁
    obtain ⟨j₂, hassociations⟩ := persist_quiet
      (.associations ⟨bucket, l.clock.now, associations⟩) { l with journal := j₁ } sink₁
    split <;> rename_i heq <;> rw [heq] at hassociations <;> subst hassociations
    · exact ⟨j₂, rfl⟩
    · rename_i sink₂
      obtain ⟨j₃, htrim⟩ := trim_quiet l.clock.now { l with journal := j₂ } sink₂
      split <;> rename_i heq <;> rw [heq] at htrim <;> subst htrim <;> exact ⟨_, rfl⟩

theorem deliver_moves (bucket : Nat) (es : List Entry) (resolved : Nat)
    (associations : List Association) (l : Ledger) (sink : S) :
    l.Moves [] (deliver bucket es resolved associations l sink).2.1 := by
  obtain ⟨journal, h⟩ := deliver_quiet bucket es resolved associations l sink
  rw [h]
  exact ⟨.refl, rfl, rfl⟩

theorem conclude_moves (session : Session) (bucket : Nat) (es : List Entry) (l : Ledger)
    (catalog : C) (sink : S) : l.Moves [] (conclude session bucket es l catalog sink).2.1 := by
  have hidentify := (identifyAll_learns session es l catalog).moves
  unfold conclude
  rcases hi : identifyAll session es l catalog with ⟨⟨named, resolved⟩, l₁, catalog₁⟩
  rw [hi] at hidentify
  have hdrain := drain_moves l₁
  dsimp only
  rcases hd : drain l₁ with ⟨associations, l₂⟩
  rw [hd] at hdrain
  have hdeliver := deliver_moves bucket named resolved associations l₂ sink
  exact hidentify.trans_silent (hdrain.trans_silent hdeliver)

theorem cycle_moves (session : Session) (l : Ledger) (catalog : C) (sink : S) :
    l.Moves l.store.closing (cycle session l catalog sink).2.1 := by
  have hclose : l.Moves l.store.closing { l with store := l.store.close.2.2 } :=
    .of_path l.store.close_path
  rw [cycle_eq]
  exact hclose.silent_trans (conclude_moves ..)

end Collector

end BlockLedger
