import BlockLedger.Proofs.Cluster.Outline
import BlockLedger.Proofs.Cluster.InFlight

/-
# Temporary relations leave no trace

As long as temporary relations are not to be counted, nothing can be told of what is done to them but
from their own pages.  If all of it is left out of a run, everybody else is answered the same, the
same records are handed to the sink, and in the end all is the same but for what waits in the slots
of asynchronous reads.

A run and what is left of it are followed side by side.  Their outlines are the same at any time, and
so are the pages of all relations that are not temporary.  The slots are not, but they agree as far as
reads of such relations are in the air.
-/

namespace BlockLedger

/-! ## What comes of a turn -/

/-- What comes of an act for whoever acts. -/
inductive Reply (P : Type) where
  /-- What a member is told by its chain. -/
  | answer (answer : Answer P)
  /-- What has come of the pending keys of a member. -/
  | resolution (resolution : Resolution)
  /-- How many open runs have been handed out. -/
  | runs (count : Nat)
  /-- The entries in a snapshot that closes nothing. -/
  | entries (entries : List Entry)
  /-- The report of a cycle, or `none` after a crash. -/
  | report (report : Option CycleReport)

/-- What comes of a turn, apart from what it changes. -/
structure Note (P : Type) where
  reply : Option (Reply P) := none
  /-- The records that are handed to the sink. -/
  records : List SegmentRecord := []

namespace Interplay

variable {P C S : Type} [Catalog C] [Sink S]

/-- What comes of an act for whoever acts, if anything. -/
def reply? (blank : P) (s : Interplay P C S) : Act P → Option (Reply P)
  | .finish i work => some (.resolution (s.cluster.finish i work).1)
  | .shutdown i => some (.resolution (s.cluster.shutdown i).1)
  | .flush i =>
    s.cluster.members[i]?.map fun m => .runs (m.backend.flushRuns s.cluster.ledger).1
  | .peek => some (.entries s.store.peek)
  | .cycle =>
    match s.walk with
    | none => some (.report s.cluster.cycle.1)
    | some _ => none
  | .conclude =>
    s.returned.getLast?.map fun r =>
      .report (Collector.conclude s.cluster.session r.1 r.2 s.cluster.ledger s.cluster.catalog
        s.cluster.sink).1
  | a => (s.answer? blank a).map .answer

/-- What comes of a turn. -/
def note (blank : P) (s : Interplay P C S) : Turn P C → Note P
  | .act a => ⟨s.reply? blank a, s.records blank a⟩
  | _ => {}

/-- One turn after the other, each with what comes of it. -/
def transcript (blank : P) (s : Interplay P C S) : List (Turn P C) → List (Turn P C × Note P)
  | [] => []
  | t :: rest => (t, s.note blank t) :: (s.turn blank t).transcript blank rest

variable {blank : P} {s : Interplay P C S}

theorem reply?_outline {a : Act P} (ha : a.chained = false) :
    s.outline.reply? blank a = s.reply? blank a := by
  cases a with
  | call | complete => cases ha
  | finish i work =>
    simp only [reply?, Cluster.finish, s.outline_member i]
    cases s.cluster.members[i]? with
    | none => rfl
    | some m =>
      simp only [Option.map_some, Member.outline, Backend.outline_finish]
      rfl
  | shutdown i =>
    simp only [reply?, Cluster.shutdown, s.outline_member i]
    cases s.cluster.members[i]? <;> rfl
  | flush i =>
    simp only [reply?, s.outline_member i]
    cases s.cluster.members[i]? <;> rfl
  | cycle | conclude => simp only [reply?, Cluster.cycle, outline, withCluster]
  | _ => rfl

/-- Of turns in which no chain is involved, the same comes if the outlines are the same. -/
theorem note_outline {t : Turn P C} (ht : ∀ a, t = .act a → a.chained = false) :
    s.outline.note blank t = s.note blank t := by
  cases t with
  | catalog | classes => rfl
  | act a =>
    have hwatched : s.outline.watched = s.watched.outline := rfl
    have hrecords : s.outline.records blank a = s.records blank a := by
      rw [records, hwatched, ← s.watched.outline_step blank (ht a rfl)]
      rfl
    rw [note, note, reply?_outline (ht a rfl), hrecords]

end Interplay

/-! ## Turns about temporary relations -/

namespace InFlight

/-- Those of relations that are not temporary. -/
def permanent (reads : InFlight) : InFlight :=
  fun i => (reads i).filter fun f => !f.relation.temporary

theorem mem_permanent {reads : InFlight} {i : Nat} {f : Flight} :
    f ∈ reads.permanent i ↔ f ∈ reads i ∧ f.relation.temporary = false := by
  simp [permanent]

theorem filter_eraseP_of_not {p q : Flight → Bool} {fs : List Flight}
    (h : ∀ f ∈ fs, p f = true → q f = false) : (fs.eraseP p).filter q = fs.filter q := by
  rcases List.exists_or_eq_self_of_eraseP p fs with heq | ⟨f, before, after, -, hf, rfl, heq⟩
  · rw [heq]
  · have hq : q f = false := h f (by simp) hf
    rw [heq, List.filter_append, List.filter_append, List.filter_cons_of_neg (by simp [hq])]

theorem filter_eraseP {p q : Flight → Bool} {fs : List Flight}
    (h : ∀ f ∈ fs, p f = true → q f = true) : (fs.eraseP p).filter q = (fs.filter q).eraseP p := by
  rcases List.exists_or_eq_self_of_eraseP p fs with heq | ⟨f, before, after, hbefore, hf, rfl, heq⟩
  · have hnone : ∀ f ∈ fs, ¬ p f = true := List.eraseP_eq_self_iff.mp heq
    rw [heq, List.eraseP_of_forall_not fun f hmem => hnone f (List.mem_of_mem_filter hmem)]
  · have hq : q f = true := h f (by simp) hf
    rw [heq, List.filter_append, List.filter_append, List.filter_cons_of_pos hq,
      List.eraseP_append_right _ fun f' hf' => hbefore f' (List.mem_of_mem_filter hf'),
      List.eraseP_cons_of_pos hf]

end InFlight

/-- Whether a turn is about a temporary relation: a call for one, or the completion of a read of
one. -/
def Turn.ofTemporary {P C : Type} (reads : InFlight) : Turn P C → Bool
  | .act (.call _ q) => q.relation.temporary
  | .act (.complete i handle _) =>
    (reads i).any fun f => decide (f.handle = handle) && f.relation.temporary
  | _ => false

theorem Turn.ofTemporary_complete {P C : Type} {reads : InFlight} {i : Nat} {handle : Handle}
    {result : Completion} :
    (Turn.act (.complete i handle result) : Turn P C).ofTemporary reads = true ↔
      ∃ f ∈ reads i, f.handle = handle ∧ f.relation.temporary = true := by
  simp [ofTemporary]

theorem Turn.permanent_of_kept {P C : Type} {reads : InFlight} {i : Nat} {handle : Handle}
    {result : Completion}
    (h : (Turn.act (.complete i handle result) : Turn P C).ofTemporary reads = false) :
    ∀ f ∈ reads i, f.handle = handle → f.relation.temporary = false := by
  simpa [ofTemporary] using h

/-- What a turn has to be like so that temporary relations can be left out of a run, if theirs are the
hidden locators. -/
structure Turn.Suits {P C : Type} (hidden : Locator → Prop) (t : Turn P C) : Prop where
  direct : ∀ a chain, t = .act a → a.chain? = some chain → chain = Chain.direct
  off : ∀ settings, t = .act (.reload settings) → settings.tempTracking = .off
  kind : ∀ i q, t = .act (.call i q) → (q.relation.temporary = true ↔ hidden q.relation.locator)

/-- A call that is kept is not for a hidden relation. -/
theorem Turn.Suits.visible {P C : Type} {hidden : Locator → Prop} {reads : InFlight} {t : Turn P C}
    (ht : t.Suits hidden) (hkeep : t.ofTemporary reads = false) (i : Nat) (q : Request P)
    (hq : t = .act (.call i q)) : ¬ hidden q.relation.locator := by
  rw [← ht.kind i q hq]
  subst hq
  exact Bool.eq_false_iff.mp hkeep

namespace Interplay

variable {P C S : Type} [Catalog C] [Sink S] {blank : P} {s : Interplay P C S} {reads : InFlight}
  {t : Turn P C}

omit [Catalog C] [Sink S] in
theorem AllHold.reaching (h : s.AllHold reads) : s.Reaching := by
  intro chain hchain
  rw [h.direct chain hchain]
  decide

omit [Catalog C] [Sink S] in
theorem key_of_takeoff? {i : Nat} {q : Request P} {f : Flight} (h : s.takeoff? blank i q = some f) :
    f.relation = q.relation ∧
      f.key = s.cluster.ledger.trackingKey q.key q.relation.temporary := by
  obtain ⟨m, -, hflight⟩ := takeoff?_eq_some h
  obtain ⟨handle, block, -, rfl⟩ := Site.flight?_eq_some _ |>.mp hflight
  exact ⟨rfl, rfl⟩

/-- Nothing comes of the completion of a read of somebody who is no member. -/
theorem step_stranger {i : Nat} (h : s.gear? i = none) (handle : Handle)
    (result : Completion) : s.step blank (.complete i handle result) = s := by
  have hnone : s.cluster.members[i]? = none := Option.map_eq_none_iff.mp h
  simp only [step, Cluster.complete, hnone]
  rfl

/-- If nobody acts, nothing comes to the storage. -/
theorem storage_idle (ht : t.act? = none) : (s.turn blank t).storage = s.storage := by
  have hchains := s.chains_turn blank t
  rw [ht, Option.bind_none, Option.toList_none, List.append_nil] at hchains
  rw [storage, hchains, storage]
  cases t with
  | act a => cases ht
  | catalog | classes => rfl

/-! ## One turn -/

/-- Nothing that is done to temporary relations is counted, and nothing that is in the air will be. -/
structure Untracking (s : Interplay P C S) (reads : InFlight) : Prop where
  sound : s.Sound
  off : s.cluster.ledger.tunables.tempTracking = .off
  aloft : s.AllHold reads
  keys : ∀ i, ∀ f ∈ reads i, f.relation.temporary = true → f.key = none

namespace Untracking

variable {hidden : Locator → Prop}

omit [Catalog C] [Sink S] in
theorem keys_after (h : s.Untracking reads) (t : Turn P C) :
    ∀ i, ∀ f ∈ s.inFlightAfter blank reads t i, f.relation.temporary = true → f.key = none := by
  intro i f hf htemporary
  cases t with
  | catalog | classes => exact h.keys i f hf htemporary
  | act a =>
    cases a with
    | call j q =>
      simp only [inFlightAfter, aloftAfter] at hf
      split at hf
      · rcases List.mem_append.mp hf with hf | hf
        · exact h.keys i f hf htemporary
        · obtain ⟨hrelation, hkey⟩ := key_of_takeoff? (Option.mem_toList.mp hf)
          rw [hrelation] at htemporary
          rw [hkey, Ledger.trackingKey, htemporary, h.off]
          rfl
      · exact h.keys i f hf htemporary
    | complete j handle result =>
      simp only [inFlightAfter, aloftAfter] at hf
      split at hf
      · exact h.keys i f (List.mem_of_mem_eraseP hf) htemporary
      · exact h.keys i f hf htemporary
    | _ => exact h.keys i f hf htemporary

theorem turn [QuietSink S] (h : s.Untracking reads) (ht : t.Suits hidden) (hminds : s.Minds reads t) :
    (s.turn blank t).Untracking (s.inFlightAfter blank reads t) where
  sound := (h.sound.turn blank t).1
  off := by
    cases t with
    | catalog | classes => exact h.off
    | act a =>
      refine (h.sound.covered.tempTracking blank fun settings ha => ?_).trans h.off
      rw [h.off]
      exact ht.off settings (congrArg Turn.act ha)
  aloft := h.aloft.turn ht.direct hminds
  keys := h.keys_after t

/-! ## A turn that is left out -/

theorem outline_drop (h : s.Untracking reads) (htemporary : t.ofTemporary reads = true) :
    (s.turn blank t).outline = s.outline := by
  cases t with
  | catalog | classes => cases htemporary
  | act a =>
    cases a with
    | call i q =>
      exact (outline_call blank h.aloft.direct i q).trans (answered_outline s h.off i htemporary _)
    | complete i handle result =>
      obtain ⟨f, hf, rfl, hrelation⟩ := Turn.ofTemporary_complete.mp htemporary
      obtain ⟨capacity, hold⟩ := h.aloft.holds_of_mem hf
      rw [Interplay.turn, hold.step_complete rfl hf, h.keys i f hf hrelation]
    | _ => cases htemporary

omit [Catalog C] [Sink S] in
/-- No read of a relation that is not temporary comes or goes. -/
theorem permanent_drop (h : s.Untracking reads) (htemporary : t.ofTemporary reads = true) :
    (s.inFlightAfter blank reads t).permanent = reads.permanent := by
  ext1 i
  cases t with
  | catalog | classes => cases htemporary
  | act a =>
    cases a with
    | call j q =>
      simp only [InFlight.permanent, inFlightAfter, aloftAfter]
      split
      · have hnone : (s.takeoff? blank i q).toList.filter (fun f => !f.relation.temporary) = [] := by
          rw [List.filter_eq_nil_iff]
          intro f hf
          obtain ⟨hrelation, -⟩ := key_of_takeoff? (Option.mem_toList.mp hf)
          rw [hrelation, show q.relation.temporary = true from htemporary]
          decide
        rw [List.filter_append, hnone, List.append_nil]
      · rfl
    | complete j handle result =>
      simp only [InFlight.permanent, inFlightAfter, aloftAfter]
      split
      · subst j
        obtain ⟨f, hf, rfl, hrelation⟩ := Turn.ofTemporary_complete.mp htemporary
        obtain ⟨capacity, hold⟩ := h.aloft.holds_of_mem hf
        -- no two reads in the air have the same handle, so it is this one that comes back
        refine InFlight.filter_eraseP_of_not fun f' hf' hhandle => ?_
        rw [hold.eq_of_handle hf' hf (of_decide_eq_true hhandle), hrelation]
        rfl
      · rfl
    | _ => cases htemporary

end Untracking

/-! ## Side by side -/

/-- An interplay, and what is left of it. -/
structure Beside (hidden : Locator → Prop) (reads : InFlight) (s u : Interplay P C S) : Prop where
  whole : s.Untracking reads
  rest : u.AllHold reads.permanent
  outline : u.outline = s.outline
  storage : s.storage.Agrees hidden u.storage

namespace Beside

variable {hidden : Locator → Prop} {u : Interplay P C S}

omit [Catalog C] [Sink S] in
theorem ledger_eq (h : Beside hidden reads s u) : u.cluster.ledger = s.cluster.ledger :=
  congrArg (fun v => v.cluster.ledger) h.outline

omit [Catalog C] [Sink S] in
theorem capacity_eq (h : Beside hidden reads s u) (i : Nat) :
    (u.gear? i).map (fun g => g.slots.capacity) =
      (s.gear? i).map fun g => g.slots.capacity := by
  rw [← u.capacity_outline, h.outline, s.capacity_outline]

/-- A turn about a temporary relation is left out. -/
theorem drop [QuietSink S] (h : Beside hidden reads s u) (blank : P) (ht : t.Suits hidden)
    (hminds : s.Minds reads t) (htemporary : t.ofTemporary reads = true) :
    Beside hidden (s.inFlightAfter blank reads t) (s.turn blank t) u where
  whole := h.whole.turn ht hminds
  rest := by
    rw [h.whole.permanent_drop htemporary]
    exact h.rest
  outline := h.outline.trans (h.whole.outline_drop htemporary).symm
  storage := by
    cases t with
    | catalog | classes => cases htemporary
    | act a =>
      have hstorage := congrArg Prod.snd (h.whole.aloft.reaching.storage_step blank a)
      dsimp only at hstorage
      rw [Interplay.turn, hstorage]
      cases a with
      | call i q => exact h.storage.skip blank i ((ht.kind i q rfl).mp htemporary)
      | complete i handle result => exact h.storage
      | _ => cases htemporary

/-! ## A turn that is kept -/

/-- All are told the same by the device, as long as nobody calls for a hidden relation. -/
theorem answer? (h : Beside hidden reads s u) (blank : P) {a : Act P}
    (ha : ∀ i q, a = .call i q → ¬ hidden q.relation.locator) :
    u.answer? blank a = s.answer? blank a ∧
      (s.step blank a).storage.Agrees hidden (u.step blank a).storage := by
  have hstep := h.storage.step blank ha
  rw [← h.rest.reaching.storage_step, ← h.whole.aloft.reaching.storage_step] at hstep
  exact hstep

theorem takeoff? (h : Beside hidden reads s u) (blank : P) (i : Nat) {q : Request P}
    (hq : ¬ hidden q.relation.locator) : u.takeoff? blank i q = s.takeoff? blank i q := by
  have hanswer : u.answer? blank (.call i q) = s.answer? blank (.call i q) := by
    refine (h.answer? blank ?_).1
    rintro j q' ⟨⟩
    exact hq
  have hcall : (u.cluster.call blank i q).1 = (s.cluster.call blank i q).1 := by
    simpa [Interplay.answer?] using hanswer
  rw [takeoff?_outline, takeoff?_outline, h.outline, hcall]

/-- The same reads of relations that are not temporary are in the air. -/
theorem permanent_keep (h : Beside hidden reads s u) (ht : t.Suits hidden)
    (hkeep : t.ofTemporary reads = false) :
    (s.inFlightAfter blank reads t).permanent = u.inFlightAfter blank reads.permanent t := by
  ext1 i
  cases t with
  | catalog | classes => rfl
  | act a =>
    cases a with
    | call j q =>
      have htakeoff := h.takeoff? blank i (ht.visible hkeep j q rfl)
      simp only [InFlight.permanent, inFlightAfter, aloftAfter, htakeoff]
      split
      · have hall : (s.takeoff? blank i q).toList.filter (fun f => !f.relation.temporary) =
            (s.takeoff? blank i q).toList := by
          rw [List.filter_eq_self]
          intro f hf
          obtain ⟨hrelation, -⟩ := key_of_takeoff? (Option.mem_toList.mp hf)
          rw [hrelation, show q.relation.temporary = false from hkeep]
          rfl
        rw [List.filter_append, hall]
      · rfl
    | complete j handle result =>
      simp only [InFlight.permanent, inFlightAfter, aloftAfter]
      split
      · subst j
        refine InFlight.filter_eraseP fun f hf hhandle => ?_
        have hrelation := Turn.permanent_of_kept hkeep f hf (of_decide_eq_true hhandle)
        rw [hrelation]
        rfl
      · rfl
    | _ => rfl

omit [Catalog C] [Sink S] in
/-- What is minded in the whole is minded in the rest. -/
theorem minds (h : Beside hidden reads s u) (hminds : s.Minds reads t)
    (hkeep : t.ofTemporary reads = false) : u.Minds reads.permanent t := by
  rintro a rfl i g hg
  have hcapacity := h.capacity_eq i
  rw [hg, Option.map_some, eq_comm] at hcapacity
  obtain ⟨g', hg', hcapacity⟩ := Option.map_eq_some_iff.mp hcapacity
  have hminds := hminds a rfl i g' hg'
  rw [hcapacity] at hminds
  cases a with
  | call j q =>
    intro hj handle block hq f hf
    exact hminds hj handle block hq f (InFlight.mem_permanent.mp hf).1
  | complete j handle result =>
    rintro rfl
    obtain ⟨f, hf, hhandle⟩ := hminds rfl
    exact ⟨f, InFlight.mem_permanent.mpr ⟨hf, Turn.permanent_of_kept hkeep f hf hhandle⟩, hhandle⟩
  | _ => trivial

theorem outline_complete (h : Beside hidden reads s u) (blank : P) {i : Nat} {handle : Handle}
    {result : Completion} (hminds : s.Minds reads (.act (.complete i handle result)))
    (hkeep : (Turn.act (.complete i handle result) : Turn P C).ofTemporary reads = false) :
    (u.step blank (.complete i handle result)).outline =
      (s.step blank (.complete i handle result)).outline := by
  have hcapacity := h.capacity_eq i
  cases hg : s.gear? i with
  | none =>
    rw [hg, Option.map_none, Option.map_eq_none_iff] at hcapacity
    rw [step_stranger hg, step_stranger hcapacity, h.outline]
  | some g =>
    obtain ⟨f, hf, rfl⟩ := hminds _ rfl i g hg rfl
    have hmem := InFlight.mem_permanent.mpr ⟨hf, Turn.permanent_of_kept hkeep f hf rfl⟩
    obtain ⟨capacity, hold⟩ := h.whole.aloft.holds_of_mem hf
    obtain ⟨capacity', hold'⟩ := h.rest.holds_of_mem hmem
    rw [hold.step_complete rfl hf, hold'.step_complete rfl hmem]
    cases f.key with
    | none => exact h.outline
    | some k =>
      have hstore : u.store = s.store := congrArg Ledger.store h.ledger_eq
      dsimp only
      rw [outline_withStore, outline_withStore, h.outline, hstore, h.ledger_eq]

theorem outline_keep (h : Beside hidden reads s u) (ht : t.Suits hidden) (hminds : s.Minds reads t)
    (hkeep : t.ofTemporary reads = false) : (u.turn blank t).outline = (s.turn blank t).outline := by
  by_cases hchained : ∀ a, t = .act a → a.chained = false
  · rw [outline_turn blank u hchained, outline_turn blank s hchained, h.outline]
  cases t with
  | catalog | classes => exact absurd (fun a ha => by cases ha) hchained
  | act a =>
    cases a with
    | call i q =>
      have hfork := h.storage.forks q.key (ht.visible hkeep i q rfl)
      have hserve := (Device.serve_congr blank hfork).1
      rw [turn, turn, outline_call blank h.whole.aloft.direct, outline_call blank h.rest.direct,
        h.outline]
      exact congrArg (s.outline.answered i q) hserve
    | complete i handle result => exact h.outline_complete blank hminds hkeep
    | _ => exact absurd (fun a ha => by cases ha; rfl) hchained

theorem note_keep (h : Beside hidden reads s u) (ht : t.Suits hidden)
    (hkeep : t.ofTemporary reads = false) : u.note blank t = s.note blank t := by
  by_cases hchained : ∀ a, t = .act a → a.chained = false
  · rw [← note_outline hchained, ← note_outline (s := s) hchained, h.outline]
  cases t with
  | catalog | classes => exact absurd (fun a ha => by cases ha) hchained
  | act a =>
    have hanswer := (h.answer? blank fun i q ha => ht.visible hkeep i q (congrArg _ ha)).1
    cases a with
    | call | complete =>
      rw [note, note, records_of_uncollected blank rfl, records_of_uncollected blank rfl]
      exact congrArg (fun answer => (⟨answer.map .answer, []⟩ : Note P)) hanswer
    | _ => exact absurd (fun a ha => by cases ha; rfl) hchained

/-- A turn that is kept is answered the same with and without the turns that are left out. -/
theorem keep [QuietSink S] (h : Beside hidden reads s u) (blank : P) (ht : t.Suits hidden)
    (hminds : s.Minds reads t) (hkeep : t.ofTemporary reads = false) :
    u.note blank t = s.note blank t ∧
      Beside hidden (s.inFlightAfter blank reads t) (s.turn blank t) (u.turn blank t) := by
  refine ⟨h.note_keep ht hkeep, h.whole.turn ht hminds, ?_, h.outline_keep ht hminds hkeep, ?_⟩
  · rw [h.permanent_keep ht hkeep]
    exact h.rest.turn ht.direct (h.minds hminds hkeep)
  · cases t with
    | catalog | classes =>
      rw [storage_idle rfl, storage_idle rfl]
      exact h.storage
    | act a => exact (h.answer? blank fun i q ha => ht.visible hkeep i q (congrArg _ ha)).2

end Beside

/-! ## Whole runs -/

/-- How a run has to go so that temporary relations can be left out. -/
structure Separable (blank : P) (s : Interplay P C S) (turns : List (Turn P C)) : Prop where
  /-- Every backend counts right above the device. -/
  direct : ∀ session concurrency classes chain,
    .act (.join session concurrency classes chain) ∈ turns → chain = Chain.direct
  /-- Temporary relations are never to be counted. -/
  off : ∀ settings, .act (.reload settings) ∈ turns → settings.tempTracking = .off
  /-- A temporary relation and one that is not are at different locators. -/
  kinds : ∀ i q j q', .act (.call i q) ∈ turns → .act (.call j q') ∈ turns →
    q.relation.locator = q'.relation.locator → q.relation.temporary = q'.relation.temporary
  /-- Nothing is submitted to the slot of a read in the air, and every completion is that of one. -/
  minded : s.AllMinded blank (fun _ => []) turns

/-- The turns that are left when all turns about temporary relations are left out, each with what has
come of it when nothing was left out. -/
def remains (blank : P) (s : Interplay P C S) (reads : InFlight) :
    List (Turn P C) → List (Turn P C × Note P)
  | [] => []
  | t :: rest =>
    let after := (s.turn blank t).remains blank (s.inFlightAfter blank reads t) rest
    if t.ofTemporary reads then after else (t, s.note blank t) :: after

variable [QuietSink S]

/-- What one turn preserves, a whole run preserves. -/
theorem Beside.play {hidden : Locator → Prop} {u : Interplay P C S} (h : Beside hidden reads s u)
    {turns : List (Turn P C)} (hsuits : ∀ t ∈ turns, t.Suits hidden)
    (hminded : s.AllMinded blank reads turns) :
    let rest := s.remains blank reads turns
    u.transcript blank (rest.map Prod.fst) = rest ∧
      ∃ reads', Beside hidden reads' (s.play blank turns) (u.play blank (rest.map Prod.fst)) := by
  induction turns generalizing s u reads with
  | nil => exact ⟨rfl, reads, h⟩
  | cons t turns ih =>
    obtain ⟨ht, hrest⟩ := List.forall_mem_cons.mp hsuits
    obtain ⟨hminds, hlater⟩ := hminded
    simp only [remains]
    cases htemporary : t.ofTemporary reads with
    | true => exact ih (h.drop blank ht hminds htemporary) hrest hlater
    | false =>
      obtain ⟨hnote, hnext⟩ := h.keep blank ht hminds htemporary
      obtain ⟨htranscript, reads', hbeside⟩ := ih hnext hrest hlater
      refine ⟨?_, reads', hbeside⟩
      simp only [Bool.false_eq_true, if_false, List.map_cons, transcript]
      rw [hnote, htranscript]

omit [QuietSink S] in
theorem Separable.suits {turns : List (Turn P C)} (h : s.Separable blank turns) :
    ∀ t ∈ turns, t.Suits fun l => ∃ i q, .act (.call i q) ∈ turns ∧
      q.relation.temporary = true ∧ q.relation.locator = l := by
  intro t ht
  constructor
  case direct =>
    rintro a chain rfl ha
    cases a with
    | join session concurrency classes chain' =>
      obtain rfl := Option.some.inj ha
      exact h.direct session concurrency classes chain' ht
    | _ => cases ha
  case off =>
    rintro settings rfl
    exact h.off settings ht
  case kind =>
    rintro i q rfl
    constructor
    · intro htemporary
      exact ⟨i, q, ht, htemporary, rfl⟩
    · rintro ⟨j, q', hq', htemporary, hlocator⟩
      rw [← h.kinds j q' i q hq' ht hlocator]
      exact htemporary

/-- Leave out of a run all that is done to temporary relations, which are not to be counted.  Then of
all that remains comes just what has come of it in the whole run.  In the end the outline is the same:
the store with its bucket, the ring, and what the members have pending and their detectors remember.
So are the pages of all other relations. -/
theorem temporaries_leave_no_trace (blank : P) (settings : Settings) (clock : Clock) (catalog : C)
    (session : Session) (sink : S) (turns : List (Turn P C))
    (hoff : settings.tempTracking = .off) :
    let start : Interplay P C S := start settings clock catalog session sink
    let rest := start.remains blank (fun _ => []) turns
    let whole := start.play blank turns
    let without := start.play blank (rest.map Prod.fst)
    start.Separable blank turns →
      start.transcript blank (rest.map Prod.fst) = rest ∧
        without.outline = whole.outline ∧
        ∀ k, (∀ i q, .act (.call i q) ∈ turns → q.relation.temporary = true →
            q.relation.locator ≠ k.locator) →
          without.cluster.device.fork? k = whole.cluster.device.fork? k := by
  intro start rest whole without hseparable
  have hstart : start.Untracking fun _ => [] :=
    ⟨start_sound settings clock catalog session sink, hoff,
      ⟨fun i hi => absurd hi (Nat.not_lt_zero i), fun _ _ => rfl⟩, fun i f hf => by cases hf⟩
  have hbeside : Beside (fun l => ∃ i q, .act (.call i q) ∈ turns ∧ q.relation.temporary = true ∧
      q.relation.locator = l) (fun _ => []) start start :=
    ⟨hstart, hstart.aloft, rfl, .refl _⟩
  obtain ⟨htranscript, reads, hend⟩ := hbeside.play hseparable.suits hseparable.minded
  refine ⟨htranscript, hend.outline, fun k hk => hend.storage.forks k ?_⟩
  rintro ⟨i, q, hq, htemporary, hlocator⟩
  exact hk i q hq htemporary hlocator

/-! ## What remains of the calls of a member -/

omit [QuietSink S] in
theorem remains_concat (blank : P) (s : Interplay P C S) (reads : InFlight)
    (turns : List (Turn P C)) (t : Turn P C) :
    (s.remains blank reads (turns ++ [t])).map Prod.fst =
      (s.remains blank reads turns).map Prod.fst ++
        if t.ofTemporary (s.inFlight blank reads turns) then [] else [t] := by
  induction turns generalizing s reads with
  | nil =>
    by_cases ht : t.ofTemporary reads = true <;> simp [remains, inFlight, ht]
  | cons u rest ih =>
    simp only [List.cons_append, remains]
    split
    · exact ih ..
    · exact congrArg (u :: ·) (ih ..)

/-- A run leads member 0 to a footing, with these reads in the air.  All have minded their reads on
the way, and without the turns about temporary relations `rest` remains. -/
structure Sifts (blank : P) (s : Interplay P C S) (turns : List (Turn P C)) (f : Footing)
    (fs : List Flight) (rest : List (Turn P C)) : Prop where
  stands : (s.play blank turns).Stands 0 f
  minded : s.AllMinded blank (fun _ => []) turns
  inFlight : s.inFlight blank (fun _ => []) turns 0 = fs
  remains : (s.remains blank (fun _ => []) turns).map Prod.fst = rest

namespace Sifts

variable {turns rest : List (Turn P C)} {f : Footing} {fs : List Flight} {q : Request P}

omit [QuietSink S] in
theorem call (h : s.Sifts blank turns f fs rest) (hq : f.Admits q) (hspares : f.Spares fs q) :
    s.Sifts blank (turns ++ [.act (.call 0 q)]) (f.after q) (fs ++ (f.flight? q).toList)
      (rest ++ if q.relation.temporary then [] else [.act (.call 0 q)]) := by
  refine ⟨?_, ?_, ?_, ?_⟩
  · rw [play_concat]
    exact h.stands.call blank hq
  · rw [allMinded_concat]
    refine ⟨h.minded, minds_act.mpr fun g hg handle block hsubmit => ?_⟩
    rw [h.stands.capacity hg, h.inFlight]
    exact hspares.apart hsubmit
  · rw [inFlight_concat]
    simp only [inFlightAfter, aloftAfter, if_true, h.inFlight, h.stands.takeoff? hq]
  · rw [remains_concat, h.remains]
    rfl

omit [QuietSink S] in
theorem complete (h : s.Sifts blank turns f fs rest) {handle : Handle} (result : Completion)
    (hminds : ∃ y ∈ fs, y.handle = handle) :
    s.Sifts blank (turns ++ [.act (.complete 0 handle result)])
      { f with
        entries := (s.play blank (turns ++ [.act (.complete 0 handle result)])).store.find? }
      (fs.eraseP fun y => y.handle = handle)
      (rest ++ if fs.any fun y => decide (y.handle = handle) && y.relation.temporary then []
        else [.act (.complete 0 handle result)]) := by
  refine ⟨?_, ?_, ?_, ?_⟩
  · rw [play_concat]
    exact h.stands.complete blank handle result
  · rw [allMinded_concat]
    refine ⟨h.minded, minds_act.mpr fun g _ => ?_⟩
    rw [h.inFlight]
    exact hminds
  · rw [inFlight_concat]
    simp only [inFlightAfter, aloftAfter, if_true, h.inFlight]
  · rw [remains_concat, h.remains]
    simp only [Turn.ofTemporary, h.inFlight]

end Sifts

/-! ## Two reads in the air, one of them of a temporary relation -/

/-- Nobody has joined, and temporary relations are not to be counted. -/
def unseeing : Interplay Unit ListedCatalog History :=
  start { tempTracking := .off } { now := 1 } .empty {} default

/-- A backend submits a read of a permanent relation, and one of a temporary relation.  The later
read comes back first, and when both have come back a cycle collects. -/
def mixing : List (Turn Unit ListedCatalog) :=
  [.act (.join {} 2 none [.counting, .device]), .act (asks grown false (.create ⟨0, 0, 0⟩ false)),
    .act (asks grown false (.lengthen 0 4)), .act (asks shortLived true (.create ⟨0, 0, 0⟩ false)),
    .act (asks shortLived true (.lengthen 0 4)), .act (asks grown false (.submit ⟨0, 2⟩ 0)),
    .act (asks shortLived true (.submit ⟨1, 1⟩ 0)), .act (.complete 0 ⟨1, 1⟩ .ok),
    .act (.complete 0 ⟨0, 2⟩ .ok), .act .cycle]

/-- The same without the temporary relation. -/
def unmixed : List (Turn Unit ListedCatalog) :=
  [.act (.join {} 2 none [.counting, .device]), .act (asks grown false (.create ⟨0, 0, 0⟩ false)),
    .act (asks grown false (.lengthen 0 4)), .act (asks grown false (.submit ⟨0, 2⟩ 0)),
    .act (.complete 0 ⟨0, 2⟩ .ok), .act .cycle]

theorem direct_mixing : ∀ session concurrency classes chain,
    .act (.join session concurrency classes chain) ∈ mixing → chain = Chain.direct := by
  simp [mixing, asks, Chain.direct]

theorem off_mixing : ∀ settings, .act (.reload settings) ∈ mixing → settings.tempTracking = .off := by
  simp [mixing, asks]

/-- Only `shortLived` is temporary. -/
theorem temporary_mixing : ∀ i q, .act (.call i q) ∈ mixing →
    q.relation.temporary = decide (q.relation.locator = shortLived.locator) := by
  intro i q hq
  simp only [mixing, asks, List.mem_cons, List.not_mem_nil, Turn.act.injEq, Act.call.injEq,
    reduceCtorEq, false_or, or_false] at hq
  rcases hq with ⟨-, rfl⟩ | ⟨-, rfl⟩ | ⟨-, rfl⟩ | ⟨-, rfl⟩ | ⟨-, rfl⟩ | ⟨-, rfl⟩ <;> rfl

theorem minded_mixing :
    unseeing.AllMinded () (fun _ => []) mixing ∧
      (unseeing.remains () (fun _ => []) mixing).map Prod.fst = unmixed := by
  have hjoined : unseeing.Sifts () (mixing.take 1) _ [] (unmixed.take 1) :=
    ⟨.start_join () { tempTracking := .off } { now := 1 } ListedCatalog.empty {}
      (default : History) {} 2 none _ rfl, ⟨minds_act.mpr trivial, trivial⟩, rfl, rfl⟩
  have hgrown : unseeing.Sifts () (mixing.take 3) _ _ _ :=
    (hjoined.call (by decide) (by decide)).call (by decide) (by decide)
  have htemporary : unseeing.Sifts () (mixing.take 5) _ _ _ :=
    (hgrown.call (by decide) (by decide)).call (by decide) (by decide)
  have hsubmitted : unseeing.Sifts () (mixing.take 7) _ _ _ :=
    (htemporary.call (by decide) (by decide)).call (by decide) (by decide)
  have hcompleted : unseeing.Sifts () (mixing.take 9) _ _ _ :=
    (hsubmitted.complete .ok (by decide)).complete .ok (by decide)
  have hcycle := remains_concat () unseeing (fun _ => []) (mixing.take 9) (.act .cycle)
  rw [hcompleted.remains] at hcycle
  exact ⟨(allMinded_concat () unseeing (fun _ => []) (mixing.take 9) (.act .cycle)).mpr
    ⟨hcompleted.minded, minds_act.mpr trivial⟩, hcycle⟩

/-- The permanent relation is recorded as if there had been no temporary one. -/
theorem temporaries_leave_no_trace_mixing :
    ({ tempTracking := .off } : Settings).tempTracking = .off ∧ unseeing.Separable () mixing ∧
      unseeing.transcript () unmixed = unseeing.remains () (fun _ => []) mixing ∧
      (unseeing.play () unmixed).outline = (unseeing.play () mixing).outline := by
  obtain ⟨hminded, hunmixed⟩ := minded_mixing
  have hseparable : unseeing.Separable () mixing := by
    refine ⟨direct_mixing, off_mixing, fun i q j q' hq hq' hlocator => ?_, hminded⟩
    rw [temporary_mixing i q hq, temporary_mixing j q' hq', hlocator]
  obtain ⟨htranscript, houtline, -⟩ := temporaries_leave_no_trace () { tempTracking := .off }
    { now := 1 } ListedCatalog.empty {} (default : History) mixing rfl hseparable
  have hrest : ((start { tempTracking := .off } { now := 1 } .empty {} default : Interplay Unit
      ListedCatalog History).remains () (fun _ => []) mixing).map Prod.fst = unmixed := hunmixed
  rw [hrest] at htranscript houtline
  exact ⟨rfl, hseparable, htranscript, houtline⟩

end Interplay

end BlockLedger
