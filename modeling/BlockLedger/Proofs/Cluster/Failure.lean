import BlockLedger.Proofs.Cluster.Touches
import BlockLedger.Proofs.Runs.Repetition

/-
# Calls that fail

A counting link counts a request once it has come back, so a request that fails leaves the whole
site as it was.  The exception is the submission of an asynchronous read that is tracked.  Its
completion may not create anything, so the key that it is counted under gets its entry beforehand;
and the run detector is told of the read beforehand, too.  None of that is taken back when the
submission fails.  As the read is never completed, the run that it has ended is counted nowhere, and
the one that it has begun is counted when the backend leaves, as if the read had taken place.

So a call that fails leaves a trace just if it is such a submission, unless the entry is there and the
detector finds in the read what it remembers of the latest one.
-/

namespace BlockLedger

/-! ## What a link does beforehand -/

namespace Site

variable {P : Type}

/-- All that a submission leaves behind when it fails, but for its slot: the entry that the read
needs, which is pending if it is new, and what the detector has been told by so many links. -/
structure Announced (s : Site P) (links : Nat) (touch : Touch) (t : Site P) : Prop where
  ledger : t.ledger = { s.ledger with store := (s.ledger.store.ensure touch.key).1 }
  pending : t.backend.pending =
    if (s.ledger.store.find? touch.key).isSome then s.backend.pending
    else Pending.add s.backend.session s.backend.pending touch.key
  runs : t.backend.runs = s.backend.runs.noteAll (List.replicate links touch)
  session : t.backend.session = s.backend.session
  classes : t.backend.classes = s.backend.classes
  device : t.device = s.device

namespace Announced

variable {s t u : Site P} {links more : Nat} {touch : Touch}

theorem refl (h : (s.ledger.store.find? touch.key).isSome) : s.Announced 0 touch s := by
  obtain ⟨e, he⟩ := Option.isSome_iff_exists.mp h
  have hensure : s.ledger.store.ensure touch.key = (s.ledger.store, false) := by
    rw [Store.ensure, he]
  exact ⟨by rw [hensure], by rw [if_pos h], rfl, rfl, rfl, rfl⟩

/-- No entry has changed, and the only one that can be new is a fresh one. -/
theorem find? (h : s.Announced links touch t) (k : Key) :
    t.ledger.store.find? k =
      if touch.key = k then some ((s.ledger.store.find? touch.key).getD (.new touch.key))
      else s.ledger.store.find? k := by
  rw [h.ledger]
  exact s.ledger.store.find?_ensure touch.key k

theorem ensure_eq (h : s.Announced links touch t) :
    (t.ledger.store.ensure touch.key).1 = t.ledger.store := by
  have hfind := h.find? touch.key
  rw [if_pos rfl] at hfind
  rw [Store.ensure, hfind]

/-- A second link finds the entry that the first one has made sure of. -/
theorem trans (h : s.Announced links touch t) (h' : t.Announced more touch u) :
    s.Announced (links + more) touch u where
  ledger := by
    rw [h'.ledger, h.ensure_eq]
    exact h.ledger
  pending := by
    have hsome : (t.ledger.store.find? touch.key).isSome := by
      rw [h.find? touch.key, if_pos rfl]
      rfl
    rw [h'.pending, if_pos hsome, h.pending]
  runs := by rw [h'.runs, h.runs, ← Runs.noteAll_append, List.replicate_append_replicate]
  session := h'.session.trans h.session
  classes := h'.classes.trans h.classes
  device := h'.device.trans h.device

end Announced

/-- What the submission of a read that is not tracked leaves behind: nothing but its slot. -/
structure Untouched (s t : Site P) : Prop where
  ledger : t.ledger = s.ledger
  pending : t.backend.pending = s.backend.pending
  runs : t.backend.runs = s.backend.runs
  device : t.device = s.device

namespace Untouched

theorem refl (s : Site P) : s.Untouched s := ⟨rfl, rfl, rfl, rfl⟩

theorem trans {s t u : Site P} (h : s.Untouched t) (h' : t.Untouched u) : s.Untouched u :=
  ⟨h'.ledger.trans h.ledger, h'.pending.trans h.pending, h'.runs.trans h.runs,
    h'.device.trans h.device⟩

end Untouched

/-- No trace is left in the statistics: the entries, the ring of relocations, what the run detector
remembers and the pending keys are as they were. -/
structure Traceless (s t : Site P) : Prop where
  entries : ∀ k, t.ledger.store.find? k = s.ledger.store.find? k
  ring : t.ledger.ring = s.ledger.ring
  runs : ∀ f : Key, t.backend.runs.patterns[f]? = s.backend.runs.patterns[f]?
  pending : t.backend.pending = s.backend.pending

theorem Untouched.traceless {s t : Site P} (h : s.Untouched t) : s.Traceless t where
  entries k := by rw [h.ledger]
  ring := by rw [h.ledger]
  runs f := by rw [h.runs]
  pending := h.pending

/-- What a submission leaves behind is a trace, unless its entry is there and the detector remembers
just such a read. -/
theorem Announced.traceless_iff {s t : Site P} {links : Nat} {touch : Touch}
    (h : s.Announced (links + 1) touch t) :
    s.Traceless t ↔ (s.ledger.store.find? touch.key).isSome ∧
      ∃ p, s.backend.runs.patterns[touch.fork]? = some p ∧ p.Repeats touch := by
  have hruns := s.backend.runs.noteAll_replicate_iff touch links
  rw [← h.runs] at hruns
  constructor
  · intro hnone
    have hentry := hnone.entries touch.key
    rw [h.find?, if_pos rfl] at hentry
    exact ⟨by rw [← hentry]; rfl, hruns.mp hnone.runs⟩
  · rintro ⟨hentry, hrepeats⟩
    obtain ⟨e, he⟩ := Option.isSome_iff_exists.mp hentry
    refine ⟨fun k => ?_, by rw [h.ledger], hruns.mpr hrepeats, by rw [h.pending, if_pos hentry]⟩
    rw [h.find?]
    split
    · subst k
      rw [he, Option.getD_some]
    · rfl

variable (s : Site P)

theorem register_announced (touch : Touch) : s.Announced 0 touch (s.register touch.key) := by
  rw [register_eq]
  exact ⟨rfl, rfl, rfl, rfl, rfl, rfl⟩

theorem prepare_announced {q : Request P} {touch : Touch} (h : s.submitted? q = some touch) :
    s.Announced 1 touch (s.prepare q) := by
  have hruns := s.runs_prepare q
  rw [h] at hruns
  unfold submitted? at h
  split at h
  · rename_i handle block hq
    obtain ⟨key, hkey, rfl⟩ := Option.map_eq_some_iff.mp h
    have hregister := s.register_announced ⟨q.key, key, .read, block, handle.blocks⟩
    rw [prepare, hq] at hruns ⊢
    simp only [stage, hkey] at hruns ⊢
    exact ⟨hregister.ledger, hregister.pending, hruns, hregister.session, hregister.classes,
      hregister.device⟩
  · cases h

theorem prepare_untouched {q : Request P} (h : s.submitted? q = none) :
    s.Untouched (s.prepare q) := by
  unfold submitted? at h
  unfold prepare
  split
  · rename_i handle block hq
    rw [hq] at h
    simp only [stage, Option.map_eq_none_iff.mp h]
    exact ⟨rfl, rfl, rfl, rfl⟩
  · exact .refl s

/-- The next link finds the request tracked as before. -/
theorem submitted?_prepare (q : Request P) : (s.prepare q).submitted? q = s.submitted? q := by
  unfold submitted?
  rw [(s.prepare_moves q).trackingKey]

end Site

/-! ## Along a chain -/

namespace Chain

variable {P : Type} {blank : P} {q : Request P} {e : CallError}

/-- How many counting links a request passes before it is carried out. -/
def passes : List Link → Nat
  | [] => 0
  | .device :: _ => 0
  | .passing _ :: rest => passes rest
  | .counting :: rest => passes rest + 1

/-- What the links of a chain do before a request is carried out. -/
def prepareAll : List Link → Request P → Site P → Site P
  | [], _, s => s
  | .device :: _, _, s => s
  | .passing _ :: rest, q, s => prepareAll rest q s
  | .counting :: rest, q, s => prepareAll rest q (s.prepare q)

/-- A request that fails leaves nothing but what was done beforehand: the device has changed
nothing, and no link on the way back counts it. -/
theorem eq_prepareAll_of_error {chain : List Link} {s t : Site P}
    (h : call blank chain q s = (.error e, t)) : t = prepareAll chain q s := by
  induction chain generalizing s t e with
  | nil =>
    cases h
    rfl
  | cons link rest ih =>
    cases link with
    | passing name => exact ih h
    | device =>
      unfold call at h
      split at h <;> cases h
      rfl
    | counting =>
      unfold call at h
      rcases hrest : call blank rest q (s.prepare q) with ⟨e' | pages, t'⟩ <;> rw [hrest] at h
      · cases h
        exact ih hrest
      · cases h

theorem prepareAll_eq_self (hq : ∀ handle block, q.operation ≠ .submit handle block)
    (chain : List Link) (s : Site P) : prepareAll chain q s = s := by
  induction chain generalizing s with
  | nil => rfl
  | cons link rest ih =>
    cases link with
    | device => rfl
    | passing name => exact ih s
    | counting =>
      rw [prepareAll, s.prepare_eq_self hq]
      exact ih s

theorem prepareAll_untouched (chain : List Link) {s : Site P} (h : s.submitted? q = none) :
    s.Untouched (prepareAll chain q s) := by
  induction chain generalizing s with
  | nil => exact .refl s
  | cons link rest ih =>
    cases link with
    | device => exact .refl s
    | passing name => exact ih h
    | counting => exact (s.prepare_untouched h).trans (ih ((s.submitted?_prepare q).trans h))

/-- Once the entry is there, every counting link tells the detector of the read, and no more. -/
theorem prepareAll_entered (chain : List Link) {s : Site P} {touch : Touch}
    (h : s.submitted? q = some touch) (hentry : (s.ledger.store.find? touch.key).isSome) :
    s.Announced (passes chain) touch (prepareAll chain q s) := by
  induction chain generalizing s with
  | nil => exact .refl hentry
  | cons link rest ih =>
    cases link with
    | device => exact .refl hentry
    | passing name => exact ih h hentry
    | counting =>
      have hrest := ih ((s.submitted?_prepare q).trans h) (s.find?_prepare q h)
      rw [passes, Nat.add_comm]
      exact (s.prepare_announced h).trans hrest

/-- The first counting link makes sure of the entry. -/
theorem prepareAll_announced {chain : List Link} (hpasses : 0 < passes chain) {s : Site P}
    {touch : Touch} (h : s.submitted? q = some touch) :
    s.Announced (passes chain) touch (prepareAll chain q s) := by
  induction chain with
  | nil => cases hpasses
  | cons link rest ih =>
    cases link with
    | device => cases hpasses
    | passing name => exact ih hpasses
    | counting =>
      have hrest := prepareAll_entered rest ((s.submitted?_prepare q).trans h) (s.find?_prepare q h)
      rw [passes, Nat.add_comm]
      exact (s.prepare_announced h).trans hrest

/-- What a call that fails leaves behind.  It leaves no trace in the statistics just if it is not the
submission of a read that is tracked, or one that finds its entry there and itself remembered by the
detector.  Otherwise the entry is there afterwards, and the detector has taken the read in. -/
theorem failed_leaves (blank : P) {chain : List Link} (hpasses : 0 < passes chain)
    {q : Request P} {s t : Site P} {e : CallError} (h : call blank chain q s = (.error e, t)) :
    (s.Traceless t ↔ ∀ touch, s.submitted? q = some touch →
      (s.ledger.store.find? touch.key).isSome ∧
        ∃ p, s.backend.runs.patterns[touch.fork]? = some p ∧ p.Repeats touch) ∧
    match q.operation with
    | .submit .. =>
      match s.submitted? q with
      | some touch => s.Announced (passes chain) touch t
      | none => s.Untouched t
    | _ => t = s := by
  obtain rfl := eq_prepareAll_of_error h
  constructor
  · cases hsubmitted : s.submitted? q with
    | none => exact iff_of_true (prepareAll_untouched chain hsubmitted).traceless nofun
    | some touch =>
      have hannounced := prepareAll_announced hpasses hsubmitted
      obtain ⟨n, hn⟩ := Nat.exists_eq_add_one_of_ne_zero hpasses.ne'
      rw [hn] at hannounced
      rw [hannounced.traceless_iff]
      exact ⟨fun h _ heq => Option.some.inj heq ▸ h, fun h => h touch rfl⟩
  · split
    · split <;> rename_i hsubmitted
      · exact prepareAll_announced hpasses hsubmitted
      · exact prepareAll_untouched chain hsubmitted
    · rename_i hq
      exact prepareAll_eq_self hq chain s

/-! ## Submissions that fail -/

/-- A site where nothing has happened yet. -/
def quiet : Site Unit := ⟨.new { database := 5 } 8, {}, {}⟩

/-- The submission of a read of a fork that was never created. -/
def lost : Request Unit := ⟨⟨⟨1663, 5, 16500⟩, false⟩, .main, .submit ⟨0, 1⟩ 0⟩

theorem call_lost :
    call () [.counting, .device] lost quiet = (.error (.missing lost.key), quiet.prepare lost) := by
  have hdevice : (quiet.prepare lost).device = {} := rfl
  have hperform : Device.perform () (quiet.prepare lost).device lost =
      .error (.missing lost.key) := by
    rw [hdevice]
    simp [Device.perform, Device.fork?, lost]
  simp only [call, hperform]

/-- A read of a fork that does not exist is announced all the same. -/
theorem failed_leaves_lost :
    0 < passes [.counting, .device] ∧
      call () [.counting, .device] lost quiet = (.error (.missing lost.key), quiet.prepare lost) ∧
      quiet.Announced 1 ⟨lost.key, lost.key, .read, 0, 1⟩ (quiet.prepare lost) ∧
      ¬quiet.Traceless (quiet.prepare lost) := by
  have hpasses : 0 < passes [.counting, .device] := Nat.one_pos
  obtain ⟨htraceless, hannounced⟩ := failed_leaves () hpasses call_lost
  refine ⟨hpasses, call_lost, hannounced, fun hnone => ?_⟩
  obtain ⟨hentry, -⟩ := htraceless.mp hnone _ rfl
  simp [quiet, Store.find?] at hentry

/-- A site where the first four blocks of a fork of eight have been read. -/
def midway : Site Unit where
  backend := { quiet.backend with
    runs := .noteAll {} [⟨lost.key, lost.key, .read, 0, 4⟩] }
  ledger := { store := (({} : Store).ensure lost.key).1 }
  device := ({} : Device Unit).put lost.key (Array.replicate 8 ())

/-- The submission of a read beyond the end. -/
def beyond : Request Unit := ⟨⟨⟨1663, 5, 16500⟩, false⟩, .main, .submit ⟨0, 2⟩ 100⟩

theorem call_beyond :
    call () [.counting, .device] beyond midway =
      (.error (.beyondEnd lost.key 101 8), midway.prepare beyond) := by
  have hannounced : midway.Announced 1 ⟨lost.key, lost.key, .read, 100, 2⟩
      (midway.prepare beyond) := midway.prepare_announced rfl
  have hperform : Device.perform () (midway.prepare beyond).device beyond =
      .error (.beyondEnd lost.key 101 8) := by
    rw [hannounced.device]
    simp [Device.perform, Device.fork?, Device.put, Device.operate, Device.checkRange, midway,
      beyond, lost, Request.key]
  simp only [call, hperform]

/-- A read that was never carried out has left an entry, which is pending, and a run, which is counted
when the backend leaves.  Another one has put an end to the run before it, and that is not counted by
anybody. -/
theorem failed_submissions_show :
    (∃ e t, call () [.counting, .device] lost quiet = (.error e, t) ∧
      quiet.ledger.store.find? lost.key = none ∧
      t.ledger.store.find? lost.key = some (.new lost.key) ∧
      quiet.backend.pending = [] ∧ t.backend.pending = [lost.key] ∧
      quiet.backend.runs.openRuns = [] ∧
      t.backend.runs.openRuns = [⟨lost.key, .read, 1⟩] ∧
      (t.backend.flushRuns t.ledger).1 = 1) ∧
    ∃ e t, call () [.counting, .device] beyond midway = (.error e, t) ∧
      midway.backend.runs.openRuns = [⟨lost.key, .read, 4⟩] ∧
      t.backend.runs.openRuns = [⟨lost.key, .read, 2⟩] ∧
      t.ledger.store.find? lost.key = midway.ledger.store.find? lost.key := by
  constructor
  · have hannounced : quiet.Announced 1 ⟨lost.key, lost.key, .read, 0, 1⟩ (quiet.prepare lost) :=
      quiet.prepare_announced rfl
    have habsent : quiet.ledger.store.find? lost.key = none := by
      simp [quiet, Store.find?]
    have hentry : (quiet.prepare lost).ledger.store.find? lost.key = some (.new lost.key) := by
      rw [hannounced.find? lost.key, if_pos rfl, habsent]
      rfl
    have hopen : (quiet.prepare lost).backend.runs.openRuns = [⟨lost.key, .read, 1⟩] := by
      rw [hannounced.runs]
      exact Runs.openRuns_noteAll [⟨lost.key, lost.key, .read, 0, 1⟩] lost.key .read 1 (by simp)
        (by decide) (by decide)
    refine ⟨_, _, call_lost, habsent, hentry, rfl, ?_, ?_, hopen, ?_⟩
    · rw [hannounced.pending, habsent]
      decide
    · exact (Runs.openRuns_eq {}).trans (by rw [Runs.openSeries_empty]; rfl)
    · rw [Backend.flushRuns, hopen]
      simp [hentry]
  · have hannounced : midway.Announced 1 ⟨lost.key, lost.key, .read, 100, 2⟩
        (midway.prepare beyond) := midway.prepare_announced rfl
    refine ⟨_, _, call_beyond, ?_, ?_, ?_⟩
    · exact Runs.openRuns_noteAll [⟨lost.key, lost.key, .read, 0, 4⟩] lost.key .read 4 (by simp)
        (by decide) (by decide)
    · rw [hannounced.runs, midway, ← Runs.noteAll_append]
      exact Runs.openRuns_noteAll
        [⟨lost.key, lost.key, .read, 0, 4⟩, ⟨lost.key, lost.key, .read, 100, 2⟩] lost.key .read 2
        (by simp) (by decide) (by decide)
    · rw [hannounced.find?, if_pos rfl, midway, Store.find?_ensure, if_pos rfl, Option.getD_some]

end Chain

end BlockLedger
