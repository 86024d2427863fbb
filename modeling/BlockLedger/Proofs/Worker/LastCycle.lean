import BlockLedger.Catalog.Listed
import BlockLedger.History.Recorder
import BlockLedger.Proofs.Cluster.Hearing
import BlockLedger.Proofs.Store.Leftover
import BlockLedger.Worker
import Mathlib.Data.List.Induction

/-
# The last cycle of a worker

A worker that is told to terminate while its collector is at work has it collect once more, and hands
to the sink all that has been counted since the cycle before.  If the collector crashes in that very
cycle, the worker goes on as after any other crash.

While it waits after a crash, though, a worker has no collector.  If it is told to terminate then,
it stops at once, and what has been counted since the crash is never handed to the sink.
-/

namespace BlockLedger

/-! ## What a worker does -/

namespace Arrival

/-- Whether a collector collects when something arrives. -/
def prompts : Arrival → Bool
  | .signal (.reload _) => false
  | _ => true

/-- How a collector goes on, unless it crashes. -/
def conduct : Arrival → Conduct
  | .signal .terminate | .hangup => .leaves
  | _ => .waits

end Arrival

/-- What can happen to a worker. -/
inductive Happening (C S : Type) where
  | arrival (a : Arrival)
  /-- Its collector crashes without having collected. -/
  | crash
  /-- Somebody else changes what its collector can reach. -/
  | change (f : Collector C S → Collector C S)

section Workers

variable {C S : Type} [Catalog C] [Sink S]

/-- What a collector reports before it collects. -/
def Collector.announce (c : Collector C S) : Arrival → Collector C S
  | .signal .terminate => c.withLedger fun l => l.report .collectorLeaving
  | .hangup => c.withLedger fun l => l.report .collectorAbandoned
  | _ => c

theorem Collector.report_collect (c : Collector C S) :
    c.collect.1 = (cycle c.session c.ledger c.catalog c.sink).1 := by
  unfold collect
  rcases cycle c.session c.ledger c.catalog c.sink with ⟨report, ledger, catalog, sink⟩
  rfl

theorem Collector.sink_collect (c : Collector C S) :
    c.collect.2.sink = (cycle c.session c.ledger c.catalog c.sink).2.2.2 := by
  unfold collect
  rcases cycle c.session c.ledger c.catalog c.sink with ⟨report, ledger, catalog, sink⟩
  rfl

theorem Collector.answer_of_prompts (c : Collector C S) {a : Arrival} (ha : a.prompts = true) :
    c.answer a = (c.announce a).collectThen a.conduct := by
  cases a with
  | signal s =>
    cases s with
    | reload settings => cases ha
    | wake | terminate => rfl
  | timeout | hangup => rfl

namespace Worker

variable (w : Worker C S)

/-- What comes of it when something happens to a worker. -/
def meet (w : Worker C S) : Happening C S → Worker C S
  | .arrival a => w.take a
  | .crash => if w.state = .collecting then w.recover else w
  | .change f => { w with collector := f w.collector }

/-- What comes of one thing after the other. -/
def meetAll (w : Worker C S) (xs : List (Happening C S)) : Worker C S := xs.foldl meet w

/-- Whether a worker starts a collection cycle when something happens to it. -/
def collects (w : Worker C S) : Happening C S → Bool
  | .arrival a => w.state = .collecting ∧ a.prompts
  | _ => false

/-- Whether the collector of a worker crashes. -/
def crashes (w : Worker C S) : Happening C S → Bool
  | .arrival a =>
    w.state = .collecting ∧ a.prompts ∧ (w.collector.announce a).collect.1.isNone
  | .crash => w.state = .collecting
  | .change _ => false

/-- How many collection cycles a worker starts. -/
def cycles (w : Worker C S) : List (Happening C S) → Nat
  | [] => 0
  | x :: rest => (if w.collects x then 1 else 0) + (w.meet x).cycles rest

/-- Whether a worker waits to start a fresh collector: its collector has crashed, and the time after
that has not run out. -/
def Waits (w : Worker C S) (xs : List (Happening C S)) : Prop :=
  w.registration.restartMillis ≠ 0 ∧
    ∃ before x after, xs = before ++ x :: after ∧ (w.meetAll before).crashes x = true ∧
      .arrival .timeout ∉ after

theorem meetAll_concat (xs : List (Happening C S)) (x : Happening C S) :
    w.meetAll (xs ++ [x]) = (w.meetAll xs).meet x := by
  simp [meetAll]

theorem waits_concat (xs : List (Happening C S)) (x : Happening C S) :
    w.Waits (xs ++ [x]) ↔
      (w.registration.restartMillis ≠ 0 ∧ (w.meetAll xs).crashes x = true) ∨
        (w.Waits xs ∧ x ≠ .arrival .timeout) := by
  constructor
  · rintro ⟨hmillis, before, y, after, heq, hcrash, hafter⟩
    rcases List.eq_nil_or_concat after with rfl | ⟨after, z, rfl⟩
    · obtain ⟨rfl, hxy⟩ := List.append_inj' heq rfl
      obtain rfl := (List.cons.inj hxy).1
      exact .inl ⟨hmillis, hcrash⟩
    · rw [List.concat_eq_append] at heq hafter
      rw [← List.cons_append, ← List.append_assoc] at heq
      obtain ⟨rfl, hxz⟩ := List.append_inj' heq rfl
      obtain rfl := (List.cons.inj hxz).1
      rw [List.mem_append, List.mem_singleton, not_or] at hafter
      exact .inr ⟨⟨hmillis, before, y, after, rfl, hcrash, hafter.1⟩, Ne.symm hafter.2⟩
  · rintro (⟨hmillis, hcrash⟩ | ⟨⟨hmillis, before, y, after, rfl, hcrash, hafter⟩, hx⟩)
    · exact ⟨hmillis, xs, x, [], rfl, hcrash, List.not_mem_nil⟩
    · refine ⟨hmillis, before, y, after ++ [x], by simp, hcrash, ?_⟩
      rw [List.mem_append, List.mem_singleton, not_or]
      exact ⟨hafter, Ne.symm hx⟩

/-! ## States -/

omit [Catalog C] [Sink S] in
theorem state_recover :
    w.recover.state = if w.registration.restartMillis = 0 then .collecting else .recovering := by
  unfold recover
  dsimp only
  split <;> rename_i h
  · exact (if_pos h).symm
  · exact (if_neg h).symm

omit [Catalog C] [Sink S] in
theorem registration_recover : w.recover.registration = w.registration := by
  unfold recover
  dsimp only
  split <;> rfl

theorem registration_meet (x : Happening C S) : (w.meet x).registration = w.registration := by
  cases x with
  | arrival a =>
    simp only [meet, take]
    split
    · split
      · rfl
      · rfl
      · exact registration_recover _
    · split <;> rfl
    · rfl
  | crash =>
    simp only [meet]
    split
    · exact registration_recover w
    · rfl
  | change f => rfl

theorem registration_meetAll (xs : List (Happening C S)) :
    (w.meetAll xs).registration = w.registration := by
  induction xs using List.reverseRecOn with
  | nil => rfl
  | append_singleton xs x ih => rw [meetAll_concat, registration_meet, ih]

variable {w}

/-- A collector that is prompted collects, and the worker goes by what comes of it. -/
theorem take_of_prompts (h : w.state = .collecting) {a : Arrival} (ha : a.prompts = true) :
    w.take a =
      match (w.collector.announce a).collect with
      | (none, collector) => { w with collector }.recover
      | (some _, collector) =>
        if a.conduct = .leaves then { w with collector }.stop else { w with collector } := by
  have hconduct : a.conduct = .waits ∨ a.conduct = .leaves := by
    cases a with
    | signal s => cases s <;> simp [Arrival.conduct]
    | timeout | hangup => simp [Arrival.conduct]
  unfold take
  rw [h]
  dsimp only
  rw [w.collector.answer_of_prompts ha, Collector.collectThen]
  rcases (w.collector.announce a).collect with ⟨_ | _, collector⟩
  · rw [← h]
  · rcases hconduct with hconduct | hconduct
    · rw [hconduct, ← h]
      rfl
    · rw [hconduct, ← h]
      rfl

theorem crashes_arrival_iff (a : Arrival) :
    w.crashes (.arrival a) = true ↔
      w.state = .collecting ∧ a.prompts = true ∧ (w.collector.announce a).collect.1 = none := by
  simp [crashes]

/-- A worker whose collector is at work goes on unless that crashes or leaves. -/
theorem state_take_of_collecting (h : w.state = .collecting) (a : Arrival) :
    (w.take a).state =
      if w.crashes (.arrival a) = true then
        if w.registration.restartMillis = 0 then .collecting else .recovering
      else if a.conduct = .leaves then .stopped else .collecting := by
  have hcrash := w.crashes_arrival_iff a
  cases ha : a.prompts with
  | false =>
    obtain ⟨settings, rfl⟩ : ∃ settings, a = .signal (.reload settings) := by
      cases a with
      | signal s =>
        cases s with
        | reload settings => exact ⟨settings, rfl⟩
        | wake | terminate => cases ha
      | timeout | hangup => cases ha
    have hnone : ¬w.crashes (.arrival (.signal (.reload settings))) = true := fun hc => by
      have hprompts := (hcrash.mp hc).2.1
      cases hprompts
    rw [if_neg hnone, take, h]
    rfl
  | true =>
    rw [take_of_prompts h ha]
    rcases hc : (w.collector.announce a).collect with ⟨_ | _, collector⟩
    · have hcrashes : w.crashes (.arrival a) = true := hcrash.mpr ⟨h, ha, by rw [hc]⟩
      rw [if_pos hcrashes]
      exact state_recover { w with collector }
    · have hcrashes : ¬w.crashes (.arrival a) = true := fun h' => by
        have hnone := (hcrash.mp h').2.2
        rw [hc] at hnone
        cases hnone
      rw [if_neg hcrashes]
      dsimp only
      split
      · rfl
      · exact h

theorem state_take_of_recovering (h : w.state = .recovering) (a : Arrival) :
    (w.take a).state =
      match a with
      | .timeout => .collecting
      | .signal .terminate | .hangup => .stopped
      | _ => .recovering := by
  unfold take
  rw [h]
  cases a with
  | signal s =>
    cases s with
    | wake => exact h
    | reload settings => rfl
    | terminate => rfl
  | timeout | hangup => rfl

theorem meet_terminate_of_recovering (h : w.state = .recovering) :
    w.meet (.arrival (.signal .terminate)) = w.stop := by
  rw [meet, take.eq_def, h]

theorem meet_of_stopped (h : w.state = .stopped) (x : Happening C S) :
    (w.meet x).state = .stopped := by
  cases x with
  | arrival a => simp [meet, take, h]
  | crash => simp [meet, h]
  | change f => exact h

omit [Catalog C] [Sink S] in
theorem collects_of_state (h : w.state ≠ .collecting) (x : Happening C S) :
    w.collects x = false := by
  cases x <;> simp [collects, h]

theorem crashes_of_state (h : w.state ≠ .collecting) (x : Happening C S) :
    w.crashes x = false := by
  cases x <;> simp [crashes, h]

/-- A worker that has stopped starts no cycle any more. -/
theorem cycles_of_stopped (h : w.state = .stopped) (xs : List (Happening C S)) :
    w.cycles xs = 0 := by
  induction xs generalizing w with
  | nil => rfl
  | cons x rest ih =>
    have hidle : w.collects x = false := collects_of_state (by simp [h]) x
    rw [cycles, hidle, ih (meet_of_stopped h x)]
    rfl

/-- As long as it does not stop, a worker comes to wait by a crash, and a timeout ends that. -/
theorem recovering_meet (x : Happening C S) (hgoing : (w.meet x).state ≠ .stopped) :
    (w.meet x).state = .recovering ↔
      (w.registration.restartMillis ≠ 0 ∧ w.crashes x = true) ∨
        (w.state = .recovering ∧ x ≠ .arrival .timeout) := by
  cases h : w.state with
  | collecting =>
    cases x with
    | arrival a =>
      rw [meet, state_take_of_collecting h] at hgoing ⊢
      by_cases hcrash : w.crashes (.arrival a) = true
      · by_cases hmillis : w.registration.restartMillis = 0 <;> simp [hcrash, hmillis]
      · by_cases hleaves : a.conduct = .leaves <;> simp [hcrash, hleaves]
    | crash =>
      simp only [meet, crashes, h, if_true, state_recover]
      by_cases hmillis : w.registration.restartMillis = 0 <;> simp [hmillis]
    | change f => simp [meet, crashes, h]
  | recovering =>
    have hcrash : w.crashes x = false := crashes_of_state (by simp [h]) x
    cases x with
    | arrival a =>
      rw [meet, state_take_of_recovering h] at hgoing ⊢
      cases a with
      | signal s => cases s <;> simp_all
      | timeout | hangup => simp_all
    | crash => simp [meet, h, hcrash]
    | change f => simp [meet, h, hcrash]
  | stopped => exact absurd (meet_of_stopped h x) hgoing

/-- As long as it does not stop, a worker has no collector just while it waits to start one. -/
theorem recovering_iff (h : w.state = .collecting) (xs : List (Happening C S))
    (hgoing : (w.meetAll xs).state ≠ .stopped) :
    (w.meetAll xs).state = .recovering ↔ w.Waits xs := by
  induction xs using List.reverseRecOn with
  | nil =>
    have hnone : ¬w.Waits [] := by
      rintro ⟨-, before, x, after, heq, -, -⟩
      simp at heq
    simp [meetAll, h, hnone]
  | append_singleton xs x ih =>
    rw [meetAll_concat] at hgoing ⊢
    have hbefore : (w.meetAll xs).state ≠ .stopped := fun hstopped =>
      hgoing (meet_of_stopped hstopped x)
    rw [recovering_meet x hgoing, waits_concat, registration_meetAll, ih hbefore]

end Worker

/-! ## Watched workers -/

/-- The collector, with its sink watched from now on. -/
def Collector.watched (c : Collector C S) : Collector C (WatchedSink S) :=
  { session := c.session, ledger := c.ledger, catalog := c.catalog, sink := { sink := c.sink } }

/-- The collector, when it is forgotten that its sink was watched. -/
def Collector.unwatched (c : Collector C (WatchedSink S)) : Collector C S :=
  { session := c.session, ledger := c.ledger, catalog := c.catalog, sink := c.sink.sink }

namespace Worker

/-- The worker, with its sink watched from now on. -/
def watched (w : Worker C S) : Worker C (WatchedSink S) :=
  { registration := w.registration, collector := w.collector.watched, state := w.state,
    built := w.built }

/-- The worker, when it is forgotten that its sink was watched. -/
def unwatched (w : Worker C (WatchedSink S)) : Worker C S :=
  { registration := w.registration, collector := w.collector.unwatched, state := w.state,
    built := w.built }

omit [Catalog C] [Sink S] in
theorem unwatched_recover (w : Worker C (WatchedSink S)) :
    w.recover.unwatched = w.unwatched.recover := by
  unfold recover
  dsimp only
  split <;> rename_i h
  · exact (if_pos h).symm
  · exact (if_neg h).symm

/-- Watching the sink changes nothing. -/
theorem unwatched_take (w : Worker C (WatchedSink S)) (a : Arrival) :
    (w.take a).unwatched = w.unwatched.take a := by
  cases h : w.state with
  | collecting =>
    have h' : w.unwatched.state = .collecting := h
    cases ha : a.prompts with
    | false =>
      cases a with
      | signal s =>
        cases s with
        | reload settings =>
          unfold take
          rw [h, h']
          rfl
        | wake | terminate => cases ha
      | timeout | hangup => cases ha
    | true =>
      have hannounce : (w.collector.announce a).unwatched = w.unwatched.collector.announce a := by
        cases a with
        | signal s => cases s <;> rfl
        | timeout | hangup => rfl
      have hcollect : ∀ c : Collector C (WatchedSink S),
          c.unwatched.collect = (c.collect.1, c.collect.2.unwatched) := by
        intro c
        have hcycle := Collector.cycle_watchedSink c.sink c.session c.ledger c.catalog
        unfold Collector.collect Collector.unwatched
        dsimp only
        rw [hcycle]
      rw [take_of_prompts h ha, take_of_prompts h' ha, ← hannounce, hcollect]
      rcases (w.collector.announce a).collect with ⟨_ | _, collector⟩
      · exact unwatched_recover _
      · dsimp only
        split <;> rfl
  | recovering =>
    have h' : w.unwatched.state = .recovering := h
    unfold take
    rw [h, h']
    cases a with
    | signal s => cases s <;> rfl
    | timeout | hangup => rfl
  | stopped =>
    have h' : w.unwatched.state = .stopped := h
    unfold take
    rw [h, h']

/-! ## The last cycle -/

variable {w : Worker C S}

theorem sink_take_of_prompts (h : w.state = .collecting) {a : Arrival} (ha : a.prompts = true) :
    (w.take a).collector.sink = (w.collector.announce a).collect.2.sink := by
  have hrecover : ∀ v : Worker C S, v.recover.collector.sink = v.collector.sink := by
    intro v
    unfold recover
    dsimp only
    split <;> rfl
  rw [take_of_prompts h ha]
  rcases (w.collector.announce a).collect with ⟨_ | _, collector⟩
  · exact hrecover _
  · dsimp only
    split <;> rfl

/-- In its last cycle a worker hands to the sink all that has been counted since the one before. -/
theorem records_terminate (h : w.state = .collecting) {k : Key} {e : Entry}
    (he : w.collector.ledger.store.find? k = some e) (hactive : e.active = true) :
    ∃ record c, .bucket record ∈ (w.watched.take (.signal .terminate)).collector.sink.records ∧
      c ∈ record.entries ∧ c.CopyOf e := by
  have h' : w.watched.state = .collecting := h
  rw [sink_take_of_prompts h' rfl, Collector.sink_collect]
  generalize hc : w.watched.collector.announce (.signal .terminate) = c
  have hfind : c.ledger.store.find? k = some e := by
    rw [← hc]
    exact he
  exact Collector.cycle_records c.session hfind hactive c.catalog c.sink

/-- A worker that is told to terminate starts a last cycle, unless it waits after a crash at that
time.  In the last cycle all that has been counted is handed to the sink; without it, the worker
does nothing but stop. -/
theorem terminate_collects (registration : Registration) (collector : Collector C S)
    (before later : List (Happening C S)) :
    let start := Worker.start registration collector
    let w := start.meetAll before
    let terminate : Happening C S := .arrival (.signal .terminate)
    w.state ≠ .stopped →
      (0 < w.cycles (terminate :: later) ↔ ¬start.Waits before) ∧
      (¬start.Waits before → ∀ k e, w.collector.ledger.store.find? k = some e → e.active = true →
        ∃ record c, .bucket record ∈ (w.watched.take (.signal .terminate)).collector.sink.records ∧
          c ∈ record.entries ∧ c.CopyOf e) ∧
      (start.Waits before → w.meet terminate = w.stop) := by
  intro start w terminate hgoing
  have hwaits : w.state = .recovering ↔ start.Waits before := recovering_iff rfl before hgoing
  rw [← hwaits]
  cases h : w.state with
  | collecting =>
    have hcollects : w.collects terminate = true := by simp [terminate, collects, h, Arrival.prompts]
    refine ⟨?_, fun _ k e he hactive => records_terminate h he hactive, fun hc => by cases hc⟩
    have hcycle : 0 < w.cycles (terminate :: later) := by
      rw [cycles, if_pos hcollects]
      omega
    simpa using hcycle
  | recovering =>
    have hcollects : w.collects terminate = false := collects_of_state (by simp [h]) terminate
    have hstop : w.meet terminate = w.stop := meet_terminate_of_recovering h
    have hnone : w.cycles (terminate :: later) = 0 := by
      rw [cycles, hcollects, hstop, cycles_of_stopped rfl]
      rfl
    exact ⟨by simp [hnone], fun hc => absurd rfl hc, fun _ => hstop⟩
  | stopped => exact absurd h hgoing

end Worker

end Workers

/-! ## A worker that stops without a last cycle -/

/-- A sink that crashes at the next bucket takes the collector with it. -/
theorem Collector.cycle_of_crashes {C : Type} [Catalog C] (session : Session) {l : Ledger} {k : Key}
    {e : Entry} (he : l.store.find? k = some e) (hactive : e.active = true) (catalog : C)
    {sink : Recorder} (hcrashes : 0 < sink.crashes) :
    (cycle session l catalog sink).1 = none := by
  have hclose : e ∈ l.store.close.2.1 := (l.store.mem_close e).mpr ⟨k, he, hactive⟩
  rw [cycle_eq]
  unfold conclude
  dsimp only
  generalize { l with store := l.store.close.2.2 } = l'
  obtain ⟨c, hmem, -⟩ := Entry.CopyOf.exists_mem (identifyAll_copies session _ l' catalog) hclose
  rcases hall : identifyAll session l.store.close.2.1 l' catalog with
    ⟨⟨copies, resolved⟩, l₁, catalog₁⟩
  rw [hall] at hmem
  have hsize : copies.length ≠ 0 := fun h => List.ne_nil_of_mem hmem (List.length_eq_zero_iff.mp h)
  simp [deliver, persist, SegmentRecord.size, hsize, Sink.store, SegmentRecord.kind, hcrashes]

namespace Worker

/-- The key in which there is activity below. -/
def busy : Key := ⟨⟨1663, 5, 16384⟩, .main⟩

/-- There is activity in a key while the clock reads 1. -/
def stirring : Happening ListedCatalog Recorder :=
  .change fun c => c.withLedger fun l => Recorder.stir (l.setClock 1) busy

/-- A worker whose sink crashes at the first bucket. -/
def fragile : Worker ListedCatalog Recorder :=
  start {} { session := {}, ledger := .start {} {}, catalog := .empty, sink := { crashes := 1 } }

theorem find?_stirring (w : Worker ListedCatalog Recorder) :
    ∃ e, (w.meet stirring).collector.ledger.store.find? busy = some e ∧ e.active = true := by
  have hensure : (((w.collector.ledger.setClock 1).store.ensure busy).1.find? busy).isSome := by
    rw [Store.find?_ensure, if_pos rfl]
    rfl
  obtain ⟨e, he⟩ := Option.isSome_iff_exists.mp hensure
  refine ⟨_, ?_, Entry.active_touch
    (e.withTraffic .write fun t => { t with count := t.count + 1 }) Int.one_ne_zero⟩
  simp only [meet, stirring, Collector.withLedger, Recorder.stir, Ledger.withStore,
    Store.find?_modify, he, if_true, Option.map_some]
  rfl

/-- In the last cycle of the worker the activity is handed to the sink, though the sink crashes. -/
theorem terminate_collects_stirring :
    let w := fragile.meetAll [stirring]
    0 < w.cycles [.arrival (.signal .terminate)] ∧
      ∃ e record c, w.collector.ledger.store.find? busy = some e ∧
        .bucket record ∈ (w.watched.take (.signal .terminate)).collector.sink.records ∧
        c ∈ record.entries ∧ c.CopyOf e := by
  intro w
  have hstate : w.state = .collecting := rfl
  have hgoing : w.state ≠ .stopped := by simp [hstate]
  have hwaits : ¬fragile.Waits [stirring] := by
    rw [← recovering_iff rfl [stirring] hgoing]
    simp [w, hstate]
  obtain ⟨hcycle, hrecords, -⟩ := terminate_collects {}
    { session := {}, ledger := .start {} {}, catalog := .empty, sink := { crashes := 1 } }
    [stirring] [] hgoing
  obtain ⟨e, he, hactive⟩ := find?_stirring fragile
  obtain ⟨record, c, hrecord, hcopy⟩ := hrecords hwaits busy e he hactive
  exact ⟨hcycle.mpr hwaits, e, record, c, he, hrecord, hcopy⟩

/-- The worker is woken, and its collector crashes.  It is told to terminate while it waits, and stops
without a cycle, though there has been activity again. -/
theorem stops_without_cycle :
    let w := fragile.meetAll [stirring, .arrival (.signal .wake), stirring]
    w.state ≠ .stopped ∧ (w.meet (.arrival (.signal .terminate))).state = .stopped ∧
      w.cycles [.arrival (.signal .terminate)] = 0 ∧
      ∃ e, (w.meet (.arrival (.signal .terminate))).collector.ledger.store.find? busy = some e ∧
        e.active = true := by
  intro w
  have hcrash : (fragile.meet stirring).crashes (.arrival (.signal .wake)) = true := by
    obtain ⟨e, he, hactive⟩ := find?_stirring fragile
    rw [crashes_arrival_iff, Collector.report_collect]
    generalize hc : (fragile.meet stirring).collector.announce (.signal .wake) = c
    have hfind : c.ledger.store.find? busy = some e := by
      rw [← hc]
      exact he
    have hcrashes : 0 < c.sink.crashes := by
      rw [← hc]
      exact Nat.one_pos
    exact ⟨rfl, rfl, Collector.cycle_of_crashes c.session hfind hactive c.catalog hcrashes⟩
  have hstate : w.state = .recovering := by
    have hwoken := state_take_of_collecting (w := fragile.meet stirring) rfl (.signal .wake)
    rw [if_pos hcrash] at hwoken
    exact hwoken
  have hstop : w.meet (.arrival (.signal .terminate)) = w.stop := meet_terminate_of_recovering hstate
  have hidle : w.collects (.arrival (.signal .terminate)) = false :=
    collects_of_state (by simp [hstate]) _
  rw [hstop]
  refine ⟨by simp [hstate], rfl, ?_, ?_⟩
  · rw [cycles, hidle]
    rfl
  · have hw : w = (fragile.meetAll [stirring, .arrival (.signal .wake)]).meet stirring :=
      fragile.meetAll_concat [stirring, .arrival (.signal .wake)] stirring
    obtain ⟨e, he, hactive⟩ := find?_stirring (fragile.meetAll [stirring, .arrival (.signal .wake)])
    rw [← hw] at he
    have hstore : w.stop.collector.ledger.store = w.collector.ledger.store := rfl
    refine ⟨e, ?_, hactive⟩
    rw [hstore]
    exact he

end Worker

end BlockLedger
