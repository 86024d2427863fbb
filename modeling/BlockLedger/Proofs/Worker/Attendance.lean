import BlockLedger.Proofs.Worker.Delivery

/-
# What a collector does from beginning to end

A collector at work is told to collect, to take over settings or to leave, and while it waits others
use the store.  It heeds what arrives up to the first thing that makes it leave, and nothing after
that.  Each arrival is attended to with the tunables that were taken over last, and whatever prompts
a collection gets one, in a bucket of its own; the last collection leaves no activity behind unless
somebody is active while it is under way.

The attendances of a collector say, for every arrival that it heeds, how things stood when it began to
wait, and how they stood when it began to collect.
-/

namespace BlockLedger

namespace Arrival

/-- What a collector heeds: everything up to the first arrival that makes it leave.  When there is
nothing left it notices that nothing can arrive any more. -/
def heeded : List Arrival → List Arrival
  | [] => [.hangup]
  | a :: rest => if a.conduct = .leaves then [a] else a :: heeded rest

/-- The settings that arrive. -/
def settings? : Arrival → Option Settings
  | .signal (.reload s) => some s
  | _ => none

theorem conduct_eq (a : Arrival) : a.conduct = .waits ∨ a.conduct = .leaves := by
  cases a with
  | signal s => cases s <;> simp [conduct]
  | timeout | hangup => simp [conduct]

/-- What does not prompt a collection brings settings, and nothing else does. -/
theorem prompts_or_reload (a : Arrival) :
    a.prompts = true ∧ a.settings? = none ∨ ∃ s, a = .signal (.reload s) := by
  cases a with
  | signal s =>
    cases s with
    | reload s => exact .inr ⟨s, rfl⟩
    | wake | terminate => exact .inl ⟨rfl, rfl⟩
  | timeout | hangup => exact .inl ⟨rfl, rfl⟩

theorem prompts_of_leaves {a : Arrival} (h : a.conduct = .leaves) : a.prompts = true := by
  cases a with
  | signal s => cases s <;> first | rfl | cases h
  | timeout | hangup => rfl

end Arrival

namespace Tunables

/-- The tunables that are in force after some arrivals: those of the latest settings among them, or
those from before. -/
def inForce (t : Tunables) (as : List Arrival) : Tunables :=
  (as.filterMap Arrival.settings?).getLast?.elim t reload

@[simp] theorem inForce_nil (t : Tunables) : inForce t [] = t := rfl

theorem inForce_cons (t : Tunables) (a : Arrival) (as : List Arrival) :
    inForce t (a :: as) = inForce (a.settings?.elim t reload) as := by
  cases h : a.settings? with
  | none => simp [inForce, h]
  | some s =>
    simp only [inForce, List.filterMap_cons, h, List.getLast?_cons, Option.elim_some]
    cases (as.filterMap Arrival.settings?).getLast? <;> rfl

theorem clamp_mem (n : Nat) : 1 ≤ clamp n ∧ clamp n ≤ 3600 := by
  unfold clamp Settings.minInterval Settings.maxInterval
  omega

/-- Once settings have arrived, the interval is in its range. -/
theorem inForce_interval {t : Tunables} {as : List Arrival} {s : Settings}
    (h : .signal (.reload s) ∈ as) :
    1 ≤ (inForce t as).interval ∧ (inForce t as).interval ≤ 3600 := by
  have hmem : s ∈ as.filterMap Arrival.settings? := List.mem_filterMap.mpr ⟨_, h, rfl⟩
  unfold inForce
  rw [List.getLast?_eq_some_getLast (List.ne_nil_of_mem hmem)]
  exact clamp_mem _

end Tunables

/-- Something that arrives at a collector, and what others have done to what it can reach while it
was waiting for it. -/
structure Incident (C S : Type) where
  arrival : Arrival
  change : Collector C S → Collector C S := id

/-- How a collector attends to an arrival. -/
structure Attendance (C S : Type) where
  arrival : Arrival
  /-- The collector when it began to wait. -/
  waiting : Collector C S
  /-- The collector when it began to collect, if it did. -/
  collecting : Option (Collector C S)

namespace Collector

variable {C S : Type} [Catalog C] [Sink S]

/-- Answers arrivals, while others are at work, until it leaves or crashes. -/
def attend : List (Incident C S) → Collector C S →
    (Conduct × List (Incident C S)) × Collector C S
  | [], c =>
    match c.answer .hangup with
    | (conduct, c) => ((conduct, []), c)
  | x :: rest, c =>
    match (x.change c).answer x.arrival with
    | (.waits, c) => attend rest c
    | (conduct, c) => ((conduct, rest), c)

/-- A collector that nobody interferes with does what `Collector.run` does. -/
theorem run_eq_attend {xs : List (Incident C S)} (hxs : ∀ x ∈ xs, x.change = id)
    (c : Collector C S) :
    run (xs.map Incident.arrival) c =
      (((attend xs c).1.1, (attend xs c).1.2.map Incident.arrival), (attend xs c).2) := by
  induction xs generalizing c with
  | nil => rfl
  | cons x rest ih =>
    simp only [List.map_cons, attend, run, hxs x List.mem_cons_self, id]
    rcases c.answer x.arrival with ⟨_ | _ | _, c'⟩
    · exact ih (fun x hx => hxs x (List.mem_cons_of_mem _ hx)) c'
    · rfl
    · rfl

omit [Catalog C] [Sink S] in
/-- How a collector attends to an arrival if it has not left by then. -/
def attendance (c : Collector C S) (x : Incident C S) : Attendance C S where
  arrival := x.arrival
  waiting := c
  collecting := if x.arrival.prompts then some ((x.change c).announce x.arrival) else none

/-- How a collector attends to all that it heeds. -/
def attendances : List (Incident C S) → Collector C S → List (Attendance C S)
  | [], c => [c.attendance { arrival := .hangup }]
  | x :: rest, c =>
    c.attendance x ::
      match (x.change c).answer x.arrival with
      | (.waits, c) => attendances rest c
      | _ => []

/-- None of the collections of a collector crashes. -/
def Calm (xs : List (Incident C S)) (c : Collector C S) : Prop :=
  ∀ y ∈ attendances xs c, ∀ d, y.collecting = some d → d.collect.1.isSome = true

/-! ## One arrival after the other -/

/-- The collector after an arrival that it has attended to. -/
def answered (c : Collector C S) (x : Incident C S) : Collector C S :=
  ((x.change c).answer x.arrival).2

variable {c : Collector C S} {x : Incident C S} {rest xs : List (Incident C S)}

/-- A collector that does not crash goes on as it has been told. -/
theorem answer_calm (h : ∀ d, (c.attendance x).collecting = some d → d.collect.1.isSome = true) :
    (x.change c).answer x.arrival = (x.arrival.conduct, c.answered x) := by
  have hfst : ((x.change c).answer x.arrival).1 = x.arrival.conduct := by
    rcases x.arrival.prompts_or_reload with ⟨hx, -⟩ | ⟨s, hx⟩
    · have hdone := h _ (if_pos hx)
      rw [(x.change c).answer_of_prompts hx, collectThen]
      rcases hc : ((x.change c).announce x.arrival).collect with ⟨_ | report, d⟩
      · rw [hc] at hdone
        cases hdone
      · rfl
    · rw [hx]
      rfl
  rw [← hfst]
  rfl

theorem answered_of_prompts (hx : x.arrival.prompts = true) :
    c.answered x = ((x.change c).announce x.arrival).collect.2 := by
  rw [answered, (x.change c).answer_of_prompts hx, collectThen]
  rcases ((x.change c).announce x.arrival).collect with ⟨_ | report, d⟩ <;> rfl

theorem calm_head (h : Calm (x :: rest) c) {d : Collector C S}
    (hd : (c.attendance x).collecting = some d) : d.collect.1.isSome = true :=
  h _ List.mem_cons_self d hd

theorem attend_cons (h : Calm (x :: rest) c) :
    attend (x :: rest) c =
      if x.arrival.conduct = .leaves then ((.leaves, rest), c.answered x)
      else attend rest (c.answered x) := by
  rw [attend, answer_calm fun d hd => calm_head h hd]
  rcases x.arrival.conduct_eq with hx | hx <;> simp [hx]

theorem attendances_cons (h : Calm (x :: rest) c) :
    attendances (x :: rest) c =
      c.attendance x ::
        if x.arrival.conduct = .leaves then [] else attendances rest (c.answered x) := by
  rw [attendances, answer_calm fun d hd => calm_head h hd]
  rcases x.arrival.conduct_eq with hx | hx <;> simp [hx]

theorem calm_tail (h : Calm (x :: rest) c) (hx : x.arrival.conduct ≠ .leaves) :
    Calm rest (c.answered x) := by
  intro y hy
  refine h y ?_
  rw [attendances_cons h, if_neg hx]
  exact List.mem_cons_of_mem _ hy

/-- The last thing that a collector notices if nothing makes it leave. -/
theorem attend_nil (h : Calm [] c) :
    attend [] c = ((.leaves, []), c.answered { arrival := .hangup }) := by
  have hanswer := answer_calm (c := c) (x := { arrival := .hangup })
    fun d hd => h _ List.mem_cons_self d hd
  rw [attend]
  exact congrArg (fun r => ((r.1, []), r.2)) hanswer

/-! ## Beginning to end -/

/-- A collector leaves when it has heeded what there was to heed, and sees no more. -/
theorem conduct_attend (h : Calm xs c) :
    (attend xs c).1 = (.leaves, xs.drop (Arrival.heeded (xs.map Incident.arrival)).length) := by
  induction xs generalizing c with
  | nil =>
    rw [attend_nil h]
    rfl
  | cons x rest ih =>
    rw [attend_cons h, List.map_cons, Arrival.heeded]
    by_cases hx : x.arrival.conduct = .leaves
    · simp [hx]
    · rw [if_neg hx, if_neg hx, ih (calm_tail h hx)]
      rfl

theorem arrival_attendances (h : Calm xs c) :
    (attendances xs c).map Attendance.arrival = Arrival.heeded (xs.map Incident.arrival) := by
  induction xs generalizing c with
  | nil => rfl
  | cons x rest ih =>
    rw [attendances_cons h, List.map_cons, List.map_cons, Arrival.heeded]
    by_cases hx : x.arrival.conduct = .leaves
    · rw [if_pos hx, if_pos hx]
      rfl
    · rw [if_neg hx, if_neg hx, ih (calm_tail h hx)]
      rfl

/-- A collector collects when it is prompted to. -/
theorem collecting_attendances {y : Attendance C S} (hy : y ∈ attendances xs c) :
    y.collecting.isSome = y.arrival.prompts := by
  have hone : ∀ (c : Collector C S) (x : Incident C S),
      (c.attendance x).collecting.isSome = (c.attendance x).arrival.prompts := by
    intro c x
    cases hx : x.arrival.prompts <;> simp [attendance, hx]
  induction xs generalizing c with
  | nil =>
    obtain rfl := List.mem_singleton.mp hy
    exact hone c _
  | cons x rest ih =>
    rw [attendances] at hy
    rcases List.mem_cons.mp hy with rfl | hy
    · exact hone c x
    · split at hy
      · exact ih hy
      · cases hy

/-- The last thing that a collector does is to collect. -/
theorem last_attendances (h : Calm xs c) :
    ∃ y d, (attendances xs c).getLast? = some y ∧ y.collecting = some d ∧
      (attend xs c).2 = d.collect.2 := by
  induction xs generalizing c with
  | nil => exact ⟨_, _, rfl, rfl, by rw [attend_nil h, answered_of_prompts rfl]⟩
  | cons x rest ih =>
    rw [attendances_cons h, attend_cons h]
    by_cases hx : x.arrival.conduct = .leaves
    · have hprompts := Arrival.prompts_of_leaves hx
      rw [if_pos hx, if_pos hx]
      exact ⟨_, _, rfl, if_pos hprompts, answered_of_prompts hprompts⟩
    · obtain ⟨y, d, hlast, hd, hattend⟩ := ih (calm_tail h hx)
      rw [if_neg hx, if_neg hx]
      refine ⟨y, d, ?_, hd, hattend⟩
      rw [List.getLast?_cons, hlast]
      rfl

/-- A collector collects once for every arrival that it heeds and that makes it collect without
leaving, and once when it leaves. -/
theorem length_heeded (as : List Arrival) :
    ((Arrival.heeded as).filter Arrival.prompts).length =
      ((Arrival.heeded as).filter fun a => a = .signal .wake ∨ a = .timeout).length + 1 := by
  induction as with
  | nil => rfl
  | cons a rest ih =>
    rw [Arrival.heeded]
    cases a with
    | signal s =>
      cases s with
      | wake =>
        have hwake : Arrival.prompts (.signal .wake) = true := rfl
        simpa [Arrival.conduct, hwake] using ih
      | reload s => simpa [Arrival.conduct, Arrival.prompts] using ih
      | terminate => rfl
    | timeout =>
      have htimeout : Arrival.prompts .timeout = true := rfl
      simpa [Arrival.conduct, htimeout] using ih
    | hangup => rfl

/-! ## Tunables -/

/-- Others leave something of the ledger alone. -/
def LeftAlone {α : Type} (told : Ledger → α) (xs : List (Incident C S)) : Prop :=
  ∀ x ∈ xs, ∀ c : Collector C S, told (x.change c).ledger = told c.ledger

omit [Catalog C] [Sink S] in
theorem ledger_announce (c : Collector C S) (a : Arrival) :
    ∃ journal, (c.announce a).ledger = { c.ledger with journal } := by
  cases a with
  | signal s => cases s <;> exact ⟨_, rfl⟩
  | timeout | hangup => exact ⟨_, rfl⟩

omit [Catalog C] [Sink S] in
theorem ledger_reload (c : Collector C S) (s : Settings) :
    ∃ journal, (c.reload s).ledger = { c.ledger with tunables := .reload s, journal } := by
  obtain ⟨journal, hledger⟩ := c.ledger.reload_eq s
  simp only [reload, withLedger, hledger]
  exact ⟨_, rfl⟩

theorem tunables_answered (hsink : Sink.Spares S Ledger.tunables)
    (hx : (x.change c).ledger.tunables = c.ledger.tunables) :
    (c.answered x).ledger.tunables =
      x.arrival.settings?.elim c.ledger.tunables Tunables.reload := by
  -- either a cycle, which leaves the tunables alone, or settings, and then there is no cycle
  rcases x.arrival.prompts_or_reload with ⟨hprompts, hnone⟩ | ⟨s, hs⟩
  · obtain ⟨journal, hannounce⟩ := (x.change c).ledger_announce x.arrival
    rw [answered_of_prompts hprompts, tunables_collect hsink, hannounce, hnone, ← hx]
    rfl
  · obtain ⟨journal, hreload⟩ := (x.change c).ledger_reload s
    rw [answered, hs]
    exact congrArg Ledger.tunables hreload

/-- Each wait and each collection goes by the settings that arrived last before it. -/
theorem tunables_attendances (h : Calm xs c) (hsink : Sink.Spares S Ledger.tunables)
    (hxs : LeftAlone Ledger.tunables xs) {n : Nat} {y : Attendance C S}
    (hy : (attendances xs c)[n]? = some y) :
    y.waiting.ledger.tunables =
      c.ledger.tunables.inForce ((Arrival.heeded (xs.map Incident.arrival)).take n) ∧
    ∀ d, y.collecting = some d → d.ledger.tunables = y.waiting.ledger.tunables := by
  have hone : ∀ (c : Collector C S) (x : Incident C S),
      (x.change c).ledger.tunables = c.ledger.tunables → ∀ d, (c.attendance x).collecting = some d →
        d.ledger.tunables = c.ledger.tunables := by
    intro c x hx d hd
    obtain ⟨journal, hannounce⟩ := (x.change c).ledger_announce x.arrival
    simp only [attendance] at hd
    split at hd
    · obtain rfl := Option.some.inj hd
      rw [hannounce, ← hx]
    · cases hd
  induction xs generalizing c n with
  | nil =>
    obtain ⟨rfl, rfl⟩ : n = 0 ∧ c.attendance { arrival := .hangup } = y := by
      cases n with
      | zero => exact ⟨rfl, Option.some.inj hy⟩
      | succ n => cases hy
    exact ⟨rfl, hone c _ rfl⟩
  | cons x rest ih =>
    have hx := hxs x List.mem_cons_self c
    rw [attendances_cons h] at hy
    cases n with
    | zero =>
      obtain rfl := Option.some.inj hy
      exact ⟨rfl, hone c x hx⟩
    | succ n =>
      rw [List.getElem?_cons_succ] at hy
      rw [List.map_cons, Arrival.heeded]
      by_cases hleaves : x.arrival.conduct = .leaves
      · rw [if_pos hleaves] at hy
        cases hy
      · rw [if_neg hleaves] at hy ⊢
        rw [List.take_succ_cons, Tunables.inForce_cons, ← tunables_answered hsink hx]
        exact ih (calm_tail h hleaves) (fun x hx => hxs x (List.mem_cons_of_mem _ hx)) hy

/-! ## Buckets -/

theorem bucket_answered (hsink : Sink.Spares S fun l => l.store.bucket)
    (hx : (x.change c).ledger.store.bucket = c.ledger.store.bucket) :
    (c.answered x).ledger.store.bucket =
      c.ledger.store.bucket + if x.arrival.prompts then 1 else 0 := by
  rcases x.arrival.prompts_or_reload with ⟨hprompts, -⟩ | ⟨s, hs⟩
  · obtain ⟨journal, hannounce⟩ := (x.change c).ledger_announce x.arrival
    rw [answered_of_prompts hprompts, bucket_collect hsink, hannounce, ← hx, if_pos hprompts]
  · obtain ⟨journal, hreload⟩ := (x.change c).ledger_reload s
    rw [answered, hs, ← hx]
    exact congrArg (fun l => l.store.bucket) hreload

end Collector

/-- The number of the bucket that has been collected for an arrival. -/
def Attendance.bucket? {C S : Type} [Catalog C] [Sink S] (y : Attendance C S) : Option Nat :=
  y.collecting.bind fun d => d.collect.1.map CycleReport.bucket

namespace Collector

variable {C S : Type} [Catalog C] [Sink S] {c : Collector C S} {xs : List (Incident C S)}

/-- The buckets of a collector follow one another. -/
theorem buckets_attendances (h : Calm xs c) (hsink : Sink.Spares S fun l => l.store.bucket)
    (hxs : LeftAlone (fun l => l.store.bucket) xs) :
    (attendances xs c).filterMap Attendance.bucket? =
      List.range' c.ledger.store.bucket
        ((Arrival.heeded (xs.map Incident.arrival)).filter Arrival.prompts).length := by
  have hone : ∀ (c : Collector C S) (x : Incident C S),
      (x.change c).ledger.store.bucket = c.ledger.store.bucket →
      (∀ d, (c.attendance x).collecting = some d → d.collect.1.isSome = true) →
      (c.attendance x).bucket? =
        if x.arrival.prompts then some c.ledger.store.bucket else none := by
    intro c x hx hdone
    cases hprompts : x.arrival.prompts with
    | false => simp [Attendance.bucket?, attendance, hprompts]
    | true =>
      have hcollecting : (c.attendance x).collecting = some ((x.change c).announce x.arrival) :=
        if_pos hprompts
      obtain ⟨report, hreport⟩ := Option.isSome_iff_exists.mp (hdone _ hcollecting)
      obtain ⟨journal, hannounce⟩ := (x.change c).ledger_announce x.arrival
      rw [Attendance.bucket?, hcollecting, Option.bind_some, hreport, Option.map_some,
        bucket_of_collect hreport, hannounce, if_pos rfl, ← hx]
  induction xs generalizing c with
  | nil =>
    have hhangup := hone c { arrival := .hangup } rfl fun d hd => h _ List.mem_cons_self d hd
    rw [attendances, List.filterMap_cons, hhangup]
    rfl
  | cons x rest ih =>
    have hx := hxs x List.mem_cons_self c
    rw [attendances_cons h, List.filterMap_cons, hone c x hx fun d hd => calm_head h hd,
      List.map_cons, Arrival.heeded]
    by_cases hleaves : x.arrival.conduct = .leaves
    · have hprompts := Arrival.prompts_of_leaves hleaves
      simp [hleaves, hprompts]
    · have hrest := ih (calm_tail h hleaves) fun x hx => hxs x (List.mem_cons_of_mem _ hx)
      rw [if_neg hleaves, if_neg hleaves, hrest, bucket_answered hsink hx]
      cases hprompts : x.arrival.prompts with
      | true => simp [hprompts, List.range'_succ]
      | false => simp [hprompts]

/-! ## Crashes -/

/-- A collector stays calm with a sink that never crashes. -/
theorem calm_of_sturdy {P : S → Prop} (h : Sink.Sturdy P)
    (hxs : ∀ x ∈ xs, ∀ c, P c.sink → P (x.change c).sink) (hc : P c.sink) : Calm xs c := by
  -- the sort of the sink is the invariant: it comes through the change and then the answer
  have hone : ∀ (c : Collector C S) (x : Incident C S), P (x.change c).sink →
      (∀ d, (c.attendance x).collecting = some d → d.collect.1.isSome = true) ∧
        P (c.answered x).sink := by
    intro c x hx
    have hannounce : P ((x.change c).announce x.arrival).sink := by
      cases x.arrival with
      | signal s => cases s <;> exact hx
      | timeout | hangup => exact hx
    refine ⟨fun d hd => ?_, ?_⟩
    · simp only [attendance] at hd
      split at hd
      · obtain rfl := Option.some.inj hd
        exact (collect_sturdy h hannounce).1
      · cases hd
    · rcases x.arrival.prompts_or_reload with ⟨hprompts, -⟩ | ⟨s, hs⟩
      · rw [answered_of_prompts hprompts]
        exact (collect_sturdy h hannounce).2
      · rw [answered, hs]
        exact hx
  induction xs generalizing c with
  | nil =>
    intro y hy d hd
    obtain rfl := List.mem_singleton.mp hy
    exact (hone c _ hc).1 d hd
  | cons x rest ih =>
    obtain ⟨hhead, hanswered⟩ := hone c x (hxs x List.mem_cons_self c hc)
    have hrest := ih (c := c.answered x) (fun x hx => hxs x (List.mem_cons_of_mem _ hx)) hanswered
    intro y hy d hd
    rw [attendances, answer_calm hhead] at hy
    rcases List.mem_cons.mp hy with rfl | hy
    · exact hhead d hd
    · split at hy
      · rename_i c' heq
        obtain rfl : c.answered x = c' := congrArg Prod.snd heq
        exact hrest y hy d hd
      · cases hy

/-! ## All of it -/

/-- A collector heeds what arrives up to the first thing that makes it leave, and sees no more.  It
collects once for each wake-up and each timeout among that, and once when it leaves; if nobody else
closes buckets its own follow one another; every wait and every collection goes by the settings that
arrived last before it; and after its last collection, unless the store was used meanwhile, there is
no activity in any entry. -/
theorem attends (xs : List (Incident C S)) (c : Collector C S) (h : Calm xs c) :
    let arrivals := Arrival.heeded (xs.map Incident.arrival)
    let ys := attendances xs c
    ((∀ x ∈ xs, x.change = id) → run (xs.map Incident.arrival) c =
      ((.leaves, (xs.map Incident.arrival).drop arrivals.length), (attend xs c).2)) ∧
    (attend xs c).1 = (.leaves, xs.drop arrivals.length) ∧ ys.map Attendance.arrival = arrivals ∧
    (∀ y ∈ ys, y.collecting.isSome = y.arrival.prompts) ∧
    (arrivals.filter Arrival.prompts).length =
      (arrivals.filter fun a => a = .signal .wake ∨ a = .timeout).length + 1 ∧
    (Sink.Spares S (fun l => l.store.bucket) → LeftAlone (fun l => l.store.bucket) xs →
      ys.filterMap Attendance.bucket? =
        List.range' c.ledger.store.bucket (arrivals.filter Arrival.prompts).length) ∧
    (Sink.Spares S Ledger.tunables → LeftAlone Ledger.tunables xs →
      ∀ n y, ys[n]? = some y →
        let t := c.ledger.tunables.inForce (arrivals.take n)
        y.waiting.ledger.tunables = t ∧
        (∀ w : Worker C S, w.state = .collecting → w.collector = y.waiting →
          w.patience = 1000 * t.interval) ∧
        ((∃ s, .signal (.reload s) ∈ arrivals.take n) → 1 ≤ t.interval ∧ t.interval ≤ 3600) ∧
        ∀ d, y.collecting = some d → d.ledger.tunables = t ∧
          d.trims = if t.retention = 0 then [] else [t.retention]) ∧
    ∃ y d, ys.getLast? = some y ∧ y.collecting = some d ∧ (attend xs c).2 = d.collect.2 ∧
      (d.collect.2.ledger.store = d.identified.store → (attend xs c).2.ledger.store.Idle) := by
  intro arrivals ys
  refine ⟨fun hxs => ?_, conduct_attend h, arrival_attendances h,
    fun y hy => collecting_attendances hy, length_heeded _, buckets_attendances h,
    fun hsink hxs n y hy => ?_, ?_⟩
  · rw [run_eq_attend hxs, conduct_attend h, List.map_drop]
  · obtain ⟨hwaiting, hcollecting⟩ := tunables_attendances h hsink hxs hy
    refine ⟨hwaiting, fun w hw hcollector => ?_, fun ⟨s, hs⟩ => Tunables.inForce_interval hs,
      fun d hd => ?_⟩
    · rw [Worker.patience, hw, hcollector, hwaiting]
    have hd' := (hcollecting d hd).trans hwaiting
    refine ⟨hd', ?_⟩
    rw [trims_eq hsink (h y (List.mem_of_getElem? hy) d hd), hd']
  · obtain ⟨y, d, hlast, hd, hattend⟩ := last_attendances h
    refine ⟨y, d, hlast, hd, hattend, fun hstill => ?_⟩
    rw [hattend, hstill]
    exact d.idle_identified

/-- There is activity in a key. -/
def stirred (c : Collector ListedCatalog History) : Collector ListedCatalog History :=
  c.withLedger fun l => Recorder.stir (l.setClock 1) Worker.busy

/-- The collector is woken, gets settings with too long an interval, waits in vain and is told to
terminate.  That it is woken after that is not seen any more. -/
theorem attends_reloading :
    let c : Collector ListedCatalog History :=
      { session := {}, ledger := .start {} {}, catalog := .empty, sink := default }
    let xs : List (Incident ListedCatalog History) :=
      [⟨.signal .wake, stirred⟩, ⟨.signal (.reload { interval := 7200 }), id⟩, ⟨.timeout, stirred⟩,
        ⟨.signal .terminate, stirred⟩, ⟨.signal .wake, stirred⟩]
    (attend xs c).1 = (.leaves, [⟨.signal .wake, stirred⟩]) ∧
      (attendances xs c).filterMap Attendance.bucket? = [1, 2, 3] ∧
      (∀ y, (attendances xs c)[2]? = some y → y.waiting.ledger.tunables.interval = 3600) ∧
      (attend xs c).2.ledger.store.Idle := by
  intro c xs
  have hcalm : Calm xs c := by
    refine calm_of_sturdy History.sturdy (fun x hx c hc => ?_) rfl
    simp only [xs, List.mem_cons, List.not_mem_nil, or_false] at hx
    rcases hx with rfl | rfl | rfl | rfl | rfl <;> exact hc
  have hbucket : LeftAlone (fun l => l.store.bucket) xs := by
    intro x hx c
    simp only [xs, List.mem_cons, List.not_mem_nil, or_false] at hx
    rcases hx with rfl | rfl | rfl | rfl | rfl <;>
      simp [stirred, withLedger, Recorder.stir, Ledger.withStore, Ledger.setClock]
  have htunables : LeftAlone Ledger.tunables xs := by
    intro x hx c
    simp only [xs, List.mem_cons, List.not_mem_nil, or_false] at hx
    rcases hx with rfl | rfl | rfl | rfl | rfl <;> rfl
  obtain ⟨-, hconduct, -, -, -, hbuckets, hsettings, y, d, -, -, hlast, hidle⟩ := attends xs c hcalm
  refine ⟨hconduct, hbuckets (.of_quiet fun _ _ => rfl) hbucket, fun y hy => ?_,
    hidle (store_collect d)⟩
  rw [(hsettings (.of_quiet fun _ _ => rfl) htunables 2 y hy).1]
  rfl

end Collector

end BlockLedger
