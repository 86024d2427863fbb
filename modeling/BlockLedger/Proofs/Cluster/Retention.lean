import BlockLedger.Proofs.Cluster.Relocations
import BlockLedger.Proofs.History.Contents
import BlockLedger.Proofs.History.Survival

/-
# History is what has been retained

Every cycle hands its records over under the number of the closing snapshot that it goes on with and
at the time that the clock shows.  As long as no snapshot is gone on with twice and time does not
run backwards, the records that have ever been handed over are therefore in order, and no two of
them have one name: nothing is overwritten.  A cycle adds its records to what history holds and then
takes away what is outdated, so that between cycles history holds just what was not outdated in the
latest.  What is outdated stays so, hence it makes no difference that earlier cycles have trimmed.
-/

namespace BlockLedger

theorem SegmentRecord.offered_pairwise (r : SegmentRecord) : r.offered.Pairwise Precedes := by
  unfold offered
  split
  · exact .nil
  · exact List.pairwise_singleton ..

namespace Collector

variable {h : History} {compress : List UInt8 → List UInt8} {rs : List SegmentRecord}

/-! ## Cycles over history -/

theorem persist_keeps (hkeeps : h.Keeps compress rs) {r : SegmentRecord}
    (hrs : Chronicle (rs ++ r.offered)) (l : Ledger) :
    (persist r l h).1 = some true ∧ (persist r l h).2.2.Keeps compress (rs ++ r.offered) := by
  unfold persist SegmentRecord.offered at *
  split
  · rw [List.append_nil]
    exact ⟨rfl, hkeeps⟩
  · rename_i hsize
    rw [if_neg hsize] at hrs
    obtain ⟨hnone, hstored⟩ := hkeeps.store hrs.fresh
    simp only [Sink.store]
    rcases hstore : h.store r with ⟨_ | e, events, h'⟩ <;> rw [hstore] at hnone hstored
    · exact ⟨rfl, hstored⟩
    · cases hnone

/-- Nothing is looked up in the calendar that it does not hold. -/
structure Dated (clock : Clock) (hours : Nat) : Prop where
  calendar : (Timestamp.ofMicros? clock.now).isSome = true
  limit : hours = 0 ∨ (Timestamp.ofMicros? (History.limit clock.now hours)).isSome = true

theorem trim_keeps (hkeeps : h.Keeps compress rs) (hrs : Chronicle rs) (l : Ledger)
    (hdated : Dated l.clock l.tunables.retention) :
    (trim l.clock.now l h).1 = true ∧ (trim l.clock.now l h).2.2.Keeps compress
      (rs.filter fun r => !History.outdated l.tunables.retention l.clock.now r) := by
  obtain ⟨⟨t, hdone⟩, htrimmed⟩ :=
    hkeeps.trim hrs l.tunables.retention l.clock.now hdated.limit
  unfold trim
  by_cases hzero : l.tunables.retention = 0
  · have hall : ∀ r, History.outdated l.tunables.retention l.clock.now r = false := by
      simp [History.outdated, hzero]
    rw [if_pos hzero]
    simpa [hall] using hkeeps
  · rw [if_neg hzero, trimTime_of_isSome hdated.calendar]
    simp only [Sink.trim]
    rcases htrim : h.trim l.tunables.retention l.clock.now with ⟨outcome, events, h'⟩
    rw [htrim] at hdone htrimmed
    subst hdone
    exact ⟨rfl, htrimmed⟩

/-- What is handed over is stored, and what is outdated by then is taken away. -/
theorem deliver_keeps (hkeeps : h.Keeps compress rs) (bucket : Nat) (es : List Entry) (resolved : Nat)
    (associations : List Association) (l : Ledger) (hdated : Dated l.clock l.tunables.retention)
    (hrs : Chronicle (rs ++ (SegmentRecord.bucket ⟨bucket, l.clock.now, es⟩).offered ++
      (SegmentRecord.associations ⟨bucket, l.clock.now, associations⟩).offered)) :
    (deliver bucket es resolved associations l h).2.2.Keeps compress
      ((rs ++ (SegmentRecord.bucket ⟨bucket, l.clock.now, es⟩).offered ++
        (SegmentRecord.associations ⟨bucket, l.clock.now, associations⟩).offered).filter
          fun r => !History.outdated l.tunables.retention l.clock.now r) := by
  -- storing changes the journal only, so both records and the limit go by one time
  obtain ⟨j₁, hquiet₁⟩ := persist_quiet (.bucket ⟨bucket, l.clock.now, es⟩) l h
  obtain ⟨hfirst, hkeeps₁⟩ := persist_keeps hkeeps (hrs.sublist (List.sublist_append_left ..)) l
  unfold deliver
  dsimp only
  rcases hbucket : persist (.bucket ⟨bucket, l.clock.now, es⟩) l h with ⟨o₁, l₁, h₁⟩
  rw [hbucket] at hquiet₁ hfirst hkeeps₁
  subst hquiet₁ hfirst
  dsimp only
  set r := SegmentRecord.associations ⟨bucket, l.clock.now, associations⟩
  obtain ⟨j₂, hquiet₂⟩ := persist_quiet r { l with journal := j₁ } h₁
  obtain ⟨hsecond, hkeeps₂⟩ := persist_keeps hkeeps₁ hrs { l with journal := j₁ }
  rcases hassociations : persist r { l with journal := j₁ } h₁ with ⟨o₂, l₂, h₂⟩
  rw [hassociations] at hquiet₂ hsecond hkeeps₂
  subst hquiet₂ hsecond
  dsimp only
  obtain ⟨htrue, htrimmed⟩ := trim_keeps hkeeps₂ hrs { l with journal := j₂ } hdated
  rcases htrim : trim l.clock.now { l with journal := j₂ } h₂ with ⟨survived, l₃, h₃⟩
  rw [htrim] at htrue htrimmed
  subst htrue
  exact htrimmed

variable {C : Type} [Catalog C]

theorem conclude_keeps (hkeeps : h.Keeps compress rs) (session : Session) (bucket : Nat)
    (es : List Entry) (l : Ledger) (catalog : C) (hdated : Dated l.clock l.tunables.retention)
    (hrs : Chronicle (rs ++ handover session bucket es l catalog)) :
    (conclude session bucket es l catalog h).2.2.2.Keeps compress
      ((rs ++ handover session bucket es l catalog).filter
        fun r => !History.outdated l.tunables.retention l.clock.now r) := by
  have hmoves := (identifyAll_learns session es l catalog).moves.trans
    (drain_moves (identifyAll session es l catalog).2.1)
  unfold conclude
  unfold handover at hrs ⊢
  dsimp only at hrs ⊢
  rw [← List.append_assoc, ← hmoves.clock] at hrs ⊢
  rw [← hmoves.clock, ← hmoves.tunables] at hdated
  rw [← hmoves.tunables]
  exact deliver_keeps hkeeps bucket _ _ _ _ hdated hrs

/-- The entries come first. -/
theorem handover_pairwise (session : Session) (bucket : Nat) (es : List Entry) (l : Ledger)
    (catalog : C) :
    (handover session bucket es l catalog).Pairwise SegmentRecord.Precedes := by
  unfold handover
  refine List.pairwise_append.mpr ⟨SegmentRecord.offered_pairwise _,
    SegmentRecord.offered_pairwise _, fun r hr r' hr' => ?_⟩
  obtain rfl := SegmentRecord.eq_of_mem_offered hr
  obtain rfl := SegmentRecord.eq_of_mem_offered hr'
  exact ⟨Int.le_refl _, .inr ⟨rfl, Nat.one_lt_two⟩⟩

end Collector

/-! ## Turns -/

/-- The time that the clock is put to in a turn. -/
def Turn.time? {P C : Type} : Turn P C → Option Int
  | act (.tick clock) => some clock.now
  | _ => none

namespace Interplay

variable {P C S : Type}

/-- How many closing snapshots came before the one that the collector goes on with in an act. -/
def snapshot? (s : Interplay P C S) : Act P → Option Nat
  | .cycle => if s.walk.isNone then some s.returned.length else none
  | .conclude => s.returned.getLast?.map fun _ => s.returned.length - 1
  | _ => none

variable [Catalog C] [Sink S]

/-- The closing snapshots that the collector goes on with in one turn after the other. -/
def snapshots (blank : P) (s : Interplay P C S) : List (Turn P C) → List Nat
  | [] => []
  | t :: rest => (t.act?.bind s.snapshot?).toList ++ (s.turn blank t).snapshots blank rest

theorem snapshots_concat (blank : P) (s : Interplay P C S) (turns : List (Turn P C))
    (t : Turn P C) :
    s.snapshots blank (turns ++ [t]) =
      s.snapshots blank turns ++ (t.act?.bind (s.play blank turns).snapshot?).toList := by
  induction turns generalizing s with
  | nil => simp [snapshots, play]
  | cons u rest ih =>
    rw [List.cons_append, snapshots, ih, snapshots, List.append_assoc]
    rfl

variable {s : Interplay P C S}

/-- What is handed over in a cycle belongs to its bucket and its time, the entries first. -/
theorem records_spec [SteadySink S] (blank : P) {a : Act P} {bucket : Nat}
    (ha : s.bucket? a = some bucket) :
    (∀ r ∈ s.records blank a,
      r.number = bucket ∧ r.collectedAt = s.cluster.ledger.clock.now) ∧
    (s.records blank a).Pairwise SegmentRecord.Precedes := by
  obtain ⟨es, l, hclock, -, -, hrecords, -⟩ := collects blank ha
  rw [hrecords, ← hclock]
  exact ⟨fun r => Collector.of_mem_handover, Collector.handover_pairwise ..⟩

omit [Catalog C] [Sink S] in
theorem bucket?_eq (hs : s.Numbered) (a : Act P) :
    s.bucket? a = (s.snapshot? a).map (· + 1) := by
  cases a with
  | cycle =>
    cases hw : s.walk with
    | none =>
      have hbucket := hs.bucket
      rw [hw] at hbucket
      simpa [bucket?, snapshot?, hw] using hbucket
    | some w => simp [bucket?, snapshot?, hw]
  | conclude =>
    simp only [bucket?, snapshot?]
    cases hlast : s.returned.getLast? with
    | none => rfl
    | some r =>
      rw [List.getLast?_eq_getElem?] at hlast
      exact congrArg some (hs.returned _ r.1 r.2 hlast).1
  | _ => rfl

/-- The collector goes on with the latest closing snapshot. -/
theorem snapshot?_spec (blank : P) {a : Act P} {n : Nat} (ha : s.snapshot? a = some n) :
    s.returned.length ≤ n + 1 ∧ n < (s.step blank a).returned.length := by
  cases a with
  | cycle =>
    cases hw : s.walk with
    | none =>
      obtain rfl : s.returned.length = n := by simpa [snapshot?, hw] using ha
      simp [step, hw, handBack, withCluster]
    | some w => simp [snapshot?, hw] at ha
  | conclude =>
    obtain ⟨r, hr, rfl⟩ := Option.map_eq_some_iff.mp ha
    have hne : s.returned ≠ [] := by
      rintro hnil
      rw [hnil] at hr
      cases hr
    have hpos := List.length_pos_iff.mpr hne
    simp only [step, hr, withCluster]
    omega
  | _ => cases ha

theorem length_returned_step (blank : P) (a : Act P) :
    s.returned.length ≤ (s.step blank a).returned.length := by
  cases ha : a.collects with
  | false => rw [(s.step_frame blank ha).2]
  | true =>
    have hcollecting := s.collecting_of_step blank ha
    generalize s.step blank a = t, s.marks blank a = ds at hcollecting
    cases hcollecting with
    | close | cycle | endWalk => simp [handBack, withStore, withCluster]
    | _ => exact Nat.le_refl _

/-- The collector goes on with snapshots that have been closed. -/
theorem snapshots_lt (blank : P) (s : Interplay P C S) (turns : List (Turn P C)) :
    ∀ n ∈ s.snapshots blank turns, n < (s.play blank turns).returned.length := by
  induction turns using List.reverseRecOn with
  | nil => exact fun _ hn => absurd hn List.not_mem_nil
  | append_singleton turns t ih =>
    intro n hn
    rw [snapshots_concat] at hn
    rw [play_concat]
    cases t with
    | catalog | classes => exact ih n (by simpa [Turn.act?] using hn)
    | act a =>
      rcases List.mem_append.mp hn with hn | hn
      · exact (ih n hn).trans_le (length_returned_step blank a)
      · exact (snapshot?_spec blank (Option.mem_toList.mp hn)).2

/-- What is handed over belongs to a snapshot that the collector has gone on with. -/
theorem number_handed [SteadySink S] [QuietSink S] (hs : s.Sound) (blank : P)
    (turns : List (Turn P C)) :
    ∀ r ∈ s.handed blank turns, ∃ n ∈ s.snapshots blank turns, r.number = n + 1 := by
  induction turns generalizing s with
  | nil => exact fun _ hr => absurd hr List.not_mem_nil
  | cons t rest ih =>
    intro r hr
    rcases List.mem_append.mp hr with hr | hr
    · cases t with
      | catalog | classes => cases hr
      | act a =>
        have hr : r ∈ s.records blank a := by simpa [Turn.act?] using hr
        have hbucket := bucket?_eq hs.numbered a
        cases hn : s.snapshot? a with
        | none =>
          rw [hn] at hbucket
          rw [records_of_uncollected blank hbucket] at hr
          cases hr
        | some n =>
          rw [hn] at hbucket
          exact ⟨n, List.mem_append_left _ (Option.mem_toList.mpr hn),
            ((records_spec blank hbucket).1 r hr).1⟩
    · obtain ⟨n, hn, hnumber⟩ := ih (hs.turn blank t).1 r hr
      exact ⟨n, List.mem_append_right _ hn, hnumber⟩

/-! ## History -/

/-- History holds what has been handed over and was not outdated in the latest cycle. -/
structure Retains (hours : Nat) (compress : List UInt8 → List UInt8) (s : Interplay P C History)
    (handed : List SegmentRecord) : Prop where
  sound : s.Sound
  retention : s.cluster.ledger.tunables.retention = hours
  time : ∀ r ∈ handed, r.collectedAt ≤ s.cluster.ledger.clock.now
  chronicle : Chronicle handed
  kept : ∃ latest ≤ s.cluster.ledger.clock.now,
    s.cluster.sink.Keeps compress (handed.filter fun r => !History.outdated hours latest r)

section History

variable {s : Interplay P C History} {hours : Nat} {compress : List UInt8 → List UInt8}
  {handed : List SegmentRecord}

omit [Catalog C] in
/-- The records of a cycle come after all that have been handed over before. -/
theorem Retains.chronicle_collect (hs : s.Retains hours compress handed) {bucket : Nat}
    (hearlier : ∀ r ∈ handed, r.number < bucket)
    (hcalendar : (Timestamp.ofMicros? s.cluster.ledger.clock.now).isSome = true)
    {new : List SegmentRecord}
    (hspec : ∀ r ∈ new, r.number = bucket ∧ r.collectedAt = s.cluster.ledger.clock.now)
    (horder : new.Pairwise SegmentRecord.Precedes) (hwords : ∀ r ∈ new, r.number < 2 ^ 64) :
    Chronicle (handed ++ new) where
  calendar r hr := by
    rcases List.mem_append.mp hr with hr | hr
    · exact hs.chronicle.calendar r hr
    · rw [(hspec r hr).2]
      exact hcalendar
  number r hr := by
    rcases List.mem_append.mp hr with hr | hr
    · exact hs.chronicle.number r hr
    · exact hwords r hr
  order := by
    refine List.pairwise_append.mpr ⟨hs.chronicle.order, horder, fun r hr r' hr' => ?_⟩
    obtain ⟨hnumber, htime⟩ := hspec r' hr'
    exact ⟨htime ▸ hs.time r hr, .inl (hnumber ▸ hearlier r hr)⟩

/-- What is in history when a cycle is over. -/
theorem Retains.kept_collect (hs : s.Retains hours compress handed) (blank : P) {a : Act P}
    {bucket : Nat} (ha : s.bucket? a = some bucket) (hearlier : ∀ r ∈ handed, r.number < bucket)
    (hdated : Collector.Dated s.cluster.ledger.clock hours)
    (hwords : ∀ r ∈ s.records blank a, r.number < 2 ^ 64) :
    Chronicle (handed ++ s.records blank a) ∧
    (s.step blank a).cluster.sink.Keeps compress ((handed ++ s.records blank a).filter
      fun r => !History.outdated hours s.cluster.ledger.clock.now r) := by
  obtain ⟨hspec, horder⟩ := records_spec blank ha
  obtain ⟨es, l, hclock, htunables, -, hrecords, hhistory⟩ := collects blank ha
  have hchronicle := hs.chronicle_collect hearlier hdated.calendar hspec horder hwords
  obtain ⟨latest, hlatest, hkept⟩ := hs.kept
  have hkeeps := Collector.conclude_keeps hkept s.cluster.session bucket es l
    s.watched.cluster.catalog (by rw [hclock, htunables, hs.retention]; exact hdated)
    (hrecords ▸ hchronicle.sublist (List.filter_sublist.append_right _))
  rw [← hrecords, ← hhistory, htunables, hs.retention, hclock, List.filter_append,
    History.filter_outdated hlatest, ← List.filter_append] at hkeeps
  exact ⟨hchronicle, hkeeps⟩

/-- What a cycle preserves. -/
theorem Retains.collect (hs : s.Retains hours compress handed) (blank : P) {a : Act P} {bucket : Nat}
    (ha : s.bucket? a = some bucket) (hearlier : ∀ r ∈ handed, r.number < bucket)
    (hdated : Collector.Dated s.cluster.ledger.clock hours)
    (hwords : ∀ r ∈ s.records blank a, r.number < 2 ^ 64) :
    (s.step blank a).Retains hours compress (handed ++ s.records blank a) := by
  obtain ⟨hchronicle, hkeeps⟩ := hs.kept_collect blank ha hearlier hdated hwords
  have hledger := hs.sound.covered.ledger blank (a := a) (by rintro c rfl; cases ha)
    (by rintro settings rfl; cases ha)
  refine ⟨hs.sound.step blank a, ?_, fun r hr => ?_, hchronicle,
    s.cluster.ledger.clock.now, ?_, hkeeps⟩
  · rw [hledger.tunables]
    exact hs.retention
  · rw [hledger.clock]
    rcases List.mem_append.mp hr with hr | hr
    · exact hs.time r hr
    · exact ((records_spec blank ha).1 r hr).2.le
  · rw [hledger.clock]

omit [Catalog C] in
/-- Nothing but time passes for history between cycles. -/
theorem Retains.later (hs : s.Retains hours compress handed) {t : Interplay P C History}
    (hsound : t.Sound) (hretention : t.cluster.ledger.tunables.retention = hours)
    (hle : s.cluster.ledger.clock.now ≤ t.cluster.ledger.clock.now)
    (hsink : t.cluster.sink = s.cluster.sink) : t.Retains hours compress handed where
  sound := hsound
  retention := hretention
  time r hr := (hs.time r hr).trans hle
  chronicle := hs.chronicle
  kept := by
    obtain ⟨latest, hlatest, hkept⟩ := hs.kept
    rw [hsink]
    exact ⟨latest, hlatest.trans hle, hkept⟩

theorem Retains.rest (hs : s.Retains hours compress handed) (blank : P) {t : Turn P C}
    (ht : t.act?.bind s.bucket? = none)
    (hretention : ∀ settings, t = .act (.reload settings) → settings.retention = hours)
    (htime : ∀ now, t.time? = some now → s.cluster.ledger.clock.now ≤ now) :
    (s.turn blank t).Retains hours compress handed := by
  have hsound := (hs.sound.turn blank t).1
  cases t with
  | catalog | classes =>
    exact hs.later hsound hs.retention (Int.le_refl _) rfl
  | act a =>
    have hsink : (s.step blank a).cluster.sink = s.cluster.sink := sink_step blank ht
    -- the clock is put forward, the settings are read once more, or neither changes
    by_cases htick : ∃ clock, a = .tick clock
    · obtain ⟨clock, rfl⟩ := htick
      exact hs.later hsound hs.retention (htime clock.now rfl) hsink
    · have hclock := hs.sound.covered.clock blank (a := a) fun c hc => htick ⟨c, hc⟩
      refine hs.later hsound ?_ (by rw [turn, hclock]) hsink
      by_cases hreload : ∃ settings, a = .reload settings
      · obtain ⟨settings, rfl⟩ := hreload
        have htunables : (s.step blank (.reload settings)).cluster.ledger.tunables =
            .reload settings := s.cluster.ledger.reload_tunables settings
        rw [turn, htunables]
        exact hretention settings rfl
      · have hledger := hs.sound.covered.ledger blank (a := a) (fun c hc => htick ⟨c, hc⟩)
          fun settings hsettings => hreload ⟨settings, hsettings⟩
        rw [turn, hledger.tunables]
        exact hs.retention

/-- What any turn preserves. -/
theorem Retains.turn (hs : s.Retains hours compress handed) (blank : P) {t : Turn P C}
    (hretention : ∀ settings, t = .act (.reload settings) → settings.retention = hours)
    (htime : ∀ now, t.time? = some now → s.cluster.ledger.clock.now ≤ now)
    (hcycle : ∀ a bucket, t = .act a → s.bucket? a = some bucket →
      (∀ r ∈ handed, r.number < bucket) ∧ Collector.Dated s.cluster.ledger.clock hours)
    (hwords : ∀ r ∈ t.act?.toList.flatMap (s.records blank), r.number < 2 ^ 64) :
    (s.turn blank t).Retains hours compress (handed ++ t.act?.toList.flatMap (s.records blank)) := by
  cases t with
  | catalog | classes => simpa [Turn.act?] using hs.rest blank rfl hretention htime
  | act a =>
    rw [Turn.act?, Option.toList_some, List.flatMap_singleton] at hwords ⊢
    cases ha : s.bucket? a with
    | none =>
      rw [records_of_uncollected blank ha, List.append_nil]
      exact hs.rest blank ha hretention htime
    | some bucket =>
      obtain ⟨hearlier, hdated⟩ := hcycle a bucket rfl ha
      exact hs.collect blank ha hearlier hdated hwords

/-! ## Runs -/

/-- The clock shows what it has been put to. -/
theorem now_turn (hs : s.Sound) (blank : P) (t : Turn P C) :
    (s.turn blank t).cluster.ledger.clock.now = t.time?.getD s.cluster.ledger.clock.now := by
  cases t with
  | catalog | classes => rfl
  | act a =>
    by_cases htick : ∃ clock, a = .tick clock
    · obtain ⟨clock, rfl⟩ := htick
      rfl
    · have hnone : (Turn.act a : Turn P C).time? = none := by
        cases a with
        | tick clock => exact absurd ⟨clock, rfl⟩ htick
        | _ => rfl
      rw [hnone, turn, hs.covered.clock blank fun c hc => htick ⟨c, hc⟩]
      rfl

/-- The clock shows what it has been put to last. -/
theorem now_play (hs : s.Sound) (blank : P) (turns : List (Turn P C)) :
    (s.play blank turns).cluster.ledger.clock.now =
      (turns.filterMap Turn.time?).getLastD s.cluster.ledger.clock.now := by
  induction turns generalizing s with
  | nil => rfl
  | cons t rest ih =>
    have hrest := ih (hs.turn blank t).1
    rw [now_turn hs] at hrest
    refine hrest.trans ?_
    rw [List.filterMap_cons]
    cases t.time? with
    | none => rfl
    | some now => rw [List.getLastD_cons, Option.getD_some]

/-- A run in which history can do its work: time does not run backwards, the calendar holds it and
what the limit of the retention is in any cycle, the retention stays the same, the collector goes on
with no closing snapshot twice, and the numbers of the buckets fit their word. -/
structure Retainable (hours : Nat) (blank : P) (settings : Settings) (clock : Clock)
    (s : Interplay P C History) (turns : List (Turn P C)) : Prop where
  retention : settings.retention = hours ∧
    ∀ settings, .act (.reload settings) ∈ turns → settings.retention = hours
  forward : (clock.now :: turns.filterMap Turn.time?).Pairwise (· ≤ ·)
  calendar : ∀ now ∈ clock.now :: turns.filterMap Turn.time?,
    (Timestamp.ofMicros? now).isSome = true
  limit : ∀ before a after, turns = before ++ .act a :: after →
    ((s.play blank before).snapshot? a).isSome = true → hours = 0 ∨ (Timestamp.ofMicros?
      (History.limit (s.play blank before).cluster.ledger.clock.now hours)).isSome = true
  once : (s.snapshots blank turns).Nodup
  words : ∀ r ∈ s.handed blank turns, r.number < 2 ^ 64

theorem Retainable.concat {blank : P} {settings : Settings} {clock : Clock}
    {turns : List (Turn P C)} {t : Turn P C}
    (h : Retainable hours blank settings clock s (turns ++ [t])) :
    Retainable hours blank settings clock s turns where
  retention := ⟨h.retention.1, fun settings hs => h.retention.2 settings (by simp [hs])⟩
  forward := by
    have hforward := h.forward
    rw [List.filterMap_append, ← List.cons_append] at hforward
    exact (List.pairwise_append.mp hforward).1
  calendar now hnow := by
    refine h.calendar now ?_
    rw [List.filterMap_append, ← List.cons_append]
    exact List.mem_append_left _ hnow
  limit before a after hturns := h.limit before a (after ++ [t]) (by simp [hturns])
  once := by
    have honce := h.once
    rw [snapshots_concat] at honce
    exact (List.nodup_append.mp honce).1
  words r hr := by
    refine h.words r ?_
    rw [handed_concat]
    exact List.mem_append_left _ hr

omit [Catalog C] in
theorem start_retains {settings : Settings} {clock : Clock} (catalog : C) (session : Session)
    (base : String) (compress : List UInt8 → List UInt8)
    (hretention : settings.retention = hours) :
    (start settings clock catalog session { base, folder := some {}, compress } :
      Interplay P C History).Retains hours compress [] where
  sound := start_sound settings clock catalog session _
  retention := hretention
  time _ hr := absurd hr List.not_mem_nil
  chronicle := ⟨by simp, by simp, .nil⟩
  kept := ⟨clock.now, Int.le_refl _, rfl, {}, rfl, by simp, fun file hfile => by
    simp [Folder.find?] at hfile⟩

theorem Retainable.append {blank : P} {settings : Settings} {clock : Clock}
    {turns rest : List (Turn P C)}
    (h : Retainable hours blank settings clock s (turns ++ rest)) :
    Retainable hours blank settings clock s turns := by
  induction rest using List.reverseRecOn with
  | nil => exact List.append_nil turns ▸ h
  | append_singleton rest t ih =>
    rw [← List.append_assoc] at h
    exact ih h.concat

/-- What has been handed over before a cycle belongs to earlier buckets. -/
theorem Retainable.earlier {blank : P} {settings : Settings} {clock : Clock}
    {turns : List (Turn P C)} {a : Act P} (hs : s.Sound)
    (h : Retainable hours blank settings clock s (turns ++ [.act a])) {bucket : Nat}
    (ha : (s.play blank turns).bucket? a = some bucket) :
    ∀ r ∈ s.handed blank turns, r.number < bucket := by
  intro r hr
  obtain ⟨m, hm, hnumber⟩ := number_handed hs blank turns r hr
  rw [bucket?_eq (hs.play blank turns).1.numbered] at ha
  obtain ⟨n, hn, rfl⟩ := Option.map_eq_some_iff.mp ha
  have honce := h.once
  rw [snapshots_concat] at honce
  -- an earlier snapshot, and another one than the latest
  have hne : m ≠ n :=
    (List.nodup_append.mp honce).2.2 m hm n (Option.mem_toList.mpr hn)
  have hlt := snapshots_lt blank s turns m hm
  have hlatest := (snapshot?_spec blank hn).1
  omega

/-- The clock shows one of the times of the run. -/
theorem mem_times (hs : s.Sound) (blank : P) (turns rest : List (Turn P C)) :
    (s.play blank turns).cluster.ledger.clock.now ∈
      s.cluster.ledger.clock.now :: (turns ++ rest).filterMap Turn.time? := by
  rw [now_play hs, List.filterMap_append, ← List.cons_append]
  exact List.mem_append_left _ (List.getLastD_mem_cons ..)

section Start

variable {blank : P} {settings : Settings} {clock : Clock} {catalog : C} {session : Session}
  {base : String} {compress : List UInt8 → List UInt8} {turns : List (Turn P C)}

/-- The calendar is enough for every cycle. -/
theorem Retainable.dated (h : Retainable hours blank settings clock
      (start settings clock catalog session { base, folder := some {}, compress }) turns)
    {before after : List (Turn P C)} {a : Act P} (hturns : turns = before ++ .act a :: after) :
    let now : Interplay P C History :=
      (start settings clock catalog session { base, folder := some {}, compress }).play blank before
    (now.snapshot? a).isSome = true → Collector.Dated now.cluster.ledger.clock hours := by
  intro now hsnapshot
  subst hturns
  exact ⟨h.calendar _ (mem_times (start_sound settings clock catalog session _) blank before _),
    h.limit before a after rfl hsnapshot⟩

/-- What a whole run preserves. -/
theorem Retainable.retains (h : Retainable hours blank settings clock
      (start settings clock catalog session { base, folder := some {}, compress }) turns) :
    let start : Interplay P C History :=
      start settings clock catalog session { base, folder := some {}, compress }
    (start.play blank turns).Retains hours compress (start.handed blank turns) := by
  intro start
  have hstart : start.Sound := start_sound settings clock catalog session _
  induction turns using List.reverseRecOn with
  | nil => exact start_retains catalog session base compress h.retention.1
  | append_singleton turns t ih =>
    have hnow := mem_times hstart blank turns []
    have hforward := h.forward
    have hwords := h.words
    rw [List.append_nil] at hnow
    rw [List.filterMap_append, ← List.cons_append] at hforward
    rw [handed_concat] at hwords
    rw [play_concat, handed_concat]
    refine (ih h.concat).turn blank
      (fun settings hsettings => h.retention.2 settings (by simp [hsettings]))
      (fun now htime => ?_) (fun a bucket ht ha => ?_)
      fun r hr => hwords r (List.mem_append_right _ hr)
    · exact (List.pairwise_append.mp hforward).2.2 _ hnow now (by simp [htime])
    · subst ht
      refine ⟨h.earlier hstart ha, h.dated rfl ?_⟩
      rw [← Option.isSome_map, ← bucket?_eq (hstart.play blank turns).1.numbered, ha]
      rfl

/-- All that is ever handed over has a name of its own, in the order of buckets, entries first.
When a cycle is over, the folder holds what has been handed over so far and was collected, by whole
seconds, no more than the retention before, and nothing else; a listing gives it in that order, and
every segment is read back as the record that was handed over.  What the cycle itself has handed
over is among it. -/
theorem history_is_what_was_retained (h : Retainable hours blank settings clock
      (start settings clock catalog session { base, folder := some {}, compress }) turns) :
    let start : Interplay P C History :=
      start settings clock catalog session { base, folder := some {}, compress }
    (start.handed blank turns).Pairwise SegmentRecord.Precedes ∧
    ((start.handed blank turns).map fun r => r.name.text).Nodup ∧
    ∀ before a after, turns = before ++ .act a :: after →
      ((start.play blank before).snapshot? a).isSome = true →
      let now := start.play blank (before ++ [.act a])
      let kept := (start.handed blank (before ++ [.act a])).filter
        fun r => !History.outdated hours now.cluster.ledger.clock.now r
      (∃ f, now.cluster.sink.folder = some f ∧ f.names.Perm (kept.map fun r => r.name.text)) ∧
      now.cluster.sink.list = .ok (kept.map (SegmentRecord.listed compress)) ∧
      (∀ r ∈ kept, r.Fits → Zstd.expand (compress r.bytes) = .ok r.bytes →
        (compress r.bytes).length < 2 ^ 64 →
          now.cluster.sink.read r.name.text r.kind = (.ok r, [])) ∧
      ∀ r ∈ (start.play blank before).records blank a, r ∈ kept := by
  intro start
  have hstart : start.Sound := start_sound settings clock catalog session _
  have hall := h.retains.chronicle
  refine ⟨hall.order, hall.nodup, ?_⟩
  rintro before a after rfl hsnapshot now kept
  have hcycle : Retainable hours blank settings clock start (before ++ [.act a]) := by
    rw [List.append_cons] at h
    exact h.append
  obtain ⟨bucket, ha⟩ : ∃ bucket, (start.play blank before).bucket? a = some bucket := by
    rw [bucket?_eq (hstart.play blank before).1.numbered, ← Option.isSome_iff_exists,
      Option.isSome_map]
    exact hsnapshot
  have hs := hcycle.concat.retains
  have hhanded : start.handed blank (before ++ [.act a]) =
      start.handed blank before ++ (start.play blank before).records blank a := by
    rw [handed_concat]
    exact congrArg _ (List.append_nil _)
  have hwords := hcycle.words
  rw [hhanded] at hwords
  obtain ⟨hchronicle, hkeeps⟩ := hs.kept_collect blank ha (hcycle.earlier hstart ha)
    (h.dated rfl hsnapshot) fun r hr => hwords r (List.mem_append_right _ hr)
  have hnow : now = (start.play blank before).step blank a := play_concat ..
  have hclock : now.cluster.ledger.clock = (start.play blank before).cluster.ledger.clock := by
    rw [hnow]
    refine hs.sound.covered.clock blank ?_
    rintro c rfl
    cases ha
  rw [← hhanded] at hchronicle hkeeps
  rw [← hnow, ← hclock] at hkeeps
  have hkept : Chronicle kept := hchronicle.sublist List.filter_sublist
  refine ⟨?_, hkeeps.list hkept, fun r hr => hkeeps.read hr,
    fun r hr => List.mem_filter.mpr ⟨?_, ?_⟩⟩
  · obtain ⟨-, f, hfolder, hholds⟩ := hkeeps
    exact ⟨f, hfolder, hholds.names_perm hkept⟩
  · rw [hhanded]
    exact List.mem_append_right _ hr
  · rw [hclock, ← ((records_spec blank ha).1 r hr).2, History.not_outdated_now]
    rfl

end Start

/-! ## A record that grows old -/

/-- An interplay in which the clock reads 1, and history is kept for an hour. -/
def brief : Interplay Unit ListedCatalog History :=
  start { retention := 1 } { now := 1 } .empty {} { base := "history", folder := some {} }

/-- A cycle collects what a backend has done, and two hours later there is another. -/
def ageing : List (Turn Unit ListedCatalog) :=
  asking ++ [.act .cycle] ++ [.act (.tick { now := 7200000001 })] ++ [.act .cycle]

/-- Each cycle goes on with a closing snapshot of its own. -/
theorem snapshots_ageing : brief.snapshots () ageing = [0, 1] := rfl

theorem ageing_retainable : Retainable 1 () { retention := 1 } { now := 1 } brief ageing := by
  have htimes : (1 : Int) :: ageing.filterMap Turn.time? = [1, 7200000001] := rfl
  have hbrief : brief.Sound := start_sound ..
  refine ⟨⟨rfl, by simp [ageing, asking]⟩, by rw [htimes]; decide, by rw [htimes]; decide, ?_,
    by rw [snapshots_ageing]; decide, fun r hr => ?_⟩
  · intro before a after hturns _
    have hnow := mem_times hbrief () before (.act a :: after)
    rw [← hturns] at hnow
    have hmem : (brief.play () before).cluster.ledger.clock.now ∈ [1, 7200000001] :=
      htimes ▸ hnow
    have hlimits : ∀ now ∈ [1, 7200000001],
        (Timestamp.ofMicros? (History.limit now 1)).isSome = true := by decide
    exact .inr (hlimits _ hmem)
  · obtain ⟨n, hn, hnumber⟩ := number_handed hbrief () ageing r hr
    rw [snapshots_ageing] at hn
    have hbound : ∀ n ∈ [0, 1], n + 1 < 2 ^ 64 := by decide
    exact hnumber ▸ hbound n hn

/-- What the first cycle hands over. -/
def early : SegmentRecord := .bucket ⟨1, 1, [namedEntry]⟩

theorem early_fits : early.Fits := by
  refine ⟨by decide, by decide, by decide, fun e he => ?_⟩
  obtain rfl := List.mem_singleton.mp he
  exact
    { reads := Traffic.fits_empty
      writes := Traffic.fits_empty
      extensions := by decide
      extendedBlocks := by decide
      truncations := by decide
      syncs := by decide
      activeSeconds := by decide
      lastActiveSecond := by decide
      firstAccess := by decide
      lastAccess := by decide
      identity := ⟨by decide, by decide⟩ }

theorem early_mem_records : early ∈ (brief.play () asking).records () .cycle := by
  have hbrief : brief.Sound := start_sound ..
  obtain ⟨hsound, -⟩ := hbrief.play () asking
  obtain ⟨hentries, hwalk⟩ :
      (∀ k, (brief.play () asking).store.find? k = if grown = k then some namedEntry else none) ∧
        (brief.play () asking).walk = none :=
    asking_finds 1 ({ base := "history", folder := some {} } : History)
  have hclosed : (brief.play () asking).store.close.2.1 = [namedEntry] :=
    hsound.keyed.close_eq_singleton hentries rfl
  have hbucket : (brief.play () asking).store.bucket = 1 := by
    rw [hsound.numbered.bucket, hwalk]
    rfl
  have hnow : (brief.play () asking).cluster.ledger.clock.now = 1 := now_play hbrief () asking
  rw [records_cycle () hwalk, hclosed, hbucket]
  generalize (brief.play () asking).watched.cluster.catalog = catalog
  refine List.mem_append_left _ ?_
  -- the only copy has its identity already
  rw [Entry.CopyOf.all_eq (Collector.identifyAll_copies ..) (by simp [namedEntry, named]), hnow]
  exact List.mem_singleton_self early

/-- What has been collected is listed and read back then, and it is gone two hours later. -/
theorem history_is_what_was_retained_ageing :
    Retainable 1 () { retention := 1 } { now := 1 } brief ageing ∧
    ∃ r ∈ brief.handed () ageing, r.Fits ∧ (Zstd.enclose r.bytes).length < 2 ^ 64 ∧
      (let now := brief.play () (asking ++ [.act .cycle])
      (∃ ls, now.cluster.sink.list = .ok ls ∧ r.listed Zstd.enclose ∈ ls) ∧
        now.cluster.sink.read r.name.text r.kind = (.ok r, [])) ∧
      ∃ f, (brief.play () ageing).cluster.sink.folder = some f ∧ r.name.text ∉ f.names := by
  refine ⟨ageing_retainable, early, ?_⟩
  obtain ⟨-, hnodup, hcycles⟩ := history_is_what_was_retained ageing_retainable
  have hbrief : brief.Sound := start_sound ..
  rw [← brief] at hnodup hcycles
  obtain ⟨-, hlist, hread, hown⟩ := hcycles asking .cycle _ rfl rfl
  obtain ⟨⟨f, hfolder, hnames⟩, -⟩ := hcycles (asking ++ [.act .cycle] ++ _) .cycle [] rfl rfl
  have hlength : (Zstd.enclose early.bytes).length < 2 ^ 64 := by decide +kernel
  have hearly : early ∈ brief.handed () (asking ++ [.act .cycle]) :=
    (List.mem_filter.mp (hown _ early_mem_records)).1
  have hhanded : early ∈ brief.handed () ageing := by
    rw [ageing, handed_concat, handed_concat, List.append_assoc]
    exact List.mem_append_left _ hearly
  refine ⟨hhanded, early_fits, hlength, ⟨⟨_, hlist, List.mem_map_of_mem (hown _ early_mem_records)⟩,
    hread early (hown _ early_mem_records) early_fits (Zstd.expand_enclose _) hlength⟩, f, hfolder,
    fun hname => ?_⟩
  obtain ⟨r, hr, htext⟩ := List.mem_map.mp (hnames.mem_iff.mp hname)
  obtain ⟨hr, hkept⟩ := List.mem_filter.mp hr
  -- no other record has that name
  obtain rfl := List.inj_on_of_nodup_map hnodup hr hhanded htext
  rw [now_play hbrief] at hkept
  have hold : History.outdated 1 7200000001 early = true := by
    rw [History.outdated_iff]
    decide
  have hfresh : (!History.outdated 1 7200000001 early) = true := hkept
  rw [hold] at hfresh
  cases hfresh

end History

end Interplay

end BlockLedger
