import BlockLedger.Proofs.Cluster.Footing
import BlockLedger.Proofs.Store.Leftover

/-
# What a cycle leaves unreported

A closing snapshot clears all that has been charged, in every interplay whose clock does not read 0.
What it may leave behind are runs that were counted late: the open runs of a backend that leaves,
and the run that the submission of a read has ended which failed then.  They stay in an entry if
nothing has been charged to its key since a snapshot came there; so the open runs of a backend that
leaves after the last snapshot but one do not reach the last one, if its accesses were before that.
-/

namespace BlockLedger

theorem mem_postings {p : Posting} {ds : List Mark} : p ∈ postings ds ↔ .posted p ∈ ds := by
  rw [postings, List.mem_filterMap]
  constructor
  · rintro ⟨d, hd, hp⟩
    cases d <;> cases hp
    exact hd
  · exact fun h => ⟨_, h, rfl⟩

/-! ## The time of charges -/

theorem Site.now_of_due? {P : Type} {s : Site P} {q : Request P} {p : Posting}
    (h : s.due? q = some p) : p.now = s.ledger.clock.now := by
  unfold due? at h
  split at h
  · cases h
  · obtain ⟨charge, -, rfl⟩ := Option.map_eq_some_iff.mp h
    rfl

theorem Site.now_of_credit? {P : Type} {s : Site P} {handle : Handle} {p : Posting}
    (h : s.credit? handle = some p) : p.now = s.ledger.clock.now := by
  unfold credit? at h
  split at h <;> cases h
  rfl

theorem Chain.now_of_dues {P : Type} {blank : P} {chain : List Link} {q : Request P} {s : Site P}
    {p : Posting} (h : p ∈ dues blank chain q s) : p.now = s.ledger.clock.now := by
  induction chain generalizing s with
  | nil => cases h
  | cons link rest ih =>
    cases link with
    | device => cases h
    | passing name => exact ih h
    | counting =>
      -- a call takes no time of its own, so this link reads the same clock as those behind it
      have hprepare := (s.prepare_moves q).ledger.clock
      have hcall := (call_moves blank rest q (s.prepare q)).ledger.clock
      unfold dues at h
      rcases List.mem_append.mp h with h | h
      · rw [ih h, hprepare]
      · split at h
        · rename_i heq
          rw [heq] at hcall
          rw [Site.now_of_due? (Option.mem_toList.mp h), hcall, hprepare]
        · cases h

namespace Interplay

variable {P C S : Type} {s : Interplay P C S}

/-- What is charged for an act bears the time at which it is done. -/
theorem now_of_contributions {blank : P} {a : Act P} {p : Posting}
    (h : p ∈ s.contributions blank a) : p.now = s.cluster.ledger.clock.now := by
  unfold contributions at h
  split at h
  · split at h
    · exact Chain.now_of_dues h
    · cases h
  · split at h
    · obtain ⟨-, -, hp⟩ := List.mem_flatMap.mp h
      exact Site.now_of_credit? (Option.mem_toList.mp hp)
    · cases h
  · cases h

variable [Catalog C] [Sink S] [QuietSink S]

theorem Collecting.ledger {a : Act P} {ds : List Mark} {t : Interplay P C S}
    (h : s.Collecting a ds t) : s.cluster.ledger.Moves ds t.cluster.ledger := by
  cases h with
  | idle | list | endWalk => exact .refl _
  | close => exact .of_path s.store.close_path
  | cycle => exact Collector.cycle_moves ..
  | openWalk => exact .of_path Store.Step.turn.path
  | visit w key => exact .of_path (Store.Step.take key).path

/-- Nobody changes the tunables or the time, unless it is done from outside. -/
theorem Covered.ledger (hs : s.Covered) (blank : P) {a : Act P} (htick : ∀ c, a ≠ .tick c)
    (hreload : ∀ settings, a ≠ .reload settings) :
    s.cluster.ledger.Moves (s.marks blank a) (s.step blank a).cluster.ledger := by
  cases a with
  | tick c => exact absurd rfl (htick c)
  | reload settings => exact absurd rfl (hreload settings)
  | join | session | peek => exact .refl _
  | call i q =>
    simp only [marks, Interplay.step, Cluster.call]
    cases s.cluster.members[i]? with
    | none => exact .refl _
    | some m => exact (Chain.call_moves blank m.chain q (s.cluster.siteOf m)).ledger
  | complete i handle result =>
    simp only [marks, Interplay.step, Cluster.complete]
    cases hm : s.cluster.members[i]? with
    | none => exact .refl _
    | some m =>
      have hcovered : (s.cluster.siteOf m).backend.Covered (s.cluster.siteOf m).ledger := hs i m hm
      exact (Chain.complete_moves m.chain handle result hcovered).ledger
  | finish i work =>
    simp only [marks, Interplay.step, Cluster.finish]
    cases s.cluster.members[i]? with
    | none => exact .refl _
    | some m => exact (m.backend.finish_learns work _ _).moves
  | flush i =>
    simp only [marks, Interplay.step]
    cases s.cluster.members[i]? with
    | none => exact .refl _
    | some m => exact m.backend.flushRuns_moves _
  | shutdown i =>
    simp only [marks, Interplay.step, Cluster.shutdown]
    cases s.cluster.members[i]? with
    | none => exact .refl _
    | some m => exact m.backend.shutdown_moves _ _
  | conclude =>
    simp only [marks, Interplay.step]
    cases s.returned.getLast? with
    | none => exact .refl _
    | some r =>
      exact Collector.conclude_moves s.cluster.session r.1 r.2 s.cluster.ledger s.cluster.catalog
        s.cluster.sink
  | close | cycle | openWalk | list | visit | endWalk =>
    exact (s.collecting_of_step blank rfl).ledger

/-- Nobody but the clock changes the time. -/
theorem Covered.clock (hs : s.Covered) (blank : P) {a : Act P} (ha : ∀ c, a ≠ .tick c) :
    (s.step blank a).cluster.ledger.clock = s.cluster.ledger.clock := by
  by_cases hreload : ∃ settings, a = .reload settings
  · obtain ⟨settings, rfl⟩ := hreload
    exact s.cluster.ledger.reload_clock settings
  · exact (hs.ledger blank ha fun settings h => hreload ⟨settings, h⟩).clock

/-- Temporary relations are tracked as before, unless other settings are put in force. -/
theorem Covered.tempTracking (hs : s.Covered) (blank : P) {a : Act P}
    (ha : ∀ settings, a = .reload settings →
      settings.tempTracking = s.cluster.ledger.tunables.tempTracking) :
    (s.step blank a).cluster.ledger.tunables.tempTracking =
      s.cluster.ledger.tunables.tempTracking := by
  by_cases hreload : ∃ settings, a = .reload settings
  · obtain ⟨settings, rfl⟩ := hreload
    rw [← ha settings rfl]
    exact congrArg Tunables.tempTracking (s.cluster.ledger.reload_tunables settings)
  by_cases htick : ∃ clock, a = .tick clock
  · obtain ⟨clock, rfl⟩ := htick
    rfl
  · rw [(hs.ledger blank (fun clock h => htick ⟨clock, h⟩) fun settings h =>
      hreload ⟨settings, h⟩).tunables]

/-- As long as the clock is never put to 0, it does not read 0 when something is charged. -/
theorem Sound.now_ne_zero (hs : s.Sound) (blank : P) {acts : List (Act P)}
    (hnow : s.cluster.ledger.clock.now ≠ 0) (hticks : ∀ c, .tick c ∈ acts → c.now ≠ 0) :
    ∀ p, .posted p ∈ s.trace blank acts → p.now ≠ 0 := by
  induction acts generalizing s with
  | nil => simp [trace]
  | cons a rest ih =>
    intro p hp
    rcases List.mem_append.mp hp with hp | hp
    · rw [← mem_postings, postings_marks] at hp
      rw [now_of_contributions hp]
      exact hnow
    · refine ih (hs.step blank a) ?_ (fun c hc => hticks c (List.mem_cons_of_mem _ hc)) p hp
      by_cases ha : ∃ c, a = .tick c
      · obtain ⟨c, rfl⟩ := ha
        exact hticks c List.mem_cons_self
      · rw [hs.covered.clock blank fun c hc => ha ⟨c, hc⟩]
        exact hnow

/-- A backend creates a fork, lengthens it, and writes a block. -/
def writing : List (Act Unit) :=
  [.join {} 1 none [.counting, .device],
    .call 0 ⟨⟨grown.locator, false⟩, grown.fork, .create ⟨0, 0, 0⟩ false⟩,
    .call 0 ⟨⟨grown.locator, false⟩, grown.fork, .append 0 ()⟩,
    .call 0 ⟨⟨grown.locator, false⟩, grown.fork, .write 0 [()]⟩]

/-- The entry of the fork by then. -/
def writtenEntry : Entry :=
  (Charge.access .write 1 0 ⟨false, 0⟩).apply 1 ((Charge.extension 1).apply 1 (.new grown))

/-- The write is the only access, and it has begun a run. -/
theorem writing_leaves :
    (begun.run () writing).store.find? grown = some writtenEntry ∧
      ∃ m, (begun.run () writing).cluster.members[0]? = some m ∧
        m.backend.runs.openRuns = [⟨grown, .write, 1⟩] := by
  have hjoined : begun.Leads () [.join {} 1 none Chain.direct] 0 _ :=
    .start_join () {} { now := 1 } ListedCatalog.empty {} (default : History) {} 1 none _ rfl
  have hwritten : begun.Leads () writing 0 _ :=
    ((hjoined.call (by decide)).call (by decide)).call (by decide)
  have hfind := hwritten.stands.find? grown
  obtain ⟨m, hm, -, hsite⟩ := hwritten.stands
  have hruns : m.backend.runs = .noteAll {} [⟨grown, grown, .write, 0, 1⟩] := hsite.memory
  refine ⟨hfind, m, hm, ?_⟩
  rw [hruns]
  exact Runs.openRuns_noteAll _ grown .write 1 (by simp) rfl (by decide)

end Interplay

end BlockLedger
