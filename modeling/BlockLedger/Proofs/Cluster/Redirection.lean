import BlockLedger.Proofs.Cluster.Recording

/-
# Where open runs are recorded

A backend that leaves records its open runs, and each of them in one entry only.  Which entry that
is has been noted beside the fork, for reads and writes alike: it is the one that the latest access
went to which was not counted under the fork's own key.  An access under the fork's own key does not
take the note back.

So a run is recorded where its latest access was counted, but for one case.  If temporary relations
were tracked together for a while and are tracked one by one now, a fork that has been accessed in
both times has its open runs recorded with those of all temporary relations of its database.
-/

namespace BlockLedger

namespace Store

/-- What has been counted under a key in a direction. -/
def traffic (s : Store) (k : Key) (d : Direction) : Traffic :=
  ((s.find? k).map fun e => e.traffic d).getD {}

variable {s t : Store}

theorem Touch.traffic_silent {k : Key} {o o' : Option Entry} (h : Touch k none o o')
    (d : Direction) :
    (o'.map fun e => e.traffic d).getD {} = (o.map fun e => e.traffic d).getD {} := by
  cases h with
  | other => rfl
  | create => exact Entry.traffic_new k d
  | identify e i => exact Entry.traffic_identify e i d

/-- A run that is counted late changes the traffic of its key in its direction. -/
theorem Step.traffic_ended {r : EndedRun} (h : Step s (some (.ended r)) t) (k : Key)
    (d : Direction) :
    t.traffic k d =
      if r.key = k ∧ r.direction = d then (s.traffic k d).endRun r.blocks else s.traffic k d := by
  cases h with
  | endRun r present =>
    obtain ⟨e, he⟩ := Option.isSome_iff_exists.mp present
    unfold traffic
    rw [Store.endRun, find?_modify]
    by_cases hk : r.key = k
    · subst hk
      rw [if_pos rfl, he, Option.map_some, Option.map_some, Entry.traffic_withTraffic]
      by_cases hd : r.direction = d
      · subst hd
        simp
      · simp [hd]
    · simp [hk]

/-- Runs that are counted late are taken in by the traffic of their keys, one after the other. -/
theorem Path.traffic_ended {rs : List EndedRun} (h : s.Path (rs.map .ended) t) (k : Key)
    (d : Direction) :
    t.traffic k d =
      ((rs.filter fun r => r.key = k ∧ r.direction = d).map EndedRun.blocks).foldl Traffic.endRun
        (s.traffic k d) := by
  generalize hds : rs.map Mark.ended = ds at h
  induction h generalizing rs with
  | refl =>
    obtain rfl := List.map_eq_nil_iff.mp hds
    rfl
  | @silent ds t u _ hstep ih =>
    have hu : u.traffic k d = t.traffic k d := (hstep.touch k).traffic_silent d
    rw [hu]
    exact ih hds
  | mark _ hstep ih =>
    obtain ⟨rs, rest, rfl, hrs, hrest⟩ := List.map_eq_append_iff.mp hds
    obtain ⟨r, rfl, rfl⟩ := List.map_eq_singleton_iff.mp hrest
    rw [hstep.traffic_ended, ih hrs, List.filter_append, List.map_append, List.foldl_append]
    by_cases hr : r.key = k ∧ r.direction = d <;> simp [hr]

end Store

namespace Runs

/-- The lengths of the open runs that are recorded under a key, if the detector has taken in the
accesses `ts`. -/
def handedOut (r : Runs) (ts : List Touch) (k : Key) (d : Direction) : List Nat :=
  (r.openSeries.filter fun x => destination ts x.1 = k ∧ x.2 = d).map fun x =>
    ((r.pattern x.1).cursor x.2).run.toNat

theorem handedOut_eq (ts : List Touch) (k : Key) (d : Direction) :
    (((noteAll {} ts).openRuns.filter fun r => r.key = k ∧ r.direction = d).map
        EndedRun.blocks) =
      (noteAll {} ts).handedOut ts k d := by
  have hkey : ∀ x, ((noteAll {} ts).openRun x).key = destination ts x.1 :=
    fun x => account_noteAll ts x.1
  have hdirection : ∀ x, ((noteAll {} ts).openRun x).direction = x.2 := fun _ => rfl
  rw [openRuns_eq, List.filter_map, List.map_map, handedOut]
  simp only [Function.comp_def, hkey, hdirection]
  rfl

end Runs

namespace Interplay

section Acts

variable {P C S : Type} [Catalog C] [Sink S] [QuietSink S]
  {blank : P} {s : Interplay P C S} {acts : List (Act P)} {a : Act P} {i : Nat}

/-- What a member that leaves records under a key. -/
theorem Sound.traffic_leave (hs : s.Sound) (hi : s.runsOf i = {}) (ha : a.leaver? = some i)
    (k : Key) (d : Direction) :
    ((s.run blank acts).step blank a).store.traffic k d =
      (((s.run blank acts).runsOf i).handedOut (s.memory blank i acts) k d).foldl Traffic.endRun
        ((s.run blank acts).store.traffic k d) := by
  obtain ⟨hsound, -, -⟩ := hs.run blank acts
  have hmarks : (s.run blank acts).marks blank a =
      ((s.run blank acts).runsOf i).openRuns.map .ended :=
    marks_leave ha fun r hr => hs.find?_of_mem_openRuns hi hr
  have hpath := (hsound.covered.step blank a).path
  rw [hmarks] at hpath
  rw [hpath.traffic_ended k d, runsOf_run hi, Runs.handedOut_eq]

omit [QuietSink S] in
/-- The accesses that a member knows of bear one key besides that of the fork. -/
theorem key_of_mem_memory {f : Key} {t : Touch} (ht : t ∈ s.memory blank i acts)
    (hfork : t.fork = f) : t.key = f ∨ t.key = .temporaries f.locator.database := by
  subst hfork
  exact key_of_mem_log (mem_log_of_mem_memory ht)

/-- A backend that leaves records every open run in one entry.  It is the entry that the latest
access of the run was counted under, unless that is the fork's own and an earlier access to the fork
was counted elsewhere. -/
theorem open_runs_recorded (blank : P) (settings : Settings) (clock : Clock) (catalog : C)
    (session : Session) (sink : S) (acts : List (Act P)) (a : Act P) (i : Nat)
    (ha : a.leaver? = some i) :
    let start : Interplay P C S := start settings clock catalog session sink
    let before := start.run blank acts
    let after := before.step blank a
    let accesses := start.memory blank i acts
    (∀ k d, after.store.traffic k d =
      ((before.runsOf i).handedOut accesses k d).foldl Traffic.endRun
        (before.store.traffic k d)) ∧
    ∀ f d, (f, d) ∈ (before.runsOf i).openSeries →
      (after.store.find? (destination accesses f)).isSome ∧
      ∃ t, latest accesses f d = some t ∧
        (destination accesses f = t.key ↔
          (t.key = f → ∀ u ∈ accesses, u.fork = f → u.key = f)) := by
  intro start before after accesses
  have hs : start.Sound := start_sound settings clock catalog session sink
  have hfresh : start.Fresh := start_fresh settings clock catalog session sink
  have hi : start.runsOf i = {} := hfresh.runsOf i
  obtain ⟨hsound, -, -⟩ := hs.run blank acts
  refine ⟨fun k d => hs.traffic_leave hi ha k d, fun f d hopen => ?_⟩
  have hruns : before.runsOf i = Runs.noteAll {} accesses := runsOf_run hi acts
  constructor
  · have hmem : (before.runsOf i).openRun (f, d) ∈ (before.runsOf i).openRuns := by
      rw [Runs.openRuns_eq]
      exact List.mem_map_of_mem hopen
    have hkey : ((before.runsOf i).openRun (f, d)).key = destination accesses f := by
      rw [hruns]
      exact Runs.account_noteAll accesses f
    have hpresent := hs.find?_of_mem_openRuns hi hmem
    rw [hkey] at hpresent
    exact (hsound.covered.step blank a).path.isSome hpresent
  · rw [hruns] at hopen
    obtain ⟨t, hlatest⟩ := Runs.latest_of_mem_openSeries hopen
    obtain ⟨ht, hfork, -⟩ := mem_of_latest hlatest
    exact ⟨t, hlatest, destination_eq_iff (fun u hu hufork => key_of_mem_memory hu hufork) ht hfork⟩

end Acts

/-! ## A run that is recorded elsewhere -/

/-- A request for a temporary fork. -/
def temporarily (operation : Operation Unit) : Act Unit :=
  .call 0 ⟨⟨grown.locator, true⟩, grown.fork, operation⟩

/-- A backend reads two blocks of a temporary relation in a row.  Before the second one it is
decided that temporary relations are tracked one by one. -/
def redirected : List (Act Unit) :=
  [.join {} 1 none [.counting, .device], temporarily (.create ⟨0, 0, 0⟩ false),
    temporarily (.lengthen 0 2), temporarily (.read 0 1), .reload { tempTracking := .individual },
    temporarily (.read 1 1)]

/-- By then there are entries of the fork and of all temporary relations, with one read each. -/
theorem redirected_leads :
    ∃ f, begun.Leads () redirected 0 f ∧
      f.memory = [⟨grown, .temporaries grown.locator.database, .read, 0, 1⟩,
        ⟨grown, grown, .read, 1, 1⟩] ∧
      ∀ k ∈ [grown, .temporaries grown.locator.database],
        ∃ e ∈ f.entries k, e.reads.count = 1 ∧ e.reads.runs.count = 0 := by
  have hjoined : begun.Leads () [.join {} 1 none Chain.direct] 0 _ :=
    .start_join () {} { now := 1 } ListedCatalog.empty {} (default : History) {} 1 none _ rfl
  have hread : begun.Leads () (redirected.take 4) 0 _ :=
    ((hjoined.call (by decide)).call (by decide)).call (by decide)
  refine ⟨_, (hread.reload { tempTracking := .individual }).call (by decide), rfl, ?_⟩
  simp only [List.forall_mem_cons]
  exact ⟨⟨_, rfl, rfl, rfl⟩, ⟨_, rfl, rfl, rfl⟩, nofun⟩

theorem log_redirected :
    begun.log () redirected =
      [(0, ⟨grown, .temporaries grown.locator.database, .read, 0, 1⟩),
        (0, ⟨grown, grown, .read, 1, 1⟩)] := by
  obtain ⟨f, hleads, hmemory, -⟩ := redirected_leads
  rw [hleads.log, hmemory]
  rfl

theorem memory_redirected :
    begun.memory () 0 redirected =
      [⟨grown, .temporaries grown.locator.database, .read, 0, 1⟩, ⟨grown, grown, .read, 1, 1⟩] := by
  have hleavers : 0 ∉ Act.leavers redirected := by
    simp [Act.leavers, redirected, temporarily, Act.leaver?]
  rw [memory_of_not_mem_leavers hleavers, log_redirected]
  rfl

/-- There is one open run, over both blocks. -/
theorem openSeries_redirected :
    ((begun.run () redirected).runsOf 0).openSeries = [(grown, .read)] ∧
      ((((begun.run () redirected).runsOf 0).pattern grown).cursor .read).run = 2 := by
  have hfresh : begun.Fresh := start_fresh ..
  have hpattern : ∀ f, ((begun.run () redirected).runsOf 0).pattern f =
      if f = grown then { reads := ⟨some 1, 2⟩, account := some (.temporaries 5) } else {} := by
    intro f
    rw [runsOf_run (hfresh.runsOf 0), memory_redirected, Runs.pattern_noteAll]
    split
    · subst f
      decide
    · rename_i hf
      simp [Ne.symm hf]
  constructor
  · refine Runs.openSeries_eq_singleton fun y => ?_
    obtain ⟨f, d⟩ := y
    rw [hpattern]
    by_cases hf : f = grown <;> cases d <;> simp [hf, Pattern.cursor]
  · rw [hpattern]
    rfl

/-- One of the reads has been counted with those of all temporary relations, and the other one under
the fork's own key. -/
theorem traffic_redirected :
    ∀ k ∈ [grown, .temporaries grown.locator.database],
      let t := (begun.run () redirected).store.traffic k .read
      t.count = 1 ∧ t.runs.count = 0 := by
  obtain ⟨f, hleads, -, hentries⟩ := redirected_leads
  intro k hk t
  obtain ⟨e, he, hcount⟩ := hentries k hk
  have ht : t = e.reads := by
    simp only [t, Store.traffic, hleads.stands.find?, Option.mem_def.mp he]
    rfl
  rw [ht]
  exact hcount

theorem destination_redirected :
    destination (begun.memory () 0 redirected) grown = .temporaries grown.locator.database := by
  rw [memory_redirected]
  rfl

theorem handedOut_redirected (k : Key) :
    ((begun.run () redirected).runsOf 0).handedOut (begun.memory () 0 redirected) k .read =
      if k = .temporaries grown.locator.database then [2] else [] := by
  obtain ⟨hseries, hlength⟩ := openSeries_redirected
  rw [Runs.handedOut, hseries]
  by_cases hk : k = .temporaries grown.locator.database
  · simp [destination_redirected, hk, hlength]
  · simp [destination_redirected, hk, Ne.symm hk]

/-- When the backend leaves, the run is recorded with those of all temporary relations. -/
theorem open_runs_recorded_redirected :
    let before := begun.run () redirected
    let after := before.step () (.shutdown 0)
    let aggregate : Key := .temporaries grown.locator.database
    (after.store.find? aggregate).isSome ∧
      after.store.traffic aggregate .read = (before.store.traffic aggregate .read).endRun 2 := by
  intro before after aggregate
  obtain ⟨htraffic, hopen⟩ := open_runs_recorded () {} { now := 1 } ListedCatalog.empty {}
    (default : History) redirected (.shutdown 0) 0 rfl
  obtain ⟨hpresent, -⟩ := hopen grown .read (by
    rw [← begun, openSeries_redirected.1]
    exact List.mem_singleton_self _)
  constructor
  · rw [← begun, destination_redirected] at hpresent
    exact hpresent
  · have hrecorded := htraffic aggregate .read
    rw [← begun, handedOut_redirected, if_pos rfl] at hrecorded
    exact hrecorded

/-- But the latest access of the run was counted under the fork's own key, where no run is
recorded. -/
theorem records_run_elsewhere :
    let before := begun.run () redirected
    let after := before.step () (.shutdown 0)
    (before.runsOf 0).openSeries = [(grown, .read)] ∧
      (latest (begun.memory () 0 redirected) grown .read).map Touch.key = some grown ∧
      (after.store.traffic grown .read).runs.count = 0 ∧
      (after.store.traffic (.temporaries grown.locator.database) .read).runs.count = 1 := by
  intro before after
  have hstart : begun.Sound := start_sound ..
  have hfresh : begun.Fresh := start_fresh ..
  have hafter : ∀ k, after.store.traffic k .read =
      (if k = .temporaries grown.locator.database then [2] else []).foldl Traffic.endRun
        (before.store.traffic k .read) := by
    intro k
    rw [← handedOut_redirected]
    exact hstart.traffic_leave (hfresh.runsOf 0) rfl k .read
  refine ⟨openSeries_redirected.1, ?_, ?_, ?_⟩
  · rw [memory_redirected]
    rfl
  · obtain ⟨-, hruns⟩ := traffic_redirected grown (by simp)
    rw [hafter, if_neg (by decide)]
    exact hruns
  · obtain ⟨-, hruns⟩ := traffic_redirected (.temporaries grown.locator.database) (by simp)
    rw [hafter, if_pos rfl]
    exact congrArg (· + 1) hruns

end Interplay

end BlockLedger
