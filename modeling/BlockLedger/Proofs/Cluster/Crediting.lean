import BlockLedger.Proofs.Cluster.Airborne

/-
# Reads are credited as they were submitted

When an asynchronous read is completed, what has been decided at its submission is what counts, for
the slots have kept it.  By then the tunables may say something else, the detector may have gone on,
and a closing snapshot may have been taken.  A read that went well is one more read of the entry
that had been decided on, of one that did not nothing is left but the run that it has ended, and one
that was not to be counted leaves no trace.
-/

namespace BlockLedger

/-! ## One more read -/

namespace Entry

/-- One more read has been counted, of so many blocks, that carried on a run or did not.  Apart from
the reads nothing has changed but the times of activity. -/
structure OneMoreRead (e e' : Entry) (blocks : Nat) (carriesOn : Bool) : Prop where
  count : e'.reads.count = e.reads.count + 1
  blocks : e'.reads.blocks = e.reads.blocks + blocks
  sequential : e'.reads.sequential = e.reads.sequential + if carriesOn then 1 else 0
  random : e'.reads.random = e.reads.random + if carriesOn then 0 else 1
  rest : e' =
    { e with
      reads := e'.reads
      activeSeconds := e'.activeSeconds
      lastActiveSecond := e'.lastActiveSecond
      firstAccess := e'.firstAccess
      lastAccess := e'.lastAccess }

theorem oneMoreRead_account (e : Entry) (blocks us : Nat) (access : Access) (now : Int) :
    e.OneMoreRead (e.account .read blocks us access now) blocks access.sequential := by
  have hreads : (e.account .read blocks us access now).reads =
      e.reads.account blocks us access now := rfl
  refine ⟨?_, ?_, ?_, ?_, rfl⟩ <;> rw [hreads, Traffic.account]
  · cases h : access.sequential <;> simp [Traffic.classify]
  · cases h : access.sequential <;> simp [Traffic.classify]
  · cases h : access.sequential <;> simp [Traffic.classify]
  · cases h : access.sequential <;> simp [Traffic.classify]

theorem endRun_reads (e : Entry) (blocks : Nat) :
    ∃ runs, e.withTraffic .read (fun t => t.endRun blocks) =
      { e with reads := { e.reads with runs } } := by
  simp only [withTraffic, Traffic.endRun]
  split
  · exact ⟨e.reads.runs, rfl⟩
  · exact ⟨_, rfl⟩

end Entry

/-! ## The completion of a read -/

/-- What becomes of the entry that a read is counted under, when the read is completed. -/
def Flight.settle (f : Flight) (clock : Clock) (result : Completion) (e : Entry) : Entry :=
  if result.isOk then e.account .read f.handle.blocks.toNat clock.lag f.access clock.now
  else e.withTraffic .read fun t => t.endRun f.access.ended

namespace Site

variable {P : Type} {s : Site P} {f : Flight} {result : Completion}

/-- A read that was not to be counted leaves everything as it is. -/
theorem settle_of_untracked (h : f.HeldIn (s.backend.slots.content f.handle.id))
    (hkey : f.key = none) : s.settle f.handle result = s := by
  rw [Flight.HeldIn, hkey] at h
  replace h : (s.backend.slots.content f.handle.id).tracked = false := h
  simp only [settle]
  rcases s.backend.slots.get?_eq f.handle.id with ⟨hget, -⟩ | hget
  · rw [hget]
  · rw [hget]
    generalize s.backend.slots.content f.handle.id = x at h
    obtain ⟨started, access, key, tracked⟩ := x
    obtain rfl : tracked = false := h
    cases key <;> rfl

/-- A read that is counted changes one entry, and goes by what was decided. -/
theorem settle_of_tracked (h : f.HeldIn (s.backend.slots.content f.handle.id)) {k : Key}
    (hkey : f.key = some k) :
    s.settle f.handle result =
      { s with
        ledger := s.ledger.withStore fun store =>
          store.modify k (f.settle s.ledger.clock result) } := by
  rw [Flight.HeldIn, hkey] at h
  replace h : s.backend.slots.content f.handle.id =
    { started := true, access := f.access, key := some k, tracked := true } := h
  have hget : s.backend.slots.get? f.handle.id =
      some { started := true, access := f.access, key := some k, tracked := true } := by
    rcases s.backend.slots.get?_eq f.handle.id with ⟨-, hempty⟩ | hget
    · rw [h] at hempty
      cases hempty
    · rw [hget, h]
  simp only [settle, hget, if_true]
  rfl

end Site

namespace Interplay

variable {P C S : Type}

/-- What the completion of a read comes to, if an interplay becomes another in it: nothing changes
but the store, and there no other entry than the one that was decided on at its submission. -/
structure Credited (s t : Interplay P C S) (f : Flight) (result : Completion) : Prop where
  rest : t = s.withStore t.store
  others : ∀ k, f.key ≠ some k → t.store.find? k = s.store.find? k
  untracked : f.key = none → t = s
  counted : ∀ k, f.key = some k → result.isOk = true →
    ∃ e e', s.store.find? k = some e ∧ t.store.find? k = some e' ∧
      e' = e.account .read f.handle.blocks.toNat s.cluster.ledger.clock.lag f.access
        s.cluster.ledger.clock.now ∧
      e.OneMoreRead e' f.handle.blocks.toNat f.access.sequential
  failed : ∀ k, f.key = some k → result.isOk = false →
    ∃ e runs, s.store.find? k = some e ∧
      t.store.find? k = some { e with reads := { e.reads with runs } }

variable {s : Interplay P C S} {i capacity : Nat} {m : Member} {chain : List Link}
  {fs : List Flight} {f : Flight} {result : Completion}

theorem Credited.of_untracked (hkey : f.key = none) : s.Credited s f result where
  rest := rfl
  others _ _ := rfl
  untracked _ := rfl
  counted k hk := by
    rw [hkey] at hk
    cases hk
  failed k hk := by
    rw [hkey] at hk
    cases hk

theorem Credited.of_tracked {k : Key} (hkey : f.key = some k) {e : Entry}
    (he : s.store.find? k = some e) :
    s.Credited (s.withStore (s.store.modify k (f.settle s.cluster.ledger.clock result))) f
      result := by
  have hfind : ∀ k', (s.withStore (s.store.modify k (f.settle s.cluster.ledger.clock
      result))).store.find? k' = if k = k' then (s.store.find? k).map
        (f.settle s.cluster.ledger.clock result) else s.store.find? k' :=
    fun k' => s.store.find?_modify k k' _
  constructor
  case rest => rfl
  case others =>
    intro k' hk'
    have hne : k ≠ k' := by
      rintro rfl
      exact hk' hkey
    rw [hfind, if_neg hne]
  case untracked =>
    intro hnone
    rw [hkey] at hnone
    cases hnone
  case counted =>
    intro k' hk' hok
    obtain rfl := Option.some.inj (hkey.symm.trans hk')
    refine ⟨e, _, he, ?_, rfl, e.oneMoreRead_account ..⟩
    rw [hfind, if_pos rfl, he, Option.map_some, Flight.settle, if_pos hok]
  case failed =>
    intro k' hk' hnot
    obtain rfl := Option.some.inj (hkey.symm.trans hk')
    obtain ⟨runs, hruns⟩ := e.endRun_reads f.access.ended
    refine ⟨e, runs, he, ?_⟩
    rw [hfind, if_pos rfl, he, Option.map_some, Flight.settle, hnot, ← hruns]
    rfl

/-- Nothing changes but the store if that is all that a member has changed. -/
theorem withSite_siteOf (hm : s.cluster.members[i]? = some m) (store : Store) :
    s.withCluster (s.cluster.withSite i
      { s.cluster.siteOf m with ledger := s.cluster.ledger.withStore fun _ => store }) =
      s.withStore store := by
  have hmembers : (s.cluster.members.modify i fun m' => { m' with backend := m.backend }) =
      s.cluster.members := by
    refine List.ext_getElem? fun j => ?_
    rw [List.getElem?_modify]
    split
    · subst j
      rw [hm]
      rfl
    · exact id_map _
  simp only [withStore, withCluster, Cluster.withSite, Cluster.withBackend, Cluster.siteOf,
    Cluster.withLedger, Ledger.withStore, hmembers]

variable [Catalog C] [Sink S]

/-- All that the completion of a read in the air can change is the entry that the read is counted
under. -/
theorem Holds.step_complete (h : s.Holds i chain capacity fs)
    (hchain : Chain.working chain = Chain.direct) (hf : f ∈ fs) (blank : P) (result : Completion) :
    s.step blank (.complete i f.handle result) =
      match f.key with
      | none => s
      | some k =>
        s.withStore (s.store.modify k (f.settle s.cluster.ledger.clock result)) := by
  obtain ⟨⟨g, hg, rfl, -, hheld⟩, -⟩ := h
  obtain ⟨m, hm, rfl⟩ := Option.map_eq_some_iff.mp hg
  set site := s.cluster.siteOf m
  have hslot : f.HeldIn (site.backend.slots.content f.handle.id) := hheld f hf
  have hcomplete : Chain.complete m.chain f.handle result site =
      (result, site.settle f.handle result) := by
    rw [← Chain.complete_working, show Chain.working m.chain = Chain.direct from hchain]
    rfl
  have hstep : s.step blank (.complete i f.handle result) =
      s.withCluster (s.cluster.withSite i (site.settle f.handle result)) := by
    simp only [Interplay.step, Cluster.complete, hm]
    rw [hcomplete]
  rw [hstep]
  cases hkey : f.key with
  | none =>
    rw [Site.settle_of_untracked hslot hkey]
    exact withSite_siteOf hm s.store
  | some k =>
    rw [Site.settle_of_tracked hslot hkey]
    exact withSite_siteOf hm _

omit [Catalog C] [Sink S] in
/-- The entry that a read in the air is counted under exists. -/
theorem Holds.find? (h : s.Holds i chain capacity fs) (hcovered : s.Covered) (hf : f ∈ fs) {k : Key}
    (hkey : f.key = some k) : ∃ e, s.store.find? k = some e := by
  obtain ⟨⟨g, hg, -, -, hheld⟩, -⟩ := h
  obtain ⟨m, hm, rfl⟩ := Option.map_eq_some_iff.mp hg
  have hslot : f.HeldIn (m.backend.slots.content f.handle.id) := hheld f hf
  rw [Flight.HeldIn, hkey] at hslot
  exact Option.isSome_iff_exists.mp ((hcovered i m hm).getD (congrArg Staged.key hslot))

/-- The completion of a read in the air is credited as the read was submitted. -/
theorem Holds.complete (h : s.Holds i chain capacity fs)
    (hchain : Chain.working chain = Chain.direct) (hcovered : s.Covered) (hf : f ∈ fs) (blank : P)
    (result : Completion) : s.Credited (s.step blank (.complete i f.handle result)) f result := by
  rw [h.step_complete hchain hf]
  cases hkey : f.key with
  | none => exact .of_untracked hkey
  | some k =>
    obtain ⟨e, he⟩ := h.find? hcovered hf hkey
    exact .of_tracked hkey he

/-- Let a backend join at any time, and let it mind its reads in the air.  Then each completion of
one of its reads returns what it has been told, and is credited as the read was submitted. -/
theorem reads_credited [QuietSink S] (blank : P) (settings : Settings) (clock : Clock) (catalog : C)
    (session₀ : Session) (sink : S) (earlier later : List (Act P)) (session : Session)
    (concurrency : Nat) (classes : Option ClassPages) (hchain : Chain.working chain = Chain.direct) :
    let before := (start settings clock catalog session₀ sink : Interplay P C S).run blank earlier
    let i := before.cluster.members.length
    let joined := before.step blank (.join session concurrency classes chain)
    joined.Minded blank i (max concurrency 1) [] later →
      ∀ acts handle result rest, later = acts ++ .complete i handle result :: rest →
        let now := joined.run blank acts
        (now.cluster.complete i handle result).1 = result ∧
          ∃ f, (∀ f', f' ∈ joined.aloft blank i [] acts ∧ f'.handle = handle ↔ f' = f) ∧
            now.Credited (now.step blank (.complete i handle result)) f result := by
  rintro before i joined hminded acts handle result rest rfl now
  obtain ⟨hacts, hminds, -⟩ := (minded_append ..).mp hminded
  have hholds : now.Holds i chain (max concurrency 1) (joined.aloft blank i [] acts) :=
    (Holds.join before blank session concurrency classes chain).run hchain hacts
  have hcovered : now.Covered := by
    obtain ⟨hbefore, -, -⟩ := (start_sound settings clock catalog session₀ sink).run blank earlier
    obtain ⟨hnow, -, -⟩ :=
      (hbefore.step blank (.join session concurrency classes chain)).run blank acts
    exact hnow.covered
  obtain ⟨f, hf, rfl⟩ := hminds rfl
  have hcredited := hholds.complete hchain hcovered hf blank result
  refine ⟨now.cluster.result_complete i f.handle result, f, fun f' => ?_, hcredited⟩
  constructor
  · rintro ⟨hf', hhandle⟩
    exact hholds.eq_of_handle hf' hf hhandle
  · rintro rfl
    exact ⟨hf, rfl⟩

/-! ## Two reads in the air at a time -/

/-- A request of the only backend for a fork of a relation. -/
def asks (k : Key) (temporary : Bool) (operation : Operation Unit) : Act Unit :=
  .call 0 ⟨⟨k.locator, temporary⟩, k.fork, operation⟩

/-- The fork of a temporary relation. -/
def shortLived : Key := ⟨⟨1663, 5, 200⟩, .main⟩

/-- A backend submits a read of a permanent relation, and one of a temporary relation that is not to
be counted.  Then temporary relations are to be counted, the bucket is closed, and the later read
comes back first. -/
def overlapping : List (Act Unit) :=
  [asks grown false (.create ⟨0, 0, 0⟩ false), asks grown false (.lengthen 0 4),
    .reload { tempTracking := .off }, asks shortLived true (.create ⟨0, 0, 0⟩ false),
    asks shortLived true (.lengthen 0 4), asks grown false (.submit ⟨0, 2⟩ 0),
    asks shortLived true (.submit ⟨1, 1⟩ 0), .reload { tempTracking := .individual }, .close,
    .complete 0 ⟨1, 1⟩ .ok]

/-- It has two slots, and a link of its chain only passes on. -/
def aired : Interplay Unit ListedCatalog History :=
  begun.step () (.join {} 2 none [.passing "audit", .counting, .device])

theorem aloft_overlapping :
    aired.Minded () 0 2 [] (overlapping ++ [.complete 0 ⟨0, 2⟩ .ok]) ∧
      aired.aloft () 0 [] overlapping =
        [⟨⟨0, 2⟩, ⟨grown.locator, false⟩, some grown, ⟨false, 0⟩⟩] := by
  have haired : aired.Stands 0 _ := .start_join () {} { now := 1 } ListedCatalog.empty {}
    (default : History) {} 2 none [.passing "audit", .counting, .device] rfl
  have hgrown : aired.Lifts () (overlapping.take 2) 0 _ _ :=
    ((Lifts.nil haired).call (by decide) (by decide)).call (by decide) (by decide)
  have htemporary : aired.Lifts () (overlapping.take 5) 0 _ _ :=
    ((hgrown.reload { tempTracking := .off }).call (by decide) (by decide)).call (by decide)
      (by decide)
  have hsubmitted : aired.Lifts () (overlapping.take 7) 0 _ _ :=
    (htemporary.call (by decide) (by decide)).call (by decide) (by decide)
  have hcompleted : aired.Lifts () overlapping 0 _ _ :=
    ((hsubmitted.reload { tempTracking := .individual }).close).complete .ok (by decide)
  exact ⟨(hcompleted.complete .ok (by decide)).minded, hcompleted.aloft⟩

/-- The completion that comes last is credited to the permanent relation, as a read of two blocks
that starts a run. -/
theorem reads_credited_overlapping :
    Chain.working [.passing "audit", .counting, .device] = Chain.direct ∧
      aired.Minded () 0 2 [] (overlapping ++ [.complete 0 ⟨0, 2⟩ .ok]) ∧
      let now := aired.run () overlapping
      ∃ e e', now.store.find? grown = some e ∧
        (now.step () (.complete 0 ⟨0, 2⟩ .ok)).store.find? grown = some e' ∧
        e.OneMoreRead e' 2 false := by
  have hchain : Chain.working [.passing "audit", .counting, .device] = Chain.direct := rfl
  obtain ⟨hminded, haloft⟩ := aloft_overlapping
  refine ⟨hchain, hminded, ?_⟩
  obtain ⟨-, f, hf, hcredited⟩ := reads_credited () {} { now := 1 } ListedCatalog.empty {}
    (default : History) [] _ {} 2 none hchain hminded overlapping ⟨0, 2⟩ .ok [] rfl
  have hflight : f = ⟨⟨0, 2⟩, ⟨grown.locator, false⟩, some grown, ⟨false, 0⟩⟩ := by
    have hmem : f ∈ aired.aloft () 0 [] overlapping := ((hf f).mpr rfl).1
    rw [haloft] at hmem
    exact List.mem_singleton.mp hmem
  subst hflight
  obtain ⟨e, e', he, he', -, hread⟩ := hcredited.counted grown rfl rfl
  exact ⟨e, e', he, he', hread⟩

end Interplay

end BlockLedger
