import BlockLedger.Proofs.Cluster.Flights

/-
# Every run is recorded once

Take the reads of one backend from one fork, in the order in which they are passed on, and likewise
its writes.  They fall into runs: maximal rows of accesses each of which starts where the one before
has ended.  Provided that backends are orderly, and that all of them have left in the end, every run
has been recorded once: under the key that its accesses are counted under, and either in a copy that
a closing snapshot has taken or in the live entry.

Until then a run that has ended may still be on its way into the entry, with a read in flight that
was submitted when it ended, and a run that has not ended is remembered by the detector of its
backend.  At any time the runs that are recorded, those that are on their way and those that are
open are all there are.
-/

namespace BlockLedger

namespace Act

variable {P : Type}

/-- The asynchronous reads in flight after an act, each with the number of its member. -/
def flightsAfter (ys : List (Nat × Handle)) : Act P → List (Nat × Handle)
  | .call i q =>
    match q.operation with
    | .submit handle _ => ys ++ [(i, handle)]
    | _ => ys
  | .complete i handle _ => ys.erase (i, handle)
  | _ => ys

/-- The asynchronous reads in flight after one act after the other. -/
def flights (acts : List (Act P)) : List (Nat × Handle) := acts.foldl flightsAfter []

/-- The members that have handed out their open runs in some act. -/
def leavers (acts : List (Act P)) : List Nat := acts.filterMap leaver?

theorem flights_concat (acts : List (Act P)) (a : Act P) :
    flights (acts ++ [a]) = flightsAfter (flights acts) a := by
  simp [flights]

theorem leavers_concat (acts : List (Act P)) (a : Act P) :
    leavers (acts ++ [a]) = leavers acts ++ a.leaver?.toList := by
  cases h : a.leaver? <;> simp [leavers, h]

end Act

namespace Tally

variable (n : Tally) (k : Key)

theorem marked_takings (s : Store) (ks : List Key) : n.marked k (s.takings ks) = 0 := by
  induction ks generalizing s with
  | nil => rfl
  | cons key rest ih =>
    rw [Store.takings, ← List.singleton_append, marked_append, marked_singleton, ih]
    simp [amount]

/-- Closing snapshots record nothing. -/
theorem marked_closing (s : Store) : n.marked k s.closing = 0 := by
  rw [Store.closing, ← List.singleton_append, marked_append, marked_takings]
  simp [marked_singleton, amount]

theorem marked_ended (d : Direction) (rs : List EndedRun) :
    (ofRuns d).marked k (rs.map .ended) =
      rs.countP fun r => r.key = k ∧ r.direction = d ∧ r.blocks ≠ 0 := by
  induction rs with
  | nil => rfl
  | cons r rest ih =>
    rw [List.map_cons, ← List.singleton_append, marked_append, marked_singleton, ih,
      List.countP_cons, Nat.add_comm]
    by_cases hk : r.key = k <;> simp [Mark.key?, amount, ofRuns, hk]

end Tally

namespace Interplay

variable {P C S : Type}

/-- Reads in flight are kept apart: one is submitted only to a slot that no other in flight has, and
only one in flight is completed. -/
def Apart (s : Interplay P C S) (ys : List (Nat × Handle)) : Act P → Prop
  | .call i q =>
    ∀ handle block, q.operation = .submit handle block →
      ∀ m other, s.cluster.members[i]? = some m → (i, other) ∈ ys →
        m.backend.slots.slotOf other.id ≠ m.backend.slots.slotOf handle.id
  | .complete i handle _ => (i, handle) ∈ ys
  | _ => True

section Acts

variable [Catalog C] [Sink S]

/-- How backends have to act so that their runs can be counted. -/
structure Orderly (blank : P) (s : Interplay P C S) (acts : List (Act P)) : Prop where
  /-- Every backend counts right above the device. -/
  direct : ∀ session concurrency classes chain,
    .join session concurrency classes chain ∈ acts → chain = Chain.direct
  /-- How temporary relations are tracked is not changed. -/
  tracking : ∀ settings, .reload settings ∈ acts →
    settings.tempTracking = s.cluster.ledger.tunables.tempTracking
  /-- No relation is taken for a temporary one at one time and not at another. -/
  kinds : ∀ i q j q', .call i q ∈ acts → .call j q' ∈ acts →
    q.relation.locator = q'.relation.locator → q.relation.temporary = q'.relation.temporary
  /-- No access is empty or goes beyond the last block number. -/
  fits : ∀ y ∈ s.log blank acts, y.2.Fits
  apart : ∀ before a after, acts = before ++ a :: after →
    (s.run blank before).Apart (Act.flights before) a
  /-- A backend that has handed out its open runs makes no further calls. -/
  last : ∀ before a after i q, acts = before ++ a :: after → a.leaver? = some i →
    .call i q ∉ after

/-- Nobody has joined yet, and nothing has been counted. -/
structure Fresh (s : Interplay P C S) : Prop where
  members : s.cluster.members = []
  store : ∀ k, s.store.find? k = none
  collected : s.collected = []

omit [Catalog C] [Sink S] in
theorem start_fresh (settings : Settings) (clock : Clock) (catalog : C) (session : Session)
    (sink : S) : (start settings clock catalog session sink : Interplay P C S).Fresh :=
  ⟨rfl, start_store settings clock catalog session sink, rfl⟩

variable {blank : P} {s : Interplay P C S} {acts : List (Act P)} {a : Act P}

theorem Orderly.of_concat (h : s.Orderly blank (acts ++ [a])) : s.Orderly blank acts where
  direct session concurrency classes chain hmem :=
    h.direct session concurrency classes chain (List.mem_append_left _ hmem)
  tracking settings hmem := h.tracking settings (List.mem_append_left _ hmem)
  kinds i q j q' hq hq' := h.kinds i q j q' (List.mem_append_left _ hq) (List.mem_append_left _ hq')
  fits y hy := by
    refine h.fits y ?_
    rw [log_concat]
    exact List.mem_append_left _ hy
  apart before b after heq := h.apart before b (after ++ [a]) (by rw [heq]; simp)
  last before b after i q heq hb hmem :=
    h.last before b (after ++ [a]) i q (by rw [heq]; simp) hb (List.mem_append_left _ hmem)

/-- A member that has left is not the one that calls. -/
theorem Orderly.not_mem_leavers (h : s.Orderly blank (acts ++ [a])) {i : Nat} {q : Request P}
    (ha : a = .call i q) : i ∉ Act.leavers acts := by
  intro hmem
  obtain ⟨b, hb, hleaver⟩ := List.mem_filterMap.mp hmem
  obtain ⟨before, after, rfl⟩ := List.append_of_mem hb
  refine h.last before b (after ++ [a]) i q (by simp) hleaver ?_
  rw [ha]
  simp

/-- All members count right above the device. -/
theorem Orderly.chain_eq (h : s.Orderly blank acts) (hs : s.Fresh) {i : Nat} {g : Gear}
    (hg : (s.run blank acts).gear? i = some g) : g.chain = Chain.direct := by
  induction acts using List.reverseRecOn generalizing i g with
  | nil => simp [run, gear?, hs.members] at hg
  | append_singleton acts a ih =>
    have hrest : ∀ {i : Nat} {g : Gear}, (s.run blank acts).gear? i = some g →
        g.chain = Chain.direct := ih h.of_concat
    rw [run_concat] at hg
    cases hequips : a.equips with
    | false =>
      rw [gear?_step blank _ hequips] at hg
      exact hrest hg
    | true =>
      cases a with
      | join session concurrency classes chain =>
        rw [gear?_join] at hg
        split at hg
        · obtain rfl := Option.some.inj hg
          exact h.direct session concurrency classes chain (by simp)
        · exact hrest hg
      | call j q =>
        rw [gear?_call] at hg
        split at hg
        · obtain ⟨m, hm, rfl⟩ := Option.map_eq_some_iff.mp hg
          have hgear : (s.run blank acts).gear? j = some m.gear := by
            rw [gear?, hm]
            rfl
          exact hrest (g := m.gear) hgear
        · exact hrest hg
      | flush j | shutdown j =>
        rw [gear?_leave blank _ (i := j) rfl] at hg
        split at hg
        · obtain ⟨g', hg', rfl⟩ := Option.map_eq_some_iff.mp hg
          exact hrest (g := g') hg'
        · exact hrest hg
      | _ => cases hequips

/-! ## Keys -/

variable [QuietSink S]

theorem Orderly.tempTracking (h : s.Orderly blank acts) (hs : s.Sound) :
    (s.run blank acts).cluster.ledger.tunables.tempTracking =
      s.cluster.ledger.tunables.tempTracking := by
  induction acts using List.reverseRecOn with
  | nil => rfl
  | append_singleton acts a ih =>
    obtain ⟨hsound, -, -⟩ := hs.run blank acts
    rw [run_concat, ← ih h.of_concat]
    refine hsound.covered.tempTracking blank fun settings ha => ?_
    rw [ih h.of_concat, ← h.tracking settings (by simp [ha])]

/-- All that is told of an access is told by the call that it belongs to. -/
theorem Orderly.fork_of_mem_log (h : s.Orderly blank acts) (hs : s.Sound) {i : Nat} {t : Touch}
    (ht : (i, t) ∈ s.log blank acts) :
    ∃ q, .call i q ∈ acts ∧ t.fork = q.key ∧
      s.cluster.ledger.trackingKey q.key q.relation.temporary = some t.key := by
  induction acts using List.reverseRecOn with
  | nil => cases ht
  | append_singleton acts a ih =>
    rw [log_concat] at ht
    rcases List.mem_append.mp ht with ht | ht
    · obtain ⟨q, hq, hfork, hkey⟩ := ih h.of_concat ht
      exact ⟨q, List.mem_append_left _ hq, hfork, hkey⟩
    · obtain ⟨q, rfl, hfork, hkey⟩ := fork_of_mem_touches ht
      refine ⟨q, by simp, hfork, ?_⟩
      rw [← hkey]
      unfold Ledger.trackingKey
      rw [h.of_concat.tempTracking hs]

theorem Orderly.steady (h : s.Orderly blank acts) (hs : s.Sound) : Steady (s.log blank acts) := by
  rintro ⟨i, t⟩ ht ⟨j, u⟩ hu hfork
  obtain ⟨q, hq, htq, htkey⟩ := h.fork_of_mem_log hs ht
  obtain ⟨q', hq', huq, hukey⟩ := h.fork_of_mem_log hs hu
  have hkey : q.key = q'.key := by
    rw [← htq, ← huq]
    exact hfork
  have hkind : q.relation.temporary = q'.relation.temporary :=
    h.kinds i q j q' hq hq' (congrArg Key.locator hkey)
  rw [hkey, hkind, hukey] at htkey
  exact (Option.some.inj htkey).symm

/-! ## What detectors remember -/

omit [QuietSink S] in
/-- A member that has not left remembers all its accesses. -/
theorem memory_of_not_mem_leavers {i : Nat} (hi : i ∉ Act.leavers acts) :
    s.memory blank i acts = own i (s.log blank acts) := by
  induction acts using List.reverseRecOn with
  | nil => rfl
  | append_singleton acts a ih =>
    rw [Act.leavers_concat, List.mem_append, not_or, Option.mem_toList] at hi
    rw [memory_concat, log_concat, own_append, recollect, if_neg hi.2, ih hi.1]

omit [QuietSink S] in
/-- A member that has left remembers nothing. -/
theorem Orderly.memory_of_mem_leavers (h : s.Orderly blank acts) {i : Nat}
    (hi : i ∈ Act.leavers acts) : s.memory blank i acts = [] := by
  induction acts using List.reverseRecOn with
  | nil => cases hi
  | append_singleton acts a ih =>
    rw [memory_concat, recollect]
    split
    · rfl
    · rename_i hne
      rw [Act.leavers_concat, List.mem_append, Option.mem_toList] at hi
      have hmem := hi.resolve_right hne
      rw [ih h.of_concat hmem, List.nil_append, List.eq_nil_iff_forall_not_mem]
      intro t ht
      obtain ⟨q, m, ha, -, -⟩ := mem_touches ((mem_own _ i t).mp ht)
      exact h.not_mem_leavers ha hmem

/-! ## Runs that are recorded and runs on their way -/

/-- How many runs of a key have been recorded. -/
def recorded (s : Interplay P C S) (k : Key) (d : Direction) : Nat :=
  (Tally.ofRuns d).copied k s.collected + (Tally.ofRuns d).found (s.store.find? k)

/-- Whether the completion of a read in flight records a run under a key. -/
def owes (s : Interplay P C S) (k : Key) (d : Direction) (y : Nat × Handle) : Bool :=
  ((s.gear? y.1).map fun g => (g.slots.content y.2.id).owes k d).getD false

/-- How many runs of a key are on their way. -/
def waiting (s : Interplay P C S) (ys : List (Nat × Handle)) (k : Key) (d : Direction) : Nat :=
  ys.countP (s.owes k d)

variable (k : Key) (d : Direction)

theorem Sound.recorded_step (hs : s.Sound) (a : Act P) :
    (s.step blank a).recorded k d =
      s.recorded k d + (Tally.ofRuns d).marked k (s.marks blank a) := by
  have htally := (hs.covered.step blank a).path.tally hs.keyed (.ofRuns d) k
  rw [recorded, recorded, s.collected_step, Tally.copied_append]
  omega

omit [Catalog C] [Sink S] [QuietSink S] in
theorem waiting_congr {t : Interplay P C S} {ys : List (Nat × Handle)}
    (h : ∀ y ∈ ys, t.owes k d y = s.owes k d y) : t.waiting ys k d = s.waiting ys k d :=
  List.countP_congr fun y hy => by rw [h y hy]

omit [QuietSink S] in
/-- What the members owe is told by their slots. -/
theorem owes_step (ha : a.equips = false) (y : Nat × Handle) :
    (s.step blank a).owes k d y = s.owes k d y := by
  rw [owes, gear?_step blank s ha, owes]

omit [QuietSink S] in
/-- Nobody who has just joined owes anything. -/
theorem owes_join (session : Session) (concurrency : Nat) (classes : Option ClassPages)
    (chain : List Link) (y : Nat × Handle) :
    (s.step blank (.join session concurrency classes chain)).owes k d y = s.owes k d y := by
  rw [owes, gear?_join, owes]
  split
  · rename_i hy
    have hnone : s.gear? y.1 = none := by
      rw [gear?, hy, List.getElem?_eq_none (Nat.le_refl _)]
      rfl
    simp [hnone, Slots.content_new, Staged.owes]
  · rfl

omit [QuietSink S] in
/-- Open runs that are handed out are not on their way. -/
theorem owes_leave {i : Nat} (ha : a.leaver? = some i) (y : Nat × Handle) :
    (s.step blank a).owes k d y = s.owes k d y := by
  rw [owes, gear?_leave blank s ha, owes]
  split
  · rename_i hi
    rw [hi, Option.map_map]
    rfl
  · rfl

omit [QuietSink S] in
/-- A call leaves all other reads in flight as they are. -/
theorem owes_call {i : Nat} {q : Request P} {ys : List (Nat × Handle)}
    (hdirect : ∀ m, s.cluster.members[i]? = some m → m.chain = Chain.direct)
    (hapart : s.Apart ys (.call i q)) {y : Nat × Handle} (hy : y ∈ ys) :
    (s.step blank (.call i q)).owes k d y = s.owes k d y := by
  rw [owes, gear?_call, owes]
  split
  · rename_i hi
    cases hm : s.cluster.members[i]? with
    | none =>
      rw [← hi, gear?_none hm]
      rfl
    | some m =>
      have hcontent : ((s.cluster.siteOf m).prepare q).backend.slots.content y.2.id =
          (s.cluster.siteOf m).backend.slots.content y.2.id :=
        (s.cluster.siteOf m).content_prepare fun handle block hq =>
          hapart handle block hq m y.2 hm (by rw [hi]; exact hy)
      have hslots := Chain.slots_direct blank q (s.cluster.siteOf m)
      rw [← hdirect m hm] at hslots
      rw [← hi, gear?, hm]
      simp only [Option.map_some, Option.getD_some, hslots, hcontent]
      rfl
  · rfl

/-! ## What one act does -/

omit [Catalog C] [Sink S] [QuietSink S] in
/-- What a call ends is recorded at once, if it does not submit an asynchronous read. -/
theorem marked_call {i : Nat} {q : Request P}
    (hdirect : ∀ m, s.cluster.members[i]? = some m → m.chain = Chain.direct)
    (hq : ∀ handle block, q.operation ≠ .submit handle block) :
    (Tally.ofRuns d).marked k (s.marks blank (.call i q)) =
      (s.touches blank (.call i q)).countP fun y => (s.runsOf i).ends k d y.2 := by
  simp only [marks, touches]
  cases hm : s.cluster.members[i]? with
  | none => rfl
  | some m =>
    have hruns : s.runsOf i = (s.cluster.siteOf m).backend.runs := runsOf_eq hm
    dsimp only
    rw [hruns, hdirect m hm, List.countP_map]
    exact Chain.marked_dues blank (s.cluster.siteOf m) hq k d

omit [QuietSink S] in
/-- What the submission of an asynchronous read ends is on its way with it. -/
theorem marked_submit (blank : P) {i : Nat} {q : Request P} {handle : Handle} {block : BlockNumber}
    (hdirect : ∀ m, s.cluster.members[i]? = some m → m.chain = Chain.direct)
    (hq : q.operation = .submit handle block) :
    (Tally.ofRuns d).marked k (s.marks blank (.call i q)) = 0 ∧
      ((s.touches blank (.call i q)).countP fun y => (s.runsOf i).ends k d y.2) =
        if (s.step blank (.call i q)).owes k d (i, handle) then 1 else 0 := by
  rw [owes, gear?_call, if_pos rfl]
  simp only [marks, touches]
  cases hm : s.cluster.members[i]? with
  | none => exact ⟨rfl, rfl⟩
  | some m =>
    have hruns : s.runsOf i = (s.cluster.siteOf m).backend.runs := runsOf_eq hm
    obtain ⟨hdues, htouches⟩ := Chain.dues_submit blank (s.cluster.siteOf m) hq
    have howes := (s.cluster.siteOf m).owes_prepare k d hq
    rw [← Chain.slots_direct blank q (s.cluster.siteOf m)] at howes
    simp only [Option.map_some, Option.getD_some, hruns, hdirect m hm, List.countP_map, hdues,
      htouches]
    exact ⟨rfl, howes⟩

/-- A call records the run that it ends, or sends it on its way. -/
theorem Sound.balance_call (hs : s.Sound) (blank : P) {i : Nat} {q : Request P}
    {ys : List (Nat × Handle)}
    (hdirect : ∀ m, s.cluster.members[i]? = some m → m.chain = Chain.direct)
    (hapart : s.Apart ys (.call i q)) :
    (s.step blank (.call i q)).recorded k d +
        (s.step blank (.call i q)).waiting (Act.flightsAfter ys (.call i q)) k d =
      s.recorded k d + s.waiting ys k d +
        (s.touches blank (.call i q)).countP fun y => (s.runsOf i).ends k d y.2 := by
  have hothers : (s.step blank (.call i q)).waiting ys k d = s.waiting ys k d :=
    waiting_congr k d fun y hy => owes_call k d hdirect hapart hy
  rw [hs.recorded_step]
  by_cases hq : ∃ handle block, q.operation = .submit handle block
  · obtain ⟨handle, block, hq⟩ := hq
    obtain ⟨hmarked, htouches⟩ := marked_submit k d blank hdirect hq
    have hflights : Act.flightsAfter ys (.call i q) = ys ++ [(i, handle)] := by
      simp only [Act.flightsAfter, hq]
    rw [hflights, waiting, List.countP_append, List.countP_singleton, ← htouches, hmarked]
    rw [waiting] at hothers
    omega
  · have hnot : ∀ handle block, q.operation ≠ .submit handle block :=
      fun handle block hc => hq ⟨handle, block, hc⟩
    have hflights : Act.flightsAfter ys (.call i q) = ys := by
      simp only [Act.flightsAfter]
    rw [hflights, hothers, marked_call k d hdirect hnot]
    omega

/-- The completion of a read records the run that was on its way with it. -/
theorem Sound.balance_complete (hs : s.Sound) (blank : P) {i : Nat} {handle : Handle}
    (result : Completion) {ys : List (Nat × Handle)}
    (hdirect : ∀ m, s.cluster.members[i]? = some m → m.chain = Chain.direct)
    (hflying : (i, handle) ∈ ys) :
    (s.step blank (.complete i handle result)).recorded k d +
        (s.step blank (.complete i handle result)).waiting (ys.erase (i, handle)) k d =
      s.recorded k d + s.waiting ys k d := by
  have hmarked : (Tally.ofRuns d).marked k (s.marks blank (.complete i handle result)) =
      if s.owes k d (i, handle) then 1 else 0 := by
    rcases Option.eq_none_or_eq_some s.cluster.members[i]? with hm | ⟨m, hm⟩
    · simp only [marks, owes, gear?, hm]
      rfl
    · have hsettlements : Chain.settlements Chain.direct handle result (s.cluster.siteOf m) =
          (s.cluster.siteOf m).settlement handle result :=
        List.append_nil _
      simp only [marks, owes, gear?, hm, hdirect m hm, hsettlements, Site.marked_settlement]
      rfl
  have hwaiting : s.waiting ys k d =
      s.waiting (ys.erase (i, handle)) k d + if s.owes k d (i, handle) then 1 else 0 := by
    rw [waiting, (List.perm_cons_erase hflying).countP_eq, List.countP_cons, waiting]
  have hothers : (s.step blank (.complete i handle result)).waiting (ys.erase (i, handle)) k d =
      s.waiting (ys.erase (i, handle)) k d :=
    waiting_congr k d fun y _ => owes_step k d rfl y
  rw [hs.recorded_step, hmarked, hothers, hwaiting]
  omega

/-- A member that leaves records its open runs. -/
theorem Sound.balance_leave (hs : s.Sound) (blank : P) {i : Nat} (ha : a.leaver? = some i)
    (ys : List (Nat × Handle))
    (hpresent : ∀ r ∈ (s.runsOf i).openRuns, (s.store.find? r.key).isSome) :
    (s.step blank a).recorded k d + (s.step blank a).waiting ys k d =
      s.recorded k d + s.waiting ys k d +
        (s.runsOf i).openRuns.countP fun r => r.key = k ∧ r.direction = d := by
  have hopen : ((s.runsOf i).openRuns.countP fun r =>
        r.key = k ∧ r.direction = d ∧ r.blocks ≠ 0) =
      (s.runsOf i).openRuns.countP fun r => r.key = k ∧ r.direction = d := by
    refine List.countP_congr fun r hr => ?_
    have hblocks : r.blocks ≠ 0 := by
      rw [Runs.openRuns_eq] at hr
      obtain ⟨x, hx, rfl⟩ := List.mem_map.mp hr
      have hrun := (Runs.mem_openSeries (s.runsOf i) x).mp hx
      rwa [ne_eq, ← UInt64.toNat_inj] at hrun
    simp [hblocks]
  have hothers : (s.step blank a).waiting ys k d = s.waiting ys k d :=
    waiting_congr k d fun y _ => owes_leave k d ha y
  rw [hs.recorded_step, hothers, marks_leave ha hpresent, Tally.marked_ended, hopen]
  omega

/-- All other acts record nothing. -/
theorem Sound.balance_other (hs : s.Sound) (hcall : ∀ i q, a ≠ .call i q)
    (hcomplete : ∀ i handle result, a ≠ .complete i handle result) (hleave : a.leaver? = none)
    (ys : List (Nat × Handle)) :
    (s.step blank a).recorded k d + (s.step blank a).waiting ys k d =
      s.recorded k d + s.waiting ys k d := by
  have hmarked : (Tally.ofRuns d).marked k (s.marks blank a) = 0 := by
    cases a with
    | call i q => exact absurd rfl (hcall i q)
    | complete i handle result => exact absurd rfl (hcomplete i handle result)
    | flush i | shutdown i => cases hleave
    | close | cycle =>
      simp only [marks]
      split
      · exact Tally.marked_closing _ k s.store
      · rfl
    | openWalk =>
      simp only [marks]
      split
      · simp [Tally.marked_singleton, Tally.amount]
      · rfl
    | visit key =>
      simp only [marks]
      split
      · split
        · simp [Tally.marked_singleton, Tally.amount]
        · rfl
      · rfl
    | _ => rfl
  have howes : ∀ y, (s.step blank a).owes k d y = s.owes k d y := by
    intro y
    cases a with
    | call i q => exact absurd rfl (hcall i q)
    | flush i | shutdown i => cases hleave
    | join session concurrency classes chain => exact owes_join k d session concurrency classes chain y
    | _ => exact owes_step k d rfl y
  rw [hs.recorded_step, hmarked, waiting_congr k d fun y _ => howes y]
  rfl

/-! ## A whole run -/

omit [Catalog C] [Sink S] [QuietSink S] in
theorem Fresh.runsOf (h : s.Fresh) (i : Nat) : s.runsOf i = {} := by
  rw [Interplay.runsOf, gear?, h.members]
  rfl

omit [QuietSink S] in
theorem Orderly.direct_of_member (h : s.Orderly blank acts) (hs : s.Fresh) (i : Nat) (m : Member)
    (hm : (s.run blank acts).cluster.members[i]? = some m) : m.chain = Chain.direct := by
  have hgear : (s.run blank acts).gear? i = some m.gear := by
    rw [gear?, hm]
    rfl
  exact h.chain_eq hs hgear

/-- The runs that are recorded, those that are on their way and those that are open are all there
are. -/
def Balanced (blank : P) (s : Interplay P C S) (acts : List (Act P)) (k : Key) (d : Direction) :
    Prop :=
  (s.run blank acts).recorded k d + (s.run blank acts).waiting (Act.flights acts) k d +
      openCount (s.log blank acts) (Act.leavers acts) k d =
    runCount (s.log blank acts) k d

theorem Orderly.balanced_call {i : Nat} {q : Request P}
    (h : s.Orderly blank (acts ++ [.call i q])) (hs : s.Sound) (hfresh : s.Fresh)
    (hbefore : s.Balanced blank acts k d) : s.Balanced blank (acts ++ [.call i q]) k d := by
  obtain ⟨hsound, -, -⟩ := hs.run blank acts
  have hi := h.not_mem_leavers rfl
  have hcall := hsound.balance_call k d blank
    (h.of_concat.direct_of_member hfresh i) (h.apart acts (.call i q) [] rfl)
  have hruns : (s.run blank acts).runsOf i = Runs.noteAll {} (own i (s.log blank acts)) := by
    rw [runsOf_run (hfresh.runsOf i), memory_of_not_mem_leavers hi]
  have hsteady := h.steady hs
  have hfits := h.of_concat.fits
  have hleavers : Act.leavers (acts ++ [.call i q]) = Act.leavers acts := by
    rw [Act.leavers_concat]
    exact List.append_nil _
  rw [log_concat] at hsteady
  unfold Balanced at hbefore ⊢
  rw [run_concat, log_concat, Act.flights_concat, hleavers, hcall]
  -- the detector is told about one access at most
  have htouches : (s.run blank acts).touches blank (.call i q) = [] ∨
      ∃ u, (s.run blank acts).touches blank (.call i q) = [(i, u)] := by
    simp only [touches]
    cases hm : (s.run blank acts).cluster.members[i]? with
    | none => exact .inl rfl
    | some m =>
      dsimp only
      rw [h.of_concat.direct_of_member hfresh i m hm]
      rcases Chain.touches_direct blank ((s.run blank acts).cluster.siteOf m) q with hu | ⟨u, hu⟩
      · exact .inl (by rw [hu]; rfl)
      · exact .inr ⟨u, by rw [hu]; rfl⟩
  rcases htouches with htouches | ⟨u, htouches⟩
  · rw [htouches, List.append_nil]
    exact hbefore
  · rw [htouches] at hsteady ⊢
    have hbalance := hsteady.balance k d hfits hi
    rw [List.countP_singleton, hruns]
    dsimp only at hbalance ⊢
    omega

theorem Orderly.balanced_leave {i : Nat} (ha : a.leaver? = some i)
    (h : s.Orderly blank (acts ++ [a])) (hs : s.Sound) (hfresh : s.Fresh)
    (hbefore : s.Balanced blank acts k d) : s.Balanced blank (acts ++ [a]) k d := by
  obtain ⟨hsound, -, -⟩ := hs.run blank acts
  have hrest := h.of_concat
  have hsteady := hrest.steady hs
  have hlog : s.log blank (acts ++ [a]) = s.log blank acts := by
    rw [log_concat]
    cases a <;> first | exact List.append_nil _ | cases ha
  have hflights : Act.flights (acts ++ [a]) = Act.flights acts := by
    rw [Act.flights_concat]
    cases a <;> first | rfl | cases ha
  unfold Balanced at hbefore ⊢
  rw [run_concat, hlog, hflights, Act.leavers_concat, ha, Option.toList_some, ← hbefore]
  by_cases hi : i ∈ Act.leavers acts
  · -- there is nothing left to hand out
    have hruns : ((s.run blank acts).runsOf i).openRuns = [] := by
      rw [runsOf_run (hfresh.runsOf i), hrest.memory_of_mem_leavers hi]
      simp [Runs.noteAll, Runs.openRuns_eq, Runs.openSeries_empty]
    have hleave := hsound.balance_leave k d blank ha (Act.flights acts)
      (by simp [hruns])
    rw [hruns, List.countP_nil] at hleave
    rw [hleave, openCount_of_mem _ hi]
    rfl
  · have hruns : (s.run blank acts).runsOf i = Runs.noteAll {} (own i (s.log blank acts)) := by
      rw [runsOf_run (hfresh.runsOf i), memory_of_not_mem_leavers hi]
    have hleave := hsound.balance_leave k d blank ha (Act.flights acts)
      fun r hr => hs.find?_of_mem_openRuns (hfresh.runsOf i) hr
    have hopen := hsteady.leave k d hrest.fits hi
    rw [hruns] at hleave
    omega

theorem Orderly.balanced (h : s.Orderly blank acts) (hs : s.Sound) (hfresh : s.Fresh) :
    s.Balanced blank acts k d := by
  induction acts using List.reverseRecOn with
  | nil =>
    have hrecorded : s.recorded k d = 0 := by
      rw [recorded, hfresh.collected, hfresh.store]
      rfl
    rw [Balanced, run, List.foldl_nil, hrecorded]
    rfl
  | append_singleton acts a ih =>
    have hbefore := ih h.of_concat
    obtain ⟨hsound, -, -⟩ := hs.run blank acts
    by_cases hcall : ∃ i q, a = .call i q
    · obtain ⟨i, q, rfl⟩ := hcall
      exact h.balanced_call k d hs hfresh hbefore
    cases hleaver : a.leaver? with
    | some i => exact h.balanced_leave k d hleaver hs hfresh hbefore
    | none =>
      have hlog : s.log blank (acts ++ [a]) = s.log blank acts := by
        rw [log_concat]
        cases a with
        | call i q => exact absurd ⟨i, q, rfl⟩ hcall
        | _ => exact List.append_nil _
      have hleavers : Act.leavers (acts ++ [a]) = Act.leavers acts := by
        rw [Act.leavers_concat, hleaver]
        exact List.append_nil _
      unfold Balanced at hbefore ⊢
      rw [run_concat, hlog, Act.flights_concat, hleavers, ← hbefore]
      by_cases hcomplete : ∃ i handle result, a = .complete i handle result
      · obtain ⟨i, handle, result, rfl⟩ := hcomplete
        have hcompleted := hsound.balance_complete k d blank result
          (h.of_concat.direct_of_member hfresh i) (h.apart acts (.complete i handle result) [] rfl)
        rw [Act.flightsAfter, hcompleted]
      · have hflights : Act.flightsAfter (Act.flights acts) a = Act.flights acts := by
          cases a with
          | call i q => exact absurd ⟨i, q, rfl⟩ hcall
          | complete i handle result => exact absurd ⟨i, handle, result, rfl⟩ hcomplete
          | _ => rfl
        rw [hflights, hsound.balance_other k d (fun i q hc => hcall ⟨i, q, hc⟩)
          (fun i handle result hc => hcomplete ⟨i, handle, result, hc⟩) hleaver]

/-- When all reads in flight have been completed and all backends have left, every run has been
recorded exactly once. -/
theorem runs_recorded_once (blank : P) (settings : Settings) (clock : Clock) (catalog : C)
    (session : Session) (sink : S) (acts : List (Act P))
    (horderly :
      (start settings clock catalog session sink : Interplay P C S).Orderly blank acts)
    (hcompleted : Act.flights acts = [])
    (hleft : ∀ i q, .call i q ∈ acts → .shutdown i ∈ acts) :
    let start : Interplay P C S := start settings clock catalog session sink
    let now := start.run blank acts
    ∀ k d,
      ((now.collected.filter fun e => e.key = k).map fun e => (e.traffic d).runs.count).sum +
          ((now.store.find? k).map fun e => (e.traffic d).runs.count).getD 0 =
        runCount (start.log blank acts) k d := by
  intro start now k d
  have hsound : start.Sound := start_sound settings clock catalog session sink
  have hfresh : start.Fresh := start_fresh settings clock catalog session sink
  have hbalanced := horderly.balanced k d hsound hfresh
  have hopen : openCount (start.log blank acts) (Act.leavers acts) k d = 0 := by
    rw [openCount, Finset.card_eq_zero, Finset.filter_eq_empty_iff]
    intro x hx
    obtain ⟨t, ht, -⟩ := (mem_series _ k d x).mp hx
    obtain ⟨q, hq, -⟩ := horderly.fork_of_mem_log hsound ht
    exact not_not.mpr (List.mem_filterMap.mpr ⟨_, hleft x.1 q hq, rfl⟩)
  rw [Balanced, hcompleted, hopen] at hbalanced
  exact hbalanced

end Acts

/-- A request for the fork that is read below. -/
def reading (operation : Operation Unit) : Act Unit :=
  .call 0 ⟨⟨grown.locator, false⟩, grown.fork, operation⟩

/-- A backend reads two blocks in a row, the second of them asynchronously and in vain, and then
starts over and leaves. -/
def rereading : List (Act Unit) :=
  [.join {} 1 none [.counting, .device], reading (.create ⟨0, 0, 0⟩ false),
    reading (.lengthen 0 2), reading (.read 0 1), reading (.submit ⟨0, 1⟩ 1),
    .complete 0 ⟨0, 1⟩ .failed, reading (.read 0 1), .shutdown 0]

theorem log_rereading :
    begun.log () rereading =
      [(0, ⟨grown, grown, .read, 0, 1⟩), (0, ⟨grown, grown, .read, 1, 1⟩),
        (0, ⟨grown, grown, .read, 0, 1⟩)] := by
  have hjoined : begun.Leads () [.join {} 1 none Chain.direct] 0 _ :=
    .start_join () {} { now := 1 } ListedCatalog.empty {} (default : History) {} 1 none _ rfl
  have hsubmitted : begun.Leads () (rereading.take 5) 0 _ :=
    (((hjoined.call (by decide)).call (by decide)).call (by decide)).call (by decide)
  have hreread : begun.Leads () (rereading.take 7) 0 _ :=
    (hsubmitted.complete ⟨0, 1⟩ .failed).call (by decide)
  have hlog : begun.log () rereading = begun.log () (rereading.take 7) ++ [] :=
    log_concat () begun (rereading.take 7) (.shutdown 0)
  rw [hlog, List.append_nil, hreread.log]
  rfl

/-- Where a list can be cut in front of one of its elements. -/
theorem forall_cuts_cons {α : Type} {acts : List α} {b : α}
    {p : List α → α → List α → Prop} :
    (∀ before a after, b :: acts = before ++ a :: after → p before a after) ↔
      p [] b acts ∧
        ∀ before a after, acts = before ++ a :: after → p (b :: before) a after := by
  constructor
  · intro h
    exact ⟨h [] b acts rfl, fun before a after heq => h (b :: before) a after (by rw [heq]; rfl)⟩
  · rintro ⟨hfirst, hrest⟩ before a after heq
    cases before with
    | nil =>
      obtain ⟨rfl, rfl⟩ := List.cons.inj heq
      exact hfirst
    | cons c before =>
      obtain ⟨rfl, htail⟩ := List.cons.inj heq
      exact hrest before a after htail

theorem call_of_mem_rereading {i : Nat} {q : Request Unit} (h : .call i q ∈ rereading) :
    i = 0 ∧ q.relation.temporary = false := by
  simp only [rereading, reading, List.mem_cons, Act.call.injEq, reduceCtorEq, List.not_mem_nil,
    or_false, false_or] at h
  rcases h with ⟨rfl, rfl⟩ | ⟨rfl, rfl⟩ | ⟨rfl, rfl⟩ | ⟨rfl, rfl⟩ | ⟨rfl, rfl⟩ <;> exact ⟨rfl, rfl⟩

theorem rereading_orderly : begun.Orderly () rereading where
  direct session concurrency classes chain h := by
    simp only [rereading, reading, List.mem_cons, Act.join.injEq, reduceCtorEq, List.not_mem_nil,
      or_false] at h
    exact h.2.2.2
  tracking settings h := by simp [rereading, reading] at h
  kinds i q j q' hq hq' _ := by
    rw [(call_of_mem_rereading hq).2, (call_of_mem_rereading hq').2]
  fits y hy := by
    rw [log_rereading] at hy
    simp only [List.mem_cons, List.not_mem_nil, or_false] at hy
    rcases hy with rfl | rfl | rfl <;> exact ⟨by decide, by decide⟩
  apart := by
    simp only [rereading, forall_cuts_cons]
    simp [Apart, Act.flights, Act.flightsAfter, reading]
  last := by
    have hcuts : ∀ before a after, rereading = before ++ a :: after →
        ∀ i, a.leaver? = some i → after = [] := by
      simp only [rereading, forall_cuts_cons]
      simp [Act.leaver?, reading]
    intro before a after i q h ha hmem
    rw [hcuts before a after h i ha] at hmem
    cases hmem

/-- The run over both blocks is recorded when the reads start over, and that of the last read when
the backend leaves. -/
theorem runs_recorded_once_rereading :
    let now := begun.run () rereading
    ((now.collected.filter fun e => e.key = grown).map fun e => (e.traffic .read).runs.count).sum +
      ((now.store.find? grown).map fun e => (e.traffic .read).runs.count).getD 0 = 2 := by
  intro now
  have hcount : runCount (begun.log () rereading) grown .read = 2 := by
    rw [log_rereading]
    decide
  have hcompleted : Act.flights rereading = [] := by
    simp [rereading, reading, Act.flights, Act.flightsAfter]
  have hleft : ∀ i q, .call i q ∈ rereading → .shutdown i ∈ rereading := by
    intro i q h
    rw [(call_of_mem_rereading h).1]
    simp [rereading]
  rw [← hcount]
  exact runs_recorded_once () {} { now := 1 } ListedCatalog.empty {} (default : History) rereading
    rereading_orderly hcompleted hleft grown .read

end Interplay

end BlockLedger
