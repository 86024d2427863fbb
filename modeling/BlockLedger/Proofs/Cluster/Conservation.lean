import BlockLedger.Catalog.Listed
import BlockLedger.Proofs.Cluster.Alone
import Mathlib.Data.List.Induction

/-
# Nothing is lost or counted twice

Add up, for one key and one field, what the copies of all closing snapshots hold and what the live
entry holds: the sum is what has been charged to the key since the start.  It does not matter how
the acts of the backends and the steps of the snapshots come between each other.  Nor does it
matter whether the clock reads 0, in which case an entry has counts but no activity: such an entry
is not copied, and not cleared either.

The snapshots close the buckets 1, 2, 3 and so on, and each of them holds at most one copy for each
key.  A snapshot that is cut into its steps lists a partition only when it has come to all entries
of the one before, and keys do not change their partition.
-/

namespace BlockLedger

/-- A closing snapshot under way has come to entries of the partitions that it has listed, and the
keys ahead are in the last one of these. -/
structure Walk.Sound (w : Walk) : Prop where
  copies_nodup : (w.copies.map Entry.key).Nodup
  copies_before : ∀ e ∈ w.copies, e.key.partition < w.next
  ahead_nodup : w.ahead.Nodup
  ahead_last : ∀ k ∈ w.ahead, k.partition + 1 = w.next ∧ k ∉ w.copies.map Entry.key

namespace Walk

theorem sound_new (bucket : Nat) : Sound { bucket } :=
  ⟨List.nodup_nil, by simp, List.nodup_nil, by simp⟩

theorem Sound.list {w : Walk} (hw : w.Sound) {ahead : List Key} (hnodup : ahead.Nodup)
    (hpartition : ∀ k ∈ ahead, k.partition = w.next) :
    Sound { w with next := w.next + 1, ahead } := by
  refine ⟨hw.copies_nodup, ?_, hnodup, ?_⟩
  · intro e he
    exact Nat.lt_succ_of_lt (hw.copies_before e he)
  · intro k hk
    refine ⟨congrArg (· + 1) (hpartition k hk), fun hmem => ?_⟩
    obtain ⟨e, he, rfl⟩ := List.mem_map.mp hmem
    have hlt := hw.copies_before e he
    have heq := hpartition _ hk
    omega

theorem Sound.visit {w : Walk} (hw : w.Sound) {key : Key} (hkey : key ∈ w.ahead)
    {copy : Option Entry} (hcopy : ∀ e, copy = some e → e.key = key) :
    Sound { w with ahead := w.ahead.erase key, copies := w.copies ++ copy.toList } := by
  obtain ⟨hlast, hnew⟩ := hw.ahead_last key hkey
  -- no key is ahead twice, so the snapshot does not come to the same entry again
  have hsub : ∀ k ∈ w.ahead.erase key, k ∈ w.ahead ∧ k ≠ key := by
    intro k hk
    rw [hw.ahead_nodup.mem_erase_iff] at hk
    exact hk.symm
  cases copy with
  | none =>
    refine ⟨by simpa using hw.copies_nodup, by simpa using hw.copies_before,
      hw.ahead_nodup.erase key, fun k hk => ?_⟩
    simpa using hw.ahead_last k (hsub k hk).1
  | some e =>
    have he := hcopy e rfl
    subst he
    refine ⟨?_, ?_, hw.ahead_nodup.erase _, fun k hk => ?_⟩
    · simp only [Option.toList_some, List.map_append, List.map_cons, List.map_nil]
      rw [List.nodup_append]
      refine ⟨hw.copies_nodup, by simp, fun k hk k' hk' heq => ?_⟩
      rw [List.mem_singleton] at hk'
      exact hnew (hk' ▸ heq ▸ hk)
    · intro e' he'
      rcases List.mem_append.mp he' with he' | he'
      · exact hw.copies_before e' he'
      · obtain rfl : e' = e := by simpa using he'
        dsimp only
        omega
    · have hk' := hw.ahead_last k (hsub k hk).1
      refine ⟨hk'.1, ?_⟩
      have hne := (hsub k hk).2
      simpa [hne] using hk'.2

end Walk

namespace Interplay

variable {P C S : Type}

/-- The copies of all closing snapshots so far, those of the one under way included. -/
def collected (s : Interplay P C S) : List Entry :=
  s.returned.flatMap Prod.snd ++ (s.walk.map Walk.copies).getD []

/-- The closing snapshots have the buckets from 1 on, and at most one copy for each key. -/
structure Numbered (s : Interplay P C S) : Prop where
  bucket : s.store.bucket = s.returned.length + s.walk.toList.length + 1
  walk : ∀ w, s.walk = some w → w.bucket = s.returned.length + 1 ∧ w.Sound
  returned : ∀ (n bucket : Nat) (es : List Entry), s.returned[n]? = some (bucket, es) →
    bucket = n + 1 ∧ (es.map Entry.key).Nodup

theorem Numbered.handBack {s : Interplay P C S} (hs : s.Numbered) {bucket : Nat} {es : List Entry}
    (hbucket : bucket = s.returned.length + 1) (hes : (es.map Entry.key).Nodup)
    {t : Interplay P C S} (hwalk : t.walk = none)
    (hreturned : t.returned = s.returned ++ [(bucket, es)])
    (hstore : t.store.bucket = s.returned.length + 2) : t.Numbered := by
  refine ⟨?_, ?_, ?_⟩
  · rw [hstore, hreturned, hwalk]
    simp
  · intro w hw
    rw [hwalk] at hw
    cases hw
  · intro n b es' hn
    rw [hreturned, List.getElem?_append] at hn
    split at hn
    · exact hs.returned n b es' hn
    · -- behind the earlier snapshots there is only this one
      obtain ⟨hlt, heq⟩ := List.getElem?_eq_some_iff.mp hn
      have hzero : n - s.returned.length = 0 := by simpa using hlt
      simp only [hzero, List.getElem_cons_zero, Prod.mk.injEq] at heq
      obtain ⟨rfl, rfl⟩ := heq
      exact ⟨by omega, hes⟩

variable {s : Interplay P C S}

/-- What holds of an interplay at any time. -/
structure Sound (s : Interplay P C S) : Prop where
  keyed : s.store.Keyed
  covered : s.Covered
  numbered : s.Numbered

theorem start_store (settings : Settings) (clock : Clock) (catalog : C) (session : Session)
    (sink : S) (k : Key) :
    (start settings clock catalog session sink : Interplay P C S).store.find? k = none :=
  Ledger.find?_start settings clock k

theorem start_sound (settings : Settings) (clock : Clock) (catalog : C) (session : Session)
    (sink : S) : (start settings clock catalog session sink : Interplay P C S).Sound where
  keyed k e he := by
    rw [start_store] at he
    cases he
  covered i m hm := by simp [start] at hm
  numbered := ⟨rfl, by simp [start], by simp [start]⟩

/-! ## Charges -/

/-- What the members are charged for an act: what is due for a call that comes back successful, and
for the completion of a read that went well. -/
def contributions (blank : P) (s : Interplay P C S) : Act P → List Posting
  | .call i q =>
    match s.cluster.members[i]?, (s.cluster.call blank i q).1 with
    | some m, .ok _ => Chain.dues blank m.chain q (s.cluster.siteOf m)
    | _, _ => []
  | .complete i handle .ok =>
    match s.cluster.members[i]? with
    | some m => (Chain.counters m.chain).flatMap fun _ =>
        ((s.cluster.siteOf m).credit? handle).toList
    | none => []
  | _ => []

/-- Whatever is not part of a closing snapshot takes nothing along and closes nothing. -/
theorem marks_frame (blank : P) {a : Act P} (ha : a.collects = false) :
    copies (s.marks blank a) = [] ∧ turns (s.marks blank a) = [] := by
  cases a with
  | close | cycle | openWalk | list | visit | endWalk => cases ha
  | call i q =>
    simp only [marks]
    cases s.cluster.members[i]? with
    | none => exact ⟨rfl, rfl⟩
    | some m => exact ⟨copies_posted _, turns_posted _⟩
  | complete i handle result =>
    simp only [marks]
    cases s.cluster.members[i]? with
    | none => exact ⟨rfl, rfl⟩
    | some m =>
      simp only [Chain.settlements, copies_flatMap, turns_flatMap, Site.settlement]
      cases result.isOk <;> simp
  | flush i | shutdown i =>
    simp only [marks]
    cases s.cluster.members[i]? with
    | none => exact ⟨rfl, rfl⟩
    | some m => exact ⟨copies_ended _, turns_ended _⟩
  | _ => exact ⟨rfl, rfl⟩

section Acts

variable [Catalog C] [Sink S]

/-- Closing snapshots are charged nothing. -/
theorem Collecting.postings {a : Act P} {ds : List Mark} {t : Interplay P C S}
    (h : s.Collecting a ds t) : postings ds = [] := by
  cases h with
  | close | cycle => exact s.store.postings_closing
  | _ => rfl

/-- Failed calls and reads are charged nothing, and neither is anything else. -/
theorem postings_marks (blank : P) (a : Act P) :
    postings (s.marks blank a) = s.contributions blank a := by
  cases a with
  | call i q =>
    simp only [marks, contributions, Cluster.call]
    cases s.cluster.members[i]? with
    | none => rfl
    | some m =>
      dsimp only
      rw [postings_posted]
      rcases hcall : Chain.call blank m.chain q (s.cluster.siteOf m) with ⟨e | pages, site⟩
      · exact Chain.dues_of_error hcall
      · rfl
  | complete i handle result =>
    cases result with
    | ok =>
      simp only [marks, contributions]
      cases s.cluster.members[i]? with
      | none => rfl
      | some m => simp [Chain.settlements, postings_flatMap, Site.settlement, Completion.isOk]
    | partly _ | failed =>
      simp only [marks, contributions]
      cases s.cluster.members[i]? with
      | none => rfl
      | some m => simp [Chain.settlements, postings_flatMap, Site.settlement, Completion.isOk]
  | flush i | shutdown i =>
    simp only [marks, contributions]
    split
    · exact postings_ended _
    · rfl
  | close | cycle | openWalk | list | visit | endWalk =>
    exact (s.collecting_of_step blank rfl).postings
  | _ => rfl

/-- Whatever is not part of a closing snapshot does not interfere with one. -/
theorem step_frame (blank : P) {a : Act P} (ha : a.collects = false) :
    (s.step blank a).walk = s.walk ∧ (s.step blank a).returned = s.returned := by
  cases a with
  | close | cycle | openWalk | list | visit | endWalk => cases ha
  | flush i =>
    simp only [step]
    cases s.cluster.members[i]? <;> exact ⟨rfl, rfl⟩
  | conclude =>
    simp only [step]
    cases s.returned.getLast? <;> exact ⟨rfl, rfl⟩
  | _ => exact ⟨rfl, rfl⟩

theorem Collecting.collected {a : Act P} {ds : List Mark} {t : Interplay P C S}
    (h : s.Collecting a ds t) : t.collected = s.collected ++ copies ds := by
  cases h with
  | idle => exact (List.append_nil _).symm
  | close hw | cycle hw =>
    simp [Interplay.collected, Interplay.handBack, withStore, withCluster, hw,
      Store.copies_closing]
  | openWalk hw => simp [Interplay.collected, withStore, withCluster, hw, Mark.copy?]
  | list w hw => simp [Interplay.collected, hw]
  | visit w key hw => simp [Interplay.collected, withStore, withCluster, hw, Mark.copy?]
  | endWalk w hw => simp [Interplay.collected, Interplay.handBack, hw]

/-- What a closing snapshot takes along is kept. -/
theorem collected_step (blank : P) (a : Act P) :
    (s.step blank a).collected = s.collected ++ copies (s.marks blank a) := by
  cases ha : a.collects with
  | false =>
    obtain ⟨hwalk, hreturned⟩ := s.step_frame blank ha
    rw [(s.marks_frame blank ha).1, List.append_nil, collected, collected, hwalk, hreturned]
  | true => exact (s.collecting_of_step blank ha).collected

theorem Collecting.numbered {a : Act P} {ds : List Mark} {t : Interplay P C S}
    (h : s.Collecting a ds t) (hs : s.Numbered) (hkeyed : s.store.Keyed)
    (hbucket : t.store.bucket = s.store.bucket + (turns ds).length) : t.Numbered := by
  have hold := hs.bucket
  cases h with
  | idle => exact hs
  | close hw | cycle hw =>
    rw [hw] at hold
    rw [Store.turns_closing, hold] at hbucket
    exact hs.handBack hold hkeyed.close_nodup rfl rfl hbucket
  | openWalk hw =>
    rw [hw] at hold
    refine ⟨congrArg (· + 1) hold, ?_, hs.returned⟩
    intro w' hw'
    obtain rfl := Option.some.inj hw'
    exact ⟨hold, Walk.sound_new _⟩
  | list w hw =>
    rw [hw] at hold
    obtain ⟨hwb, hws⟩ := hs.walk w hw
    refine ⟨hold, ?_, hs.returned⟩
    intro w' hw'
    obtain rfl := Option.some.inj hw'
    refine ⟨hwb, hws.list (s.store.keys_nodup.filter _) fun k hk => ?_⟩
    simpa using (List.mem_filter.mp hk).2
  | visit w key hw listed =>
    rw [hw] at hold
    obtain ⟨hwb, hws⟩ := hs.walk w hw
    refine ⟨(s.store.bucket_take key).trans hold, ?_, hs.returned⟩
    intro w' hw'
    obtain rfl := Option.some.inj hw'
    -- what is taken along bears the key that the snapshot has come to
    refine ⟨hwb, hws.visit listed fun e he => ?_⟩
    rw [Store.take_fst, Option.filter_eq_some_iff] at he
    exact hkeyed key e he.1
  | endWalk w hw =>
    rw [hw] at hold
    obtain ⟨hwb, hws⟩ := hs.walk w hw
    exact hs.handBack hwb hws.copies_nodup rfl rfl hold

theorem Numbered.step [QuietSink S] (hs : s.Numbered) (hcovered : s.Covered)
    (hkeyed : s.store.Keyed) (blank : P) (a : Act P) : (s.step blank a).Numbered := by
  have hbucket := (hcovered.step blank a).path.bucket
  cases ha : a.collects with
  | false =>
    obtain ⟨hwalk, hreturned⟩ := s.step_frame blank ha
    rw [(s.marks_frame blank ha).2] at hbucket
    refine ⟨?_, ?_, ?_⟩
    · rw [hbucket, hwalk, hreturned]
      exact hs.bucket
    · rw [hwalk, hreturned]
      exact hs.walk
    · rw [hreturned]
      exact hs.returned
  | true => exact (s.collecting_of_step blank ha).numbered hs hkeyed hbucket

/-! ## Runs -/

variable [QuietSink S]

theorem Sound.step (hs : s.Sound) (blank : P) (a : Act P) : (s.step blank a).Sound :=
  let hmoves := hs.covered.step blank a
  ⟨hmoves.path.keyed hs.keyed, hmoves.covered, hs.numbered.step hs.covered hs.keyed blank a⟩

/-- A run is a path of the store, and what it takes along is kept. -/
theorem Sound.run (hs : s.Sound) (blank : P) (acts : List (Act P)) :
    (s.run blank acts).Sound ∧ s.store.Path (s.trace blank acts) (s.run blank acts).store ∧
      (s.run blank acts).collected = s.collected ++ copies (s.trace blank acts) := by
  induction acts using List.reverseRecOn with
  | nil => exact ⟨hs, .refl, (List.append_nil _).symm⟩
  | append_singleton acts a ih =>
    obtain ⟨hsound, hpath, hcollected⟩ := ih
    rw [run_concat, trace_concat]
    refine ⟨hsound.step blank a, hpath.trans (hsound.covered.step blank a).path, ?_⟩
    rw [collected_step, hcollected, copies_append, List.append_assoc]

end Acts

/-- The fork that is lengthened below. -/
def grown : Key := ⟨⟨1663, 5, 100⟩, .main⟩

/-- An interplay in which the clock reads 1. -/
def begun : Interplay Unit ListedCatalog History := start {} { now := 1 } .empty {} default

end Interplay

end BlockLedger
