import BlockLedger.Proofs.Cluster.Provenance
import BlockLedger.Proofs.Cluster.Remembering
import BlockLedger.Proofs.Cluster.Relocations
import BlockLedger.Proofs.Store.Filling

/-
# Copies agree with live entries

In a cycle the copies of the entries are given identities, and so are the live entries, each in a
way of its own: the copies by what has been found for their locator, the live entries by offers
that are handed on from fork to fork.  Still both come out the same.  What has been found in the
course of a cycle is at most one identity for every locator, and at the end each copy and each live
entry is as it was, with that filled in.  In which order the copies are met, and what the catalog
says to whom, only matters for what is found.
-/

namespace BlockLedger

namespace Collector

variable {C S : Type} [Catalog C]

/-! ## The live entries -/

/-- A store is what another one was, with all filled in that has been found. -/
structure Filled (session : Session) (first : Store) (found : Found) (now : Store) : Prop where
  known : ∀ k, now.known k = (first.known k).map fun j => j.fill found[k.locator]?
  valid : ∀ (l : Locator) (i : Identity), found[l]? = some i → i.valid = true
  own : ∀ (l : Locator) (i : Identity), found[l]? = some i → session.owns l.database = true

namespace Filled

variable {session : Session} {first now : Store} {found : Found} {k : Key} {i : Identity}

theorem empty (session : Session) (h : ∀ k, now.known k = first.known k) :
    Filled session first {} now where
  known k := by simp [h]
  valid l i h := by simp at h
  own l i h := by simp at h

/-- Of a key that nothing has been found for, nothing has been found out. -/
theorem known_of_unfound (h : Filled session first found now) (hk : found[k.locator]? = none) :
    now.known k = first.known k := by
  rw [h.known, hk]
  simp

/-- What is found next concerns no locator that something was found for before. -/
theorem insert (h : Filled session first found now) (hfound : found[k.locator]? = none)
    (hk : now.unresolved k = true) (hi : i.valid = true)
    (howns : session.owns k.locator.database = true) :
    Filled session first (found.insert k.locator i) (now.resolve k i).2 where
  known k' := by
    rw [now.known_resolve i k hk hi, Std.HashMap.getElem?_insert]
    by_cases hlocator : k'.locator = k.locator
    · have hfirst : now.known k' = first.known k' := h.known_of_unfound (by rw [hlocator, hfound])
      simp [hlocator, hfirst]
    · have hother : k.locator ≠ k'.locator := fun heq => hlocator heq.symm
      rw [if_neg hlocator, h.known k']
      simp [hother]
  valid l i' hl := by
    rw [Std.HashMap.getElem?_insert] at hl
    split at hl
    · obtain rfl := Option.some.inj hl
      exact hi
    · exact h.valid l i' hl
  own l i' hl := by
    rw [Std.HashMap.getElem?_insert] at hl
    split at hl
    · rename_i heq
      rw [← eq_of_beq heq]
      exact howns
    · exact h.own l i' hl

/-- For relations of other databases nothing is ever found. -/
theorem unfound_of_not_owns (h : Filled session first found now)
    (howns : session.owns k.locator.database = false) : found[k.locator]? = none := by
  cases hfound : found[k.locator]? with
  | none => rfl
  | some i =>
    rw [h.own _ i hfound] at howns
    cases howns

end Filled

/-! ## The copies -/

/-- A copy with what has been found filled in. -/
def filled (found : Found) (e : Entry) : Entry :=
  { e with identity := e.identity.fill found[e.key.locator]? }

/-- Whether a copy is given an identity. -/
def isFilled (found : Found) (e : Entry) : Bool :=
  !e.identity.valid && found[e.key.locator]?.isSome

/-- The copy of an entry that nothing has been found for is left as it is. -/
theorem filled_of_unfound {found : Found} {e : Entry} (h : found[e.key.locator]? = none) :
    filled found e = e := by
  simp [filled, h]

theorem filled_of_valid {found : Found} {e : Entry} (h : e.identity.valid = true) :
    filled found e = e := by
  simp [filled, Identity.fill_of_valid h]

theorem filled_of_found {found : Found} {e : Entry} {i : Identity} (he : e.identity.valid = false)
    (h : found[e.key.locator]? = some i) : filled found e = { e with identity := i } := by
  simp [filled, h, Identity.fill_of_unknown he]

/-- What has been found stays. -/
def Found.Extends (found more : Found) : Prop :=
  ∀ (l : Locator) (i : Identity), found[l]? = some i → more[l]? = some i

/-- Copies that have been passed over once: each is as it was, or what has been found in the end is
filled in. -/
def PassedOver (found : Found) (es : List Entry) (copies : List Entry) (n : Nat) : Prop :=
  (catchUp found copies).1 = es.map (filled found) ∧
    n + (catchUp found copies).2 = es.countP (isFilled found)

namespace PassedOver

variable {found : Found} {es copies : List Entry} {n : Nat} {e : Entry} {i : Identity}

theorem nil (found : Found) : PassedOver found [] [] 0 := ⟨rfl, rfl⟩

/-- A copy that has been left as it was may still be caught up. -/
theorem pass (h : PassedOver found es copies n) (e : Entry) :
    PassedOver found (e :: es) (e :: copies) n := by
  obtain ⟨hcopies, hcount⟩ := h
  simp only [PassedOver, catchUp, List.map_cons, List.countP_cons]
  cases he : e.identity.valid with
  | true =>
    have hfilled : isFilled found e = false := by simp [isFilled, he]
    simp only [if_true, hcopies, filled_of_valid he, hfilled]
    exact ⟨trivial, hcount⟩
  | false =>
    cases hfound : found[e.key.locator]? with
    | none =>
      have hfilled : isFilled found e = false := by simp [isFilled, hfound]
      simp only [Bool.false_eq_true, if_false, hcopies, filled_of_unfound hfound, hfilled]
      exact ⟨trivial, hcount⟩
    | some i =>
      have hfilled : isFilled found e = true := by simp [isFilled, he, hfound]
      simp only [Bool.false_eq_true, if_false, if_true, hcopies, filled_of_found he hfound, hfilled]
      exact ⟨trivial, by omega⟩

/-- A copy that has been given what was found is not touched again. -/
theorem give (h : PassedOver found es copies n) (he : e.identity.valid = false)
    (hfound : found[e.key.locator]? = some i) (hi : i.valid = true) :
    PassedOver found (e :: es) ({ e with identity := i } :: copies) (n + 1) := by
  obtain ⟨hcopies, hcount⟩ := h
  have hfilled : isFilled found e = true := by simp [isFilled, he, hfound]
  simp only [PassedOver, catchUp, List.map_cons, List.countP_cons, hi, if_true, hcopies, hfilled,
    filled_of_found he hfound]
  exact ⟨trivial, by omega⟩

end PassedOver

/-! ## Asking for one copy -/

variable {session : Session} {first : Store} {found : Found} {l : Ledger} {catalog : C} {k : Key}

/-- If nothing is known of a live entry either, the catalog is asked. -/
theorem identityFor_eq (session : Session) (hk : l.store.unresolved k = true) (catalog : C) :
    identityFor session k l catalog =
      match Catalog.find catalog session k with
      | (.found i, catalog) => (some i, { l with store := (l.store.resolve k i).2 }, catalog)
      | (.failed e, catalog) => (none, l.report (.collectorLookupFailed k e), catalog)
      | (_, catalog) => (none, l, catalog) := by
  have hlive : (l.store.find? k).filter (fun e => e.identity.valid) = none := by
    simp only [Store.unresolved] at hk
    cases hfind : l.store.find? k with
    | none => rfl
    | some e =>
      rw [hfind] at hk
      simpa [Option.filter] using hk
  rcases hfind : Catalog.find catalog session k with ⟨answer, catalog'⟩
  cases answer <;> simp only [identityFor, hlive, hfind]

/-- All that can come of it is that the catalog has something to say, and then the live entry is
resolved. -/
theorem identityFor_of_unresolved (honest : Catalog.Honest C) (session : Session)
    (hk : l.store.unresolved k = true) (catalog : C) :
    match identityFor session k l catalog with
    | (some i, l', _) => i.valid = true ∧ l'.store = (l.store.resolve k i).2
    | (none, l', _) => l'.store = l.store := by
  have hvalid : ∀ i, (Catalog.find catalog session k).1 = .found i → i.valid = true :=
    fun i => Catalog.valid_of_find honest
  rw [identityFor_eq session hk]
  rcases hfind : Catalog.find catalog session k with ⟨i | _ | _ | e, catalog'⟩
  · rw [hfind] at hvalid
    exact ⟨hvalid i rfl, rfl⟩
  · rfl
  · rfl
  · rfl

/-- The first copy that needs an identity has the one that the catalog knows. -/
theorem first_mem_identifyAll {session : Session} {e : Entry} {i : Identity}
    (he : e.identity.valid = false) (howns : session.owns e.key.locator.database = true)
    (hk : l.store.unresolved e.key = true)
    (hfind : (Catalog.find catalog session.enter e.key).1 = .found i) (hi : i.valid = true)
    (rest : List Entry) :
    { e with identity := i } ∈ (identifyAll session (e :: rest) l catalog).1.1 := by
  have howns' : session.enter.owns e.key.locator.database = true := howns
  rcases hfound : Catalog.find catalog session.enter e.key with ⟨finding, catalog'⟩
  obtain rfl : finding = .found i := by rw [← hfind, hfound]
  simp [identifyAll, identifyCopies, he, howns', identityFor_eq session.enter hk, hfound, catchUp, hi]

/-! ## All copies -/

/-- What passing over copies comes to: the store is filled, what was found stays, and the copies
are as far as they can be. -/
structure Passed (session : Session) (first : Store) (found : Found) (es : List Entry)
    (r : (List Entry × Nat × Found) × Ledger × C) : Prop where
  live : Filled session first r.1.2.2 r.2.1.store
  grows : found.Extends r.1.2.2
  copies : PassedOver r.1.2.2 es r.1.1 r.1.2.1

/-- The induction is on the copies.  A copy that nothing has been found for is one whose live entry
is still as it was, so that no other way to learn something is left than to ask the catalog. -/
theorem identifyCopies_passed (honest : Catalog.Honest C) {es : List Entry}
    (hes : ∀ e ∈ es, first.known e.key = some e.identity)
    (hlive : Filled session first found l.store) (catalog : C) :
    Passed session first found es (identifyCopies session es found l catalog) := by
  induction es generalizing found l catalog with
  | nil => exact ⟨hlive, fun _ _ h => h, .nil found⟩
  | cons e rest ih =>
    obtain ⟨he, hrest⟩ := List.forall_mem_cons.mp hes
    rw [identifyCopies]
    split
    · obtain ⟨hfilled, hgrows, hcopies⟩ := ih hrest hlive catalog
      exact ⟨hfilled, hgrows, hcopies.pass e⟩
    · rename_i hask
      obtain ⟨hunknown, howns⟩ : e.identity.valid = false ∧
          session.owns e.key.locator.database = true := by simpa using hask
      split
      · rename_i i hi
        obtain ⟨hfilled, hgrows, hcopies⟩ := ih hrest hlive catalog
        exact ⟨hfilled, hgrows, hcopies.give hunknown (hgrows _ i hi) (hlive.valid _ i hi)⟩
      · rename_i hnone
        have hunresolved : l.store.unresolved e.key = true := by
          rw [Store.unresolved_iff, hlive.known_of_unfound hnone]
          exact ⟨e.identity, he, hunknown⟩
        have hfor := identityFor_of_unresolved honest session hunresolved catalog
        rcases hi : identityFor session e.key l catalog with ⟨_ | i, l', catalog'⟩ <;> rw [hi] at hfor
        · obtain ⟨hfilled, hgrows, hcopies⟩ := ih hrest (l := l') (hfor ▸ hlive) catalog'
          exact ⟨hfilled, hgrows, hcopies.pass e⟩
        · obtain ⟨hvalid, hstore⟩ := hfor
          have hlive' : Filled session first (found.insert e.key.locator i) l'.store := by
            rw [hstore]
            exact hlive.insert hnone hunresolved hvalid howns
          obtain ⟨hfilled, hgrows, hcopies⟩ := ih hrest hlive' catalog'
          refine ⟨hfilled, fun loc j hj => hgrows loc j ?_, hcopies.give hunknown ?_ hvalid⟩
          · rw [Std.HashMap.getElem?_insert, if_neg, hj]
            intro heq
            rw [← eq_of_beq heq, hnone] at hj
            cases hj
          · exact hgrows _ i Std.HashMap.getElem?_insert_self

/-- A cycle finds at most one identity for every locator, and fills it in everywhere. -/
theorem identifyAll_filled (honest : Catalog.Honest C) (session : Session) {es : List Entry}
    (hes : ∀ e ∈ es, first.known e.key = some e.identity)
    (hl : ∀ k, l.store.known k = first.known k) (catalog : C) :
    ∃ found, Filled session first found (identifyAll session es l catalog).2.1.store ∧
      (identifyAll session es l catalog).1.1 = es.map (filled found) ∧
      (identifyAll session es l catalog).1.2 = es.countP (isFilled found) := by
  have hpassed := identifyCopies_passed honest hes (.empty session.enter hl) catalog
  obtain ⟨⟨hknown, hvalid, hown⟩, -, hcopies, hcount⟩ := hpassed
  exact ⟨_, ⟨hknown, hvalid, hown⟩, hcopies, hcount⟩

end Collector

/-- Copies are in the order of what they are copies of. -/
theorem Entry.CopyOf.keys {copies es : List Entry} (h : List.Forall₂ CopyOf copies es) :
    copies.map key = es.map key := by
  induction h with
  | nil => rfl
  | cons hcopy _ ih =>
    obtain ⟨identity, -, rfl⟩ := hcopy
    rw [List.map_cons, List.map_cons, ih]

/-! ## Records -/

/-- The copies in a record. -/
def SegmentRecord.copies : SegmentRecord → List Entry
  | .bucket r => r.entries
  | .associations _ => []

theorem SegmentRecord.copies_offered (r : SegmentRecord) :
    r.offered.flatMap SegmentRecord.copies = r.copies := by
  cases r with
  | bucket r =>
    by_cases hsize : (SegmentRecord.bucket r).size = 0
    · rw [offered, if_pos hsize]
      exact (List.length_eq_zero_iff.mp hsize).symm
    · rw [offered, if_neg hsize]
      exact List.append_nil _
  | associations r =>
    refine List.flatMap_eq_nil_iff.mpr fun x hx => ?_
    rw [eq_of_mem_offered hx]
    rfl

/-- A sink that never crashes. -/
def Sink.Lasting (S : Type) [Sink S] : Prop :=
  (∀ (sink : S) (r : SegmentRecord) (l : Ledger), (Sink.store sink r l).1 ≠ .crashed) ∧
    ∀ (sink : S) (hours : Nat) (now : Int) (l : Ledger), (Sink.trim sink hours now l).1 ≠ .crashed

/-- A sink that is watched is as lasting as the one behind it. -/
theorem Sink.Lasting.watched {S : Type} [Sink S] (h : Sink.Lasting S) :
    Sink.Lasting (WatchedSink S) :=
  ⟨fun w => h.1 w.sink, fun w => h.2 w.sink⟩

namespace Collector

variable {C S : Type} [Catalog C] [Sink S]

/-- What a cycle has filled in, in the store and in the copies that are handed over, if the one store
has become the other. -/
structure Agrees (session : Session) (before after : Store) (copies : List Entry) : Prop where
  /-- The copies are as good as the live entries. -/
  live : ∀ c ∈ copies, after.known c.key = some c.identity
  /-- Nothing happens to relations of other databases. -/
  others : ∀ k, session.owns k.locator.database = false → after.known k = before.known k
  /-- If a copy has been given an identity, no fork of its relation is without one. -/
  whole : ∀ c ∈ copies, before.unresolved c.key = true → c.identity.valid = true →
    ∀ c' ∈ copies, c'.key.locator = c.key.locator → c'.identity.valid = true

/-- Whether a copy has an identity that its entry has not had. -/
def gained (before : Store) (c : Entry) : Bool := before.unresolved c.key && c.identity.valid

section Agrees

variable {session : Session} {before after : Store} {found : Found} {es : List Entry}

theorem Filled.agrees (h : Filled session before found after)
    (hes : ∀ e ∈ es, before.known e.key = some e.identity) :
    Agrees session before after (es.map (filled found)) where
  live := by
    rintro _ hc
    obtain ⟨e, he, rfl⟩ := List.mem_map.mp hc
    rw [h.known]
    show (before.known e.key).map _ = _
    rw [hes e he]
    rfl
  others k hk := h.known_of_unfound (h.unfound_of_not_owns hk)
  whole := by
    rintro _ hc hunresolved hvalid _ hc' hlocator
    obtain ⟨e, he, rfl⟩ := List.mem_map.mp hc
    obtain ⟨e', -, rfl⟩ := List.mem_map.mp hc'
    obtain ⟨j, hj, hunknown⟩ := (Store.unresolved_iff ..).mp hunresolved
    obtain rfl : e.identity = j := Option.some.inj ((hes e he).symm.trans hj)
    -- the copy had no identity before, so one has been found for its locator
    have hfound : found[e.key.locator]?.isSome = true := by
      have hfilled := Identity.valid_fill (j := e.identity) (h.valid e.key.locator)
      rw [hunknown, Bool.false_or] at hfilled
      exact hfilled.symm.trans hvalid
    show (e'.identity.fill found[e'.key.locator]?).valid = true
    rw [Identity.valid_fill (h.valid _), show e'.key.locator = e.key.locator from hlocator, hfound,
      Bool.or_true]

theorem Filled.gained_filled (h : Filled session before found after) {e : Entry}
    (he : before.known e.key = some e.identity) :
    gained before (filled found e) = isFilled found e := by
  have hunresolved : before.unresolved e.key = !e.identity.valid := by
    cases hvalid : e.identity.valid with
    | false => exact (Store.unresolved_iff ..).mpr ⟨_, he, hvalid⟩
    | true =>
      cases hu : before.unresolved e.key with
      | false => rfl
      | true =>
        obtain ⟨j, hj, hunknown⟩ := (Store.unresolved_iff ..).mp hu
        obtain rfl := Option.some.inj (he.symm.trans hj)
        rw [hvalid] at hunknown
        cases hunknown
  show (before.unresolved e.key && (e.identity.fill found[e.key.locator]?).valid) = _
  rw [hunresolved, Identity.valid_fill (h.valid _), isFilled]
  cases e.identity.valid <;> rfl

end Agrees

variable {report : CycleReport}

/-- A report, if there is one, counts the copies that have been given an identity. -/
theorem deliver_resolved {bucket : Nat} {es : List Entry} {resolved : Nat}
    {associations : List Association} {l : Ledger} {sink : S}
    (h : (deliver bucket es resolved associations l sink).1 = some report) :
    report.resolved = resolved := by
  simp only [deliver] at h
  split at h
  · cases h
  · split at h
    · cases h
    · split at h
      · cases h
      · cases h
        rfl

theorem trim_lasting (lasting : Sink.Lasting S) (now : Int) (l : Ledger) (sink : S) :
    (trim now l sink).1 = true := by
  simp only [trim]
  split
  · rfl
  · split <;> rename_i heq
    · rfl
    · rfl
    · exact absurd (congrArg Prod.fst heq) (lasting.2 _ _ _ _)

theorem trim_of_retention_eq_zero (now : Int) {l : Ledger} (h : l.tunables.retention = 0)
    (sink : S) : (trim now l sink).1 = true := by
  rw [trim, if_pos h]

theorem persist_tunables [QuietSink S] {r : SegmentRecord} {l l' : Ledger} {sink sink' : S}
    {taken : Option Bool} (h : persist r l sink = (taken, l', sink')) : l'.tunables = l.tunables := by
  obtain ⟨journal, hquiet⟩ := persist_quiet r l sink
  rw [h] at hquiet
  rw [show l' = _ from hquiet]

/-- There is a report, unless the sink crashes. -/
theorem isSome_conclude [QuietSink S] [SteadySink S] (session : Session) (bucket : Nat)
    (es : List Entry) {l : Ledger} (catalog : C) (sink : S)
    (htrim : ∀ (now : Int) (l' : Ledger) (sink' : S), l'.tunables = l.tunables →
      (trim now l' sink').1 = true) :
    (conclude session bucket es l catalog sink).1.isSome = true := by
  have hidentify := (identifyAll_learns session es l catalog).moves.tunables
  unfold conclude
  rcases hall : identifyAll session es l catalog with ⟨⟨copies, resolved⟩, l₁, catalog₁⟩
  have hdrain := (drain_moves l₁).tunables
  rw [hall] at hidentify
  simp only [deliver]
  split <;> rename_i hbucket
  · exact absurd (congrArg Prod.fst hbucket) (persist_steady _ _ _)
  · split <;> rename_i hassociations
    · exact absurd (congrArg Prod.fst hassociations) (persist_steady _ _ _)
    · -- nobody has changed the tunables by the time that history is trimmed
      have htunables := (persist_tunables hassociations).trans
        ((persist_tunables hbucket).trans (hdrain.trans hidentify))
      split <;> rename_i hcrash
      · cases (congrArg Prod.fst hcrash).symm.trans (htrim _ _ _ htunables)
      · rfl

/-- The copies that are handed over have been given identities. -/
theorem conclude_copies (session : Session) (bucket : Nat) (es : List Entry) (l : Ledger)
    (catalog : C) (sink : S) :
    (conclude session bucket es l catalog (⟨sink, []⟩ : WatchedSink S)).2.2.2.records.flatMap
      SegmentRecord.copies = (identifyAll session es l catalog).1.1 := by
  simp only [conclude]
  rw [deliver_records, List.nil_append, List.flatMap_append, SegmentRecord.copies_offered]
  split
  · exact List.append_nil _
  · rw [SegmentRecord.copies_offered]
    exact List.append_nil _

/-- The rest of a cycle, if the copies that it is given are up to date. -/
theorem conclude_agrees [QuietSink S] (honest : Catalog.Honest C) (session : Session) (bucket : Nat)
    {before : Store} {es : List Entry} {l : Ledger}
    (hes : ∀ e ∈ es, before.known e.key = some e.identity)
    (hl : ∀ k, l.store.known k = before.known k) (catalog : C) (sink : S) :
    let done := conclude session bucket es l catalog (⟨sink, []⟩ : WatchedSink S)
    let copies := done.2.2.2.records.flatMap SegmentRecord.copies
    List.Forall₂ Entry.CopyOf copies es ∧
      Agrees session before done.2.1.store copies ∧
      ∀ report, done.1 = some report → report.resolved = copies.countP (gained before) := by
  intro done copies
  obtain ⟨found, hfilled, hcopies, hcount⟩ := identifyAll_filled honest session hes hl catalog
  have hhanded : copies = (identifyAll session es l catalog).1.1 :=
    conclude_copies session bucket es l catalog sink
  have hstore : done.2.1.store = (identifyAll session es l catalog).2.1.store := by
    simp only [done, conclude]
    rw [deliver_store, drain_store]
  rw [hhanded, hstore]
  refine ⟨identifyAll_copies session es l catalog, ?_, fun report hreport => ?_⟩
  · rw [hcopies]
    exact hfilled.agrees hes
  · simp only [done, conclude] at hreport
    rw [deliver_resolved hreport, hcount, hcopies, List.countP_map]
    refine List.countP_congr fun e he => ?_
    rw [Function.comp_apply, hfilled.gained_filled (hes e he)]

end Collector

/-! ## Whole cycles -/

/-- Closes the bucket, but comes to the keys in an order of its own. -/
def Store.closeAlong (s : Store) (order : List Key) : Nat × List Entry × Store :=
  (s.bucket, s.nextBucket.2.takeAll order)

/-- A closing snapshot in one go comes to them in the order of the store. -/
theorem Store.close_eq_along (s : Store) : s.close = s.closeAlong s.keys := rfl

/-- The copies that are taken along are up to date. -/
theorem Store.Keyed.known_of_mem_closeAlong {s : Store} (hs : s.Keyed) {order : List Key}
    {e : Entry} (he : e ∈ (s.closeAlong order).2.1) : s.known e.key = some e.identity := by
  obtain ⟨k, -, hk, -⟩ := (s.nextBucket.2.mem_takeAll order e).mp he
  replace hk : s.find? k = some e := hk
  rw [hs k e hk, known, hk]
  rfl

/-- A cycle in which the bucket is closed in an order of its own. -/
def Collector.cycleAlong {C S : Type} [Catalog C] [Sink S] (order : List Key) (session : Session)
    (l : Ledger) (catalog : C) (sink : S) : Option CycleReport × Ledger × C × S :=
  let closed := l.store.closeAlong order
  conclude session closed.1 closed.2.1 { l with store := closed.2.2 } catalog sink

/-- A cycle in one go is such a cycle. -/
theorem Collector.cycle_eq_along {C S : Type} [Catalog C] [Sink S] (session : Session) (l : Ledger)
    (catalog : C) (sink : S) :
    cycle session l catalog sink = cycleAlong l.store.keys session l catalog sink :=
  cycle_eq session l catalog sink

/-- The copies that are handed over in such a cycle. -/
theorem Collector.cycleAlong_copies {C S : Type} [Catalog C] [Sink S] (order : List Key)
    (session : Session) (l : Ledger) (catalog : C) (sink : S) :
    (cycleAlong order session l catalog (⟨sink, []⟩ : WatchedSink S)).2.2.2.records.flatMap
        SegmentRecord.copies =
      (identifyAll session (l.store.closeAlong order).2.1
        { l with store := (l.store.closeAlong order).2.2 } catalog).1.1 :=
  conclude_copies ..

theorem Collector.cycleAlong_agrees {C S : Type} [Catalog C] [Sink S] [QuietSink S] {l : Ledger}
    (hkeyed : l.store.Keyed) (order : List Key) (honest : Catalog.Honest C) (session : Session)
    (catalog : C) (sink : S) :
    let done := cycleAlong order session l catalog (⟨sink, []⟩ : WatchedSink S)
    let copies := done.2.2.2.records.flatMap SegmentRecord.copies
    List.Forall₂ Entry.CopyOf copies (l.store.closeAlong order).2.1 ∧
      Agrees session l.store done.2.1.store copies ∧
      (Sink.Lasting S → done.1.isSome = true) ∧
      ∀ report, done.1 = some report → report.resolved = copies.countP (gained l.store) := by
  simp only [cycleAlong]
  obtain ⟨hcopies, hagrees, hreport⟩ := conclude_agrees honest session (l.store.closeAlong order).1
    (l := { l with store := (l.store.closeAlong order).2.2 })
    (fun e he => hkeyed.known_of_mem_closeAlong he)
    (fun k => l.store.nextBucket.2.known_takeAll k order) catalog sink
  refine ⟨hcopies, hagrees, fun lasting => ?_, hreport⟩
  have : SteadySink S := ⟨lasting.1⟩
  exact isSome_conclude _ _ _ _ _ fun now l' sink' _ => trim_lasting lasting.watched now l' sink'

namespace Interplay

variable {P C S D T : Type} [Catalog C] [Sink S] [QuietSink S] [Catalog D] [Sink T] [QuietSink T]

/-- In a cycle that nobody comes in between, the copies that are handed over agree with the live
entries, whatever the order in which the cycle has come to the entries. -/
theorem copies_agree (blank : P) (settings : Settings) (clock : Clock) (catalog₀ : C)
    (session₀ : Session) (sink₀ : S) (turns : List (Turn P C)) (order : List Key)
    (honest : Catalog.Honest D) (session : Session) (catalog : D) (sink : T) :
    let before := ((start settings clock catalog₀ session₀ sink₀ : Interplay P C S).play blank
      turns).cluster.ledger
    let done := Collector.cycleAlong order session before catalog (⟨sink, []⟩ : WatchedSink T)
    let copies := done.2.2.2.records.flatMap SegmentRecord.copies
    List.Forall₂ Entry.CopyOf copies (before.store.closeAlong order).2.1 ∧
      Collector.Agrees session before.store done.2.1.store copies ∧
      (Sink.Lasting T → done.1.isSome = true) ∧
      ∀ report, done.1 = some report →
        report.resolved = copies.countP (Collector.gained before.store) := by
  obtain ⟨hsound, -⟩ := (start_sound settings clock catalog₀ session₀ sink₀).play blank turns
  exact Collector.cycleAlong_agrees hsound.keyed order honest session catalog sink

/-! ## Two forks of a relation that is listed by now -/

/-- Another fork of the relation. -/
def mapped : Key := ⟨grown.locator, .freeSpace⟩

/-- A backend creates both forks and lengthens them, and nothing is found out about them. -/
def forking : List (Act Unit) :=
  .join { database := 5 } 1 none Chain.direct ::
    [grown, mapped].flatMap fun k => [.call 0 (.creation k), .call 0 (.growth k 4)]

/-- The ledger when they have been lengthened. -/
def forked : Ledger := (silence.run () forking).cluster.ledger

/-- The entry of such a fork then. -/
def nameless (k : Key) : Entry := (Charge.extension 4).apply 1 (.new k)

theorem forked_spec :
    (∀ k, forked.store.find? k = if k ∈ [grown, mapped] then some (nameless k) else none) ∧
      forked.tunables.retention = 0 := by
  have hjoined : (silence.step () (.join { database := 5 } 1 none Chain.direct)).Alone _ :=
    Alone.start_join ..
  obtain ⟨⟨t, ht, hfirst⟩, -⟩ := hjoined.founded () (k := grown) (Site.fork?_fresh ..)
    (Site.find?_fresh ..) 4
  have hne : grown ≠ mapped := by decide
  have hfork : t.device.fork? mapped = none := by
    rw [hfirst.forks, if_neg hne]
    exact Site.fork?_fresh ..
  have hentry : t.ledger.store.find? mapped = none := by
    rw [hfirst.entries, if_neg hne]
    exact Site.find?_fresh ..
  obtain ⟨⟨u, hu, hsecond⟩, -⟩ := ht.founded () hfork hentry 4
  have hforked : forked = u.ledger := hu.ledger
  rw [hforked]
  refine ⟨fun k => ?_, by rw [hsecond.tunables, hfirst.tunables]; rfl⟩
  rw [hsecond.entries, hfirst.entries, hfirst.clock, Site.find?_fresh]
  by_cases hmapped : mapped = k
  · subst hmapped
    rfl
  · by_cases hgrown : grown = k
    · subst hgrown
      rfl
    · rw [if_neg hmapped, if_neg hgrown, if_neg]
      simp [Ne.symm hmapped, Ne.symm hgrown]

theorem keyed_forked : forked.store.Keyed :=
  ((start_sound {} { now := 1 } ListedCatalog.empty {} (default : History)).run () forking).1.keyed

/-- Both forks are met, the other way round. -/
theorem mem_keys_forked (k : Key) : k ∈ forked.store.keys.reverse ↔ k ∈ [grown, mapped] := by
  rw [List.mem_reverse, Store.mem_keys, forked_spec.1]
  split <;> simp [*]

/-- Copies of both of them are taken along. -/
theorem closed_forked :
    ((forked.store.closeAlong forked.store.keys.reverse).2.1.map Entry.key).Perm [grown, mapped] := by
  have hnodup : ((forked.store.closeAlong forked.store.keys.reverse).2.1.map Entry.key).Nodup :=
    (keyed_forked.takeAll_sublist (s := forked.store.nextBucket.2) _).nodup
      (List.nodup_reverse.mpr forked.store.keys_nodup)
  refine (List.perm_ext_iff_of_nodup hnodup (by decide)).mpr fun k => ?_
  rw [← mem_keys_forked, List.mem_map]
  constructor
  · rintro ⟨e, he, rfl⟩
    obtain ⟨k, hk, hfind, -⟩ := (forked.store.nextBucket.2.mem_takeAll _ e).mp he
    rwa [keyed_forked k e hfind]
  · intro hk
    refine ⟨nameless k, (forked.store.nextBucket.2.mem_takeAll _ _).mpr ⟨k, hk, ?_, rfl⟩, rfl⟩
    rw [Store.find?_nextBucket, forked_spec.1, if_pos ((mem_keys_forked k).mp hk)]

theorem unresolved_forked {k : Key} (hk : k ∈ [grown, mapped]) :
    forked.store.unresolved k = true := by
  have hnameless : ∀ k ∈ [grown, mapped], (nameless k).identity.valid = false := by decide
  rw [Store.unresolved, forked_spec.1, if_pos hk]
  exact congrArg (!·) (hnameless k hk)

/-- The catalog is asked for the fork that is met first, and knows its relation. -/
theorem first_named_forked :
    let closed := forked.store.closeAlong forked.store.keys.reverse
    ∃ c ∈ (Collector.identifyAll { database := 5 } closed.2.1 { forked with store := closed.2.2 }
      listing).1.1, c.identity.valid = true := by
  intro closed
  rcases hes : closed.2.1 with _ | ⟨e, rest⟩
  · have hlength := closed_forked.length_eq
    rw [List.length_map, show (forked.store.closeAlong forked.store.keys.reverse).2.1 = [] from hes]
      at hlength
    cases hlength
  · have hmem : e ∈ closed.2.1 := by
      rw [hes]
      exact List.mem_cons_self
    have hkey : e.key ∈ [grown, mapped] := closed_forked.mem_iff.mp (List.mem_map_of_mem hmem)
    have hlocators : ∀ k ∈ [grown, mapped],
        k.locator = grown.locator ∧ ({ database := 5 } : Session).owns k.locator.database = true := by
      decide
    have hkeyed : forked.store.Keyed := keyed_forked
    have hunresolved : closed.2.2.unresolved e.key = true := by
      rw [← unresolved_forked hkey]
      exact Store.unresolved_congr (forked.store.nextBucket.2.known_takeAll e.key _)
    have hvalid : e.identity.valid = false := by
      obtain ⟨k, -, hfind, -⟩ := (forked.store.nextBucket.2.mem_takeAll _ e).mp hmem
      have hneeds := unresolved_forked hkey
      rw [keyed_forked k e hfind, Store.unresolved, show forked.store.find? k = some e from hfind]
        at hneeds
      simpa using hneeds
    exact ⟨_, Collector.first_mem_identifyAll hvalid (hlocators _ hkey).2 hunresolved
      (find_listed (hlocators _ hkey).1) rfl rest, rfl⟩

/-- A cycle in the same database that comes to the entries the other way round finds the relation.
Both forks are handed over with their identity, and what is handed over agrees with the live
entries. -/
theorem copies_agree_forking :
    let done := Collector.cycleAlong forked.store.keys.reverse { database := 5 } forked listing
      (⟨default, []⟩ : WatchedSink History)
    let copies := done.2.2.2.records.flatMap SegmentRecord.copies
    Catalog.Honest ListedCatalog ∧
      (∀ k ∈ [grown, mapped], forked.store.unresolved k = true ∧
        ∃ c ∈ copies, c.key = k ∧ c.identity.valid = true) ∧
      Collector.Agrees { database := 5 } forked.store done.2.1.store copies ∧
      ∃ report, done.1 = some report ∧ report.resolved = 2 := by
  intro done copies
  have hforked : ((start {} { now := 1 } .empty {} default : Interplay Unit ListedCatalog
      History).play () (forking.map .act)).cluster.ledger = forked := by
    rw [play_act]
    rfl
  have hcycle := copies_agree () {} { now := 1 } ListedCatalog.empty {} (default : History)
    (forking.map .act) forked.store.keys.reverse Rounds.listed_honest { database := 5 } listing
    (default : History)
  rw [hforked] at hcycle
  obtain ⟨hcopies, hagrees, -, hresolved⟩ := hcycle
  have hkeys : (copies.map Entry.key).Perm [grown, mapped] := by
    rw [Entry.CopyOf.keys hcopies]
    exact closed_forked
  have hmem : ∀ c ∈ copies, c.key ∈ [grown, mapped] :=
    fun c hc => hkeys.mem_iff.mp (List.mem_map_of_mem hc)
  -- one copy has been given an identity, so that the other one has it too
  have hvalid : ∀ c ∈ copies, c.identity.valid = true := by
    obtain ⟨c, hc, hnamed⟩ := first_named_forked
    rw [← Collector.cycleAlong_copies _ _ _ _ (default : History)] at hc
    intro c' hc'
    have hlocators : ∀ k ∈ [grown, mapped], ∀ k' ∈ [grown, mapped], k'.locator = k.locator := by
      decide
    exact hagrees.whole c hc (unresolved_forked (hmem c hc)) hnamed c' hc'
      (hlocators _ (hmem c hc) _ (hmem c' hc'))
  have hreport : done.1.isSome = true :=
    Collector.isSome_conclude _ _ _ _ _ fun now l' sink' h =>
      Collector.trim_of_retention_eq_zero now ((congrArg Tunables.retention h).trans forked_spec.2)
        sink'
  obtain ⟨report, hdone⟩ := Option.isSome_iff_exists.mp hreport
  refine ⟨Rounds.listed_honest, fun k hk => ⟨unresolved_forked hk, ?_⟩, hagrees, report, hdone, ?_⟩
  · obtain ⟨c, hc, rfl⟩ := List.mem_map.mp (hkeys.mem_iff.mpr hk)
    exact ⟨c, hc, rfl, hvalid c hc⟩
  · have hlength : copies.length = 2 := by
      rw [← List.length_map, hkeys.length_eq]
      rfl
    refine (hresolved report hdone).trans (hlength ▸ List.countP_eq_length.mpr ?_)
    intro c hc
    rw [Collector.gained, unresolved_forked (hmem c hc), hvalid c hc]
    rfl

end Interplay

end BlockLedger
