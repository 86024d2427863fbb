import BlockLedger.Proofs.Store.Closing

/-
# What a closing snapshot leaves behind

A closing snapshot clears an entry only if there was activity, and goes by the time of the first
activity alone.  Every charge is activity, as long as the clock does not read 0, so that of all that
has been charged nothing is left behind.  A run that is counted late is no activity, though.  If
nothing has been charged to its key since a snapshot came there, it stays in the entry, and so it
does at the next snapshot, and until there is a charge to the key again.
-/

namespace BlockLedger

/-- Of the marks of a list, nothing but the last ones, `since`, has been left since the start or
since a snapshot came to a key, and none of these is a charge to the key. -/
structure QuietSince (k : Key) (ds since : List Mark) : Prop where
  last : ∃ before, ds = before ++ since ∧
    (before = [] ∨ ∃ copy, before.getLast? = some (.taken k copy))
  quiet : ∀ p, .posted p ∈ since → p.key ≠ k

/-- Nothing has been charged to a key since the start or since a snapshot came to it. -/
def Quiet (k : Key) (ds : List Mark) : Prop := ∃ since, QuietSince k ds since

/-- A mark is left by a run of a key that is counted late. -/
def Mark.EndsLate (k : Key) (d : Direction) (x : Mark) : Prop :=
  ∃ r, x = .ended r ∧ r.key = k ∧ r.direction = d ∧ r.blocks ≠ 0

/-- A run of a key has been counted late and not been cleared since. -/
def LeftBehind (k : Key) (d : Direction) (ds : List Mark) : Prop :=
  ∃ since, QuietSince k ds since ∧ ∃ x ∈ since, x.EndsLate k d

theorem LeftBehind.quiet {k : Key} {d : Direction} {ds : List Mark} (h : LeftBehind k d ds) :
    Quiet k ds := by
  obtain ⟨since, hsince, -⟩ := h
  exact ⟨since, hsince⟩

/-! ## One mark after the other -/

section Concat

variable {k : Key} {ds since : List Mark} {x : Mark}

theorem quietSince_concat (h : QuietSince k ds since) (hx : ∀ p, x = .posted p → p.key ≠ k) :
    QuietSince k (ds ++ [x]) (since ++ [x]) := by
  obtain ⟨before, rfl, hbefore⟩ := h.last
  refine ⟨⟨before, by simp, hbefore⟩, fun p hp => ?_⟩
  rcases List.mem_append.mp hp with hp | hp
  · exact h.quiet p hp
  · exact hx p (List.mem_singleton.mp hp).symm

theorem quietSince_taken (copy : Option Entry) :
    QuietSince k (ds ++ [.taken k copy]) [] :=
  ⟨⟨_, (List.append_nil _).symm, .inr ⟨copy, by simp⟩⟩, by simp⟩

theorem QuietSince.of_concat (h : QuietSince k (ds ++ [x]) since) :
    (since = [] ∧ ∃ copy, x = .taken k copy) ∨
      ∃ since', since = since' ++ [x] ∧ QuietSince k ds since' ∧
        ∀ p, x = .posted p → p.key ≠ k := by
  obtain ⟨before, heq, hbefore⟩ := h.last
  rcases List.eq_nil_or_concat since with rfl | ⟨since', y, rfl⟩
  · left
    rw [List.append_nil] at heq
    subst heq
    simpa using hbefore
  · right
    rw [List.concat_eq_append, ← List.append_assoc] at heq
    obtain ⟨rfl, hy⟩ := List.append_inj' heq rfl
    obtain rfl : x = y := by simpa using hy
    refine ⟨since', by simp, ⟨⟨before, rfl, hbefore⟩, fun p hp => ?_⟩, fun p hp => ?_⟩
    · exact h.quiet p (by simp [hp])
    · exact h.quiet p (by simp [hp])

theorem quiet_concat :
    Quiet k (ds ++ [x]) ↔
      (∃ copy, x = .taken k copy) ∨ (Quiet k ds ∧ ∀ p, x = .posted p → p.key ≠ k) := by
  constructor
  · rintro ⟨since, h⟩
    rcases h.of_concat with ⟨-, hx⟩ | ⟨since', -, h', hx⟩
    · exact .inl hx
    · exact .inr ⟨⟨since', h'⟩, hx⟩
  · rintro (⟨copy, rfl⟩ | ⟨⟨since, h⟩, hx⟩)
    · exact ⟨[], quietSince_taken copy⟩
    · exact ⟨_, quietSince_concat h hx⟩

theorem leftBehind_concat {d : Direction} :
    LeftBehind k d (ds ++ [x]) ↔
      (LeftBehind k d ds ∧ ∀ p, x = .posted p → p.key ≠ k) ∨ (Quiet k ds ∧ x.EndsLate k d) := by
  constructor
  · rintro ⟨since, h, y, hy, hlate⟩
    rcases h.of_concat with ⟨rfl, -⟩ | ⟨since', rfl, h', hx⟩
    · cases hy
    · rcases List.mem_append.mp hy with hy | hy
      · exact .inl ⟨⟨since', h', y, hy, hlate⟩, hx⟩
      · obtain rfl := List.mem_singleton.mp hy
        exact .inr ⟨⟨since', h'⟩, hlate⟩
  · rintro (⟨⟨since, h, y, hy, hlate⟩, hx⟩ | ⟨⟨since, h⟩, hlate⟩)
    · exact ⟨_, quietSince_concat h hx, y, List.mem_append_left _ hy, hlate⟩
    · refine ⟨_, quietSince_concat h ?_, x, by simp, hlate⟩
      rintro p rfl
      obtain ⟨r, hr, -⟩ := hlate
      cases hr

end Concat

/-! ## Entries without activity -/

namespace Entry

/-- There is nothing in an entry, runs apart. -/
structure Clear (e : Entry) : Prop where
  traffic : ∀ d, e.traffic d = { last := (e.traffic d).last, runs := (e.traffic d).runs }
  extensions : e.extensions = 0
  extendedBlocks : e.extendedBlocks = 0
  truncations : e.truncations = 0
  syncs : e.syncs = 0
  activeSeconds : e.activeSeconds = 0
  firstAccess : e.firstAccess = 0
  lastAccess : e.lastAccess = 0

theorem clear_reset (e : Entry) : e.reset.Clear :=
  ⟨fun d => by rw [traffic_reset], rfl, rfl, rfl, rfl, rfl, rfl, rfl⟩

theorem identify_eq (e : Entry) (i : Identity) :
    e.identify i = { e with identity := (e.identify i).identity } := by
  unfold identify
  split <;> rfl

@[simp] theorem traffic_identify (e : Entry) (i : Identity) (d : Direction) :
    (e.identify i).traffic d = e.traffic d := by
  rw [identify_eq]
  cases d <;> rfl

@[simp] theorem active_identify (e : Entry) (i : Identity) :
    (e.identify i).active = e.active := by
  rw [identify_eq]
  rfl

theorem Clear.identify {e : Entry} (h : e.Clear) (i : Identity) : (e.identify i).Clear := by
  refine ⟨fun d => ?_, ?_, ?_, ?_, ?_, ?_, ?_, ?_⟩
  · rw [traffic_identify]
    exact h.traffic d
  all_goals rw [identify_eq]
  · exact h.extensions
  · exact h.extendedBlocks
  · exact h.truncations
  · exact h.syncs
  · exact h.activeSeconds
  · exact h.firstAccess
  · exact h.lastAccess

theorem Clear.endRun {e : Entry} (h : e.Clear) (d : Direction) (n : Nat) :
    (e.withTraffic d fun t => t.endRun n).Clear := by
  refine ⟨fun d' => ?_, ?_, ?_, ?_, ?_, ?_, ?_, ?_⟩
  · rw [traffic_withTraffic]
    split
    · subst d'
      rw [Traffic.endRun_eq, h.traffic d]
    · exact h.traffic d'
  all_goals cases d
  all_goals first
    | exact h.extensions | exact h.extendedBlocks | exact h.truncations | exact h.syncs
    | exact h.activeSeconds | exact h.firstAccess | exact h.lastAccess

theorem Clear.value {e : Entry} (h : e.Clear) (f : Field) : e.value f = 0 := by
  cases f with
  | extensions => exact h.extensions
  | extendedBlocks => exact h.extendedBlocks
  | truncations => exact h.truncations
  | syncs => exact h.syncs
  | bin d i =>
    rw [Entry.value, h.traffic d]
    exact Histogram.empty_bins i
  | _ d => rw [Entry.value, h.traffic d]

theorem active_touch (e : Entry) {now : Int} (h : now ≠ 0) : (e.touch now).active = true := by
  simp only [active, touch, bne_iff_ne]
  split <;> assumption

theorem runs_endRun (t : Traffic) (n : Nat) :
    (t.endRun n).runs.count = t.runs.count + if n = 0 then 0 else 1 := by
  unfold Traffic.endRun
  split <;> simp

end Entry

/-! ## What marks tell of an entry -/

/-- What the marks of a list tell of what is found under a key. -/
def Tells (k : Key) (ds : List Mark) : Option Entry → Prop
  | none => (∀ p, .posted p ∈ ds → p.key ≠ k) ∧ ∀ d, ∀ x ∈ ds, ¬x.EndsLate k d
  | some e => (e.active = false ↔ Quiet k ds) ∧
      (e.active = false → e.Clear ∧ ∀ d, (e.traffic d).runs.count ≠ 0 ↔ LeftBehind k d ds)

theorem tells_taken {k : Key} {ds : List Mark} (copy : Option Entry) {e : Entry}
    (ho : Tells k ds (some e)) : Tells k (ds ++ [.taken k copy]) (some e.closed) := by
  have hquiet : Quiet k (ds ++ [.taken k copy]) := quiet_concat.mpr (.inl ⟨copy, rfl⟩)
  have hleft : ∀ d, LeftBehind k d (ds ++ [.taken k copy]) ↔ LeftBehind k d ds := by
    intro d
    rw [leftBehind_concat]
    simp [Mark.EndsLate]
  refine ⟨⟨fun _ => hquiet, fun _ => e.closed_active⟩, fun _ => ?_⟩
  cases hactive : e.active with
  | true =>
    -- there has been a charge, so nothing that was counted late is left from before
    rw [Entry.closed_of_active hactive]
    refine ⟨e.clear_reset, fun d => ?_⟩
    have hnot : ¬LeftBehind k d ds := fun h => by
      have := ho.1.mpr h.quiet
      simp [hactive] at this
    rw [hleft]
    simpa using hnot
  | false =>
    rw [Entry.closed_of_inactive hactive]
    obtain ⟨hclear, hruns⟩ := ho.2 hactive
    exact ⟨hclear, fun d => (hruns d).trans (hleft d).symm⟩

/-- What is left in an entry when a bucket has been closed. -/
theorem Tells.close {s : Store} {k : Key} {ds : List Mark} (h : Tells k ds (s.find? k))
    {e : Entry} (he : s.close.2.2.find? k = some e) :
    e.Clear ∧ ∀ d, (e.traffic d).runs.count ≠ 0 ↔ LeftBehind k d ds := by
  rw [Store.find?_close] at he
  obtain ⟨e', he', rfl⟩ := Option.map_eq_some_iff.mp he
  rw [he'] at h
  obtain ⟨hclear, hruns⟩ := (tells_taken none h).2 e'.closed_active
  refine ⟨hclear, fun d => (hruns d).trans ?_⟩
  rw [leftBehind_concat]
  simp [Mark.EndsLate]

end BlockLedger
