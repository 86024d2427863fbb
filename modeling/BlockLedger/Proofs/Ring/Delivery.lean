import BlockLedger.Proofs.Ring.Invariant

/-
# What drains deliver

Drains return the accepted relocations in the order in which their positions were claimed, none of
them twice and none left out; so the relocations of each producer come in the order in which it
brought them.  A drain reads what the producer of the position wrote, because no producer writes to
a slot whose relocation is still to be read.

A drain may well come back without a relocation that has been accepted: it stops at the first slot
that is still being filled.  Once every producer has left its call, the next drain leaves nothing
behind.  To see this, let `n` be the number of claims at that moment.  All slots of earlier
positions are stamped, so that a drain that begins later stops at `n` or beyond; this is what `Past`
follows through the drain, whatever producers do meanwhile.
-/

namespace BlockLedger

namespace Ring

/-- The relocation of a producer that has not claimed a position for it yet. -/
def Stage.waiting : Stage → List Relocation
  | .loaded e _ | .admitted e _ => [e]
  | _ => []

namespace Shared

variable {ι : Type} {s t : Shared ι} {m : Move ι}

/-! ## The order of each producer -/

section Order

variable [DecidableEq ι]

/-- What one of the producers brought. -/
def broughtBy (i : ι) (l : List (ι × Relocation)) : List (ι × Relocation) :=
  l.filter fun c => c.1 = i

@[simp] theorem broughtBy_append (i : ι) (l l' : List (ι × Relocation)) :
    broughtBy i (l ++ l') = broughtBy i l ++ broughtBy i l' :=
  List.filter_append ..

theorem broughtBy_self (i : ι) (e : Relocation) : broughtBy i [(i, e)] = [(i, e)] := by
  simp [broughtBy]

theorem broughtBy_of_ne {i j : ι} (h : j ≠ i) (e : Relocation) : broughtBy j [(i, e)] = [] := by
  simp [broughtBy, h.symm]

/-- Each producer claims positions in the order of its calls. -/
def Ordered (s : Shared ι) : Prop :=
  ∀ i, (broughtBy i s.claims ++ (s.stage i).waiting.map (i, ·)).Sublist
    (broughtBy i s.calls)

theorem start_ordered : (start : Shared ι).Ordered := fun _ => by
  simp [start, Stage.waiting, broughtBy]

theorem Ordered.of_waiting (hs : s.Ordered) (claims : t.claims = s.claims)
    (calls : t.calls = s.calls)
    (waiting : ∀ i, (t.stage i).waiting.Sublist (s.stage i).waiting) :
    t.Ordered := by
  intro i
  rw [claims, calls]
  refine List.Sublist.trans ?_ (hs i)
  exact List.Sublist.append_left ((waiting i).map _) _

theorem waiting_setStage {i : ι} {stage : Stage}
    (h : stage.waiting.Sublist (s.stage i).waiting) (j : ι) :
    ((s.setStage i stage).stage j).waiting.Sublist (s.stage j).waiting := by
  by_cases hj : j = i
  · subst hj
    rw [setStage_self]
    exact h
  · simp [setStage_of_ne hj]

theorem Step.ordered (h : Step s m t) (hs : s.Ordered) : t.Ordered := by
  cases h with
  | call i e h =>
    intro j
    have hj := hs j
    by_cases hji : j = i
    · subst hji
      simp only [h, Stage.waiting, List.map_nil, List.append_nil] at hj
      simpa [setStage, Stage.waiting, broughtBy_self] using hj
    · simpa [setStage, hji, broughtBy_of_ne hji] using hj
  | claim i e h =>
    intro j
    have hj := hs j
    by_cases hji : j = i
    · subst hji
      simpa [setStage, Stage.waiting, broughtBy_self, h] using hj
    · simpa [setStage, hji, broughtBy_of_ne hji] using hj
  | pass i e head h | refuse i e head h | retry i spurious e head h | fill i e pos h
  | publish i e pos h | giveUp i e h =>
    exact hs.of_waiting rfl rfl (waiting_setStage (by simp [h, Stage.waiting]))
  | _ => exact hs.of_waiting rfl rfl fun _ => List.Sublist.refl _

theorem Ordered.run (hs : s.Ordered) {ms : List (Move ι)} (h : s.run ms = some t) : t.Ordered := by
  induction ms generalizing s with
  | nil =>
    cases h
    exact hs
  | cons m rest ih =>
    rw [run_cons, Option.bind_eq_some_iff] at h
    obtain ⟨u, hu, ht⟩ := h
    exact ih ((step_of_move hu).ordered hs) ht

/-- A prefix of the claims has the order of the calls, producer by producer. -/
theorem Ordered.broughtBy_sublist (hs : s.Ordered) {l : List (ι × Relocation)}
    (h : l <+: s.claims) (i : ι) : (broughtBy i l).Sublist (broughtBy i s.calls) := by
  have hl : (broughtBy i l).Sublist (broughtBy i s.claims) := h.sublist.filter _
  exact hl.trans ((List.sublist_append_left _ _).trans (hs i))

end Order

/-! ## Nothing is left behind -/

/-- Nobody is at work on a position before `n`. -/
def Settled (n : Nat) (s : Shared ι) : Prop :=
  ∀ i e pos, s.stage i = .claimed e pos ∨ s.stage i = .filled e pos → n ≤ pos.toNat

/-- A drain that began after the first `n` positions had been claimed passes all of them. -/
def SweepPast (n : Nat) (s : Shared ι) : Option Sweep → Prop
  | some (.scanning head _ _) | some (.found head _ _) => n ≤ head.toNat
  | some (.stopped pos _) => n ≤ pos.toNat
  | some (.stored _) => n ≤ s.gathered.length
  | _ => True

/-- From the `k`-th drain on, every drain passes the first `n` positions. -/
structure Past (n k : Nat) (s : Shared ι) : Prop where
  claimed : n ≤ s.claims.length
  settled : s.Settled n
  sweep : k ≤ s.results.length → s.SweepPast n s.sweep
  results : k < s.results.length → n ≤ s.results.flatten.length

theorem Past.stop {n k : Nat} (hp : s.Past n k) (hs : s.Sound) {head pos : UInt64}
    {taken : List Relocation} (h : s.sweep = some (.scanning head pos taken))
    (halt : pos < head → s.ring.published pos = false) (hk : k ≤ s.results.length) :
    n ≤ pos.toNat := by
  have hhead : n ≤ head.toNat := by
    have := hp.sweep hk
    rw [h] at this
    exact this
  have hw := hs.sweep
  rw [h] at hw
  obtain ⟨hpos, -, hle⟩ := hw
  by_contra hlt
  -- the position has been claimed before, and its producer has left it
  have hslot := hs.slot pos (Nat.le_of_eq hpos.symm) (by omega)
  rcases hslot with ⟨hst, -⟩ | ⟨i, e, hi⟩
  · have hunpublished := halt (UInt64.lt_iff_toNat_lt.mpr (by omega))
    simp [published, hst] at hunpublished
  · exact hlt (hp.settled i e pos hi)

/-- While nobody is in a call, every drain but the one under way passes all that is claimed. -/
theorem past_of_idle (hidle : ∀ i, s.stage i = .idle) :
    s.Past s.claims.length (s.results.length + s.sweep.toList.length) := by
  refine ⟨Nat.le_refl _, ?_, ?_, ?_⟩
  · intro i e pos hi
    rcases hi with hi | hi <;> rw [hidle i] at hi <;> cases hi
  · intro hk
    cases hw : s.sweep with
    | none => trivial
    | some w =>
      rw [hw, Option.toList_some, List.length_singleton] at hk
      omega
  · intro hk
    omega

theorem Sound.results_initial (hs : s.Sound) : s.results.flatten <+: s.claims.map Prod.snd :=
  (List.prefix_append _ _).trans hs.gathered_prefix

section Runs

variable [DecidableEq ι]

theorem Step.settled {n : Nat} (h : Step s m t) (hs : s.Sound) (hn : n ≤ s.claims.length)
    (hw : s.Settled n) : t.Settled n := by
  intro j f pos hj
  cases h with
  | claim i e h =>
    by_cases hji : j = i
    · subst hji
      have hpos : pos = s.ring.head := by
        simp only [setStage, Function.update_self] at hj
        rcases hj with hj | hj <;> cases hj
        rfl
      rw [hpos, hs.head_eq]
      exact hn
    · exact hw j f pos (by simpa [setStage, hji] using hj)
  | call i e h | pass i e head h | refuse i e head h | retry i spurious e head h
  | publish i e pos h | giveUp i e h =>
    by_cases hji : j = i
    · subst hji
      simp [setStage] at hj
    · exact hw j f _ (by simpa [setStage, hji] using hj)
  | fill i e q h =>
    by_cases hji : j = i
    · subst hji
      have hq : q = pos := by
        simp only [setStage, Function.update_self] at hj
        rcases hj with hj | hj <;> cases hj
        rfl
      exact hw j e pos (.inl (hq ▸ h))
    · exact hw j f pos (by simpa [setStage, hji] using hj)
  | _ => exact hw j f pos hj

theorem Step.past {n k : Nat} (h : Step s m t) (hs : s.Sound) (hp : s.Past n k) : t.Past n k := by
  have hclaims : n ≤ t.claims.length := Nat.le_trans hp.claimed h.claims_grow.length_le
  refine ⟨hclaims, h.settled hs hp.claimed hp.settled, ?_, ?_⟩
  · intro hk
    cases h with
    | readHead tail h => exact Nat.le_trans hp.claimed (Nat.le_of_eq hs.head_eq.symm)
    | find head pos taken h | take head pos taken h =>
      have := hp.sweep hk
      rw [h] at this
      exact this
    | stop head pos taken h halt => exact hp.stop hs h halt hk
    | storeTail pos taken h =>
      have hpast := hp.sweep hk
      have hw := hs.sweep
      rw [h] at hpast hw
      have hle : n ≤ s.gathered.length := Nat.le_trans hpast (Nat.le_of_eq hw)
      simpa [SweepPast, gathered, h, Sweep.taken] using hle
    | lock h | readTail h | release taken h => trivial
    | _ => exact hp.sweep hk
  · intro hk
    cases h with
    | release taken h =>
      have hpast := hp.sweep (by simpa [Nat.lt_succ_iff] using hk)
      rw [h] at hpast
      have hle : n ≤ s.gathered.length := hpast
      simpa [gathered, h, Sweep.taken] using hle
    | _ => exact hp.results hk

theorem Past.run {n k : Nat} (hp : s.Past n k) (hs : s.Sound) {ms : List (Move ι)}
    (h : s.run ms = some t) (hlt : t.claims.length < 2 ^ 64) : t.Past n k := by
  induction ms generalizing s with
  | nil =>
    cases h
    exact hp
  | cons m rest ih =>
    rw [run_cons, Option.bind_eq_some_iff] at h
    obtain ⟨u, hu, ht⟩ := h
    have hle := (claims_grow_of_run ht).length_le
    have hstep := step_of_move hu
    exact ih (hstep.past hs hp) (hstep.sound hs (by omega)) ht

/-! ## Delivery -/

/-- While nobody drains, a drain can be carried out in one go. -/
theorem Sound.drain_alone (hs : s.Sound) (hsweep : s.sweep = none) :
    ∃ ms, s.run ms = some { s with
      ring := s.ring.drain.2
      results := s.results ++ [s.ring.drain.1] } := by
  apply Shared.drain_alone hsweep
  have := hs.room
  rw [hs.head_eq]
  unfold capacity
  omega

/-- When nobody is in a call and nobody drains, a drain takes out all that is left. -/
theorem Sound.drain_rest (hs : s.Sound) (hidle : ∀ i, s.stage i = .idle) (hsweep : s.sweep = none) :
    s.results.flatten ++ s.ring.drain.1 = s.claims.map Prod.snd := by
  obtain ⟨ms, hms⟩ := hs.drain_alone hsweep
  have hpast : Past s.claims.length s.results.length s := by
    simpa [hsweep] using past_of_idle hidle
  have hlt := hs.claims_lt
  have hresults := (hpast.run hs hms hlt).results (by simp)
  have hprefix := (hs.run hms hlt).results_initial
  simp only [List.flatten_append, List.flatten_cons, List.flatten_nil, List.append_nil]
    at hresults hprefix
  exact hprefix.eq_of_length_le (by simpa using hresults)

/-- What drains read and return, whatever the producers do meanwhile. -/
theorem delivers {ms : List (Move ι)} (h : start.run ms = some s)
    (hlt : s.claims.length < 2 ^ 64) :
    -- whoever reads a slot finds there what the producer of the position has brought
    (∀ head pos taken, s.sweep = some (.found head pos taken) →
      ∃ i, s.claims[pos.toNat]? = some (i, s.ring.eventAt pos)) ∧
    -- whoever writes to a slot holds the only position in it that is still to be read
    (∀ i e pos, s.stage i = .claimed e pos → s.claims[pos.toNat]? = some (i, e) ∧
      ∀ q : UInt64, s.gathered.length ≤ q.toNat → q.toNat < s.claims.length →
        slotOf q = slotOf pos → q = pos) ∧
    -- what has been returned is what was claimed first, each producer's part in its own order
    (∃ l, l <+: s.claims ∧ s.results.flatten = l.map Prod.snd ∧
      ∀ i, (broughtBy i l).Sublist (broughtBy i s.calls)) ∧
    -- once nobody is in a call, the next drain leaves nothing behind
    ((∀ i, s.stage i = .idle) →
      (s.sweep = none →
        (∃ ns, s.run ns = some { s with
          ring := s.ring.drain.2
          results := s.results ++ [s.ring.drain.1] }) ∧
        s.results.flatten ++ s.ring.drain.1 = s.claims.map Prod.snd) ∧
      ∀ ns t, s.run ns = some t → t.claims.length < 2 ^ 64 →
        s.results.length + s.sweep.toList.length < t.results.length →
        s.claims.map Prod.snd <+: t.results.flatten) := by
  have hs : s.Sound := start_sound.run h hlt
  refine ⟨?_, ?_, ?_, ?_⟩
  · intro head pos taken hw
    have hsweep := hs.sweep
    rw [hw] at hsweep
    obtain ⟨hpos, hbelow, hle, hst⟩ := hsweep
    exact hs.eventAt_of_stamped (Nat.le_of_eq hpos.symm) (Nat.lt_of_lt_of_le hbelow hle) hst
  · intro i e pos hi
    have hold := hs.holds_of_stage (.inl hi)
    refine ⟨hold.claim, ?_⟩
    intro q hq hq' hslot
    exact hs.slot_inj hq hq' hold.unread hold.lt hslot
  · have hl : s.claims.take s.results.flatten.length <+: s.claims := List.take_prefix _ _
    refine ⟨_, hl, ?_, (start_ordered.run h).broughtBy_sublist hl⟩
    rw [List.map_take]
    exact List.prefix_iff_eq_take.mp hs.results_initial
  · intro hidle
    refine ⟨fun hsweep => ⟨hs.drain_alone hsweep, hs.drain_rest hidle hsweep⟩, ?_⟩
    intro ns t ht hlt' hk
    have hle := ((past_of_idle hidle).run hs ht hlt').results hk
    have hclaims : s.claims.map Prod.snd <+: t.claims.map Prod.snd :=
      (claims_grow_of_run ht).map _
    exact List.prefix_of_prefix_length_le hclaims (hs.run ht hlt').results_initial
      (by simpa using hle)

/-- A producer claims its position between two accesses of another one. -/
def crossing : List (Move Bool) :=
  [.call true default, .test true, .call false default, .test false, .swap false false,
    .swap true false, .test true, .swap true false, .fill true, .publish true, .fill false,
    .publish false]

/-- Both relocations of the crossing producers are there for the next drain. -/
theorem delivers_crossing :
    ∃ s, start.run crossing = some s ∧ s.claims.length < 2 ^ 64 ∧ (∀ i, s.stage i = .idle) ∧
      s.sweep = none ∧ s.results.flatten ++ s.ring.drain.1 = s.claims.map Prod.snd := by
  have hend : ∃ s, start.run crossing = some s ∧ s.claims.length = 2 ∧
      (∀ i, s.stage i = .idle) ∧ s.sweep = none := ⟨_, rfl, rfl, by decide, rfl⟩
  obtain ⟨s, hrun, hclaims, hidle, hsweep⟩ := hend
  have hlt : s.claims.length < 2 ^ 64 := by
    rw [hclaims]
    decide
  have hrest := (delivers hrun hlt).2.2.2 hidle
  exact ⟨s, hrun, hlt, hidle, hsweep, (hrest.1 hsweep).2⟩

end Runs

end Shared

end Ring

end BlockLedger
