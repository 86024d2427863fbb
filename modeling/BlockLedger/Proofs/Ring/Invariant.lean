import BlockLedger.Proofs.Ring.Sharing

/-
# What holds of a shared ring at any time

Positions are compared as whole numbers, which is what they are as long as fewer than `2 ^ 64` of
them have been claimed.  At any time, let `tail` be where the next drain starts, `n` the number of
relocations that drains have read, and `head` the number of positions that have been claimed.  Then
`tail ≤ n ≤ head ≤ tail + 1023`, what has been read is what was claimed first, and each of the
positions from `n` up to `head` either is published and its slot holds what its producer brought, or
its producer is still at work on it.  Since these positions are fewer than there are slots, no two
of them share one.
-/

namespace BlockLedger

namespace Ring

/-! ## Slots -/

theorem slotOf_eq_iff {p q : UInt64} :
    slotOf p = slotOf q ↔ p.toNat % capacity = q.toNat % capacity := by
  simp [slotOf]

/-- Positions less than a whole turn apart have slots of their own. -/
theorem slotOf_inj {p q : UInt64} (h : slotOf p = slotOf q) (hp : p.toNat < q.toNat + capacity)
    (hq : q.toNat < p.toNat + capacity) : p = q := by
  rw [slotOf_eq_iff] at h
  apply UInt64.toNat_inj.mp
  unfold capacity at *
  omega

theorem full_eq_true_iff {head tail : UInt64} :
    full head tail = true ↔
      (tail.toNat ≤ head.toNat → tail.toNat + 1023 ≤ head.toNat) ∧
        (head.toNat < tail.toNat → tail.toNat + 1023 ≤ head.toNat + 2 ^ 64) := by
  have hh := head.toNat_lt
  have ht := tail.toNat_lt
  simp only [full, room, decide_eq_true_eq, UInt64.le_iff_toNat_le, UInt64.toNat_sub]
  simp only [UInt64.reduceToNat]
  omega

section Access

variable (r : Ring) (p q : UInt64) (e : Relocation)

@[simp] theorem grow_tail : r.grow.tail = r.tail := rfl

@[simp] theorem stampAt_grow : r.grow.stampAt q = r.stampAt q := rfl

@[simp] theorem stampAt_fill : (r.fill p e).stampAt q = r.stampAt q := by
  by_cases h : slotOf p = slotOf q
  · simp [stampAt, get_eq_getElem, fill, h]
  · have hne : ((slotOf p : Fin capacity) : Nat) ≠ slotOf q := fun hc => h (Fin.ext hc)
    simp [stampAt, get_eq_getElem, fill, Vector.getElem_set_ne, hne]

theorem eventAt_fill_self : (r.fill p e).eventAt p = e := by
  simp [eventAt, get_eq_getElem, fill]

theorem eventAt_fill_of_ne (h : slotOf p ≠ slotOf q) : (r.fill p e).eventAt q = r.eventAt q := by
  have hne : ((slotOf p : Fin capacity) : Nat) ≠ slotOf q := fun hc => h (Fin.ext hc)
  simp [eventAt, get_eq_getElem, fill, Vector.getElem_set_ne, hne]

@[simp] theorem eventAt_publish : (r.publish p).eventAt q = r.eventAt q := by
  by_cases h : slotOf p = slotOf q
  · simp [eventAt, get_eq_getElem, publish, h]
  · have hne : ((slotOf p : Fin capacity) : Nat) ≠ slotOf q := fun hc => h (Fin.ext hc)
    simp [eventAt, get_eq_getElem, publish, Vector.getElem_set_ne, hne]

theorem stampAt_publish_self : (r.publish p).stampAt p = p + 1 := by
  simp [stampAt, get_eq_getElem, publish]

theorem stampAt_publish_of_ne (h : slotOf p ≠ slotOf q) :
    (r.publish p).stampAt q = r.stampAt q := by
  have hne : ((slotOf p : Fin capacity) : Nat) ≠ slotOf q := fun hc => h (Fin.ext hc)
  simp [stampAt, get_eq_getElem, publish, Vector.getElem_set_ne, hne]

end Access

/-! ## The invariant -/

namespace Shared

variable {ι : Type}

/-- A producer has claimed a position that is neither stamped nor read yet. -/
structure Holds (s : Shared ι) (i : ι) (e : Relocation) (pos : UInt64) : Prop where
  unread : s.gathered.length ≤ pos.toNat
  claim : s.claims[pos.toNat]? = some (i, e)
  unstamped : (s.ring.stampAt pos).toNat ≤ pos.toNat

/-- What holds of a producer at its stage. -/
def StageSound (s : Shared ι) (i : ι) : Stage → Prop
  | .idle | .refused _ => True
  | .loaded _ head => head.toNat ≤ s.claims.length
  | .admitted _ head =>
    head.toNat ≤ s.claims.length ∧ head.toNat < s.ring.tail.toNat + 1023
  | .claimed e pos => s.Holds i e pos
  | .filled e pos => s.Holds i e pos ∧ s.ring.eventAt pos = e

/-- What holds of the drain under way, or while there is none. -/
def SweepSound (s : Shared ι) : Option Sweep → Prop
  | none | some .locked | some (.stored _) => s.ring.tail.toNat = s.gathered.length
  | some (.tailRead tail) => tail.toNat = s.gathered.length ∧ tail = s.ring.tail
  | some (.scanning head pos _) =>
    pos.toNat = s.gathered.length ∧ pos.toNat ≤ head.toNat ∧ head.toNat ≤ s.claims.length
  | some (.found head pos _) =>
    pos.toNat = s.gathered.length ∧ pos.toNat < head.toNat ∧ head.toNat ≤ s.claims.length ∧
      s.ring.stampAt pos = pos + 1
  | some (.stopped pos _) => pos.toNat = s.gathered.length

/-- A position is at hand for a drain, or its producer is still at work on it. -/
def SlotSound (s : Shared ι) (pos : UInt64) : Prop :=
  (s.ring.stampAt pos = pos + 1 ∧ ∃ i, s.claims[pos.toNat]? = some (i, s.ring.eventAt pos)) ∨
    ∃ i e, s.stage i = .claimed e pos ∨ s.stage i = .filled e pos

/-- What holds at any time. -/
structure Sound (s : Shared ι) : Prop where
  head_eq : s.ring.head.toNat = s.claims.length
  room : s.claims.length ≤ s.ring.tail.toNat + 1023
  tail_le : s.ring.tail.toNat ≤ s.gathered.length
  gathered_prefix : s.gathered <+: s.claims.map Prod.snd
  stage : ∀ i, s.StageSound i (s.stage i)
  sweep : s.SweepSound s.sweep
  slot : ∀ pos : UInt64, s.gathered.length ≤ pos.toNat → pos.toNat < s.claims.length →
    s.SlotSound pos
  stamp : ∀ pos : UInt64, (s.ring.stampAt pos).toNat ≤ s.claims.length

namespace Sound

variable {s : Shared ι} (hs : s.Sound)
include hs

theorem gathered_le : s.gathered.length ≤ s.claims.length := by
  simpa using hs.gathered_prefix.length_le

theorem claims_lt : s.claims.length < 2 ^ 64 := by
  rw [← hs.head_eq]
  exact s.ring.head.toNat_lt

/-- Two positions that are claimed and not read have slots of their own. -/
theorem slot_inj {p q : UInt64} (hp : s.gathered.length ≤ p.toNat)
    (hp' : p.toNat < s.claims.length) (hq : s.gathered.length ≤ q.toNat)
    (hq' : q.toNat < s.claims.length) (h : slotOf p = slotOf q) : p = q := by
  have := hs.room
  have := hs.tail_le
  apply slotOf_inj h <;> unfold capacity <;> omega

theorem holds_of_stage {i : ι} {e : Relocation} {pos : UInt64}
    (h : s.stage i = .claimed e pos ∨ s.stage i = .filled e pos) : s.Holds i e pos := by
  have hi := hs.stage i
  rcases h with h | h <;> rw [h] at hi
  · exact hi
  · exact hi.1

/-- A position that a drain finds stamped holds what its producer brought. -/
theorem eventAt_of_stamped {pos : UInt64} (h : s.gathered.length ≤ pos.toNat)
    (h' : pos.toNat < s.claims.length) (hstamp : s.ring.stampAt pos = pos + 1) :
    ∃ i, s.claims[pos.toNat]? = some (i, s.ring.eventAt pos) := by
  rcases hs.slot pos h h' with ⟨-, hi⟩ | ⟨i, e, hi⟩
  · exact hi
  · have hold := (hs.holds_of_stage hi).unstamped
    have hlt := hs.claims_lt
    rw [hstamp, toNat_succ (by omega)] at hold
    omega

end Sound

theorem Holds.lt {s : Shared ι} {i : ι} {e : Relocation} {pos : UInt64} (h : s.Holds i e pos) :
    pos.toNat < s.claims.length :=
  (List.getElem?_eq_some_iff.mp h.claim).1

/-- A position has one producer. -/
theorem Holds.unique {s : Shared ι} {i j : ι} {e f : Relocation} {pos : UInt64}
    (h : s.Holds i e pos) (h' : s.Holds j f pos) : i = j ∧ e = f := by
  have := h.claim.symm.trans h'.claim
  simpa using this

/-- Nobody else is at work in the slot of a position that a producer holds. -/
theorem Sound.slot_ne {s : Shared ι} (hs : s.Sound) {i j : ι} {e f : Relocation} {p q : UInt64}
    (hp : s.Holds i e p) (hq : s.Holds j f q) (hj : j ≠ i) : slotOf p ≠ slotOf q := by
  intro hslot
  have hpq := hs.slot_inj hp.unread hp.lt hq.unread hq.lt hslot
  subst hpq
  exact hj (hp.unique hq).1.symm

theorem start_sound : (start : Shared ι).Sound where
  head_eq := rfl
  room := by simp [start]
  tail_le := by simp [start]
  gathered_prefix := by simp [start, gathered]
  stage _ := trivial
  sweep := rfl
  slot pos h h' := by simp [start] at h'
  stamp pos := by simp [start, stampAt, get_eq_getElem]

/-! ## What is kept when others move -/

section Frame

variable {s t : Shared ι}

theorem getElem?_of_prefix {α : Type} {l l' : List α} (h : l <+: l') {n : Nat} {x : α}
    (hx : l[n]? = some x) : l'[n]? = some x := by
  obtain ⟨rest, rfl⟩ := h
  rw [List.getElem?_append_left (List.getElem?_eq_some_iff.mp hx).1]
  exact hx

theorem stageSound_mono {i : ι} {stage : Stage} (h : s.StageSound i stage)
    (claims : s.claims <+: t.claims) (tail : s.ring.tail.toNat ≤ t.ring.tail.toNat)
    (atWork : ∀ e pos, stage = .claimed e pos ∨ stage = .filled e pos →
      t.gathered.length ≤ pos.toNat ∧ t.ring.stampAt pos = s.ring.stampAt pos ∧
        (stage = .filled e pos → t.ring.eventAt pos = s.ring.eventAt pos)) :
    t.StageSound i stage := by
  have hlen := claims.length_le
  have hold : ∀ e pos, stage = .claimed e pos ∨ stage = .filled e pos → s.Holds i e pos →
      t.Holds i e pos := by
    intro e pos hst h
    obtain ⟨hg, hstamp, -⟩ := atWork e pos hst
    refine ⟨hg, ?_, by rw [hstamp]; exact h.unstamped⟩
    exact getElem?_of_prefix claims h.claim
  cases stage with
  | idle => trivial
  | refused e => trivial
  | loaded e head => exact Nat.le_trans h hlen
  | admitted e head => exact ⟨Nat.le_trans h.1 hlen, by have := h.2; omega⟩
  | claimed e pos => exact hold e pos (.inl rfl) h
  | filled e pos =>
    refine ⟨hold e pos (.inr rfl) h.1, ?_⟩
    rw [(atWork e pos (.inr rfl)).2.2 rfl]
    exact h.2

theorem slotSound_mono {pos : UInt64} (h : s.SlotSound pos) (claims : s.claims <+: t.claims)
    (stamped : s.ring.stampAt pos = pos + 1 →
      t.ring.stampAt pos = pos + 1 ∧ t.ring.eventAt pos = s.ring.eventAt pos)
    (atWork : ∀ i e, s.stage i = .claimed e pos ∨ s.stage i = .filled e pos →
      t.stage i = .claimed e pos ∨ t.stage i = .filled e pos) : t.SlotSound pos := by
  rcases h with ⟨hst, i, hi⟩ | ⟨i, e, hi⟩
  · left
    obtain ⟨hst', hev⟩ := stamped hst
    refine ⟨hst', i, ?_⟩
    rw [hev]
    exact getElem?_of_prefix claims hi
  · right
    exact ⟨i, e, atWork i e hi⟩

theorem sweepSound_mono {w : Option Sweep} (h : s.SweepSound w) (claims : s.claims <+: t.claims)
    (tail : t.ring.tail = s.ring.tail) (gathered : t.gathered = s.gathered)
    (stamped : ∀ pos : UInt64, pos.toNat = s.gathered.length → pos.toNat < s.claims.length →
      s.ring.stampAt pos = pos + 1 → t.ring.stampAt pos = pos + 1) : t.SweepSound w := by
  have hlen := claims.length_le
  unfold SweepSound at *
  rw [gathered, tail]
  split at h
  · exact h
  · exact h
  · exact h
  · exact h
  · exact ⟨h.1, h.2.1, Nat.le_trans h.2.2 hlen⟩
  · obtain ⟨hpos, hlt, hle, hst⟩ := h
    exact ⟨hpos, hlt, Nat.le_trans hle hlen, stamped _ hpos (Nat.lt_of_lt_of_le hlt hle) hst⟩
  · exact h

end Frame

/-! ## Accesses of producers -/

section Producers

variable [DecidableEq ι] {s : Shared ι} {i : ι}

theorem setStage_self (stage : Stage) : (s.setStage i stage).stage i = stage := by
  simp [setStage]

theorem setStage_of_ne {j : ι} (h : j ≠ i) (stage : Stage) :
    (s.setStage i stage).stage j = s.stage j := by
  simp [setStage, h]

/-- Whoever is at work on a position stays so when a producer moves that is not. -/
theorem atWork_setStage {stage : Stage} {pos : UInt64}
    (old : ∀ e, ¬(s.stage i = .claimed e pos ∨ s.stage i = .filled e pos)) {j : ι}
    {f : Relocation} (h : s.stage j = .claimed f pos ∨ s.stage j = .filled f pos) :
    (s.setStage i stage).stage j = .claimed f pos ∨
      (s.setStage i stage).stage j = .filled f pos := by
  have hne : j ≠ i := by
    rintro rfl
    exact old f h
  rw [setStage_of_ne hne]
  exact h

/-- A producer that is not at work on a position goes on without claiming one. -/
theorem Sound.setStage (hs : s.Sound) {stage : Stage}
    (old : ∀ e pos, ¬(s.stage i = .claimed e pos ∨ s.stage i = .filled e pos))
    (new : ∀ e pos, ¬(stage = .claimed e pos ∨ stage = .filled e pos))
    (h : s.StageSound i stage) : (s.setStage i stage).Sound where
  head_eq := hs.head_eq
  room := hs.room
  tail_le := hs.tail_le
  gathered_prefix := hs.gathered_prefix
  stage j := by
    by_cases hj : j = i
    · subst hj
      rw [setStage_self]
      refine stageSound_mono h (List.prefix_refl _) (Nat.le_refl _) ?_
      intro e pos hst
      exact absurd hst (new e pos)
    · rw [setStage_of_ne hj]
      refine stageSound_mono (hs.stage j) (List.prefix_refl _) (Nat.le_refl _) ?_
      intro e pos hst
      exact ⟨(hs.holds_of_stage hst).unread, rfl, fun _ => rfl⟩
  sweep := hs.sweep
  slot pos hpos hpos' := by
    refine slotSound_mono (hs.slot pos hpos hpos') (List.prefix_refl _) (fun h => ⟨h, rfl⟩) ?_
    intro j e hj
    exact atWork_setStage (fun e => old e pos) hj
  stamp := hs.stamp

/-- Who is at work on which position is all that a claim adds. -/
theorem Sound.claim (hs : s.Sound) {e : Relocation} (h : s.stage i = .admitted e s.ring.head)
    (hlt : s.claims.length + 1 < 2 ^ 64) :
    Sound { s.setStage i (.claimed e s.ring.head) with
      ring := s.ring.grow, claims := s.claims ++ [(i, e)] } := by
  have hi := hs.stage i
  rw [h] at hi
  have hhead := hs.head_eq
  have hclaims : s.claims <+: s.claims ++ [(i, e)] := List.prefix_append _ _
  have hnew : Holds { s.setStage i (.claimed e s.ring.head) with
      ring := s.ring.grow, claims := s.claims ++ [(i, e)] } i e s.ring.head := by
    refine ⟨?_, ?_, ?_⟩
    · rw [hhead]
      exact hs.gathered_le
    · rw [hhead]
      simp
    · rw [hhead]
      exact hs.stamp _
  refine ⟨?_, ?_, hs.tail_le, ?_, ?_, ?_, ?_, ?_⟩
  · simp only [grow, UInt64.toNat_add, UInt64.reduceToNat, List.length_append, List.length_cons,
      List.length_nil]
    omega
  · have := hi.2
    simp only [grow_tail, List.length_append, List.length_cons, List.length_nil]
    omega
  · rw [List.map_append]
    exact hs.gathered_prefix.trans (List.prefix_append _ _)
  · intro j
    by_cases hj : j = i
    · subst hj
      rw [setStage_self]
      exact hnew
    · rw [setStage_of_ne hj]
      refine stageSound_mono (hs.stage j) hclaims (Nat.le_refl _) ?_
      intro f pos hst
      exact ⟨(hs.holds_of_stage hst).unread, rfl, fun _ => rfl⟩
  · exact sweepSound_mono hs.sweep hclaims rfl rfl fun _ _ _ h => h
  · intro pos hpos hpos'
    by_cases hold : pos.toNat < s.claims.length
    · refine slotSound_mono (hs.slot pos hpos hold) hclaims (fun h => ⟨h, rfl⟩) ?_
      intro j f hj
      exact atWork_setStage (by simp [h]) hj
    · -- the new position is the only one that is not an old one
      have heq : pos = s.ring.head := by
        apply UInt64.toNat_inj.mp
        simp only [List.length_append, List.length_cons, List.length_nil] at hpos'
        omega
      subst heq
      exact .inr ⟨i, e, .inl (setStage_self _)⟩
  · intro pos
    have := hs.stamp pos
    simp only [stampAt_grow, List.length_append, List.length_cons, List.length_nil]
    omega

theorem Sound.fill (hs : s.Sound) {e : Relocation} {pos : UInt64}
    (h : s.stage i = .claimed e pos) :
    Sound { s.setStage i (.filled e pos) with ring := s.ring.fill pos e } := by
  have hi : s.Holds i e pos := hs.holds_of_stage (.inl h)
  refine ⟨hs.head_eq, hs.room, hs.tail_le, hs.gathered_prefix, ?_, ?_, ?_, ?_⟩
  · intro j
    by_cases hj : j = i
    · subst hj
      rw [setStage_self]
      refine ⟨⟨hi.unread, hi.claim, ?_⟩, eventAt_fill_self ..⟩
      rw [stampAt_fill]
      exact hi.unstamped
    · rw [setStage_of_ne hj]
      refine stageSound_mono (hs.stage j) (List.prefix_refl _) (Nat.le_refl _) ?_
      intro f q hst
      have hq := hs.holds_of_stage hst
      exact ⟨hq.unread, stampAt_fill .., fun _ => eventAt_fill_of_ne _ _ _ _ (hs.slot_ne hi hq hj)⟩
  · refine sweepSound_mono hs.sweep (List.prefix_refl _) rfl rfl ?_
    intro q _ _ hq
    rw [stampAt_fill]
    exact hq
  · intro q hq hq'
    by_cases hqp : q = pos
    · subst hqp
      exact .inr ⟨i, e, .inr (setStage_self _)⟩
    · -- another position at hand has a slot of its own, which is not written to
      have hne : slotOf pos ≠ slotOf q := fun hslot =>
        hqp (hs.slot_inj hi.unread hi.lt hq hq' hslot).symm
      refine slotSound_mono (hs.slot q hq hq') (List.prefix_refl _) ?_ ?_
      · intro hst
        exact ⟨by rw [stampAt_fill]; exact hst, eventAt_fill_of_ne _ _ _ _ hne⟩
      · intro j f hj
        exact atWork_setStage (by simp [h, Ne.symm hqp]) hj
  · intro q
    rw [stampAt_fill]
    exact hs.stamp q

theorem Sound.publish (hs : s.Sound) {e : Relocation} {pos : UInt64}
    (h : s.stage i = .filled e pos) :
    Sound { s.setStage i .idle with ring := s.ring.publish pos } := by
  have hi : s.Holds i e pos := hs.holds_of_stage (.inr h)
  have hev : s.ring.eventAt pos = e := by
    have := hs.stage i
    rw [h] at this
    exact this.2
  have hstamp : (pos + 1).toNat = pos.toNat + 1 := by
    have := hs.claims_lt
    have := hi.lt
    exact toNat_succ (by omega)
  refine ⟨hs.head_eq, hs.room, hs.tail_le, hs.gathered_prefix, ?_, ?_, ?_, ?_⟩
  · intro j
    by_cases hj : j = i
    · subst hj
      rw [setStage_self]
      trivial
    · rw [setStage_of_ne hj]
      refine stageSound_mono (hs.stage j) (List.prefix_refl _) (Nat.le_refl _) ?_
      intro f q hst
      have hq := hs.holds_of_stage hst
      exact ⟨hq.unread, stampAt_publish_of_ne _ _ _ (hs.slot_ne hi hq hj),
        fun _ => eventAt_publish ..⟩
  · refine sweepSound_mono hs.sweep (List.prefix_refl _) rfl rfl ?_
    intro q hq hq' hst
    by_cases hslot : slotOf pos = slotOf q
    · -- a drain that has found this slot stamped has come to this very position
      have hqp := hs.slot_inj hi.unread hi.lt (Nat.le_of_eq hq.symm) hq' hslot
      subst hqp
      exact stampAt_publish_self ..
    · rw [stampAt_publish_of_ne _ _ _ hslot]
      exact hst
  · intro q hq hq'
    by_cases hqp : q = pos
    · subst hqp
      refine .inl ⟨stampAt_publish_self .., i, ?_⟩
      rw [eventAt_publish, hev]
      exact hi.claim
    · have hne : slotOf pos ≠ slotOf q := fun hslot =>
        hqp (hs.slot_inj hi.unread hi.lt hq hq' hslot).symm
      refine slotSound_mono (hs.slot q hq hq') (List.prefix_refl _) ?_ ?_
      · intro hst
        exact ⟨by rw [stampAt_publish_of_ne _ _ _ hne]; exact hst, eventAt_publish ..⟩
      · intro j f hj
        exact atWork_setStage (by simp [h, Ne.symm hqp]) hj
  · intro q
    by_cases hslot : slotOf pos = slotOf q
    · have hq : (s.ring.publish pos).stampAt q = pos + 1 := by
        rw [← stampAt_publish_self s.ring pos]
        simp [stampAt, get_eq_getElem, hslot]
      rw [hq, hstamp]
      exact hi.lt
    · rw [stampAt_publish_of_ne _ _ _ hslot]
      exact hs.stamp q

end Producers

/-! ## Accesses of drains -/

section Drains

variable {s : Shared ι}

theorem gathered_of_sweep {w : Sweep} (h : s.sweep = some w) :
    s.gathered = s.results.flatten ++ w.taken := by
  simp [gathered, h]

/-- What neither touches the slots nor claims, reads or consumes anything leaves all in order. -/
theorem Sound.of_gathered (hs : s.Sound) {t : Shared ι} (head : t.ring.head = s.ring.head)
    (tail : t.ring.tail = s.ring.tail) (slots : t.ring.slots = s.ring.slots)
    (stage : t.stage = s.stage) (claims : t.claims = s.claims) (gathered : t.gathered = s.gathered)
    (h : s.SweepSound t.sweep) : t.Sound := by
  have hclaims : s.claims <+: t.claims := claims ▸ List.prefix_refl _
  have hstamp : ∀ pos, t.ring.stampAt pos = s.ring.stampAt pos := by
    simp [stampAt, get_eq_getElem, slots]
  have hevent : ∀ pos, t.ring.eventAt pos = s.ring.eventAt pos := by
    simp [eventAt, get_eq_getElem, slots]
  refine ⟨?_, ?_, ?_, ?_, ?_, ?_, ?_, ?_⟩
  · rw [head, claims]
    exact hs.head_eq
  · rw [tail, claims]
    exact hs.room
  · rw [tail, gathered]
    exact hs.tail_le
  · rw [gathered, claims]
    exact hs.gathered_prefix
  · intro i
    rw [stage]
    refine stageSound_mono (hs.stage i) hclaims (Nat.le_of_eq (by rw [tail])) ?_
    intro e pos hst
    rw [gathered]
    exact ⟨(hs.holds_of_stage hst).unread, hstamp pos, fun _ => hevent pos⟩
  · refine sweepSound_mono h hclaims tail gathered ?_
    intro pos _ _ hst
    rw [hstamp]
    exact hst
  · intro pos hpos hpos'
    rw [gathered] at hpos
    rw [claims] at hpos'
    refine slotSound_mono (hs.slot pos hpos hpos') hclaims ?_ ?_
    · intro hst
      exact ⟨by rw [hstamp]; exact hst, hevent pos⟩
    · rw [stage]
      exact fun _ _ h => h
  · intro pos
    rw [hstamp, claims]
    exact hs.stamp pos

theorem prefix_concat {α : Type} {l l' : List α} (h : l <+: l') {x : α}
    (hx : l'[l.length]? = some x) : l ++ [x] <+: l' := by
  obtain ⟨rest, rfl⟩ := h
  cases rest with
  | nil => simp at hx
  | cons y rest =>
    have hy : y = x := by simpa using hx
    subst hy
    exact ⟨rest, by simp⟩

/-- What is read is the oldest relocation that has not been read before. -/
theorem Sound.take (hs : s.Sound) {head pos : UInt64} {taken : List Relocation}
    (h : s.sweep = some (.found head pos taken)) :
    Sound { s with sweep := some (.scanning head (pos + 1) (taken ++ [s.ring.eventAt pos])) } := by
  have hw := hs.sweep
  rw [h] at hw
  obtain ⟨hpos, hlt, hle, hst⟩ := hw
  have hsucc : (pos + 1).toNat = pos.toNat + 1 := by
    have := head.toNat_lt
    exact toNat_succ (by omega)
  have hg : gathered
      { s with sweep := some (.scanning head (pos + 1) (taken ++ [s.ring.eventAt pos])) }
        = s.gathered ++ [s.ring.eventAt pos] := by
    rw [gathered_of_sweep h, gathered_of_sweep rfl, Sweep.taken, Sweep.taken, List.append_assoc]
  obtain ⟨i, hi⟩ := hs.eventAt_of_stamped (Nat.le_of_eq hpos.symm)
    (Nat.lt_of_lt_of_le hlt hle) hst
  refine ⟨hs.head_eq, hs.room, ?_, ?_, ?_, ?_, ?_, hs.stamp⟩
  · have := hs.tail_le
    rw [hg, List.length_append]
    exact Nat.le_trans this (Nat.le_add_right _ _)
  · rw [hg]
    apply prefix_concat hs.gathered_prefix
    rw [← hpos, List.getElem?_map, hi]
    rfl
  · intro j
    refine stageSound_mono (hs.stage j) (List.prefix_refl _) (Nat.le_refl _) ?_
    intro e q hq
    have hold := hs.holds_of_stage hq
    refine ⟨?_, rfl, fun _ => rfl⟩
    -- a position that somebody is at work on is not stamped, so it is not the one that was read
    have hne : q.toNat ≠ pos.toNat := by
      intro heq
      have := hold.unstamped
      rw [UInt64.toNat_inj.mp heq, hst, hsucc] at this
      omega
    have := hold.unread
    rw [hg, List.length_append, List.length_cons, List.length_nil]
    omega
  · refine ⟨?_, ?_, hle⟩
    · rw [hg, hsucc, hpos, List.length_append]
      rfl
    · rw [hsucc]
      exact hlt
  · intro q hq hq'
    rw [hg, List.length_append] at hq
    exact hs.slot q (Nat.le_trans (Nat.le_add_right _ _) hq) hq'

theorem Sound.storeTail (hs : s.Sound) {pos : UInt64} {taken : List Relocation}
    (h : s.sweep = some (.stopped pos taken)) :
    Sound { s with ring := s.ring.advance pos, sweep := some (.stored taken) } := by
  have hpos := hs.sweep
  rw [h] at hpos
  have hpos : pos.toNat = s.gathered.length := hpos
  have hg : gathered { s with ring := s.ring.advance pos, sweep := some (.stored taken) }
      = s.gathered := by
    rw [gathered_of_sweep h, gathered_of_sweep rfl, Sweep.taken, Sweep.taken]
  have htail : s.ring.tail.toNat ≤ pos.toNat := by
    rw [hpos]
    exact hs.tail_le
  -- `tail` moves up to where the drain has read, so there is room for no less than before
  refine ⟨hs.head_eq, ?_, ?_, ?_, ?_, ?_, ?_, hs.stamp⟩
  · exact Nat.le_trans hs.room (Nat.add_le_add_right htail _)
  · rw [hg]
    exact Nat.le_of_eq hpos
  · rw [hg]
    exact hs.gathered_prefix
  · intro i
    refine stageSound_mono (hs.stage i) (List.prefix_refl _) htail ?_
    intro e q hq
    rw [hg]
    exact ⟨(hs.holds_of_stage hq).unread, rfl, fun _ => rfl⟩
  · rw [SweepSound, hg]
    exact hpos
  · intro q hq hq'
    rw [hg] at hq
    exact slotSound_mono (hs.slot q hq hq') (List.prefix_refl _) (fun h => ⟨h, rfl⟩)
      fun _ _ h => h

end Drains

/-! ## Runs -/

variable [DecidableEq ι] {s t : Shared ι} {m : Move ι}

/-- No access undoes a claim. -/
theorem Step.claims_grow (h : Step s m t) : s.claims <+: t.claims := by
  cases h with
  | claim i e h => exact List.prefix_append _ _
  | _ => exact List.prefix_refl _

theorem Step.sound (h : Step s m t) (hs : s.Sound) (hlt : t.claims.length < 2 ^ 64) : t.Sound := by
  cases h with
  | call i e h =>
    have hloaded : (s.setStage i (.loaded e s.ring.head)).Sound :=
      hs.setStage (by simp [h]) (by simp) (Nat.le_of_eq hs.head_eq)
    exact hloaded.of_gathered rfl rfl rfl rfl rfl rfl hloaded.sweep
  | pass i e head h room =>
    have hi := hs.stage i
    rw [h] at hi
    refine hs.setStage (by simp [h]) (by simp) ⟨hi, ?_⟩
    -- the difference to the `tail` of this moment is small, whether or not it has wrapped around
    have hnot : ¬full head s.ring.tail = true := by simp [room]
    rw [full_eq_true_iff] at hnot
    have := head.toNat_lt
    have := s.ring.tail.toNat_lt
    omega
  | refuse i e head h noRoom => exact hs.setStage (by simp [h]) (by simp) trivial
  | claim i e h => exact hs.claim h (by simpa using hlt)
  | retry i spurious e head h =>
    exact hs.setStage (by simp [h]) (by simp) (Nat.le_of_eq hs.head_eq)
  | fill i e pos h => exact hs.fill h
  | publish i e pos h => exact hs.publish h
  | giveUp i e h =>
    have hidle : (s.setStage i .idle).Sound := hs.setStage (by simp [h]) (by simp) trivial
    exact hidle.of_gathered rfl rfl rfl rfl rfl rfl hidle.sweep
  | lock h =>
    have hw := hs.sweep
    rw [h] at hw
    exact hs.of_gathered rfl rfl rfl rfl rfl (by simp [gathered, h, Sweep.taken]) hw
  | readTail h =>
    have hw := hs.sweep
    rw [h] at hw
    exact hs.of_gathered rfl rfl rfl rfl rfl (by simp [gathered, h, Sweep.taken]) ⟨hw, rfl⟩
  | readHead tail h =>
    have hw := hs.sweep
    rw [h] at hw
    refine hs.of_gathered rfl rfl rfl rfl rfl (by simp [gathered, h, Sweep.taken]) ⟨hw.1, ?_, ?_⟩
    · rw [hw.1, hs.head_eq]
      exact hs.gathered_le
    · exact Nat.le_of_eq hs.head_eq
  | find head pos taken h inside stamped =>
    have hw := hs.sweep
    rw [h] at hw
    refine hs.of_gathered rfl rfl rfl rfl rfl (by simp [gathered, h, Sweep.taken])
      ⟨hw.1, UInt64.lt_iff_toNat_lt.mp inside, hw.2.2, ?_⟩
    simpa [published] using stamped
  | stop head pos taken h halt =>
    have hw := hs.sweep
    rw [h] at hw
    exact hs.of_gathered rfl rfl rfl rfl rfl (by simp [gathered, h, Sweep.taken]) hw.1
  | take head pos taken h => exact hs.take h
  | storeTail pos taken h => exact hs.storeTail h
  | release taken h =>
    have hw := hs.sweep
    rw [h] at hw
    exact hs.of_gathered rfl rfl rfl rfl rfl (by simp [gathered, h, Sweep.taken]) hw

theorem claims_grow_of_run {ms : List (Move ι)} (h : s.run ms = some t) :
    s.claims <+: t.claims := by
  induction ms generalizing s with
  | nil =>
    cases h
    exact List.prefix_refl _
  | cons m rest ih =>
    rw [run_cons, Option.bind_eq_some_iff] at h
    obtain ⟨u, hu, ht⟩ := h
    exact (step_of_move hu).claims_grow.trans (ih ht)

theorem Sound.run (hs : s.Sound) {ms : List (Move ι)} (h : s.run ms = some t)
    (hlt : t.claims.length < 2 ^ 64) : t.Sound := by
  induction ms generalizing s with
  | nil =>
    cases h
    exact hs
  | cons m rest ih =>
    rw [run_cons, Option.bind_eq_some_iff] at h
    obtain ⟨u, hu, ht⟩ := h
    have hle := (claims_grow_of_run ht).length_le
    exact ih ((step_of_move hu).sound hs (by omega)) ht

end Shared

end Ring

end BlockLedger
