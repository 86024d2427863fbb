import BlockLedger.Proofs.Ring.Invariant

/-
# What waits in the ring

Between whole operations nobody is at work in the ring.  Then the relocations that wait in it can be
read off from it, from the tail up to the head, and it is a queue: to append a relocation puts it
behind all that wait, unless 1023 of them do, and a drain takes them out from the front.

Positions are words, and they wrap around.  Since the number of slots divides the number of words,
this hurts neither the slots nor the order.  A drain whose head has wrapped around and whose tail has
not takes out nothing at all, but it does not lose anything either.
-/

namespace BlockLedger

namespace Ring

/-! ## Positions -/

/-- A position, counted from the tail. -/
def position (r : Ring) (i : Nat) : UInt64 := r.tail + UInt64.ofNat i

/-- The relocations that have been claimed and not been consumed, oldest first. -/
def waiting (r : Ring) : List Relocation :=
  (List.range r.length).map fun i => r.eventAt (r.position i)

/-- Nobody is at work in a ring: every position that has been claimed has been published, and there
are no more of them than there is room for. -/
structure Whole (r : Ring) : Prop where
  length_le : r.length ≤ 1023
  published : ∀ i < r.length, r.stampAt (r.position i) = r.position i + 1

variable (r : Ring)

@[simp] theorem length_waiting : r.waiting.length = r.length := by
  simp [waiting]

theorem position_zero : r.position 0 = r.tail := by
  simp [position]

theorem position_succ (i : Nat) : r.position (i + 1) = r.position i + 1 := by
  simp [position, UInt64.ofNat_add, UInt64.add_assoc]

/-- The head is as far from the tail as the ring is long. -/
theorem position_length : r.position r.length = r.head := by
  rw [position, length, UInt64.ofNat_toNat, UInt64.add_comm, UInt64.sub_add_cancel]

theorem toNat_position (i : Nat) : (r.position i).toNat = (r.tail.toNat + i) % 2 ^ 64 := by
  simp [position, UInt64.toNat_add, Nat.add_mod]

/-- Positions less than a whole turn apart have slots of their own. -/
theorem slotOf_position_ne {i j : Nat} (hij : i < j) (hj : j < i + capacity) :
    slotOf (r.position j) ≠ slotOf (r.position i) := by
  intro h
  rw [slotOf_eq_iff, toNat_position, toNat_position] at h
  unfold capacity at h hj
  omega

theorem whole_empty : Whole {} := ⟨by decide, fun i hi => absurd hi (by simp [length])⟩

/-! ## Appending -/

variable {r}

theorem Whole.full_iff (hr : r.Whole) : full r.head r.tail = true ↔ r.length = 1023 := by
  have hroom : full r.head r.tail = true ↔ 1023 ≤ r.length := by
    simp [full, room, length, UInt64.le_iff_toNat_le]
  rw [hroom]
  constructor
  · exact fun h => Nat.le_antisymm hr.length_le h
  · exact fun h => Nat.le_of_eq h.symm

/-- What comes on top of 1023 relocations is dropped. -/
theorem Whole.enqueue_full (hr : r.Whole) (h : r.length = 1023) (e : Relocation) :
    r.enqueue e = (r.drop, false) := by
  rw [enqueue, if_pos (hr.full_iff.mpr h)]

theorem Whole.enqueue_room (hr : r.Whole) (h : r.length ≠ 1023) (e : Relocation) :
    r.enqueue e = ((r.grow.fill r.head e).publish r.head, true) := by
  rw [enqueue, if_neg (mt hr.full_iff.mp h)]

/-- The slot that is filled next is none of those in which something waits. -/
theorem Whole.slotOf_head_ne (hr : r.Whole) {i : Nat} (hi : i < r.length) :
    slotOf r.head ≠ slotOf (r.position i) := by
  have hle := hr.length_le
  rw [← r.position_length]
  refine r.slotOf_position_ne hi ?_
  unfold capacity
  omega

section Appended

variable (hr : r.Whole) (h : r.length ≠ 1023) (e : Relocation)
include hr h

theorem Whole.length_enqueue : (r.enqueue e).1.length = r.length + 1 := by
  have hle := hr.length_le
  rw [hr.enqueue_room h]
  change (r.head + 1 - r.tail).toNat = (r.head - r.tail).toNat + 1
  have hshift : r.head + 1 - r.tail = r.head - r.tail + 1 := by
    rw [UInt64.sub_eq_add_neg, UInt64.sub_eq_add_neg, UInt64.add_assoc, UInt64.add_comm 1,
      UInt64.add_assoc]
  rw [hshift]
  refine toNat_succ ?_
  unfold length at hle
  omega

theorem position_enqueue (i : Nat) : (r.enqueue e).1.position i = r.position i := by
  rw [hr.enqueue_room h]
  rfl

theorem Whole.whole_enqueue : (r.enqueue e).1.Whole := by
  have hle := hr.length_le
  refine ⟨?_, fun i hi => ?_⟩
  · rw [hr.length_enqueue h]
    omega
  · rw [hr.length_enqueue h] at hi
    rw [position_enqueue hr h, hr.enqueue_room h]
    rcases Nat.lt_succ_iff_lt_or_eq.mp hi with hi | rfl
    · rw [stampAt_publish_of_ne _ _ _ (hr.slotOf_head_ne hi), stampAt_fill]
      exact hr.published i hi
    · rw [r.position_length]
      exact stampAt_publish_self ..

/-- As long as there is room, a relocation goes behind all that wait. -/
theorem Whole.waiting_enqueue : (r.enqueue e).1.waiting = r.waiting ++ [e] := by
  have hnew : (r.enqueue e).1.eventAt r.head = e := by
    rw [hr.enqueue_room h, eventAt_publish, eventAt_fill_self]
  have hold : ∀ i < r.length,
      (r.enqueue e).1.eventAt (r.position i) = r.eventAt (r.position i) := by
    intro i hi
    rw [hr.enqueue_room h, eventAt_publish,
      eventAt_fill_of_ne _ _ _ _ (hr.slotOf_head_ne hi)]
    rfl
  rw [waiting, hr.length_enqueue h, List.range_succ, List.map_append, List.map_singleton,
    position_enqueue hr h, r.position_length, hnew]
  congr 1
  refine List.map_congr_left fun i hi => ?_
  rw [position_enqueue hr h]
  exact hold i (List.mem_range.mp hi)

/-- The head counts what has been appended. -/
theorem Whole.ends_enqueue :
    (r.enqueue e).1.head = r.head + 1 ∧ (r.enqueue e).1.tail = r.tail ∧
      (r.enqueue e).1.dropped = r.dropped := by
  rw [hr.enqueue_room h]
  exact ⟨rfl, rfl, rfl⟩

end Appended

theorem Whole.drop (hr : r.Whole) : r.drop.Whole := ⟨hr.length_le, hr.published⟩

/-! ## Taking out -/

/-- A drain goes on up to the head as long as nothing wraps around on the way. -/
theorem Whole.collect_eq (hr : r.Whole) (hle : r.tail ≤ r.head) {i fuel : Nat}
    (hi : i ≤ r.length) (hfuel : r.length ≤ i + fuel) :
    r.collect r.head fuel (r.position i) = (r.waiting.drop i, r.head) := by
  induction fuel generalizing i with
  | zero =>
    obtain rfl : i = r.length := by omega
    rw [collect, List.drop_of_length_le (by simp), r.position_length]
  | succ fuel ih =>
    -- the tail is not ahead of the head, so no position on the way wraps around
    have htoNat : r.tail.toNat + r.length = r.head.toNat := by
      rw [length, UInt64.toNat_sub_of_le _ _ hle]
      have := UInt64.le_iff_toNat_le.mp hle
      omega
    rw [collect]
    by_cases hend : i = r.length
    · subst hend
      rw [r.position_length, if_neg (UInt64.lt_irrefl _), List.drop_of_length_le (by simp)]
    · have hlt : r.position i < r.head := by
        have := r.head.toNat_lt
        rw [UInt64.lt_iff_toNat_lt, toNat_position]
        omega
      have hlook : r.look (r.position i) = some (r.eventAt (r.position i)) := by
        rw [look_eq, Ring.published, hr.published i (by omega)]
        simp
      have hdrop : r.waiting.drop i = r.eventAt (r.position i) :: r.waiting.drop (i + 1) := by
        rw [List.drop_eq_getElem_cons (by simp; omega)]
        simp [waiting]
      rw [if_pos hlt, hlook, ← r.position_succ, ih (by omega) (by omega), hdrop]

theorem Whole.drain_eq (hr : r.Whole) (hle : r.tail ≤ r.head) :
    r.drain = (r.waiting, r.advance r.head) := by
  have hlength : r.length ≤ 0 + capacity := by
    have := hr.length_le
    unfold capacity
    omega
  have hcollect := hr.collect_eq hle (Nat.zero_le _) hlength
  rw [position_zero, List.drop_zero] at hcollect
  rw [drain, hcollect]

theorem drain_of_lt (h : r.head < r.tail) : r.drain = ([], r) := by
  have hstop : r.collect r.head capacity r.tail = ([], r.tail) := by
    rw [capacity, collect, if_neg (UInt64.lt_asymm h)]
  rw [drain, hstop]
  rfl

theorem length_advance_head : (r.advance r.head).length = 0 := by
  simp [length, advance]

/-- A drain takes what waits out from the front, and leaves the rest of it. -/
theorem Whole.drain (hr : r.Whole) :
    r.drain.2.Whole ∧ r.drain.1 ++ r.drain.2.waiting = r.waiting := by
  by_cases hle : r.tail ≤ r.head
  · rw [hr.drain_eq hle]
    refine ⟨⟨?_, fun i hi => ?_⟩, ?_⟩
    · rw [length_advance_head]
      exact Nat.zero_le _
    · rw [length_advance_head] at hi
      exact absurd hi (Nat.not_lt_zero i)
    · rw [waiting.eq_1 (r.advance r.head), length_advance_head]
      exact List.append_nil _
  · rw [drain_of_lt (UInt64.not_le.mp hle)]
    exact ⟨hr, rfl⟩

/-- The tail counts what has been taken out. -/
theorem Whole.ends_drain (hr : r.Whole) :
    r.drain.2.head = r.head ∧ r.drain.2.tail = r.position r.drain.1.length ∧
      r.drain.2.dropped = r.dropped := by
  refine ⟨rfl, ?_, rfl⟩
  by_cases hle : r.tail ≤ r.head
  · rw [hr.drain_eq hle, length_waiting, r.position_length]
    rfl
  · rw [drain_of_lt (UInt64.not_le.mp hle)]
    exact r.position_zero.symm

/-! ## Books -/

/-- The relocations that found room, of those that were brought while so many others waited. -/
def admitted (brought : List (Relocation × Nat)) : List Relocation :=
  (brought.filter fun b => b.2 ≠ 1023).map Prod.fst

/-- The relocations that found no room. -/
def refused (brought : List (Relocation × Nat)) : List Relocation :=
  (brought.filter fun b => b.2 = 1023).map Prod.fst

/-- The state of a ring agrees with what has been brought to it, and with what has been taken out of
it: the relocations that found room are those that have been taken, and then those that wait. -/
structure Booked (r : Ring) (brought : List (Relocation × Nat)) (taken : List Relocation) :
    Prop where
  whole : r.Whole
  order : taken ++ r.waiting = admitted brought
  dropped : r.dropped = (refused brought).length
  head : r.head = UInt64.ofNat (admitted brought).length
  tail : r.tail = UInt64.ofNat taken.length

namespace Booked

theorem empty : Booked {} [] [] := ⟨whole_empty, rfl, rfl, rfl, rfl⟩

variable {brought : List (Relocation × Nat)} {taken : List Relocation}

theorem enqueue (h : r.Booked brought taken) (e : Relocation) :
    (r.enqueue e).1.Booked (brought ++ [(e, r.length)]) taken := by
  by_cases hfull : r.length = 1023
  · have hadmitted : admitted (brought ++ [(e, r.length)]) = admitted brought := by
      simp [admitted, hfull]
    have hrefused : refused (brought ++ [(e, r.length)]) = refused brought ++ [e] := by
      simp [refused, hfull]
    rw [h.whole.enqueue_full hfull]
    refine ⟨h.whole.drop, ?_, ?_, ?_, h.tail⟩
    · rw [hadmitted]
      exact h.order
    · rw [hrefused, List.length_append, ← h.dropped]
      rfl
    · rw [hadmitted]
      exact h.head
  · have hadmitted : admitted (brought ++ [(e, r.length)]) = admitted brought ++ [e] := by
      simp [admitted, hfull]
    have hrefused : refused (brought ++ [(e, r.length)]) = refused brought := by
      simp [refused, hfull]
    obtain ⟨hhead, htail, hdropped⟩ := h.whole.ends_enqueue hfull e
    refine ⟨h.whole.whole_enqueue hfull e, ?_, ?_, ?_, htail.trans h.tail⟩
    · rw [h.whole.waiting_enqueue hfull, hadmitted, ← List.append_assoc, h.order]
    · rw [hdropped, hrefused]
      exact h.dropped
    · rw [hhead, hadmitted, List.length_append, UInt64.ofNat_add, ← h.head]
      rfl

theorem drain (h : r.Booked brought taken) :
    r.drain.2.Booked brought (taken ++ r.drain.1) := by
  obtain ⟨hwhole, hwaiting⟩ := h.whole.drain
  obtain ⟨hhead, htail, hdropped⟩ := h.whole.ends_drain
  refine ⟨hwhole, ?_, hdropped.trans h.dropped, hhead.trans h.head, ?_⟩
  · rw [List.append_assoc, hwaiting]
    exact h.order
  · rw [htail, position, h.tail, List.length_append, UInt64.ofNat_add]

/-- A drain leaves nothing behind, unless positions have wrapped around. -/
theorem waiting_drain (h : r.Booked brought taken) (hlt : (admitted brought).length < 2 ^ 64) :
    r.drain.2.waiting = [] := by
  -- the head counts what has come and the tail what has gone, and both fit their word
  have hlength := congrArg List.length h.order
  rw [List.length_append] at hlength
  have htaken : taken.length < 2 ^ 64 := by omega
  have hle : r.tail ≤ r.head := by
    rw [h.head, h.tail, UInt64.le_iff_toNat_le, UInt64.toNat_ofNat_of_lt' hlt,
      UInt64.toNat_ofNat_of_lt' htaken]
    omega
  rw [h.whole.drain_eq hle, waiting, length_advance_head]
  rfl

end Booked

end Ring

end BlockLedger
