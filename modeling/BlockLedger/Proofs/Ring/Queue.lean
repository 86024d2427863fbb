import BlockLedger.Proofs.Ring.Waiting
import Mathlib

/-
# The ring as a queue

Nobody who calls one operation after the other can tell the ring from a plain queue with room for 1023
relocations: positions, stamps and the slots they fall into do not show, however often the ring has
been gone round.  What shows is what a call returns, and what can be asked about the ring afterwards:
how many relocations wait in it, whether any do, and how many found no room.

The ring mirrors a queue if the relocations that wait in it are those of the queue and its tail is not
past its head.  Every call keeps this up as long as a position that is claimed fits its word.
-/

namespace BlockLedger

namespace Ring

/-! ## Calls and what shows of them -/

/-- A call of one of the operations. -/
inductive Call where
  | enqueue (e : Relocation)
  | drain
  deriving DecidableEq

/-- What a call returns. -/
inductive Answer where
  /-- Whether the relocation was accepted. -/
  | enqueued (accepted : Bool)
  /-- What was taken out. -/
  | drained (events : List Association)
  deriving DecidableEq

/-- What can be asked between calls. -/
structure Sight where
  length : Nat
  isEmpty : Bool
  dropped : Nat
  deriving DecidableEq

/-- What shows of a row of calls: what each of them returns, and what can be asked after it. -/
def observe {σ : Type} (answer : σ → Call → Answer × σ) (sight : σ → Sight) (s : σ) :
    List Call → List (Answer × Sight)
  | [] => []
  | c :: cs => ((answer s c).1, sight (answer s c).2) :: observe answer sight (answer s c).2 cs

/-- Carries out a call on the ring.  Whoever drains it is told no identities. -/
def answer (r : Ring) : Call → Answer × Ring
  | .enqueue e => (.enqueued (r.enqueue e).2, (r.enqueue e).1)
  | .drain => (.drained (r.drain.1.map fun e => { e with }), r.drain.2)

def sight (r : Ring) : Sight := ⟨r.length, r.isEmpty, r.dropped⟩

/-- A plain queue with room for 1023 relocations. -/
structure Queue where
  /-- The relocations that have not been drained, oldest first. -/
  waiting : List Relocation := []
  dropped : Nat := 0

namespace Queue

/-- Carries out a call on the queue. -/
def answer (q : Queue) : Call → Answer × Queue
  | .enqueue e =>
    if q.waiting.length < 1023 then (.enqueued true, { q with waiting := q.waiting ++ [e] })
    else (.enqueued false, { q with dropped := q.dropped + 1 })
  | .drain => (.drained (q.waiting.map fun e => ⟨e, none⟩), { q with waiting := [] })

def sight (q : Queue) : Sight := ⟨q.waiting.length, q.waiting.isEmpty, q.dropped⟩

/-- What shows of a row of calls on a queue that is empty at first. -/
def observed (cs : List Call) : List (Answer × Sight) := observe answer sight {} cs

end Queue

/-! ## Positions -/

/-- How many positions a call claims. -/
def Answer.claims : Answer → Nat
  | .enqueued true => 1
  | _ => 0

/-- How many positions are claimed in a row of calls. -/
def claimed (seen : List (Answer × Sight)) : Nat := (seen.map fun x => x.1.claims).sum

section Claimed

variable {σ : Type} (answer : σ → Call → Answer × σ) (sight : σ → Sight) (s : σ)

theorem claimed_cons (c : Call) (cs : List Call) :
    claimed (observe answer sight s (c :: cs)) =
      (answer s c).1.claims + claimed (observe answer sight (answer s c).2 cs) := by
  simp [claimed, observe]

theorem claimed_le_length (cs : List Call) :
    claimed (observe answer sight s cs) ≤ cs.length := by
  induction cs generalizing s with
  | nil => exact Nat.le_refl _
  | cons c cs ih =>
    have hone : (answer s c).1.claims ≤ 1 := by
      unfold Answer.claims
      split <;> omega
    have hrest := ih (answer s c).2
    rw [claimed_cons, List.length_cons]
    omega

end Claimed

/-! ## Mirroring -/

/-- What waits in the ring is what waits in the queue, and `n` positions have been claimed. -/
structure Mirrors (r : Ring) (q : Queue) (n : Nat) : Prop where
  whole : r.Whole
  waiting : r.waiting = q.waiting
  dropped : r.dropped = q.dropped
  head : r.head.toNat = n
  tail_le : r.tail ≤ r.head

namespace Mirrors

variable {r : Ring} {q : Queue} {n : Nat}

theorem empty : Mirrors {} {} 0 := ⟨whole_empty, rfl, rfl, rfl, UInt64.le_refl _⟩

section Calls

variable (h : Mirrors r q n)
include h

theorem length_eq : r.length = q.waiting.length := by
  rw [← length_waiting, h.waiting]

theorem sight_eq : r.sight = q.sight := by
  have hempty : r.isEmpty = q.waiting.isEmpty := by
    rw [isEmpty, h.length_eq]
    cases q.waiting <;> rfl
  rw [sight, Queue.sight, h.length_eq, hempty, h.dropped]

/-- A relocation is appended to both, or dropped by both. -/
theorem enqueue (e : Relocation) (hlt : n + (q.answer (.enqueue e)).1.claims < 2 ^ 64) :
    (r.answer (.enqueue e)).1 = (q.answer (.enqueue e)).1 ∧
      Mirrors (r.answer (.enqueue e)).2 (q.answer (.enqueue e)).2
        (n + (q.answer (.enqueue e)).1.claims) := by
  have hroom := h.whole.length_le
  rw [h.length_eq] at hroom
  by_cases hfull : q.waiting.length = 1023
  · have hq : q.answer (.enqueue e) =
        (.enqueued false, { q with dropped := q.dropped + 1 }) := by
      simp [Queue.answer, hfull]
    rw [hq, answer, h.whole.enqueue_full (h.length_eq.trans hfull)]
    refine ⟨rfl, h.whole.drop, h.waiting, ?_, h.head, h.tail_le⟩
    exact congrArg (· + 1) h.dropped
  · have hq : q.answer (.enqueue e) =
        (.enqueued true, { q with waiting := q.waiting ++ [e] }) := by
      rw [Queue.answer, if_pos (by omega)]
    rw [hq] at hlt ⊢
    have hfree : r.length ≠ 1023 := fun hc => hfull (h.length_eq.symm.trans hc)
    obtain ⟨hhead, htail, hdropped⟩ := h.whole.ends_enqueue hfree e
    have hsucc : (r.head + 1).toNat = n + 1 := by
      rw [toNat_succ (by rw [h.head]; exact hlt), h.head]
    refine ⟨?_, h.whole.whole_enqueue hfree e, ?_, hdropped.trans h.dropped, ?_, ?_⟩
    · rw [answer, h.whole.enqueue_room hfree]
    · exact (h.whole.waiting_enqueue hfree e).trans (by rw [h.waiting])
    · exact (congrArg UInt64.toNat hhead).trans hsucc
    · have hle := UInt64.le_iff_toNat_le.mp h.tail_le
      have hhead' := h.head
      change (r.enqueue e).1.tail ≤ (r.enqueue e).1.head
      rw [htail, hhead, UInt64.le_iff_toNat_le, hsucc]
      omega

/-- Both are emptied, and the same relocations come out. -/
theorem drain :
    (r.answer .drain).1 = (q.answer .drain).1 ∧
      Mirrors (r.answer .drain).2 (q.answer .drain).2 (n + (q.answer .drain).1.claims) := by
  have hdrain := h.whole.drain_eq h.tail_le
  obtain ⟨hwhole, hrest⟩ := h.whole.drain
  rw [hdrain] at hwhole hrest
  rw [answer, Queue.answer, hdrain, h.waiting]
  refine ⟨rfl, hwhole, ?_, h.dropped, h.head, UInt64.le_refl _⟩
  simpa using hrest

/-- A call returns the same from both, and they still mirror each other. -/
theorem answer (c : Call) (hlt : n + (q.answer c).1.claims < 2 ^ 64) :
    (r.answer c).1 = (q.answer c).1 ∧
      Mirrors (r.answer c).2 (q.answer c).2 (n + (q.answer c).1.claims) := by
  cases c with
  | enqueue e => exact h.enqueue e hlt
  | drain => exact h.drain

end Calls

theorem observe_eq (h : Mirrors r q n) {cs : List Call}
    (hlt : n + claimed (observe Queue.answer Queue.sight q cs) < 2 ^ 64) :
    observe Ring.answer Ring.sight r cs = observe Queue.answer Queue.sight q cs := by
  induction cs generalizing r q n with
  | nil => rfl
  | cons c cs ih =>
    rw [claimed_cons, ← Nat.add_assoc] at hlt
    obtain ⟨hanswer, hnext⟩ := h.answer c (by omega)
    rw [observe, observe, hanswer, hnext.sight_eq, ih hnext hlt]

end Mirrors

/-- As long as positions fit their word, a ring shows what a plain queue shows. -/
theorem observe_eq_queue (cs : List Call) (h : claimed (Queue.observed cs) < 2 ^ 64) :
    observe answer sight {} cs = Queue.observed cs :=
  Mirrors.empty.observe_eq (by rwa [Nat.zero_add])

/-- Seven hundred relocations are appended and drained, five times in a row, and then more than there
is room for. -/
def laps : List Call :=
  (List.replicate 5 (List.replicate 700 (Call.enqueue default) ++ [Call.drain])).flatten ++
    List.replicate 1030 (Call.enqueue default) ++ [Call.drain, Call.drain]

/-- The slots are gone round four times. -/
theorem observe_laps :
    claimed (Queue.observed laps) < 2 ^ 64 ∧ observe answer sight {} laps = Queue.observed laps := by
  have hlt : claimed (Queue.observed laps) < 2 ^ 64 := by
    refine Nat.lt_of_le_of_lt (claimed_le_length _ _ _ laps) ?_
    simp only [laps, List.length_append, List.length_flatten, List.map_replicate,
      List.length_replicate, List.length_cons, List.length_nil, List.sum_replicate_nat]
    omega
  exact ⟨hlt, observe_eq_queue laps hlt⟩

end Ring

end BlockLedger
