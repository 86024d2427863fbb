import BlockLedger.Number.Natural
import BlockLedger.Ring
import Mathlib.Logic.Function.Basic
import Mathlib.Tactic.Common

/-
# A ring in use by many

Any number of producers append to a ring while consumers drain it.  None of their calls is carried
out in one go: a call is a row of accesses to shared words, and between two of them everybody else
may come in.  Here a call is cut at every such access.  Where each producer stands and how far the
drain under way has come is part of the state; `Shared.move` carries out one access of one of them,
and a run is any row of accesses that their calls allow.

A producer reads `head`, then reads `tail` and tests for room.  If there is none, it counts the
relocation as dropped and gives up.  Otherwise it tries to swap `head` for the position after it;
that fails if `head` has moved on, and may fail for no reason at all, and then the producer goes on
with the `head` that it has seen.  Once it has claimed its position, it fills the slot and stamps
it.

A drain takes the lock of the consumers, reads `tail` and `head`, and goes from the one to the
other: it tests the stamp of a slot, reads the relocation in it, and stops at the first slot that is
not stamped yet.  Then it stores the new `tail` and lets the lock go.
-/

namespace BlockLedger

namespace Ring

theorem toNat_succ {pos : UInt64} (h : pos.toNat + 1 < 2 ^ 64) :
    (pos + 1).toNat = pos.toNat + 1 := by
  rw [UInt64.toNat_add]
  simp only [UInt64.reduceToNat]
  omega

theorem get_eq_getElem {α : Type} {n : Nat} (v : Vector α n) (i : Fin n) : v.get i = v[i] := rfl

/-- The stamp in the slot of a position. -/
def stampAt (r : Ring) (pos : UInt64) : UInt64 := (r.slots.get (slotOf pos)).stamp

/-- What lies in the slot of a position. -/
def eventAt (r : Ring) (pos : UInt64) : Relocation := (r.slots.get (slotOf pos)).event

/-- Whether a position has been published in its slot. -/
def published (r : Ring) (pos : UInt64) : Bool := r.stampAt pos == pos + 1

theorem look_eq (r : Ring) (pos : UInt64) :
    r.look pos = if r.published pos then some (r.eventAt pos) else none := by
  simp [look, published, stampAt, eventAt, get_eq_getElem]

/-- Where a producer stands. -/
inductive Stage where
  /-- It is in no call. -/
  | idle
  /-- It has read `head`. -/
  | loaded (e : Relocation) (head : UInt64)
  /-- It has read `tail` and found room. -/
  | admitted (e : Relocation) (head : UInt64)
  /-- It has claimed a position and is about to fill its slot. -/
  | claimed (e : Relocation) (pos : UInt64)
  /-- It has filled the slot and is about to stamp it. -/
  | filled (e : Relocation) (pos : UInt64)
  /-- It has found no room and is about to count the drop. -/
  | refused (e : Relocation)
  deriving DecidableEq

/-- How far the drain under way has come. -/
inductive Sweep where
  /-- It has taken the lock. -/
  | locked
  | tailRead (tail : UInt64)
  /-- It is about to test the stamp at `pos`, unless it has come to the `head` that it has read. -/
  | scanning (head pos : UInt64) (taken : List Relocation)
  /-- It has found the right stamp at `pos` and is about to read the relocation there. -/
  | found (head pos : UInt64) (taken : List Relocation)
  /-- It is about to store the new `tail`. -/
  | stopped (pos : UInt64) (taken : List Relocation)
  /-- It is about to let the lock go and to return. -/
  | stored (taken : List Relocation)
  deriving DecidableEq

namespace Sweep

/-- What a drain has read so far. -/
def taken : Sweep → List Relocation
  | locked | tailRead _ => []
  | scanning _ _ t | found _ _ t | stopped _ t | stored t => t

end Sweep

/-- A ring with everybody who is at work on it, and what has come of their calls so far. -/
structure Shared (ι : Type) where
  ring : Ring := {}
  stage : ι → Stage := fun _ => .idle
  /-- The drain that holds the lock. -/
  sweep : Option Sweep := none
  /-- The calls of producers, in the order in which they began. -/
  calls : List (ι × Relocation) := []
  /-- The accepted relocations, in the order in which their positions were claimed. -/
  claims : List (ι × Relocation) := []
  /-- What drains have returned, oldest first. -/
  results : List (List Relocation) := []

/-- A single access to the shared words. -/
inductive Move (ι : Type) where
  /-- A producer begins a call and reads `head`. -/
  | call (i : ι) (e : Relocation)
  /-- It reads `tail` and tests for room. -/
  | test (i : ι)
  /-- It tries to claim its position; `spurious` if that fails for no reason. -/
  | swap (i : ι) (spurious : Bool)
  | fill (i : ι)
  /-- It stamps the slot, and its call returns true. -/
  | publish (i : ι)
  /-- It counts the drop, and its call returns false. -/
  | giveUp (i : ι)
  /-- A consumer begins a drain. -/
  | lock
  | readTail
  | readHead
  /-- The drain tests a stamp, or finds that it has come to the end. -/
  | probe
  /-- The drain reads a relocation. -/
  | take
  | storeTail
  /-- The drain ends and returns what it has read. -/
  | release
  deriving DecidableEq

namespace Shared

variable {ι : Type} [DecidableEq ι]

/-- Nobody has done anything yet. -/
def start : Shared ι := {}

/-- A producer goes on to another stage. -/
def setStage (s : Shared ι) (i : ι) (stage : Stage) : Shared ι :=
  { s with stage := Function.update s.stage i stage }

/-- Carries out an access, if it is the turn of whoever does it. -/
def move (s : Shared ι) : Move ι → Option (Shared ι)
  | .call i e =>
    match s.stage i with
    | .idle => some { s.setStage i (.loaded e s.ring.head) with calls := s.calls ++ [(i, e)] }
    | _ => none
  | .test i =>
    match s.stage i with
    | .loaded e head =>
      some (s.setStage i (if full head s.ring.tail then .refused e else .admitted e head))
    | _ => none
  | .swap i spurious =>
    match s.stage i with
    | .admitted e head =>
      match if spurious then none else s.ring.claim head with
      | some ring =>
        some { s.setStage i (.claimed e head) with ring, claims := s.claims ++ [(i, e)] }
      | none => some (s.setStage i (.loaded e s.ring.head))
    | _ => none
  | .fill i =>
    match s.stage i with
    | .claimed e pos => some { s.setStage i (.filled e pos) with ring := s.ring.fill pos e }
    | _ => none
  | .publish i =>
    match s.stage i with
    | .filled _ pos => some { s.setStage i .idle with ring := s.ring.publish pos }
    | _ => none
  | .giveUp i =>
    match s.stage i with
    | .refused _ => some { s.setStage i .idle with ring := s.ring.drop }
    | _ => none
  | .lock =>
    match s.sweep with
    | none => some { s with sweep := some .locked }
    | some _ => none
  | .readTail =>
    match s.sweep with
    | some .locked => some { s with sweep := some (.tailRead s.ring.tail) }
    | _ => none
  | .readHead =>
    match s.sweep with
    | some (.tailRead tail) => some { s with sweep := some (.scanning s.ring.head tail []) }
    | _ => none
  | .probe =>
    match s.sweep with
    | some (.scanning head pos taken) =>
      some { s with
        sweep := some
          (if pos < head && s.ring.published pos then .found head pos taken
          else .stopped pos taken) }
    | _ => none
  | .take =>
    match s.sweep with
    | some (.found head pos taken) =>
      some { s with sweep := some (.scanning head (pos + 1) (taken ++ [s.ring.eventAt pos])) }
    | _ => none
  | .storeTail =>
    match s.sweep with
    | some (.stopped pos taken) =>
      some { s with ring := s.ring.advance pos, sweep := some (.stored taken) }
    | _ => none
  | .release =>
    match s.sweep with
    | some (.stored taken) => some { s with sweep := none, results := s.results ++ [taken] }
    | _ => none

/-- Carries out a row of accesses. -/
def run (s : Shared ι) : List (Move ι) → Option (Shared ι)
  | [] => some s
  | m :: rest => (s.move m).bind fun s => s.run rest

/-- All that drains have read so far, whether they have returned it or not. -/
def gathered (s : Shared ι) : List Relocation :=
  s.results.flatten ++ (s.sweep.map Sweep.taken).getD []

@[simp] theorem run_nil (s : Shared ι) : s.run [] = some s := rfl

theorem run_cons (s : Shared ι) (m : Move ι) (rest : List (Move ι)) :
    s.run (m :: rest) = (s.move m).bind fun t => t.run rest := rfl

theorem run_append (s : Shared ι) (ms ns : List (Move ι)) :
    s.run (ms ++ ns) = (s.run ms).bind fun t => t.run ns := by
  induction ms generalizing s with
  | nil => rfl
  | cons m rest ih => simp only [List.cons_append, run_cons, ih, Option.bind_assoc]

theorem run_concat (s : Shared ι) (ms : List (Move ι)) (m : Move ι) :
    s.run (ms ++ [m]) = (s.run ms).bind fun t => t.move m := by
  rw [run_append]
  congr
  funext t
  rw [run_cons]
  cases t.move m <;> rfl

/-! ## What an access can do -/

/-- The accesses one by one, each with what it needs and what it changes. -/
inductive Step (s : Shared ι) : Move ι → Shared ι → Prop
  | call (i : ι) (e : Relocation) (h : s.stage i = .idle) :
      Step s (.call i e) { s.setStage i (.loaded e s.ring.head) with calls := s.calls ++ [(i, e)] }
  | pass (i : ι) (e : Relocation) (head : UInt64) (h : s.stage i = .loaded e head)
      (room : full head s.ring.tail = false) : Step s (.test i) (s.setStage i (.admitted e head))
  | refuse (i : ι) (e : Relocation) (head : UInt64) (h : s.stage i = .loaded e head)
      (noRoom : full head s.ring.tail = true) : Step s (.test i) (s.setStage i (.refused e))
  | claim (i : ι) (e : Relocation) (h : s.stage i = .admitted e s.ring.head) :
      Step s (.swap i false) { s.setStage i (.claimed e s.ring.head) with
        ring := s.ring.grow, claims := s.claims ++ [(i, e)] }
  | retry (i : ι) (spurious : Bool) (e : Relocation) (head : UInt64)
      (h : s.stage i = .admitted e head) :
      Step s (.swap i spurious) (s.setStage i (.loaded e s.ring.head))
  | fill (i : ι) (e : Relocation) (pos : UInt64) (h : s.stage i = .claimed e pos) :
      Step s (.fill i) { s.setStage i (.filled e pos) with ring := s.ring.fill pos e }
  | publish (i : ι) (e : Relocation) (pos : UInt64) (h : s.stage i = .filled e pos) :
      Step s (.publish i) { s.setStage i .idle with ring := s.ring.publish pos }
  | giveUp (i : ι) (e : Relocation) (h : s.stage i = .refused e) :
      Step s (.giveUp i) { s.setStage i .idle with ring := s.ring.drop }
  | lock (h : s.sweep = none) : Step s .lock { s with sweep := some .locked }
  | readTail (h : s.sweep = some .locked) :
      Step s .readTail { s with sweep := some (.tailRead s.ring.tail) }
  | readHead (tail : UInt64) (h : s.sweep = some (.tailRead tail)) :
      Step s .readHead { s with sweep := some (.scanning s.ring.head tail []) }
  | find (head pos : UInt64) (taken : List Relocation)
      (h : s.sweep = some (.scanning head pos taken)) (inside : pos < head)
      (stamped : s.ring.published pos = true) :
      Step s .probe { s with sweep := some (.found head pos taken) }
  | stop (head pos : UInt64) (taken : List Relocation)
      (h : s.sweep = some (.scanning head pos taken))
      (halt : pos < head → s.ring.published pos = false) :
      Step s .probe { s with sweep := some (.stopped pos taken) }
  | take (head pos : UInt64) (taken : List Relocation)
      (h : s.sweep = some (.found head pos taken)) :
      Step s .take
        { s with sweep := some (.scanning head (pos + 1) (taken ++ [s.ring.eventAt pos])) }
  | storeTail (pos : UInt64) (taken : List Relocation)
      (h : s.sweep = some (.stopped pos taken)) :
      Step s .storeTail { s with ring := s.ring.advance pos, sweep := some (.stored taken) }
  | release (taken : List Relocation) (h : s.sweep = some (.stored taken)) :
      Step s .release { s with sweep := none, results := s.results ++ [taken] }

theorem step_of_move {s t : Shared ι} {m : Move ι} (h : s.move m = some t) : Step s m t := by
  cases m with
  | call i e =>
    simp only [move] at h
    split at h <;> cases h
    exact .call i e ‹_›
  | test i =>
    simp only [move] at h
    split at h <;> cases h
    rename_i e head hi
    cases hf : full head s.ring.tail with
    | true => exact .refuse i e head hi hf
    | false => exact .pass i e head hi hf
  | swap i spurious =>
    simp only [move] at h
    split at h
    · rename_i e head hi
      split at h
      · rename_i ring hr
        cases h
        -- a swap that has worked was not spurious, and `head` is still what the producer has seen
        have hs : spurious = false ∧ s.ring.head = head ∧ s.ring.grow = ring := by
          cases spurious <;> simp [Ring.claim] at hr
          exact ⟨rfl, hr⟩
        obtain ⟨rfl, rfl, rfl⟩ := hs
        exact .claim i e hi
      · cases h
        exact .retry i spurious e head hi
    · cases h
  | fill i =>
    simp only [move] at h
    split at h <;> cases h
    exact .fill i _ _ ‹_›
  | publish i =>
    simp only [move] at h
    split at h <;> cases h
    exact .publish i _ _ ‹_›
  | giveUp i =>
    simp only [move] at h
    split at h <;> cases h
    exact .giveUp i _ ‹_›
  | lock =>
    simp only [move] at h
    split at h <;> cases h
    exact .lock ‹_›
  | readTail =>
    simp only [move] at h
    split at h <;> cases h
    exact .readTail ‹_›
  | readHead =>
    simp only [move] at h
    split at h <;> cases h
    exact .readHead _ ‹_›
  | probe =>
    simp only [move] at h
    split at h <;> cases h
    rename_i head pos taken hw
    -- the end has been reached, or the slot is not stamped: either way the drain stops
    by_cases hc : pos < head ∧ s.ring.published pos = true
    · simpa [hc] using Step.find head pos taken hw hc.1 hc.2
    · have hn : (decide (pos < head) && s.ring.published pos) = false := by simpa using hc
      rw [hn]
      exact .stop head pos taken hw (by simpa using hc)
  | take =>
    simp only [move] at h
    split at h <;> cases h
    exact .take _ _ _ ‹_›
  | storeTail =>
    simp only [move] at h
    split at h <;> cases h
    exact .storeTail _ _ ‹_›
  | release =>
    simp only [move] at h
    split at h <;> cases h
    exact .release _ ‹_›

/-! ## Calls that nobody comes into -/

/-- The accesses of a producer, one after the other, append a relocation. -/
theorem enqueue_alone {s : Shared ι} {i : ι} (h : s.stage i = .idle) (e : Relocation) :
    ∃ ms, s.run ms = some { s with
      ring := (s.ring.enqueue e).1
      calls := s.calls ++ [(i, e)]
      claims := s.claims ++ if (s.ring.enqueue e).2 then [(i, e)] else [] } := by
  have hidle : Function.update s.stage i Stage.idle = s.stage := by simp [← h]
  cases hf : full s.ring.head s.ring.tail with
  | true =>
    refine ⟨[.call i e, .test i, .giveUp i], ?_⟩
    simp [run_cons, move, setStage, enqueue, h, hf, hidle]
  | false =>
    refine ⟨[.call i e, .test i, .swap i false, .fill i, .publish i], ?_⟩
    simp [run_cons, move, setStage, enqueue, claim, h, hf, hidle]

/-- Probing and reading go on for as long as relocations are to be had. -/
theorem collect_alone {s : Shared ι} {head pos : UInt64} {taken : List Relocation} {fuel : Nat}
    (h : s.sweep = some (.scanning head pos taken)) (hfuel : head.toNat ≤ pos.toNat + fuel) :
    ∃ ms, s.run ms = some { s with
      sweep := some
        (.stopped (s.ring.collect head fuel pos).2
          (taken ++ (s.ring.collect head fuel pos).1)) } := by
  induction fuel generalizing s pos taken with
  | zero =>
    refine ⟨[.probe], ?_⟩
    have hover : ¬pos < head := by
      rw [UInt64.lt_iff_toNat_lt]
      omega
    simp [run_cons, move, h, hover, collect]
  | succ fuel ih =>
    by_cases hlt : pos < head
    · cases hp : s.ring.published pos with
      | true =>
        have hsucc : (pos + 1).toNat = pos.toNat + 1 := by
          have := head.toNat_lt
          have := UInt64.lt_iff_toNat_lt.mp hlt
          exact toNat_succ (by omega)
        obtain ⟨ms, hms⟩ := ih (s := { s with
          sweep := some (.scanning head (pos + 1) (taken ++ [s.ring.eventAt pos])) })
          rfl (by rw [hsucc]; omega)
        -- one stamp is tested and one relocation read before the rest
        refine ⟨.probe :: .take :: ms, ?_⟩
        simpa [run_cons, move, h, hlt, hp, collect, look_eq] using hms
      | false =>
        refine ⟨[.probe], ?_⟩
        simp [run_cons, move, h, hlt, hp, collect, look_eq]
    · refine ⟨[.probe], ?_⟩
      simp [run_cons, move, h, hlt, collect]

/-- The accesses of a consumer, one after the other, take out all that has been published. -/
theorem drain_alone {s : Shared ι} (h : s.sweep = none)
    (hroom : s.ring.head.toNat ≤ s.ring.tail.toNat + capacity) :
    ∃ ms, s.run ms = some { s with
      ring := s.ring.drain.2
      results := s.results ++ [s.ring.drain.1] } := by
  obtain ⟨ms, hms⟩ := collect_alone (s := { s with
    sweep := some (.scanning s.ring.head s.ring.tail []) }) rfl hroom
  refine ⟨[.lock, .readTail, .readHead] ++ ms ++ [.storeTail, .release], ?_⟩
  have hstart : s.run [.lock, .readTail, .readHead] = some { s with
      sweep := some (.scanning s.ring.head s.ring.tail []) } := by
    simp [run_cons, move, h]
  rw [run_append, run_append, hstart, Option.bind_some, hms, Option.bind_some]
  simp [run_cons, move, drain, h]

end Shared

end Ring

end BlockLedger
