import BlockLedger.Worker

/-
# Hosts of a worker

A host sends signals to its worker, which takes them when it gets to it, and lets time pass.  Here
the worker gets to it as soon as the host waits for something: everything that was sent before is
then taken, and the time that is waited may bring the worker to the end of its patience.
-/

namespace BlockLedger

/-- What a host does. -/
inductive Deed where
  | send (signal : Signal)
  /-- Waits for some time. -/
  | pause (millis : Nat)
  /-- Waits until a number of collectors were started. -/
  | await (built : Nat)
  deriving DecidableEq, Inhabited, Repr

/-- A worker with the signals that it has not taken yet. -/
structure Host (C S : Type) where
  worker : Worker C S
  queued : List Signal := []
  /-- How long the worker has been waiting, in milliseconds. -/
  waited : Nat := 0

namespace Host

variable {C S : Type} [Catalog C] [Sink S]

/-- Has the worker take an arrival.  It starts to wait anew, unless it was waiting for the end of
its recovery and still is. -/
def deliver (h : Host C S) (a : Arrival) : Host C S :=
  let worker := h.worker.take a
  let waited :=
    if h.worker.state = .recovering ∧ worker.state = .recovering then h.waited else 0
  { h with worker, waited }

/-- Has the worker take what was sent. -/
def settle (h : Host C S) : Host C S :=
  h.queued.foldl (fun h s => h.deliver (.signal s)) { h with queued := [] }

/-- Sends a signal.  Nobody takes it from a worker that has stopped. -/
def send (h : Host C S) (s : Signal) : Host C S :=
  if h.worker.state = .stopped then { h with worker := h.worker.report .signalDropped }
  else { h with queued := h.queued ++ [s] }

/-- Lets time pass.  Every end of the worker's patience takes away at least a millisecond of
`fuel`. -/
def elapse : Nat → Nat → Host C S → Host C S
  | 0, _, h => h
  | fuel + 1, millis, h =>
    let left := h.worker.patience - h.waited
    if h.worker.state = .stopped || millis < left then { h with waited := h.waited + millis }
    else elapse fuel (millis - left) (h.deliver .timeout)

/-- Does one thing. -/
def act (h : Host C S) : Deed → Host C S
  | .send s => h.send s
  | .pause millis => elapse (millis + 1) millis h.settle
  | .await built =>
    let h := h.settle
    if h.worker.state = .recovering ∧ h.worker.built < built then h.deliver .timeout else h

/-- Hangs up, again and again as long as the worker comes back, at most `fuel` times. -/
def hangUp : Nat → Host C S → Host C S
  | 0, h => h
  | fuel + 1, h => if h.worker.state = .stopped then h else hangUp fuel (h.deliver .hangup)

/-- Does things one after the other, then hangs up and waits for the worker to stop. -/
def run (h : Host C S) (deeds : List Deed) : Host C S :=
  hangUp 1000 (deeds.foldl act h).settle

end Host

end BlockLedger
