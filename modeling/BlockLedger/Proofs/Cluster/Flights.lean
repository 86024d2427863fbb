import BlockLedger.Proofs.Cluster.Leftover
import BlockLedger.Proofs.Cluster.Touches

/-
# Runs on their way into an entry

The detector of a backend tells that a run has ended, and how long it was, when an access starts
elsewhere.  From there the run gets into the entry at once if the access has come back already.  If
it is an asynchronous read, the run is staged with it, and gets into the entry when the read is
completed, whether that goes well or not.
-/

namespace BlockLedger

/-! ## Runs in entries -/

/-- How many runs in one direction have been recorded. -/
def Tally.ofRuns (d : Direction) : Tally where
  value e := (e.traffic d).runs.count
  posted p :=
    match p.charge with
    | .access d' _ _ a => if d' = d ∧ a.ended ≠ 0 then 1 else 0
    | _ => 0
  ended r := if r.direction = d ∧ r.blocks ≠ 0 then 1 else 0
  value_new k := by rw [Entry.traffic_new]; rfl
  value_reset e := by rw [Entry.traffic_reset]; rfl
  value_identify e i := by rw [Entry.traffic_identify]
  value_apply p e := by
    obtain ⟨k, c, now⟩ := p
    cases c with
    | extension | truncation | sync =>
      simp only [Charge.apply, Entry.traffic_touch]
      cases d <;> rfl
    | access d' blocks us a =>
      have hruns : ((e.traffic d').account blocks us a now).runs =
          ((e.traffic d').endRun a.ended).runs := by
        unfold Traffic.account Traffic.classify Traffic.endRun
        split <;> split <;> rfl
      simp only [Charge.apply, Entry.account, Entry.traffic_touch, Entry.traffic_withTraffic]
      split
      · subst d'
        rw [hruns, Entry.runs_endRun]
        by_cases ha : a.ended = 0 <;> simp [ha]
      · simp [*]
  value_endRun r e := by
    rw [Entry.traffic_withTraffic]
    split
    · subst d
      rw [Entry.runs_endRun]
      by_cases hr : r.blocks = 0 <;> simp [hr]
    · simp [*]

/-! ## Slots -/

/-- Whether the completion of a read records a run under a key. -/
def Staged.owes (x : Staged) (k : Key) (d : Direction) : Bool :=
  x.tracked ∧ x.key = some k ∧ d = .read ∧ x.access.ended ≠ 0

namespace Slots

/-- What is in the slot of a read. -/
def content (s : Slots) (id : Nat) : Staged := s.staged.getD (s.slotOf id) {}

variable (s : Slots)

theorem content_stage (id other : Nat) (f : Staged → Staged) :
    (s.stage id f).content other =
      if s.slotOf id = s.slotOf other then f (s.content id) else s.content other := by
  have hslot : (s.stage id f).slotOf other = s.slotOf other := rfl
  rw [content, hslot, stage, Std.HashMap.getD_insert]
  simp [content]

theorem content_new (concurrency id : Nat) : (Slots.new concurrency).content id = {} := by
  simp [content, Slots.new]

theorem get?_eq (id : Nat) :
    (s.get? id = none ∧ s.content id = {}) ∨ s.get? id = some (s.content id) := by
  unfold get?
  split
  · rename_i h
    refine .inl ⟨rfl, ?_⟩
    simp [content, Std.HashMap.getD_of_isEmpty h]
  · exact .inr rfl

end Slots

namespace Site

variable {P : Type} (s : Site P) (k : Key) (d : Direction)

/-- A read that is completed records the run that it has ended, however the completion went. -/
theorem marked_settlement (handle : Handle) (result : Completion) :
    (Tally.ofRuns d).marked k (s.settlement handle result) =
      if (s.backend.slots.content handle.id).owes k d then 1 else 0 := by
  unfold settlement credit? lateRun?
  rcases s.backend.slots.get?_eq handle.id with ⟨hget, hcontent⟩ | hget
  · rw [hget, hcontent]
    cases result.isOk <;> rfl
  · rw [hget]
    rcases s.backend.slots.content handle.id with ⟨started, access, _ | key, _ | _⟩
    · cases result.isOk <;> rfl
    · cases result.isOk <;> rfl
    · cases result.isOk <;> rfl
    · -- a read that is tracked records the run either way, with its charge or without one
      have howes : Staged.owes ⟨started, access, some key, true⟩ k d =
          decide (key = k ∧ .read = d ∧ access.ended ≠ 0) := by
        simp [Staged.owes, eq_comm]
      rw [howes]
      by_cases hk : key = k <;> cases result.isOk <;>
        simp [Tally.marked_singleton, Tally.amount, Tally.ofRuns, Mark.key?, hk]

/-- An access that has come back records the run that it has ended. -/
theorem marked_due (q : Request P) :
    (Tally.ofRuns d).marked k ((s.due? q).toList.map .posted) =
      (s.accessed? q).toList.countP (s.backend.runs.ends k d) := by
  unfold due? accessed?
  cases hkey : s.trackingKey q.relation q.fork with
  | none => cases q.operation <;> rfl
  | some key =>
    have hposted : ∀ (d' : Direction) (block count : BlockNumber),
        (Tally.ofRuns d).marked k [.posted ⟨key, .access d' count.toNat s.ledger.clock.lag
          (s.backend.runs.check q.key block count d').1, s.ledger.clock.now⟩] =
        [(⟨q.key, key, d', block, count⟩ : Touch)].countP (s.backend.runs.ends k d) := by
      intro d' block count
      rw [Tally.marked_singleton, List.countP_singleton]
      by_cases hk : key = k <;>
        simp [Tally.amount, Tally.ofRuns, Mark.key?, Runs.ends, Runs.judge, hk]
    have hother : ∀ c : Charge, (∀ d' n us a, c ≠ .access d' n us a) →
        (Tally.ofRuns d).marked k [.posted ⟨key, c, s.ledger.clock.now⟩] = 0 := by
      intro c hc
      cases c with
      | access d' n us a => exact absurd rfl (hc d' n us a)
      | _ => simp [Tally.marked_singleton, Tally.amount, Tally.ofRuns]
    unfold charge?
    cases q.operation with
    | attach | create | submit => rfl
    | read block n => exact hposted .read block (UInt32.ofNat n)
    | write block pages => exact hposted .write block (UInt32.ofNat pages.length)
    | append | lengthen | truncate | sync => exact hother _ (by simp)

/-- An asynchronous read stages the run that it has ended. -/
theorem owes_prepare {q : Request P} {handle : Handle} {block : BlockNumber}
    (hq : q.operation = .submit handle block) :
    (s.submitted? q).toList.countP (s.backend.runs.ends k d) =
      if ((s.prepare q).backend.slots.content handle.id).owes k d then 1 else 0 := by
  have hprepare : s.prepare q = s.stage q handle block := by
    rw [prepare, hq]
  rw [hprepare]
  cases hkey : s.trackingKey q.relation q.fork with
  | none => simp [submitted?, hq, stage, hkey, Slots.content_stage, Staged.owes]
  | some key =>
    have hruns := s.runs_register key
    simp only [submitted?, hq, stage, hkey, classify, hruns, Slots.content_stage, if_true]
    by_cases hk : key = k <;> cases d <;> simp [Runs.ends, Runs.judge, Staged.owes, hk]

theorem content_prepare {q : Request P} {id : Nat}
    (h : ∀ handle block, q.operation = .submit handle block →
      s.backend.slots.slotOf id ≠ s.backend.slots.slotOf handle.id) :
    (s.prepare q).backend.slots.content id = s.backend.slots.content id := by
  unfold prepare
  split
  · rename_i handle block hq
    have hne := (h handle block hq).symm
    unfold stage
    split
    · rw [Slots.content_stage, if_neg hne]
    · rename_i key _
      obtain ⟨pending, hregister⟩ := s.backend_register key
      simp only [classify, hregister, Slots.content_stage, if_neg hne]
  · rfl

end Site

/-! ## Counting right above the device -/

namespace Chain

variable {P : Type} (blank : P) (q : Request P) (s : Site P)

/-- A request either fails on the device, or is carried out there and then counted. -/
theorem direct_cases :
    (∃ e, call blank direct q s = (.error e, s.prepare q) ∧ dues blank direct q s = [] ∧
      touches blank direct q s = (s.submitted? q).toList) ∨
    ∃ pages, ∃ t : Site P, call blank direct q s = (.ok pages, t.count q) ∧
      t.backend = (s.prepare q).backend ∧ dues blank direct q s = (t.due? q).toList ∧
      touches blank direct q s = (s.submitted? q).toList ++ (t.accessed? q).toList := by
  simp only [direct, call, dues, touches]
  cases (s.prepare q).device.perform blank q with
  | error e => exact .inl ⟨e, rfl, rfl, by simp⟩
  | ok r => exact .inr ⟨r.1, { s.prepare q with device := r.2 }, rfl, rfl, by simp, by simp⟩

theorem slots_direct : (call blank direct q s).2.backend.slots = (s.prepare q).backend.slots := by
  rcases direct_cases blank q s with ⟨e, hcall, -⟩ | ⟨pages, t, hcall, hbackend, -⟩
  · rw [hcall]
  · obtain ⟨pending, h⟩ := t.backend_count q
    rw [hcall, h, ← hbackend]

variable {q}

/-- What a call has ended is recorded by the call, unless it submits an asynchronous read. -/
theorem marked_dues (hq : ∀ handle block, q.operation ≠ .submit handle block) (k : Key)
    (d : Direction) :
    (Tally.ofRuns d).marked k ((dues blank direct q s).map .posted) =
      (touches blank direct q s).countP (s.backend.runs.ends k d) := by
  have hsubmitted : s.submitted? q = none := by
    unfold Site.submitted?
    split
    · rename_i handle block h
      exact absurd h (hq handle block)
    · rfl
  rcases direct_cases blank q s with ⟨e, -, hdues, htouches⟩ | ⟨-, t, -, hbackend, hdues, htouches⟩
  · rw [hdues, htouches, hsubmitted]
    rfl
  · rw [hdues, htouches, hsubmitted, t.marked_due, hbackend, s.prepare_eq_self hq]
    rfl

/-- A submission is not counted, but the detector has been told. -/
theorem dues_submit {handle : Handle} {block : BlockNumber}
    (hq : q.operation = .submit handle block) :
    dues blank direct q s = [] ∧ touches blank direct q s = (s.submitted? q).toList := by
  rcases direct_cases blank q s with ⟨e, -, hdues, htouches⟩ | ⟨-, t, -, -, hdues, htouches⟩
  · exact ⟨hdues, htouches⟩
  · have hdue : t.due? q = none := by
      unfold Site.due? Site.charge?
      rw [hq]
      split <;> rfl
    have haccessed : t.accessed? q = none := by
      unfold Site.accessed?
      rw [hq]
    rw [hdues, htouches, hdue, haccessed]
    exact ⟨rfl, List.append_nil _⟩

/-- The detector is told about at most one access. -/
theorem touches_direct (q : Request P) :
    touches blank direct q s = [] ∨ ∃ u, touches blank direct q s = [u] := by
  have hoption : ∀ o : Option Touch, o.toList = [] ∨ ∃ u, o.toList = [u] := by
    rintro (_ | u)
    · exact .inl rfl
    · exact .inr ⟨u, rfl⟩
  by_cases hq : ∃ handle block, q.operation = .submit handle block
  · obtain ⟨handle, block, hq⟩ := hq
    rw [(dues_submit blank s hq).2]
    exact hoption _
  · have hsubmitted : s.submitted? q = none := by
      unfold Site.submitted?
      split
      · rename_i handle block h
        exact absurd ⟨handle, block, h⟩ hq
      · rfl
    rcases direct_cases blank q s with ⟨e, -, -, htouches⟩ | ⟨-, t, -, -, -, htouches⟩
    · rw [htouches]
      exact hoption _
    · rw [htouches, hsubmitted]
      exact hoption _

end Chain

end BlockLedger
