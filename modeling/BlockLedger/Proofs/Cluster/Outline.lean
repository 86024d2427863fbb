import BlockLedger.Proofs.Cluster.Crediting
import BlockLedger.Proofs.Cluster.Transparency

/-
# Outlines

The outline of an interplay is all of it but the pages on the device, and what waits in the slots of
asynchronous reads.  Whatever happens in an interplay but calls and completions goes by the outline
alone.  A call of a member that counts right above the device goes by the outline and by the pages of
the fork that it is made for.
-/

namespace BlockLedger

/-! ## What an outline is -/

/-- A backend, but for what waits in its slots. -/
def Backend.outline (b : Backend) : Backend := { b with slots := { capacity := b.slots.capacity } }

/-- A member, but for what waits in its slots. -/
def Member.outline (m : Member) : Member := { m with backend := m.backend.outline }

/-- What a request can reach, but for the pages and what waits in the slots. -/
def Site.outline {P : Type} (s : Site P) : Site P :=
  { s with backend := s.backend.outline, device := {} }

/-- An interplay, but for the pages and what waits in the slots. -/
def Interplay.outline {P C S : Type} (s : Interplay P C S) : Interplay P C S :=
  s.withCluster { s.cluster with members := s.cluster.members.map Member.outline, device := {} }

theorem Backend.outline_finish {C : Type} [Catalog C] (b : Backend) (work : Work) (l : Ledger)
    (catalog : C) :
    b.outline.finish work l catalog =
      ((b.finish work l catalog).1, (b.finish work l catalog).2.1.outline,
        (b.finish work l catalog).2.2) := by
  simp only [finish]
  split <;> rfl

/-! ## Requests -/

namespace Site

variable {P : Type} (s : Site P)

theorem trackingKey_outline (relation : Relation) (fork : Fork) :
    s.outline.trackingKey relation fork = s.trackingKey relation fork := rfl

theorem outline_register (key : Key) : (s.register key).outline = s.outline.register key := by
  rw [register_eq, register_eq]
  rfl

theorem outline_introduce (relation : Relation) (fork : Fork) :
    (s.introduce relation fork).outline = s.outline.introduce relation fork := by
  simp only [introduce, trackingKey_outline]
  split
  · exact s.outline_register _
  · rfl

theorem outline_update (key : Key) (f : Entry → Entry) :
    (s.update key f).outline = s.outline.update key f := by
  simp only [update, ← s.outline_register key]
  rfl

theorem outline_account (q : Request P) (block count : BlockNumber) (d : Direction) :
    (s.account q block count d).outline = s.outline.account q block count d := by
  simp only [account, trackingKey_outline]
  split
  · rfl
  · exact outline_update _ _ _

theorem outline_bump (q : Request P) (f : Entry → Entry) :
    (s.bump q f).outline = s.outline.bump q f := by
  simp only [bump, trackingKey_outline]
  split
  · rfl
  · exact outline_update _ _ _

theorem outline_count (q : Request P) : (s.count q).outline = s.outline.count q := by
  obtain ⟨relation, fork, operation⟩ := q
  cases operation with
  | attach => exact s.outline_introduce relation .main
  | create old redo =>
    simp only [count]
    split
    · exact outline_introduce _ relation fork
    · exact s.outline_introduce relation fork
  | submit => rfl
  | read | write => exact s.outline_account ..
  | append | lengthen | truncate | sync => exact s.outline_bump ..

/-- What is staged is no part of the outline, but what comes with it is. -/
theorem outline_prepare (q : Request P) : (s.prepare q).outline = (s.outline.prepare q).outline := by
  simp only [prepare]
  split
  · rename_i handle block _
    simp only [stage, trackingKey_outline]
    split
    · rfl
    · rename_i key _
      rw [← s.outline_register key]
      generalize s.register key = t
      rfl
  · rfl

theorem trackingKey_of_off (hoff : s.ledger.tunables.tempTracking = .off) {relation : Relation}
    (h : relation.temporary = true) (fork : Fork) : s.trackingKey relation fork = none := by
  simp [trackingKey, Ledger.trackingKey, h, hoff]

/-- If temporary relations are not tracked, what is done to them is not counted. -/
theorem count_eq_self (hoff : s.ledger.tunables.tempTracking = .off) {q : Request P}
    (hq : q.relation.temporary = true) : s.count q = s := by
  have hkey := s.trackingKey_of_off hoff hq
  obtain ⟨relation, fork, operation⟩ := q
  cases operation with
  | attach => simp only [count, introduce, hkey]
  | create old redo =>
    have hstays : relocates (⟨relation, fork, .create old redo⟩ : Request P) old = false := by
      simp [relocates, show relation.temporary = true from hq]
    simp only [count, hstays, Bool.false_eq_true, if_false, introduce, hkey]
  | submit => rfl
  | read | write => simp only [count, account, hkey]
  | append | lengthen | truncate | sync => simp only [count, bump, hkey]

/-- What a request makes of an outline, when the device has answered it. -/
def answered (q : Request P) (answer : Except CallError (List P)) : Site P :=
  match answer with
  | .ok _ => (s.prepare q).outline.count q
  | .error _ => (s.prepare q).outline

/-- If temporary relations are not tracked, the outline shows nothing of what is done to them. -/
theorem answered_outline (hoff : s.ledger.tunables.tempTracking = .off) {q : Request P}
    (hq : q.relation.temporary = true) (answer : Except CallError (List P)) :
    s.outline.answered q answer = s.outline := by
  have hkey := s.outline.trackingKey_of_off hoff hq q.fork
  have hprepare : (s.outline.prepare q).outline = s.outline := by
    simp only [prepare]
    split
    · simp only [stage, hkey]
      rfl
    · rfl
  cases answer with
  | ok pages => exact (congrArg (count · q) hprepare).trans (s.outline.count_eq_self hoff hq)
  | error e => exact hprepare

end Site

namespace Chain

variable {P : Type} (blank : P) (q : Request P) (s : Site P)

/-- What the outline is after a call goes by the outline before it and by what the device says. -/
theorem outline_direct :
    (call blank direct q s).2.outline = s.outline.answered q (s.device.serve blank q).1 := by
  simp only [direct, call, Device.serve, s.device_prepare]
  cases s.device.perform blank q with
  | error e => exact s.outline_prepare q
  | ok r =>
    have hcount := Site.outline_count { s.prepare q with device := r.2 } q
    refine hcount.trans (congrArg (Site.count · q) ?_)
    exact s.outline_prepare q

end Chain

namespace Storage

variable {P : Type} {hidden : Locator → Prop} {d d' : Storage P}

/-- Two storages are the same but for the pages of hidden relations. -/
structure Agrees (hidden : Locator → Prop) (d d' : Storage P) : Prop where
  members : d'.members = d.members
  forks : ∀ k, ¬ hidden k.locator → d'.device.fork? k = d.device.fork? k

theorem Agrees.refl (d : Storage P) : d.Agrees hidden d := ⟨rfl, fun _ _ => rfl⟩

/-- As long as nobody calls for a hidden relation, all are told the same. -/
theorem Agrees.step (h : d.Agrees hidden d') (blank : P) {a : Act P}
    (ha : ∀ i q, a = .call i q → ¬ hidden q.relation.locator) :
    (d'.step blank a).1 = (d.step blank a).1 ∧
      (d.step blank a).2.Agrees hidden (d'.step blank a).2 := by
  cases a with
  | call i q =>
    obtain ⟨hanswer, hfork⟩ := Device.serve_congr blank (h.forks q.key (ha i q rfl))
    simp only [Storage.step, h.members]
    split
    · refine ⟨congrArg (some ∘ Answer.call) hanswer, rfl, fun k hk => ?_⟩
      by_cases hkey : k = q.key
      · rw [hkey]
        exact hfork
      · dsimp only
        rw [Device.fork?_serve_of_ne hkey, Device.fork?_serve_of_ne hkey]
        exact h.forks k hk
    · exact ⟨rfl, h⟩
  | join => exact ⟨rfl, congrArg (· + 1) h.members, h.forks⟩
  | _ => exact ⟨rfl, h⟩

/-- A call for a hidden relation can be left out. -/
theorem Agrees.skip (h : d.Agrees hidden d') (blank : P) (i : Nat) {q : Request P}
    (hq : hidden q.relation.locator) : (d.step blank (.call i q)).2.Agrees hidden d' := by
  simp only [Storage.step]
  split
  · refine ⟨h.members, fun k hk => ?_⟩
    have hne : k ≠ q.key := by
      rintro rfl
      exact hk hq
    dsimp only
    rw [Device.fork?_serve_of_ne hne]
    exact h.forks k hk
  · exact h

end Storage

/-! ## Interplays -/

namespace Act

/-- Whether a member acts by way of its chain. -/
def chained {P : Type} : Act P → Bool
  | call .. | complete .. => true
  | _ => false

end Act

namespace Interplay

variable {P C S : Type}

section Members

variable (s : Interplay P C S)

theorem outline_member (i : Nat) :
    s.outline.cluster.members[i]? = s.cluster.members[i]?.map Member.outline :=
  List.getElem?_map

theorem outline_withBackend (i : Nat) (b : Backend) (ledger : Ledger) (catalog : C) :
    (s.withCluster { s.cluster.withBackend i b with ledger, catalog }).outline =
      s.outline.withCluster
        { s.outline.cluster.withBackend i b.outline with ledger, catalog } := by
  have hmembers := map_modify Member.outline (fun m => { m with backend := b.outline })
    (f := fun m => { m with backend := b }) (fun _ => rfl) s.cluster.members i
  simp only [outline, withCluster, Cluster.withBackend, hmembers]

theorem outline_withSite (i : Nat) (site : Site P) :
    (s.withCluster (s.cluster.withSite i site)).outline =
      s.outline.withCluster (s.outline.cluster.withSite i site.outline) :=
  s.outline_withBackend i site.backend site.ledger s.cluster.catalog

theorem outline_withStore (store : Store) :
    (s.withStore store).outline = s.outline.withStore store := rfl

/-- The number of slots of a member is part of the outline. -/
theorem capacity_outline (i : Nat) :
    (s.outline.gear? i).map (fun g => g.slots.capacity) =
      (s.gear? i).map fun g => g.slots.capacity := by
  simp only [gear?, s.outline_member i]
  cases s.cluster.members[i]? <;> rfl

/-- What is decided about a read when it is submitted goes by the outline, and by what comes of the
submission. -/
theorem takeoff?_outline (blank : P) (i : Nat) (q : Request P) :
    s.takeoff? blank i q =
      match s.outline.cluster.members[i]?, (s.cluster.call blank i q).1 with
      | some m, .ok _ => (s.outline.cluster.siteOf m).flight? q
      | _, _ => none := by
  simp only [takeoff?, s.outline_member i]
  cases s.cluster.members[i]? with
  | none => rfl
  | some m => cases (s.cluster.call blank i q).1 <;> rfl

/-- What a call makes of an outline, when the device has answered it. -/
def answered (i : Nat) (q : Request P) (answer : Except CallError (List P)) : Interplay P C S :=
  match s.cluster.members[i]? with
  | none => s
  | some m => s.withCluster (s.cluster.withSite i ((s.cluster.siteOf m).answered q answer))

/-- If temporary relations are not tracked, the outline shows nothing of the calls for them. -/
theorem answered_outline (hoff : s.cluster.ledger.tunables.tempTracking = .off) (i : Nat)
    {q : Request P} (hq : q.relation.temporary = true) (answer : Except CallError (List P)) :
    s.outline.answered i q answer = s.outline := by
  simp only [answered, s.outline_member i]
  cases hm : s.cluster.members[i]? with
  | none => rfl
  | some m =>
    have hsite : (s.outline.cluster.siteOf m.outline).answered q answer =
        s.outline.cluster.siteOf m.outline :=
      (s.cluster.siteOf m).answered_outline hoff hq answer
    have hm' : s.outline.cluster.members[i]? = some m.outline := by
      rw [s.outline_member, hm, Option.map_some]
    dsimp only [Option.map_some]
    rw [hsite]
    exact withSite_siteOf hm' s.store

end Members

variable [Catalog C] [Sink S]

theorem outline_cycle (s : Interplay P C S) :
    (s.withCluster s.cluster.cycle.2).outline =
      s.outline.withCluster s.outline.cluster.cycle.2 := by
  simp only [Cluster.cycle, outline, withCluster]

/-- What happens apart from calls and completions goes by the outline alone. -/
theorem outline_step (blank : P) (s : Interplay P C S) {a : Act P} (ha : a.chained = false) :
    (s.step blank a).outline = s.outline.step blank a := by
  have hwalk : s.outline.walk = s.walk := rfl
  have hstore : s.outline.store = s.store := rfl
  cases a with
  | call | complete => cases ha
  | join session concurrency classes chain =>
    simp only [step, outline, withCluster, List.map_append]
    rfl
  | reload | tick | peek => rfl
  | session i f =>
    have hmembers := map_modify Member.outline
      (fun m => { m with backend := m.backend.withSession f })
      (f := fun m => { m with backend := m.backend.withSession f }) (fun _ => rfl)
      s.cluster.members i
    simp only [step, outline, withCluster, Cluster.withSession, hmembers]
  | finish i work =>
    simp only [step, Cluster.finish, s.outline_member i]
    cases s.cluster.members[i]? with
    | none => rfl
    | some m =>
      simp only [Option.map_some, Member.outline, Backend.outline_finish]
      exact s.outline_withBackend ..
  | flush i =>
    simp only [step, s.outline_member i]
    cases s.cluster.members[i]? with
    | none => rfl
    | some m => exact s.outline_withBackend ..
  | shutdown i =>
    simp only [step, Cluster.shutdown, s.outline_member i]
    cases s.cluster.members[i]? with
    | none => rfl
    | some m => exact s.outline_withBackend ..
  | conclude =>
    simp only [step, outline, withCluster]
    cases s.returned.getLast? with
    | none => rfl
    | some r => dsimp only
  | close =>
    simp only [step, hwalk, hstore]
    generalize s.store.close = closed
    cases s.walk <;> rfl
  | cycle =>
    simp only [step, hwalk, hstore]
    generalize s.store.close = closed
    cases s.walk with
    | none => exact congrArg (handBack · closed.1 closed.2.1) s.outline_cycle
    | some w => rfl
  | openWalk =>
    simp only [step, hwalk, hstore]
    generalize s.store.nextBucket = turned
    cases s.walk <;> rfl
  | list | endWalk =>
    simp only [step, hwalk]
    cases s.walk with
    | none => rfl
    | some w =>
      dsimp only
      split <;> rfl
  | visit key =>
    simp only [step, hwalk, hstore]
    generalize s.store.take key = taken
    cases s.walk with
    | none => rfl
    | some w =>
      dsimp only
      split <;> rfl

theorem outline_turn (blank : P) (s : Interplay P C S) {t : Turn P C}
    (ht : ∀ a, t = .act a → a.chained = false) : (s.turn blank t).outline = s.outline.turn blank t := by
  cases t with
  | act a => exact s.outline_step blank (ht a rfl)
  | catalog catalog => rfl
  | classes i classes =>
    have hmembers := map_modify Member.outline
      (fun m => { m with backend := { m.backend with classes } })
      (f := fun m => { m with backend := { m.backend with classes } }) (fun _ => rfl)
      s.cluster.members i
    simp only [turn, outline, withCluster, hmembers]

/-- What a call of a member that counts right above the device makes of the outline. -/
theorem outline_call (blank : P) {s : Interplay P C S}
    (hs : ∀ chain ∈ s.chains, chain = Chain.direct) (i : Nat) (q : Request P) :
    (s.step blank (.call i q)).outline =
      s.outline.answered i q (s.cluster.device.serve blank q).1 := by
  simp only [step, Cluster.call, answered, s.outline_member i]
  cases hm : s.cluster.members[i]? with
  | none => rfl
  | some m =>
    have hchain : m.chain = Chain.direct :=
      hs m.chain (List.mem_map_of_mem (List.mem_of_getElem? hm))
    dsimp only [Option.map_some]
    rw [s.outline_withSite, hchain, Chain.outline_direct]
    rfl

end Interplay

end BlockLedger
