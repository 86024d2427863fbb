import BlockLedger.Proofs.Cluster.Conservation
import BlockLedger.Proofs.Runs.Counting

/-
# What the run detectors take in

A counting link tells the run detector of its backend about an access when it has come back
successful, and about an asynchronous read already when it passes it on.  All other acts leave the
detectors alone, but for that of a backend that hands out its open runs: it forgets everything.  So
what a detector remembers is told from the accesses of its backend since then.
-/

namespace BlockLedger

/-! ## One link -/

namespace Site

variable {P : Type} (s : Site P) (q : Request P)

/-- The access that the detector is told about before a request is passed on. -/
def submitted? : Option Touch :=
  match q.operation with
  | .submit handle block =>
    (s.trackingKey q.relation q.fork).map fun key => ⟨q.key, key, .read, block, handle.blocks⟩
  | _ => none

/-- The access that the detector is told about once a request has been carried out. -/
def accessed? : Option Touch :=
  match q.operation with
  | .read block n =>
    (s.trackingKey q.relation q.fork).map fun key => ⟨q.key, key, .read, block, UInt32.ofNat n⟩
  | .write block pages =>
    (s.trackingKey q.relation q.fork).map fun key =>
      ⟨q.key, key, .write, block, UInt32.ofNat pages.length⟩
  | _ => none

variable {s q} in
theorem fork_of_submitted? {t : Touch} (h : s.submitted? q = some t) :
    t.fork = q.key ∧ s.trackingKey q.relation q.fork = some t.key := by
  unfold submitted? at h
  split at h
  · obtain ⟨key, hkey, rfl⟩ := Option.map_eq_some_iff.mp h
    exact ⟨rfl, hkey⟩
  · cases h

variable {s q} in
theorem fork_of_accessed? {t : Touch} (h : s.accessed? q = some t) :
    t.fork = q.key ∧ s.trackingKey q.relation q.fork = some t.key := by
  unfold accessed? at h
  split at h
  · obtain ⟨key, hkey, rfl⟩ := Option.map_eq_some_iff.mp h
    exact ⟨rfl, hkey⟩
  · obtain ⟨key, hkey, rfl⟩ := Option.map_eq_some_iff.mp h
    exact ⟨rfl, hkey⟩
  · cases h

theorem runs_register (key : Key) : (s.register key).backend.runs = s.backend.runs := by
  obtain ⟨pending, h⟩ := s.backend_register key
  rw [h]

theorem backend_introduce (relation : Relation) (fork : Fork) :
    ∃ pending, (s.introduce relation fork).backend = { s.backend with pending } := by
  unfold introduce
  split
  · exact s.backend_register _
  · exact ⟨_, rfl⟩

theorem backend_bump (f : Entry → Entry) :
    ∃ pending, (s.bump q f).backend = { s.backend with pending } := by
  unfold bump
  split
  · exact ⟨_, rfl⟩
  · exact s.backend_register _

theorem backend_account (block count : BlockNumber) (d : Direction) :
    ∃ pending, (s.account q block count d).backend =
      { s.backend with
        pending
        runs := s.backend.runs.noteAll ((s.trackingKey q.relation q.fork).map fun key =>
          (⟨q.key, key, d, block, count⟩ : Touch)).toList } := by
  unfold account
  cases s.trackingKey q.relation q.fork with
  | none => exact ⟨_, rfl⟩
  | some key => exact backend_register _ key

/-- Of a request that has been carried out, a backend keeps the access and the need of an
identity. -/
theorem backend_count :
    ∃ pending, (s.count q).backend =
      { s.backend with
        pending
        runs := s.backend.runs.noteAll (s.accessed? q).toList } := by
  obtain ⟨relation, fork, operation⟩ := q
  cases operation with
  | attach => exact s.backend_introduce relation .main
  | create old redo =>
    obtain ⟨pending, h⟩ := backend_introduce
      (if relocates ⟨relation, fork, .create old redo⟩ old then
        { s with ledger := (s.ledger.relocate ⟨old, relation.locator, fork, redo⟩).1 }
      else s) relation fork
    refine ⟨pending, h.trans ?_⟩
    split <;> rfl
  | submit handle block => exact ⟨_, rfl⟩
  | read block n => exact s.backend_account _ block (UInt32.ofNat n) .read
  | write block pages => exact s.backend_account _ block (UInt32.ofNat pages.length) .write
  | append | lengthen | truncate | sync => exact s.backend_bump _ _

variable {q} in
theorem prepare_eq_self (hq : ∀ handle block, q.operation ≠ .submit handle block) :
    s.prepare q = s := by
  unfold prepare
  split
  · rename_i handle block h
    exact absurd h (hq handle block)
  · rfl

theorem runs_prepare :
    (s.prepare q).backend.runs = s.backend.runs.noteAll (s.submitted? q).toList := by
  obtain ⟨relation, fork, operation⟩ := q
  cases operation with
  | submit handle block =>
    unfold prepare submitted? stage
    dsimp only
    cases s.trackingKey relation fork with
    | none => rfl
    | some key =>
      let t : Touch := ⟨⟨relation.locator, fork⟩, key, .read, block, handle.blocks⟩
      exact congrArg (fun r : Runs => r.note t) (s.runs_register key)
  | _ => rfl

/-- The key of an access has an entry by the time that the detector knows of it. -/
theorem find?_prepare {t : Touch} (h : s.submitted? q = some t) :
    ((s.prepare q).ledger.store.find? t.key).isSome := by
  obtain ⟨relation, fork, operation⟩ := q
  cases operation with
  | submit handle block =>
    unfold prepare stage
    unfold submitted? at h
    dsimp only at h ⊢
    obtain ⟨key, hkey, rfl⟩ := Option.map_eq_some_iff.mp h
    rw [hkey]
    exact s.find?_register key
  | _ => cases h

theorem find?_account {block count : BlockNumber} {d : Direction} {key : Key}
    (h : s.trackingKey q.relation q.fork = some key) :
    ((s.account q block count d).ledger.store.find? key).isSome := by
  unfold account update
  rw [h]
  dsimp only
  rw [Ledger.withStore, Store.find?_modify, if_pos rfl, Option.isSome_map]
  exact find?_register _ key

theorem find?_count {t : Touch} (h : s.accessed? q = some t) :
    ((s.count q).ledger.store.find? t.key).isSome := by
  obtain ⟨-, hkey⟩ := fork_of_accessed? h
  obtain ⟨relation, fork, operation⟩ := q
  cases operation with
  | read block n => exact s.find?_account _ hkey
  | write block pages => exact s.find?_account _ hkey
  | _ => cases h

variable {s} in
/-- What is tracked depends on the tunables alone, and nobody on the way changes them. -/
theorem Moves.trackingKey {t : Site P} {ds : List Mark} (h : s.Moves ds t) (relation : Relation)
    (fork : Fork) : t.trackingKey relation fork = s.trackingKey relation fork := by
  unfold Site.trackingKey Ledger.trackingKey
  rw [h.ledger.tunables]

end Site

/-! ## Along a chain -/

namespace Chain

variable {P : Type} (blank : P)

/-- What the detector is told when a request is sent along a chain. -/
def touches (blank : P) : List Link → Request P → Site P → List Touch
  | [], _, _ => []
  | .device :: _, _, _ => []
  | .passing _ :: rest, q, s => touches blank rest q s
  | .counting :: rest, q, s =>
    (s.submitted? q).toList ++ (touches blank rest q (s.prepare q) ++
      match call blank rest q (s.prepare q) with
      | (.ok _, t) => (t.accessed? q).toList
      | (.error _, _) => [])

theorem runs_call (chain : List Link) (q : Request P) (s : Site P) :
    (call blank chain q s).2.backend.runs = s.backend.runs.noteAll (touches blank chain q s) := by
  induction chain generalizing s with
  | nil => rfl
  | cons link rest ih =>
    cases link with
    | device =>
      unfold call
      split <;> rfl
    | passing name => exact ih s
    | counting =>
      have hrest := ih (s.prepare q)
      rw [s.runs_prepare q] at hrest
      unfold call touches
      rw [Runs.noteAll_append, Runs.noteAll_append, ← hrest]
      rcases call blank rest q (s.prepare q) with ⟨_ | pages, t⟩
      · rfl
      · obtain ⟨pending, h⟩ := t.backend_count q
        rw [h]

/-- All that the detector is told about bears the fork of the request, and the key that this is
counted under. -/
theorem fork_of_mem_touches {chain : List Link} {q : Request P} {s : Site P} {t : Touch}
    (h : t ∈ touches blank chain q s) :
    t.fork = q.key ∧ s.trackingKey q.relation q.fork = some t.key := by
  induction chain generalizing s with
  | nil => cases h
  | cons link rest ih =>
    cases link with
    | device => cases h
    | passing name => exact ih h
    | counting =>
      have hprepare := s.prepare_moves q
      have hcall := call_moves blank rest q (s.prepare q)
      unfold touches at h
      rcases List.mem_append.mp h with h | h
      · exact Site.fork_of_submitted? (Option.mem_toList.mp h)
      rcases List.mem_append.mp h with h | h
      · rw [← hprepare.trackingKey]
        exact ih h
      · split at h
        · rename_i heq
          rw [heq] at hcall
          obtain ⟨hfork, hkey⟩ := Site.fork_of_accessed? (Option.mem_toList.mp h)
          rw [hcall.trackingKey, hprepare.trackingKey] at hkey
          exact ⟨hfork, hkey⟩
        · cases h

theorem find?_of_mem_touches {chain : List Link} {q : Request P} {s : Site P} {t : Touch}
    (h : t ∈ touches blank chain q s) :
    ((call blank chain q s).2.ledger.store.find? t.key).isSome := by
  induction chain generalizing s with
  | nil => cases h
  | cons link rest ih =>
    cases link with
    | device => cases h
    | passing name => exact ih h
    | counting =>
      have hcall := call_moves blank rest q (s.prepare q)
      unfold call
      unfold touches at h
      -- entries are never removed, so it does not matter which link has created this one
      have hlater : ((call blank rest q (s.prepare q)).2.ledger.store.find? t.key).isSome →
          ((match call blank rest q (s.prepare q) with
            | (.ok pages, s) => (.ok pages, s.count q)
            | (.error e, s) => (.error e, s) :
              Except CallError (List P) × Site P).2.ledger.store.find? t.key).isSome := by
        intro hsome
        rcases hc : call blank rest q (s.prepare q) with ⟨_ | pages, u⟩ <;> rw [hc] at hsome
        · exact hsome
        · exact (u.count_moves q).ledger.path.isSome hsome
      rcases List.mem_append.mp h with h | h
      · exact hlater (hcall.ledger.path.isSome (s.find?_prepare q (Option.mem_toList.mp h)))
      rcases List.mem_append.mp h with h | h
      · exact hlater (ih h)
      · rcases hc : call blank rest q (s.prepare q) with ⟨_ | pages, u⟩ <;> rw [hc] at h
        · cases h
        · exact u.find?_count q (Option.mem_toList.mp h)

end Chain

/-! ## All members -/

theorem Ledger.trackingKey_eq_or {l : Ledger} {key k : Key} {temporary : Bool}
    (h : l.trackingKey key temporary = some k) :
    k = key ∨ k = .temporaries key.locator.database := by
  unfold trackingKey at h
  split at h
  · cases htracking : l.tunables.tempTracking with
    | off =>
      rw [htracking] at h
      cases h
    | individual =>
      rw [htracking] at h
      exact .inl (Option.some.inj h).symm
    | aggregate =>
      rw [htracking] at h
      exact .inr (Option.some.inj h).symm
  · exact .inl (Option.some.inj h).symm

namespace Act

/-- The member that hands out its open runs in an act. -/
def leaver? {P : Type} : Act P → Option Nat
  | flush i | shutdown i => some i
  | _ => none

/-- Whether an act can change anything that the accesses of a member go by. -/
def equips {P : Type} : Act P → Bool
  | join .. | call .. | flush _ | shutdown _ => true
  | _ => false

end Act

/-- What the accesses of a member go by. -/
structure Gear where
  chain : List Link
  runs : Runs
  slots : Slots

/-- What the accesses of a member go by. -/
def Member.gear (m : Member) : Gear := ⟨m.chain, m.backend.runs, m.backend.slots⟩

namespace Interplay

variable {P C S : Type} (blank : P) (s : Interplay P C S)

/-- What the accesses of a member go by, if it has joined. -/
def gear? (i : Nat) : Option Gear := s.cluster.members[i]?.map Member.gear

/-- What the detector of a member remembers: nothing before it has joined. -/
def runsOf (i : Nat) : Runs := ((s.gear? i).map Gear.runs).getD {}

variable {s} in
theorem runsOf_eq {i : Nat} {m : Member} (h : s.cluster.members[i]? = some m) :
    s.runsOf i = m.backend.runs := by
  rw [runsOf, gear?, h]
  rfl

variable {s} in
theorem gear?_modify {t : Interplay P C S} {i : Nat} {f : Member → Member}
    (h : t.cluster.members = s.cluster.members.modify i f) (j : Nat) :
    t.gear? j =
      if i = j then s.cluster.members[i]?.map fun m => (f m).gear else s.gear? j := by
  unfold gear?
  rw [h, List.getElem?_modify]
  split
  · subst j
    simp [Function.comp_def]
  · simp

variable {s} in
/-- A member that is changed in other respects goes on as before. -/
theorem gear?_same {t : Interplay P C S} {i : Nat} {f : Member → Member}
    (h : t.cluster.members = s.cluster.members.modify i f)
    (hf : ∀ m, s.cluster.members[i]? = some m → (f m).gear = m.gear) (j : Nat) :
    t.gear? j = s.gear? j := by
  rw [gear?_modify h]
  split
  · subst j
    exact Option.map_congr hf
  · rfl

variable {s} in
theorem gear?_none {i : Nat} (h : s.cluster.members[i]? = none) : s.gear? i = none := by
  rw [gear?, h]
  rfl

/-- What the detectors are told in an act, with the number of the member. -/
def touches (blank : P) (s : Interplay P C S) : Act P → List (Nat × Touch)
  | .call i q =>
    match s.cluster.members[i]? with
    | some m => (Chain.touches blank m.chain q (s.cluster.siteOf m)).map fun t => (i, t)
    | none => []
  | _ => []

variable {blank s} in
theorem mem_touches {a : Act P} {i : Nat} {t : Touch} (h : (i, t) ∈ s.touches blank a) :
    ∃ q m, a = .call i q ∧ s.cluster.members[i]? = some m ∧
      t ∈ Chain.touches blank m.chain q (s.cluster.siteOf m) := by
  unfold touches at h
  split at h
  · split at h
    · rename_i i' q _ m hm
      obtain ⟨t', ht, heq⟩ := List.mem_map.mp h
      obtain ⟨rfl, rfl⟩ := Prod.mk.inj heq
      exact ⟨q, m, rfl, hm, ht⟩
    · cases h
  · cases h

variable {blank s} in
/-- An access bears the fork of a call, and the key that it is counted under at that time. -/
theorem fork_of_mem_touches {a : Act P} {i : Nat} {t : Touch} (h : (i, t) ∈ s.touches blank a) :
    ∃ q, a = .call i q ∧ t.fork = q.key ∧
      s.cluster.ledger.trackingKey q.key q.relation.temporary = some t.key := by
  obtain ⟨q, m, rfl, -, ht⟩ := mem_touches h
  obtain ⟨hfork, hkey⟩ := Chain.fork_of_mem_touches blank ht
  exact ⟨q, rfl, hfork, hkey⟩

variable [Catalog C] [Sink S]

variable {s} in
theorem Collecting.members {a : Act P} {ds : List Mark} {t : Interplay P C S}
    (h : s.Collecting a ds t) : t.cluster.members = s.cluster.members := by
  cases h <;> rfl

theorem gear?_join (session : Session) (concurrency : Nat) (classes : Option ClassPages)
    (chain : List Link) (j : Nat) :
    (s.step blank (.join session concurrency classes chain)).gear? j =
      if j = s.cluster.members.length then some ⟨chain, {}, .new concurrency⟩ else s.gear? j := by
  simp only [gear?, step, withCluster]
  rcases Nat.lt_trichotomy j s.cluster.members.length with hj | rfl | hj
  · rw [List.getElem?_append_left hj, if_neg (Nat.ne_of_lt hj)]
  · simp [Member.gear, Backend.new]
  · have hafter : s.cluster.members.length ≤ j := Nat.le_of_lt hj
    rw [if_neg (Nat.ne_of_gt hj), List.getElem?_eq_none hafter, List.getElem?_eq_none]
    rw [List.length_append]
    exact hj

theorem gear?_call (i : Nat) (q : Request P) (j : Nat) :
    (s.step blank (.call i q)).gear? j =
      if i = j then
        s.cluster.members[i]?.map fun m =>
          let site := (Chain.call blank m.chain q (s.cluster.siteOf m)).2
          ⟨m.chain, site.backend.runs, site.backend.slots⟩
      else s.gear? j := by
  simp only [step, Cluster.call]
  cases hm : s.cluster.members[i]? with
  | none =>
    dsimp only
    split
    · subst j
      exact gear?_none hm
    · rfl
  | some m =>
    rw [gear?_modify (s := s) (i := i) (f := fun m' => { m' with
      backend := (Chain.call blank m.chain q (s.cluster.siteOf m)).2.backend }) rfl, hm]
    rfl

theorem gear?_leave {a : Act P} {i : Nat} (ha : a.leaver? = some i) (j : Nat) :
    (s.step blank a).gear? j =
      if i = j then (s.gear? i).map fun g => { g with runs := {} } else s.gear? j := by
  cases hm : s.cluster.members[i]? with
  | none =>
    have hstep : (s.step blank a).gear? j = s.gear? j := by
      cases a with
      | flush i' =>
        obtain rfl := Option.some.inj ha
        simp only [step, hm]
      | shutdown i' =>
        obtain rfl := Option.some.inj ha
        simp only [step, Cluster.shutdown, hm]
        rfl
      | _ => cases ha
    rw [hstep]
    split
    · subst j
      rw [gear?_none hm]
      rfl
    · rfl
  | some m =>
    have hmembers : ∃ b : Backend, b.runs = {} ∧ b.slots = m.backend.slots ∧
        (s.step blank a).cluster.members =
          s.cluster.members.modify i fun m => { m with backend := b } := by
      cases a with
      | flush i' =>
        obtain rfl := Option.some.inj ha
        refine ⟨(m.backend.flushRuns s.cluster.ledger).2.1, rfl, rfl, ?_⟩
        simp only [step, hm]
        rfl
      | shutdown i' =>
        obtain rfl := Option.some.inj ha
        refine ⟨(m.backend.shutdown s.cluster.ledger s.cluster.catalog).2.1, rfl, rfl, ?_⟩
        simp only [step, Cluster.shutdown, hm]
        rfl
      | _ => cases ha
    obtain ⟨b, hruns, hslots, hmembers⟩ := hmembers
    rw [gear?_modify hmembers, hm]
    simp [gear?, hm, Member.gear, hruns, hslots]

theorem gear?_step {a : Act P} (ha : a.equips = false) (j : Nat) :
    (s.step blank a).gear? j = s.gear? j := by
  cases a with
  | join | call | flush | shutdown => cases ha
  | complete i handle result =>
    simp only [step, Cluster.complete]
    cases hm : s.cluster.members[i]? with
    | none => rfl
    | some m =>
      refine gear?_same rfl (fun m' hm' => ?_) j
      obtain rfl := Option.some.inj (hm.symm.trans hm')
      simp only [Member.gear, Chain.backend_complete, Cluster.siteOf]
  | finish i work =>
    simp only [step, Cluster.finish]
    cases hm : s.cluster.members[i]? with
    | none => rfl
    | some m =>
      refine gear?_same rfl (fun m' hm' => ?_) j
      obtain rfl := Option.some.inj (hm.symm.trans hm')
      simp only [Member.gear, Backend.finish_slots, Backend.finish_runs]
  | session i f =>
    exact gear?_same (f := fun m => { m with backend := m.backend.withSession f }) rfl
      (fun _ _ => rfl) j
  | reload | tick | peek => rfl
  | conclude =>
    simp only [step]
    cases s.returned.getLast? <;> rfl
  | close | cycle | openWalk | list | visit | endWalk =>
    rw [gear?, (s.collecting_of_step blank rfl).members, gear?]

/-! ## What the members take in -/

/-- What the detectors are told in one act after the other. -/
def log (blank : P) (s : Interplay P C S) : List (Act P) → List (Nat × Touch)
  | [] => []
  | a :: rest => s.touches blank a ++ (s.step blank a).log blank rest

/-- What a member knows of its accesses after an act, if it knew of `ts` before. -/
def recollect (blank : P) (s : Interplay P C S) (i : Nat) (ts : List Touch) (a : Act P) :
    List Touch :=
  if a.leaver? = some i then [] else ts ++ own i (s.touches blank a)

/-- What a member knows of its accesses after one act after the other, if it knew of `ts` before. -/
def memoryFrom (blank : P) (s : Interplay P C S) (i : Nat) (ts : List Touch) :
    List (Act P) → List Touch
  | [] => ts
  | a :: rest => (s.step blank a).memoryFrom blank i (s.recollect blank i ts a) rest

/-- The accesses of a member since it last handed out its open runs. -/
def memory (blank : P) (s : Interplay P C S) (i : Nat) (acts : List (Act P)) : List Touch :=
  s.memoryFrom blank i [] acts

theorem log_concat (acts : List (Act P)) (a : Act P) :
    s.log blank (acts ++ [a]) = s.log blank acts ++ (s.run blank acts).touches blank a := by
  induction acts generalizing s with
  | nil => simp [log, run]
  | cons b rest ih =>
    rw [List.cons_append, log, ih, log, List.append_assoc]
    rfl

theorem memory_concat (i : Nat) (acts : List (Act P)) (a : Act P) :
    s.memory blank i (acts ++ [a]) =
      (s.run blank acts).recollect blank i (s.memory blank i acts) a := by
  suffices h : ∀ ts, s.memoryFrom blank i ts (acts ++ [a]) =
      (s.run blank acts).recollect blank i (s.memoryFrom blank i ts acts) a from h []
  induction acts generalizing s with
  | nil => exact fun ts => rfl
  | cons b rest ih => exact fun ts => ih _ _

variable {blank s}

theorem runsOf_step (a : Act P) (i : Nat) :
    (s.step blank a).runsOf i =
      if a.leaver? = some i then {} else (s.runsOf i).noteAll (own i (s.touches blank a)) := by
  cases hequips : a.equips with
  | false =>
    have hleaver : a.leaver? = none := by cases a <;> first | rfl | cases hequips
    have htouches : s.touches blank a = [] := by cases a <;> first | rfl | cases hequips
    rw [runsOf, gear?_step blank s hequips, hleaver, htouches]
    rfl
  | true =>
    cases a with
    | join session concurrency classes chain =>
      rw [runsOf, gear?_join]
      split
      · subst i
        simp [Act.leaver?, touches, own, runsOf, gear?, Runs.noteAll]
      · simp [Act.leaver?, touches, own, runsOf, Runs.noteAll]
    | call j q =>
      rw [runsOf, gear?_call]
      simp only [Act.leaver?, touches, reduceCtorEq, if_false]
      split
      · subst j
        cases hm : s.cluster.members[i]? with
        | none => simp [runsOf, gear?, hm, own, Runs.noteAll]
        | some m =>
          have hruns := Chain.runs_call blank m.chain q (s.cluster.siteOf m)
          simpa [runsOf, gear?, hm, own_map, Member.gear, Cluster.siteOf] using hruns
      · rename_i hne
        cases s.cluster.members[j]? <;> simp [own_map, runsOf, Runs.noteAll, hne]
    | flush j | shutdown j =>
      rw [runsOf, gear?_leave blank s (i := j) rfl]
      simp only [Act.leaver?, Option.some.injEq]
      split
      · subst j
        cases s.gear? i <;> rfl
      · simp [touches, own, runsOf, Runs.noteAll]
    | _ => cases hequips

/-- A detector remembers what its member has done since it last handed out its open runs. -/
theorem runsOf_run {i : Nat} (h : s.runsOf i = {}) (acts : List (Act P)) :
    (s.run blank acts).runsOf i = Runs.noteAll {} (s.memory blank i acts) := by
  induction acts using List.reverseRecOn with
  | nil => exact h
  | append_singleton acts a ih =>
    rw [run_concat, memory_concat, runsOf_step, ih, recollect]
    split
    · rfl
    · rw [Runs.noteAll_append]

/-- The keys of all accesses have entries. -/
theorem Sound.find?_of_mem_log [QuietSink S] (hs : s.Sound) {acts : List (Act P)} {i : Nat}
    {t : Touch} (h : (i, t) ∈ s.log blank acts) :
    ((s.run blank acts).store.find? t.key).isSome := by
  induction acts using List.reverseRecOn with
  | nil => cases h
  | append_singleton acts a ih =>
    obtain ⟨hsound, -, -⟩ := hs.run blank acts
    rw [run_concat]
    rw [log_concat] at h
    rcases List.mem_append.mp h with h | h
    · exact (hsound.covered.step blank a).path.isSome (ih h)
    · obtain ⟨q, m, rfl, hm, ht⟩ := mem_touches h
      have hcall : ((s.run blank acts).step blank (.call i q)).store =
          (Chain.call blank m.chain q ((s.run blank acts).cluster.siteOf m)).2.ledger.store := by
        simp only [Interplay.step, Cluster.call, hm]
        rfl
      rw [hcall]
      exact Chain.find?_of_mem_touches blank ht

/-- A fork is counted under its own key, or with all temporary relations of its database. -/
theorem key_of_mem_log {acts : List (Act P)} {i : Nat} {t : Touch} (h : (i, t) ∈ s.log blank acts) :
    t.key = t.fork ∨ t.key = .temporaries t.fork.locator.database := by
  induction acts using List.reverseRecOn with
  | nil => cases h
  | append_singleton acts a ih =>
    rw [log_concat] at h
    rcases List.mem_append.mp h with h | h
    · exact ih h
    · obtain ⟨q, -, hfork, hkey⟩ := fork_of_mem_touches h
      rw [hfork]
      exact Ledger.trackingKey_eq_or hkey

/-- What a member knows of its accesses has happened. -/
theorem mem_log_of_mem_memory {acts : List (Act P)} {i : Nat} {t : Touch}
    (h : t ∈ s.memory blank i acts) : (i, t) ∈ s.log blank acts := by
  induction acts using List.reverseRecOn with
  | nil => cases h
  | append_singleton acts a ih =>
    rw [log_concat, List.mem_append]
    rw [memory_concat, recollect] at h
    split at h
    · cases h
    · rcases List.mem_append.mp h with h | h
      · exact .inl (ih h)
      · exact .inr ((mem_own _ i t).mp h)

/-! ## Open runs -/

/-- The keys of open runs have entries. -/
theorem Sound.find?_of_mem_openRuns [QuietSink S] (hs : s.Sound) {i : Nat} (hi : s.runsOf i = {})
    {acts : List (Act P)} {r : EndedRun} (h : r ∈ ((s.run blank acts).runsOf i).openRuns) :
    ((s.run blank acts).store.find? r.key).isSome := by
  rw [runsOf_run hi] at h
  obtain ⟨t, ht, hkey⟩ := Runs.key_of_mem_openRuns h
  rw [← hkey]
  exact hs.find?_of_mem_log (mem_log_of_mem_memory ht)

omit [Catalog C] [Sink S] in
/-- A member that hands out its open runs leaves a mark for each of them. -/
theorem marks_leave {a : Act P} {i : Nat} (ha : a.leaver? = some i)
    (hpresent : ∀ r ∈ (s.runsOf i).openRuns, (s.store.find? r.key).isSome) :
    s.marks blank a = (s.runsOf i).openRuns.map .ended := by
  have hmember : s.marks blank a =
      match s.cluster.members[i]? with
      | some m => (m.backend.lateRuns s.cluster.ledger).map .ended
      | none => [] := by
    cases a with
    | flush j | shutdown j =>
      obtain rfl := Option.some.inj ha
      rfl
    | _ => cases ha
  rw [hmember]
  cases hm : s.cluster.members[i]? with
  | none => simp [runsOf, gear?, hm, Runs.openRuns_eq, Runs.openSeries_empty]
  | some m =>
    rw [runsOf_eq hm] at hpresent ⊢
    have hall : m.backend.lateRuns s.cluster.ledger = m.backend.runs.openRuns :=
      List.filter_eq_self.mpr hpresent
    dsimp only
    rw [hall]

end Interplay

end BlockLedger
