import BlockLedger.Proofs.Cluster.Enrolment
import BlockLedger.Proofs.Cluster.Settling
import BlockLedger.Proofs.Cluster.Touches

/-
# Backlogs

Of all that happens in an interplay with rounds, only four things matter to the keys that the
members are to deal with.  A new member has none of them yet.  The keys of the entries that are
created in a call join the backlog of the caller.  Keys that are done with leave a backlog, while the
others keep their order.  Anything else leaves all backlogs alone.
-/

namespace BlockLedger

/-- What matters of a member here: its database, and the keys that it is not done with, those on its
list first, and then those that lie ahead on its round. -/
structure Backlog where
  database : Oid
  due : List Key

namespace Backlog

/-- Whether a key is the business of the member. -/
def owns (d : Backlog) (k : Key) : Bool :=
  k.locator.database == d.database || k.locator.database == 0

/-- Whether a key is noted down when its entry is created. -/
def wants (d : Backlog) (k : Key) : Bool := !k.isTemporaries && d.owns k

end Backlog

/-- It does not move the session of a member to another database. -/
def Doing.KeepsDatabases {P C : Type} (d : Doing P C) : Prop :=
  ∀ i f, d = .turn (.act (.session i f)) → ∀ x, (f x).database = x.database

namespace Rounds

variable {P C S : Type}

/-- The backlog of the member with a number. -/
def backlog? (s : Rounds P C S) (i : Nat) : Option Backlog :=
  (s.member? i).map fun m => ⟨m.backend.session.database, m.backend.pending ++ (s.round i).keys⟩

/-- Whether a key has an entry. -/
def has (s : Rounds P C S) (k : Key) : Bool := (s.store.find? k).isSome

/-- What one step can do to the backlogs and to the entries.  The number is that of the member that
makes a call, if somebody does. -/
inductive Deals (s t : Rounds P C S) : Option Nat → Prop
  /-- The backlogs stay as they are. -/
  | rests (caller : Option Nat) (backlogs : ∀ j, t.backlog? j = s.backlog? j)
      (entries : ∀ k, t.has k = s.has k) : Deals s t caller
  /-- There is a new backlog, with nothing in it. -/
  | joins (i : Nat) (database : Oid) (new : s.backlog? i = none)
      (backlogs : ∀ j, t.backlog? j = if j = i then some ⟨database, []⟩ else s.backlog? j)
      (entries : ∀ k, t.has k = s.has k) : Deals s t none
  /-- Keys that are done with leave a backlog. -/
  | settles (i : Nat) (d : Backlog) (due : List Key) (mine : s.backlog? i = some d)
      (order : due.Sublist d.due)
      (kept : ∀ k ∈ d.due, t.store.unresolved k = true → k ∈ due)
      (backlogs : ∀ j, t.backlog? j = if j = i then some { d with due } else s.backlog? j)
      (entries : ∀ k, t.has k = s.has k) : Deals s t none
  /-- Entries are created, and their keys join the backlog of the caller. -/
  | enrols (i : Nat) (d : Backlog) (ks : List Key) (mine : s.backlog? i = some d) (nodup : ks.Nodup)
      (absent : ∀ k ∈ ks, s.has k = false)
      (backlogs : ∀ j, t.backlog? j =
        if j = i then some { d with due := d.due ++ ks.filter d.wants } else s.backlog? j)
      (entries : ∀ k, t.has k = true ↔ s.has k = true ∨ k ∈ ks) : Deals s t (some i)

section Backlogs

variable {s t : Rounds P C S} {i : Nat}

theorem backlog?_modify {m : Member} {f : Member → Member} (hm : s.member? i = some m)
    (hmembers : t.interplay.cluster.members = s.interplay.cluster.members.modify i f)
    (hround : ∀ j, j ≠ i → t.round j = s.round j) (j : Nat) :
    t.backlog? j =
      if j = i then
        some ⟨(f m).backend.session.database, (f m).backend.pending ++ (t.round i).keys⟩
      else s.backlog? j := by
  have hmember : s.interplay.cluster.members[i]? = some m := hm
  split
  · subst j
    simp [backlog?, member?, hmembers, hmember]
  · rename_i hne
    simp [backlog?, member?, hmembers, hround j hne, Ne.symm hne]

/-- A backlog does not change if the database and the list of its member do not. -/
theorem backlog?_same {f : Member → Member}
    (hmembers : t.interplay.cluster.members = s.interplay.cluster.members.modify i f)
    (hf : ∀ m, s.member? i = some m → (f m).backend.session.database = m.backend.session.database ∧
      (f m).backend.pending = m.backend.pending)
    (hround : t.round = s.round) (j : Nat) : t.backlog? j = s.backlog? j := by
  rw [backlog?, backlog?, member?, member?, hmembers, List.getElem?_modify, hround]
  cases hm : s.interplay.cluster.members[j]? with
  | none => rfl
  | some m =>
    refine congrArg some ?_
    dsimp only
    split
    · subst j
      obtain ⟨hdatabase, hpending⟩ := hf m hm
      rw [hdatabase, hpending]
    · rfl

theorem Deals.of_members (caller : Option Nat)
    (hmembers : t.interplay.cluster.members = s.interplay.cluster.members)
    (hround : t.round = s.round) (entries : ∀ k, t.has k = s.has k) : s.Deals t caller := by
  refine .rests caller (fun j => ?_) entries
  rw [backlog?, backlog?, member?, member?, hmembers, hround]

theorem Deals.refl (s : Rounds P C S) (caller : Option Nat) : s.Deals s caller :=
  .of_members caller rfl rfl fun _ => rfl

theorem backlog?_eq_none : s.backlog? i = none ↔ s.member? i = none := Option.map_eq_none_iff

/-- No member leaves for good. -/
theorem Deals.stranger {caller : Option Nat} (h : s.Deals t caller) (ht : t.member? i = none) :
    s.member? i = none := by
  rw [← backlog?_eq_none] at ht ⊢
  cases h with
  | rests _ backlogs => exact (backlogs i).symm.trans ht
  | joins | settles | enrols =>
    rename_i backlogs _
    rw [backlogs] at ht
    split at ht
    · cases ht
    · exact ht

end Backlogs

/-! ## Steps -/

section Steps

variable [Catalog C] [Sink S]

/-- Closing snapshots create nothing, and nothing vanishes in them. -/
theorem isSome_conclude [QuietSink S] (session : Session) (bucket : Nat) (es : List Entry)
    (l : Ledger) (catalog : C) (sink : S) (k : Key) :
    ((Collector.conclude session bucket es l catalog sink).2.1.store.find? k).isSome =
      (l.store.find? k).isSome := by
  have hidentify := (Collector.identifyAll_learns session es l catalog).isSome k
  unfold Collector.conclude
  dsimp only
  rw [Collector.deliver_store, Collector.drain_store]
  exact hidentify

theorem isSome_of_collecting [QuietSink S] {s t : Interplay P C S} {a : Act P} {ds : List Mark}
    (h : s.Collecting a ds t) (k : Key) :
    (t.store.find? k).isSome = (s.store.find? k).isSome := by
  have hclose : (s.store.close.2.2.find? k).isSome = (s.store.find? k).isSome := by
    rw [← Store.isSome_known, ← Store.isSome_known, Store.known_close]
  cases h with
  | idle | list | endWalk | openWalk => rfl
  | close => exact hclose
  | cycle =>
    refine Eq.trans ?_ hclose
    simp only [Interplay.store, Interplay.handBack, Interplay.withCluster, Cluster.cycle,
      Collector.cycle_eq]
    exact isSome_conclude ..
  | visit w key =>
    rw [← Store.isSome_known, ← Store.isSome_known]
    exact congrArg Option.isSome (s.store.known_take key k)

variable {s : Rounds P C S} {i : Nat}

/-- Nothing comes of what somebody does who is not there. -/
theorem turn_stranger (blank : P) (hm : s.member? i = none) {t : Turn P C}
    (ht : t.member? = some i) (hsession : ∀ f, t ≠ .act (.session i f)) :
    s.interplay.turn blank t = s.interplay := by
  have hmember : s.interplay.cluster.members[i]? = none := hm
  unfold Turn.member? at ht
  split at ht <;> cases ht
  · simp only [Interplay.turn, Interplay.step, Cluster.call, hmember]
    rfl
  · simp only [Interplay.turn, Interplay.step, Cluster.complete, hmember]
    rfl
  · simp only [Interplay.turn, Interplay.step, Cluster.finish, hmember]
    rfl
  · simp only [Interplay.turn, Interplay.step, hmember]
  · simp only [Interplay.turn, Interplay.step, Cluster.shutdown, hmember]
    rfl
  · exact absurd rfl (hsession _)

/-- A call adds to the backlog of its caller. -/
theorem deals_call (blank : P) (hidle : (s.round i).keys = []) (q : Request P) :
    s.Deals { s with interplay := s.interplay.turn blank (.act (.call i q)) } (some i) := by
  cases hm : s.member? i with
  | none =>
    rw [turn_stranger blank hm rfl (by simp)]
    exact .refl s _
  | some m =>
    have hmember : s.interplay.cluster.members[i]? = some m := hm
    obtain ⟨ks, hks⟩ := Chain.call_enrols blank m.chain q (s.interplay.cluster.siteOf m)
    have hstep : s.interplay.turn blank (.act (.call i q)) = s.interplay.withCluster
        (s.interplay.cluster.withSite i
          (Chain.call blank m.chain q (s.interplay.cluster.siteOf m)).2) := by
      simp only [Interplay.turn, Interplay.step, Cluster.call, hmember]
    rw [hstep]
    refine .enrols i ⟨m.backend.session.database, m.backend.pending⟩ ks ?_ hks.nodup hks.absent
      (fun j => ?_) fun k => hks.entries k
    · simp [backlog?, hm, hidle]
    · refine (backlog?_modify (f := fun m' => { m' with
        backend := (Chain.call blank m.chain q (s.interplay.cluster.siteOf m)).2.backend }) hm
        (by rfl) (fun _ _ => by rfl) j).trans ?_
      dsimp only
      rw [hks.session, hks.pending, hidle, List.append_nil]
      rfl

theorem deals_complete (blank : P) (handle : Handle) (result : Completion) :
    s.Deals { s with interplay := s.interplay.turn blank (.act (.complete i handle result)) }
      none := by
  cases hm : s.member? i with
  | none =>
    rw [turn_stranger blank hm rfl (by simp)]
    exact .refl s _
  | some m =>
    have hmember : s.interplay.cluster.members[i]? = some m := hm
    have hsame := Chain.complete_enrols m.chain handle result (s.interplay.cluster.siteOf m)
    have hstep : s.interplay.turn blank (.act (.complete i handle result)) =
        s.interplay.withCluster (s.interplay.cluster.withSite i
          (Chain.complete m.chain handle result (s.interplay.cluster.siteOf m)).2) := by
      simp only [Interplay.turn, Interplay.step, Cluster.complete, hmember]
    rw [hstep]
    refine .rests _ (fun j => ?_) fun k => Bool.eq_iff_iff.mpr ?_
    · refine backlog?_same (f := fun m' => { m' with
        backend := (Chain.complete m.chain handle result (s.interplay.cluster.siteOf m)).2.backend })
        (by rfl) (fun m' hm' => ?_) (by rfl) j
      obtain rfl := Option.some.inj (hm.symm.trans hm')
      exact ⟨congrArg Session.database hsame.session, hsame.pending.trans (List.append_nil _)⟩
    · exact (hsame.entries k).trans (or_iff_left List.not_mem_nil)

theorem isSome_flushRuns (b : Backend) (l : Ledger) (k : Key) :
    ((b.flushRuns l).2.2.store.find? k).isSome = (l.store.find? k).isSome := by
  rw [← Store.isSome_known, ← Store.isSome_known]
  exact congrArg Option.isSome (l.store.known_endRuns k _)

theorem deals_flush (blank : P) :
    s.Deals { s with interplay := s.interplay.turn blank (.act (.flush i)) } none := by
  cases hm : s.member? i with
  | none =>
    rw [turn_stranger blank hm rfl (by simp)]
    exact .refl s _
  | some m =>
    have hmember : s.interplay.cluster.members[i]? = some m := hm
    have hstep : s.interplay.turn blank (.act (.flush i)) = s.interplay.withCluster
        { s.interplay.cluster.withBackend i (m.backend.flushRuns s.interplay.cluster.ledger).2.1 with
          ledger := (m.backend.flushRuns s.interplay.cluster.ledger).2.2 } := by
      simp only [Interplay.turn, Interplay.step, hmember]
    rw [hstep]
    refine .rests _ (fun j => ?_) fun k => isSome_flushRuns m.backend _ k
    refine backlog?_same (f := fun m' => { m' with
      backend := (m.backend.flushRuns s.interplay.cluster.ledger).2.1 })
      (by rfl) (fun m' hm' => ?_) (by rfl) j
    obtain rfl := Option.some.inj (hm.symm.trans hm')
    exact ⟨rfl, rfl⟩

omit [Sink S] in
/-- A member that goes through its list in one go lets go of keys that are done with. -/
theorem deals_resolve (honest : Catalog.Honest C) {m : Member}
    (hm : s.member? i = some m) (hidle : (s.round i).keys = []) {b : Backend} {l l' : Ledger}
    {catalog : C} (hsession : b.session = m.backend.session)
    (hpending : b.pending = m.backend.pending)
    (hentries : ∀ k, (l.store.find? k).isSome = s.has k)
    (hl' : l'.store = (b.resolvePending l catalog).2.2.1.store) {catalog' : C} :
    s.Deals
      { s with
        interplay := s.interplay.withCluster
          { s.interplay.cluster.withBackend i (b.resolvePending l catalog).2.1 with
            ledger := l'
            catalog := catalog' } }
      none := by
  obtain ⟨hsub, hkept⟩ := Pending.settleAll_kept honest b.session b.pending l catalog
  refine .settles i ⟨m.backend.session.database, m.backend.pending⟩
    (b.resolvePending l catalog).2.1.pending ?_ ?_ ?_ (fun j => ?_) fun k => ?_
  · simp [backlog?, hm, hidle]
  · rw [← hpending]
    exact hsub
  · rw [← hpending]
    intro k hk hu
    refine hkept k hk ?_
    have hstore : l'.store.unresolved k = true := hu
    rw [hl'] at hstore
    exact hstore
  · refine (backlog?_modify
      (f := fun m' => { m' with backend := (b.resolvePending l catalog).2.1 }) hm
      (by rfl) (fun _ _ => by rfl) j).trans ?_
    dsimp only
    rw [hidle, List.append_nil, ← hsession]
    rfl
  · have hlearns := (b.resolvePending_learns l catalog).isSome k
    have hstore : (l'.store.find? k).isSome = s.has k := by
      rw [hl', hlearns, hentries]
    exact hstore

theorem deals_finish (honest : Catalog.Honest C) (blank : P) (hidle : (s.round i).keys = [])
    (work : Work) :
    s.Deals { s with interplay := s.interplay.turn blank (.act (.finish i work)) } none := by
  cases hm : s.member? i with
  | none =>
    rw [turn_stranger blank hm rfl (by simp)]
    exact .refl s _
  | some m =>
    have hmember : s.interplay.cluster.members[i]? = some m := hm
    have hplain : ∀ (l : Ledger) (catalog : C), (∀ k, (l.store.find? k).isSome = s.has k) →
        s.Deals
          { s with
            interplay := s.interplay.withCluster
              { s.interplay.cluster.withBackend i (m.backend.resolvePending l catalog).2.1 with
                ledger := (m.backend.resolvePending l catalog).2.2.1
                catalog := (m.backend.resolvePending l catalog).2.2.2 } }
          none :=
      fun l catalog hentries => deals_resolve honest hm hidle rfl rfl hentries rfl
    -- what a created database brings is learnt before the list is gone through
    simp only [Interplay.turn, Interplay.step, Cluster.finish, hmember, Backend.finish]
    split
    · exact hplain _ _ (m.backend.resolveCreated_learns ..).isSome
    · exact hplain _ _ fun _ => rfl

theorem deals_shutdown (honest : Catalog.Honest C) (blank : P) (hidle : (s.round i).keys = []) :
    s.Deals { s with interplay := s.interplay.turn blank (.act (.shutdown i)) } none := by
  cases hm : s.member? i with
  | none =>
    rw [turn_stranger blank hm rfl (by simp)]
    exact .refl s _
  | some m =>
    have hmember : s.interplay.cluster.members[i]? = some m := hm
    simp only [Interplay.turn, Interplay.step, Cluster.shutdown, hmember, Backend.shutdown]
    exact deals_resolve (b := (m.backend.flushRuns s.interplay.cluster.ledger).2.1) honest hm hidle
      rfl rfl (isSome_flushRuns m.backend _) (by rfl)

/-- A new member has nothing in its backlog. -/
theorem deals_join (strangers : ∀ i, s.member? i = none → (s.round i).keys = []) (blank : P)
    (session : Session) (concurrency : Nat) (classes : Option ClassPages) (chain : List Link) :
    s.Deals
      { s with
        interplay := s.interplay.turn blank (.act (.join session concurrency classes chain)) }
      none := by
  -- the number after all others is that of a stranger, who is on no round
  have hnew : s.member? s.interplay.cluster.members.length = none :=
    List.getElem?_eq_none (Nat.le_refl _)
  refine .joins s.interplay.cluster.members.length session.database ?_ (fun j => ?_) fun _ => rfl
  · rw [backlog?, hnew]
    rfl
  · simp only [backlog?, member?, Interplay.turn, Interplay.step, Interplay.withCluster]
    rcases Nat.lt_trichotomy j s.interplay.cluster.members.length with hj | rfl | hj
    · rw [List.getElem?_append_left hj, if_neg (Nat.ne_of_lt hj)]
    · simp [Backend.new, strangers _ hnew]
    · have hafter : s.interplay.cluster.members.length ≤ j := Nat.le_of_lt hj
      rw [if_neg (Nat.ne_of_gt hj), List.getElem?_eq_none hafter, List.getElem?_eq_none]
      rw [List.length_append]
      exact hj

variable [QuietSink S]

theorem deals_turn (honest : Catalog.Honest C)
    (strangers : ∀ i, s.member? i = none → (s.round i).keys = []) (blank : P) {t : Turn P C}
    (hidle : ∀ i ∈ t.member?, (s.round i).keys = [])
    (hfixed : ∀ i f, t = .act (.session i f) → ∀ x, (f x).database = x.database) :
    s.Deals { s with interplay := s.interplay.turn blank t } (Doing.turn t).caller? := by
  cases t with
  | catalog catalog => exact .of_members _ rfl rfl fun _ => rfl
  | classes i classes =>
    refine .rests _ (fun j => ?_) fun _ => rfl
    exact backlog?_same (i := i) (f := fun m => { m with backend := { m.backend with classes } })
      (by rfl) (fun _ _ => ⟨rfl, rfl⟩) (by rfl) j
  | act a =>
    cases ha : a.collects with
    | true =>
      have hcollecting := s.interplay.collecting_of_step blank ha
      exact .of_members _ hcollecting.members rfl (isSome_of_collecting hcollecting)
    | false =>
      cases a with
      | close | cycle | openWalk | list | visit | endWalk => cases ha
      | tick | peek => exact .of_members _ rfl rfl fun _ => rfl
      | reload settings =>
        refine .of_members _ rfl rfl fun k => ?_
        simp only [has, store, Interplay.turn, Interplay.step, Interplay.withCluster,
          Cluster.withLedger, Interplay.store, Ledger.reload_store]
      | join session concurrency classes chain => exact deals_join strangers blank ..
      | call i q => exact deals_call blank (hidle i rfl) q
      | session i f =>
        refine .rests _ (fun j => ?_) fun _ => rfl
        exact backlog?_same (i := i)
          (f := fun m => { m with backend := m.backend.withSession f }) (by rfl)
          (fun m _ => ⟨hfixed i f rfl _, rfl⟩) (by rfl) j
      | complete i handle result => exact deals_complete blank handle result
      | flush i => exact deals_flush blank
      | finish i work => exact deals_finish honest blank (hidle i rfl) work
      | shutdown i => exact deals_shutdown honest blank (hidle i rfl)
      | conclude =>
        simp only [Interplay.turn, Interplay.step]
        cases s.interplay.returned.getLast? with
        | none => exact .refl s _
        | some r => exact .of_members _ rfl rfl fun k => isSome_conclude ..

end Steps

/-! ## Rounds -/

/-- What holds in the midst of rounds: nobody is on a round who is not there, and whatever has been
found is valid. -/
structure Sound (s : Rounds P C S) : Prop where
  covered : s.interplay.Covered
  strangers : ∀ i, s.member? i = none → (s.round i).keys = []
  found : ∀ i key identity, (s.round i).found = some (key, identity) → identity.valid = true

section Rounds

variable {s : Rounds P C S} {i : Nat} {m : Member} {f : Backend → Backend} {l : Ledger}
  {catalog : C} {round : Round}

theorem deals_goOn (hm : s.member? i = some m)
    (hsession : (f m.backend).session = m.backend.session)
    (entries : ∀ k, (l.store.find? k).isSome = s.has k)
    (order : ((f m.backend).pending ++ round.keys).Sublist (m.backend.pending ++ (s.round i).keys))
    (kept : ∀ k ∈ m.backend.pending ++ (s.round i).keys, l.store.unresolved k = true →
      k ∈ (f m.backend).pending ++ round.keys) :
    s.Deals (s.goOn i f l catalog round) none := by
  refine .settles i ⟨m.backend.session.database, m.backend.pending ++ (s.round i).keys⟩
    ((f m.backend).pending ++ round.keys) ?_ order kept (fun j => ?_) entries
  · rw [backlog?, hm]
    rfl
  · refine (backlog?_modify (f := fun m' => { m' with backend := f m'.backend }) hm (by rfl)
      (fun j hj => Function.update_of_ne hj _ _) j).trans ?_
    have hround : (s.goOn i f l catalog round).round i = round := Function.update_self ..
    rw [hround, hsession]

theorem Sound.goOn (hs : s.Sound) (hm : s.member? i = some m)
    (hslots : ∀ b, (f b).slots = b.slots) (hl : s.interplay.cluster.ledger.Learns l)
    (hfound : ∀ key identity, round.found = some (key, identity) → identity.valid = true) :
    (s.goOn i f l catalog round).Sound := by
  have hself : (s.goOn i f l catalog round).round i = round := Function.update_self ..
  have hother : ∀ j, j ≠ i → (s.goOn i f l catalog round).round j = s.round j :=
    fun j hj => Function.update_of_ne hj _ _
  have hmoves : s.interplay.Moves [] (s.goOn i f l catalog round).interplay := by
    refine hs.covered.modify (i := i) (f := fun m' => { m' with backend := f m'.backend })
      hl.moves.path rfl fun m' hm' n staged k hn hk => ?_
    dsimp only at hn
    rw [hslots] at hn
    exact hl.moves.path.isSome (hs.covered i m' hm' n staged k hn hk)
  refine ⟨hmoves.covered, fun j hj => ?_, fun j key identity hj => ?_⟩
  · have hmember : s.member? j = none := by
      simpa [member?, Rounds.goOn, Interplay.withCluster, List.getElem?_eq_none_iff] using hj
    have hne : j ≠ i := by
      rintro rfl
      rw [hm] at hmember
      cases hmember
    rw [hother j hne]
    exact hs.strangers j hmember
  · by_cases hji : j = i
    · subst j
      rw [hself] at hj
      exact hfound key identity hj
    · rw [hother j hji] at hj
      exact hs.found j key identity hj

/-! ## Any step -/

/-- A sound state goes on. -/
structure Proceeds (s t : Rounds P C S) (caller : Option Nat) : Prop where
  deals : s.Deals t caller
  sound : t.Sound
  path : ∃ ds, s.store.Path ds t.store

theorem Sound.proceeds_refl (hs : s.Sound) (caller : Option Nat) : s.Proceeds s caller :=
  ⟨.refl s caller, hs, [], .refl⟩

/-- A member goes on, and no key leaves its backlog. -/
theorem Sound.keeps (hs : s.Sound) (hm : s.member? i = some m)
    (hsession : (f m.backend).session = m.backend.session) (hslots : ∀ b, (f b).slots = b.slots)
    (hl : s.interplay.cluster.ledger.Learns l)
    (hdue : (f m.backend).pending ++ round.keys = m.backend.pending ++ (s.round i).keys)
    (hfound : ∀ key identity, round.found = some (key, identity) → identity.valid = true) :
    s.Proceeds (s.goOn i f l catalog round) none where
  deals := deals_goOn hm hsession hl.isSome (hdue ▸ .refl _) fun _ hk _ => hdue ▸ hk
  sound := hs.goOn hm hslots hl hfound
  path := ⟨[], hl.moves.path⟩

/-- The key at hand is done with, and leaves the backlog. -/
theorem Sound.drops (hs : s.Sound) (hm : s.member? i = some m) {key : Key} {rest : List Key}
    (hkeys : (s.round i).keys = key :: rest) (hl : s.interplay.cluster.ledger.Learns l)
    (hdone : l.store.unresolved key = false) :
    s.Proceeds (s.goOn i id l catalog { ahead := rest }) none where
  deals := by
    refine deals_goOn hm rfl hl.isSome ?_ fun k hk hu => ?_
    · rw [hkeys]
      exact (List.sublist_cons_self key rest).append_left m.backend.pending
    · rw [hkeys] at hk
      rcases List.mem_append.mp hk with hk | hk
      · exact List.mem_append_left _ hk
      · rcases List.mem_cons.mp hk with rfl | hk
        · rw [hdone] at hu
          cases hu
        · exact List.mem_append_right _ hk
  sound := hs.goOn hm (fun _ => rfl) hl fun _ _ h => by cases h
  path := ⟨[], hl.moves.path⟩

variable [Catalog C] [Sink S]

theorem Sound.look (hs : s.Sound) (honest : Catalog.Honest C) (blank : P) (i : Nat) :
    s.Proceeds (s.step blank (.look i)) none := by
  simp only [Rounds.step]
  split
  · rename_i m key rest hm hround
    have hkeys : (s.round i).keys = key :: rest := by
      rw [hround]
      rfl
    have hlearns := Pending.examine_learns m.backend.session key s.interplay.cluster.ledger
      s.interplay.cluster.catalog
    have hdone := Pending.done_of_examine m.backend.session key s.interplay.cluster.ledger
      s.interplay.cluster.catalog
    have hvalid : ∀ i, (Pending.examine m.backend.session key s.interplay.cluster.ledger
        s.interplay.cluster.catalog).1 = .found i → i.valid = true :=
      fun i h => Pending.valid_of_examine honest h
    rcases hexamine : Pending.examine m.backend.session key s.interplay.cluster.ledger
      s.interplay.cluster.catalog with ⟨_ | _ | identity, l, catalog⟩ <;>
      rw [hexamine] at hlearns hdone hvalid
    · -- the key moves from the round to the end of the list
      refine hs.keeps hm rfl (fun _ => rfl) hlearns ?_ fun _ _ h => by cases h
      rw [hkeys]
      simp [Round.keys]
    · exact hs.drops hm hkeys hlearns (hdone rfl)
    · refine hs.keeps hm rfl (fun _ => rfl) hlearns ?_ fun _ _ h => ?_
      · rw [hkeys]
        rfl
      · cases h
        exact hvalid identity rfl
  · exact hs.proceeds_refl _

theorem Sound.apply (hs : s.Sound) (blank : P) (i : Nat) :
    s.Proceeds (s.step blank (.apply i)) none := by
  simp only [Rounds.step]
  split
  · rename_i key identity rest hround
    have hkeys : (s.round i).keys = key :: rest := by
      rw [hround]
      rfl
    have hfound : (s.round i).found = some (key, identity) := by rw [hround]
    cases hm : s.member? i with
    | none =>
      have hidle := hs.strangers i hm
      rw [hkeys] at hidle
      cases hidle
    | some m =>
      -- whether it was applied or came too late, the entry has an identity now
      exact hs.drops hm hkeys (.offer .refl key identity)
        (s.store.unresolved_resolve key (hs.found i key identity hfound))
  · exact hs.proceeds_refl _

theorem Sound.setOut (hs : s.Sound) (blank : P) (i : Nat) :
    s.Proceeds (s.step blank (.setOut i)) none := by
  simp only [Rounds.step]
  split
  · rename_i m hm hidle
    refine hs.keeps hm rfl (fun _ => rfl) .refl ?_ fun _ _ h => by cases h
    rw [hidle]
    simp [Round.keys]
  · exact hs.proceeds_refl _

theorem Sound.adopt (hs : s.Sound) (blank : P) (i : Nat) (database tablespace : Oid) :
    s.Proceeds (s.step blank (.adopt i database tablespace)) none := by
  simp only [Rounds.step]
  split
  · rename_i m hm hidle
    exact hs.keeps hm rfl (fun _ => rfl) (m.backend.resolveCreated_learns ..) rfl (hs.found i)
  · exact hs.proceeds_refl _

theorem Sound.tell (hs : s.Sound) (blank : P) (key : Key) (identity : Identity) :
    s.Proceeds (s.step blank (.tell key identity)) none := by
  have hlearns : s.interplay.cluster.ledger.Learns
      (Pending.applied s.interplay.cluster.ledger key identity) := .offer .refl key identity
  have hmoves : s.interplay.Moves [] (s.step blank (.tell key identity)).interplay :=
    hs.covered.moves hlearns.moves.path rfl
  exact ⟨.of_members _ rfl rfl hlearns.isSome, ⟨hmoves.covered, hs.strangers, hs.found⟩,
    [], hlearns.moves.path⟩

variable [QuietSink S]

theorem covered_turn (hs : s.interplay.Covered) (blank : P) (t : Turn P C) :
    ∃ ds, s.interplay.Moves ds (s.interplay.turn blank t) := by
  cases t with
  | act a => exact ⟨_, hs.step blank a⟩
  | catalog catalog => exact ⟨[], hs.moves .refl rfl⟩
  | classes i classes => exact ⟨[], hs.modify .refl rfl fun m hm => hs i m hm⟩

theorem Sound.turn (hs : s.Sound) (honest : Catalog.Honest C) (blank : P) (t : Turn P C)
    (hfixed : ∀ i f, t = .act (.session i f) → ∀ x, (f x).database = x.database) :
    s.Proceeds (s.step blank (.turn t)) (Doing.turn t).caller? := by
  simp only [Rounds.step]
  split
  · rename_i hidle
    have hdeals := deals_turn honest hs.strangers blank hidle hfixed
    obtain ⟨ds, hmoves⟩ := covered_turn hs.covered blank t
    exact ⟨hdeals, ⟨hmoves.covered, fun i hi => hs.strangers i (hdeals.stranger hi), hs.found⟩,
      ds, hmoves.path⟩
  · exact hs.proceeds_refl _

theorem Sound.step (hs : s.Sound) (honest : Catalog.Honest C) (blank : P) (d : Doing P C)
    (hfixed : d.KeepsDatabases) : s.Proceeds (s.step blank d) d.caller? := by
  cases d with
  | turn t => exact hs.turn honest blank t fun i f h => hfixed i f (congrArg _ h)
  | tell key identity => exact hs.tell blank key identity
  | adopt i database tablespace => exact hs.adopt blank i database tablespace
  | setOut i => exact hs.setOut blank i
  | look i => exact hs.look honest blank i
  | apply i => exact hs.apply blank i

end Rounds

end Rounds

end BlockLedger
