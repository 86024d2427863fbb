import BlockLedger.Proofs.Cluster.Flights

/-
# Reads in the air

An asynchronous read is in the air from its submission, if that has been successful, to its
completion.  What comes of it has been decided when it was submitted: the key that it is counted
under, and how it continues the read before it.  The decision waits in a slot, and it is still there
when the read is completed, whatever has happened in between, as long as nothing is submitted to the
slot of a read that is in the air.
-/

namespace BlockLedger

/-! ## What has been decided -/

/-- An asynchronous read in the air. -/
structure Flight where
  handle : Handle
  /-- The relation that is read. -/
  relation : Relation
  /-- The key that the read is counted under, if it is. -/
  key : Option Key
  /-- How it continues the read before it. -/
  access : Access
  deriving DecidableEq, Repr

/-- A slot holds what has been decided about a read. -/
def Flight.HeldIn (f : Flight) (x : Staged) : Prop :=
  match f.key with
  | some k => x = { started := true, access := f.access, key := some k, tracked := true }
  | none => x.tracked = false

/-- The read that a request submits, told from what the member stands on. -/
def Footing.flight? {P : Type} (f : Footing) (q : Request P) : Option Flight :=
  match q.operation with
  | .submit handle block =>
    some
      { handle
        relation := q.relation
        key := f.key? q
        access := f.access q.key block handle.blocks .read }
  | _ => none

/-- A request submits nothing to the slot of one of the reads in the air. -/
def Footing.Spares {P : Type} (f : Footing) (fs : List Flight) (q : Request P) : Prop :=
  ∀ x ∈ f.flight? q, ∀ y ∈ fs, y.handle.id % f.capacity ≠ x.handle.id % f.capacity

instance {P : Type} (f : Footing) (fs : List Flight) (q : Request P) : Decidable (f.Spares fs q) :=
  inferInstanceAs (Decidable (∀ _ ∈ _, _))

theorem Footing.Spares.apart {P : Type} {f : Footing} {fs : List Flight} {q : Request P}
    (h : f.Spares fs q) {handle : Handle} {block : BlockNumber}
    (hq : q.operation = .submit handle block) :
    ∀ y ∈ fs, y.handle.id % f.capacity ≠ handle.id % f.capacity :=
  h ⟨handle, q.relation, f.key? q, f.access q.key block handle.blocks .read⟩ (by
    rw [flight?, hq]
    rfl)

namespace Site

variable {P : Type} (s : Site P) {q : Request P} {f : Flight}

/-- The read that a request submits, with what is decided about it here and now. -/
def flight? (q : Request P) : Option Flight :=
  match q.operation with
  | .submit handle block =>
    some
      { handle
        relation := q.relation
        key := s.trackingKey q.relation q.fork
        access := (s.backend.runs.check q.key block handle.blocks .read).1 }
  | _ => none

theorem flight?_eq_some :
    s.flight? q = some f ↔ ∃ handle block, q.operation = .submit handle block ∧
      f = { handle
            relation := q.relation
            key := s.trackingKey q.relation q.fork
            access := (s.backend.runs.check q.key block handle.blocks .read).1 } := by
  unfold flight?
  constructor
  · intro h
    split at h
    · exact ⟨_, _, ‹_›, (Option.some.inj h).symm⟩
    · cases h
  · rintro ⟨handle, block, hq, rfl⟩
    rw [hq]

/-- Before the request is passed on, the slot of the read is filled. -/
theorem heldIn_prepare (h : s.flight? q = some f) :
    f.HeldIn ((s.prepare q).backend.slots.content f.handle.id) := by
  obtain ⟨handle, block, hq, rfl⟩ := s.flight?_eq_some.mp h
  have hprepare : s.prepare q = s.stage q handle block := by
    rw [prepare, hq]
  rw [hprepare, Flight.HeldIn, stage]
  cases hkey : s.trackingKey q.relation q.fork with
  | none => simp [Slots.content_stage]
  | some key =>
    have hruns := s.runs_register key
    simp [classify, hruns, Slots.content_stage]

end Site

/-! ## Reads in the air -/

namespace Act

variable {P : Type}

/-- What a member must mind as long as reads of it are in the air, if it has so many slots: nothing
is submitted to the slot of one of them, and only one of them is completed. -/
def Minds (i capacity : Nat) (fs : List Flight) : Act P → Prop
  | .call j q =>
    j = i → ∀ handle block, q.operation = .submit handle block →
      ∀ f ∈ fs, f.handle.id % capacity ≠ handle.id % capacity
  | .complete j handle _ => j = i → ∃ f ∈ fs, f.handle = handle
  | _ => True

end Act

namespace Interplay

variable {P C S : Type} [Catalog C] [Sink S]

/-- The read that takes off in a call: only one whose submission comes back successful does. -/
def takeoff? (blank : P) (s : Interplay P C S) (i : Nat) (q : Request P) : Option Flight :=
  match s.cluster.members[i]?, (s.cluster.call blank i q).1 with
  | some m, .ok _ => (s.cluster.siteOf m).flight? q
  | _, _ => none

omit [Catalog C] [Sink S] in
theorem takeoff?_eq_some {blank : P} {s : Interplay P C S} {i : Nat} {q : Request P} {f : Flight}
    (h : s.takeoff? blank i q = some f) :
    ∃ m, s.cluster.members[i]? = some m ∧ (s.cluster.siteOf m).flight? q = some f := by
  unfold takeoff? at h
  split at h
  · exact ⟨_, ‹_›, h⟩
  · cases h

omit [Catalog C] [Sink S] in
/-- What takes off in a call that can be carried out is told from what the member stands on. -/
theorem Stands.takeoff? {blank : P} {s : Interplay P C S} {i : Nat} {q : Request P} {f : Footing}
    (h : s.Stands i f) (hq : f.Admits q) : s.takeoff? blank i q = f.flight? q := by
  obtain ⟨pages, hanswer⟩ := h.answer blank hq
  obtain ⟨m, hm, -, hsite⟩ := h
  simp only [Interplay.takeoff?, hm, hanswer]
  obtain ⟨relation, fork, operation⟩ := q
  cases operation with
  | submit handle block =>
    simp only [Site.flight?, Footing.flight?, hsite.access,
      hsite.trackingKey (q := ⟨relation, fork, .submit handle block⟩) rfl]
  | _ => rfl

/-- The reads of a member in the air after an act. -/
def aloftAfter (blank : P) (i : Nat) (s : Interplay P C S) (fs : List Flight) :
    Act P → List Flight
  | .call j q => if j = i then fs ++ (s.takeoff? blank i q).toList else fs
  | .complete j handle _ => if j = i then fs.eraseP fun f => f.handle = handle else fs
  | _ => fs

/-- The reads of a member in the air after one act after the other. -/
def aloft (blank : P) (i : Nat) (s : Interplay P C S) (fs : List Flight) :
    List (Act P) → List Flight
  | [] => fs
  | a :: rest => (s.step blank a).aloft blank i (s.aloftAfter blank i fs a) rest

/-- A member minds its reads in the air at every act. -/
def Minded (blank : P) (i capacity : Nat) (s : Interplay P C S) (fs : List Flight) :
    List (Act P) → Prop
  | [] => True
  | a :: rest =>
    a.Minds i capacity fs ∧
      (s.step blank a).Minded blank i capacity (s.aloftAfter blank i fs a) rest

theorem minded_append (blank : P) (i capacity : Nat) (s : Interplay P C S) (fs : List Flight)
    (acts acts' : List (Act P)) :
    s.Minded blank i capacity fs (acts ++ acts') ↔
      s.Minded blank i capacity fs acts ∧
        (s.run blank acts).Minded blank i capacity (s.aloft blank i fs acts) acts' := by
  induction acts generalizing s fs with
  | nil => exact (and_iff_right trivial).symm
  | cons a rest ih =>
    rw [List.cons_append, Minded, Minded, ih, and_assoc]
    rfl

theorem aloft_append (blank : P) (i : Nat) (s : Interplay P C S) (fs : List Flight)
    (acts acts' : List (Act P)) :
    s.aloft blank i fs (acts ++ acts') =
      (s.run blank acts).aloft blank i (s.aloft blank i fs acts) acts' := by
  induction acts generalizing s fs with
  | nil => rfl
  | cons a rest ih => exact ih ..

/-- A run leads a member to a footing, on the way it has minded its reads, and these are in the air
then. -/
structure Lifts (blank : P) (s : Interplay P C S) (acts : List (Act P)) (i : Nat) (f : Footing)
    (fs : List Flight) : Prop where
  stands : (s.run blank acts).Stands i f
  minded : s.Minded blank i f.capacity [] acts
  aloft : s.aloft blank i [] acts = fs

namespace Lifts

variable {blank : P} {s : Interplay P C S} {acts : List (Act P)} {i : Nat} {f g : Footing}
  {fs : List Flight} {a : Act P} {q : Request P}

theorem nil (h : s.Stands i f) : s.Lifts blank [] i f [] := ⟨h, trivial, rfl⟩

/-- One more act. -/
theorem act (h : s.Lifts blank acts i f fs) (hstands : (s.run blank (acts ++ [a])).Stands i g)
    (hcapacity : g.capacity = f.capacity) (hminds : a.Minds i f.capacity fs) :
    s.Lifts blank (acts ++ [a]) i g ((s.run blank acts).aloftAfter blank i fs a) := by
  refine ⟨hstands, ?_, ?_⟩
  · rw [hcapacity, minded_append, h.aloft]
    exact ⟨h.minded, hminds, trivial⟩
  · rw [aloft_append, h.aloft]
    rfl

theorem call (h : s.Lifts blank acts i f fs) (hq : f.Admits q) (hspares : f.Spares fs q) :
    s.Lifts blank (acts ++ [.call i q]) i (f.after q) (fs ++ (f.flight? q).toList) := by
  have hstands := h.stands.call blank hq
  rw [← run_concat] at hstands
  have hact := h.act hstands rfl fun _ _ _ hsubmit => hspares.apart hsubmit
  rw [aloftAfter, if_pos rfl, h.stands.takeoff? hq] at hact
  exact hact

theorem complete (h : s.Lifts blank acts i f fs) {handle : Handle} (result : Completion)
    (hminds : ∃ y ∈ fs, y.handle = handle) :
    s.Lifts blank (acts ++ [.complete i handle result]) i
      { f with
        entries := (s.run blank (acts ++ [.complete i handle result])).store.find? }
      (fs.eraseP fun y => y.handle = handle) := by
  have hstands := h.stands.complete blank handle result
  rw [← run_concat] at hstands
  have hact := h.act hstands rfl fun _ => hminds
  rw [aloftAfter, if_pos rfl] at hact
  exact hact

theorem reload (h : s.Lifts blank acts i f fs) (settings : Settings) :
    s.Lifts blank (acts ++ [.reload settings]) i { f with tunables := .reload settings } fs := by
  have hstands := h.stands.reload blank settings
  rw [← run_concat] at hstands
  exact h.act hstands rfl trivial

theorem close (h : s.Lifts blank acts i f fs) :
    s.Lifts blank (acts ++ [.close]) i
      { f with entries := (s.run blank (acts ++ [.close])).store.find? } fs := by
  have hstands := h.stands.close blank
  rw [← run_concat] at hstands
  exact h.act hstands rfl trivial

end Lifts

/-- A member has such a chain and so many slots, and they hold what has been decided about its reads
in the air. -/
structure Holds (s : Interplay P C S) (i : Nat) (chain : List Link) (capacity : Nat)
    (fs : List Flight) : Prop where
  gear : ∃ g, s.gear? i = some g ∧ g.chain = chain ∧ g.slots.capacity = capacity ∧
    ∀ f ∈ fs, f.HeldIn (g.slots.content f.handle.id)
  apart : (fs.map fun f => f.handle.id % capacity).Nodup

namespace Holds

variable {blank : P} {s t : Interplay P C S} {i capacity : Nat} {chain : List Link}
  {fs fs' : List Flight} {a : Act P}

omit [Catalog C] [Sink S] in
/-- A read in the air is known by its handle. -/
theorem eq_of_handle (h : s.Holds i chain capacity fs) {f f' : Flight} (hf : f ∈ fs) (hf' : f' ∈ fs)
    (hhandle : f.handle = f'.handle) : f = f' := by
  refine List.inj_on_of_nodup_map h.apart hf hf' ?_
  rw [hhandle]

omit [Catalog C] [Sink S] in
/-- The slots stay as they are. -/
theorem same (h : s.Holds i chain capacity fs) (hfs : fs'.Sublist fs)
    (hgear : ∀ g, s.gear? i = some g → ∃ runs, t.gear? i = some { g with runs }) :
    t.Holds i chain capacity fs' := by
  obtain ⟨⟨g, hg, hchain, hcapacity, hheld⟩, hapart⟩ := h
  obtain ⟨runs, ht⟩ := hgear g hg
  refine ⟨⟨{ g with runs }, ht, hchain, hcapacity, fun f hf => hheld f (hfs.subset hf)⟩, ?_⟩
  exact (hfs.map _).nodup hapart

theorem join (s : Interplay P C S) (blank : P) (session : Session) (concurrency : Nat)
    (classes : Option ClassPages) (chain : List Link) :
    (s.step blank (.join session concurrency classes chain)).Holds s.cluster.members.length chain
      (max concurrency 1) [] := by
  refine ⟨⟨⟨chain, {}, .new concurrency⟩, ?_, rfl, rfl, fun f hf => ?_⟩, List.nodup_nil⟩
  · rw [gear?_join, if_pos rfl]
  · cases hf

/-- A call of the member itself.  Only a submission touches the slots, and the one that it touches
is free. -/
theorem call (h : s.Holds i chain capacity fs) (hchain : Chain.working chain = Chain.direct)
    {q : Request P} (hminds : (Act.call i q).Minds i capacity fs) :
    (s.step blank (.call i q)).Holds i chain capacity (fs ++ (s.takeoff? blank i q).toList) := by
  obtain ⟨⟨g, hg, rfl, rfl, hheld⟩, hapart⟩ := h
  obtain ⟨m, hm, rfl⟩ := Option.map_eq_some_iff.mp hg
  set site := s.cluster.siteOf m
  have hslots : (Chain.call blank m.chain q site).2.backend.slots =
      (site.prepare q).backend.slots := by
    rw [← Chain.call_working, show Chain.working m.chain = Chain.direct from hchain]
    exact Chain.slots_direct blank q site
  have htakeoff : ∀ f, s.takeoff? blank i q = some f → site.flight? q = some f := by
    intro f hf
    obtain ⟨m', hm', hflight⟩ := takeoff?_eq_some hf
    obtain rfl := Option.some.inj (hm.symm.trans hm')
    exact hflight
  refine ⟨⟨⟨m.chain, (Chain.call blank m.chain q site).2.backend.runs,
    (Chain.call blank m.chain q site).2.backend.slots⟩, ?_, rfl, ?_, fun f hf => ?_⟩, ?_⟩
  · rw [gear?_call, if_pos rfl, hm]
    rfl
  · rw [hslots]
    exact site.capacity_prepare q
  · rw [hslots]
    rcases List.mem_append.mp hf with hf | hf
    · rw [site.content_prepare fun handle block hq => hminds rfl handle block hq f hf]
      exact hheld f hf
    · exact site.heldIn_prepare (htakeoff f (Option.mem_toList.mp hf))
  · rw [List.map_append, List.nodup_append]
    refine ⟨hapart, ?_, ?_⟩
    · cases s.takeoff? blank i q <;> simp
    · intro n hn n' hn'
      obtain ⟨f, hf, rfl⟩ := List.mem_map.mp hn
      obtain ⟨f', hf', rfl⟩ := List.mem_map.mp hn'
      obtain ⟨handle, block, hq, rfl⟩ :=
        site.flight?_eq_some.mp (htakeoff f' (Option.mem_toList.mp hf'))
      exact hminds rfl handle block hq f hf

theorem step (h : s.Holds i chain capacity fs) (hchain : Chain.working chain = Chain.direct)
    (hminds : a.Minds i capacity fs) :
    (s.step blank a).Holds i chain capacity (s.aloftAfter blank i fs a) := by
  cases hequips : a.equips with
  | false =>
    refine h.same ?_ fun g hg => ⟨g.runs, ?_⟩
    · cases a with
      | call => cases hequips
      | complete j handle result =>
        simp only [aloftAfter]
        split
        · exact List.eraseP_sublist
        · exact .refl fs
      | _ => exact .refl fs
    · rw [gear?_step blank s hequips, hg]
  | true =>
    cases a with
    | join session concurrency classes chain' =>
      refine h.same (.refl fs) fun g hg => ⟨g.runs, ?_⟩
      have hne : i ≠ s.cluster.members.length := by
        rintro rfl
        rw [gear?, List.getElem?_eq_none (Nat.le_refl _)] at hg
        cases hg
      rw [gear?_join, if_neg hne, hg]
    | call j q =>
      by_cases hj : j = i
      · subst hj
        simp only [aloftAfter, if_true]
        exact h.call hchain hminds
      · simp only [aloftAfter, if_neg hj]
        refine h.same (.refl fs) fun g hg => ⟨g.runs, ?_⟩
        rw [gear?_call, if_neg hj, hg]
    | flush j | shutdown j =>
      refine h.same (.refl fs) fun g hg => ?_
      rw [gear?_leave blank s (i := j) rfl]
      split
      · rename_i hj
        exact ⟨{}, by rw [hj, hg]; rfl⟩
      · exact ⟨g.runs, hg⟩
    | _ => cases hequips

/-- What a whole run preserves, if the member minds its reads. -/
theorem run (h : s.Holds i chain capacity fs) (hchain : Chain.working chain = Chain.direct)
    {acts : List (Act P)} (hminded : s.Minded blank i capacity fs acts) :
    (s.run blank acts).Holds i chain capacity (s.aloft blank i fs acts) := by
  induction acts generalizing s fs with
  | nil => exact h
  | cons a rest ih => exact ih (h.step hchain hminded.1) hminded.2

end Holds

end Interplay

end BlockLedger
