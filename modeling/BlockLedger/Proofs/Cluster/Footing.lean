import BlockLedger.Proofs.Cluster.Touches
import BlockLedger.Proofs.Storage.Reference

/-
# What a member stands on

Whether a request can be carried out goes by the lengths of the forks, what it is counted under by
the tunables, and how it continues the accesses before it by what the detector has taken in.  So
whoever keeps account of these and of the entries can tell what comes of one call after the other,
with no word about pages and slots.
-/

namespace BlockLedger

/-! ## The device behind a chain -/

namespace Site

variable {P : Type} (s : Site P)

theorem device_introduce (relation : Relation) (fork : Fork) :
    (s.introduce relation fork).device = s.device := by
  simp only [introduce]
  split <;> rfl

theorem device_account (q : Request P) (block count : BlockNumber) (d : Direction) :
    (s.account q block count d).device = s.device := by
  simp only [account]
  split <;> rfl

theorem device_bump (q : Request P) (f : Entry → Entry) : (s.bump q f).device = s.device := by
  simp only [bump]
  split <;> rfl

/-- To count a request asks nothing of the device. -/
theorem device_count (q : Request P) : (s.count q).device = s.device := by
  obtain ⟨relation, fork, operation⟩ := q
  cases operation with
  | attach => exact s.device_introduce ..
  | create old redo =>
    simp only [count]
    split
    · exact device_introduce _ relation fork
    · exact s.device_introduce relation fork
  | submit => rfl
  | read | write => exact s.device_account ..
  | append | lengthen | truncate | sync => exact s.device_bump ..

theorem device_prepare (q : Request P) : (s.prepare q).device = s.device := by
  simp only [prepare]
  split
  · simp only [stage]
    split <;> rfl
  · rfl

theorem device_settle (handle : Handle) (result : Completion) :
    (s.settle handle result).device = s.device := by
  simp only [settle]
  split <;> rfl

theorem capacity_prepare (q : Request P) :
    (s.prepare q).backend.slots.capacity = s.backend.slots.capacity := by
  unfold prepare
  split
  · unfold stage
    split
    · rfl
    · rename_i key _
      obtain ⟨pending, hregister⟩ := s.backend_register key
      simp only [classify, hregister]
      rfl
  · rfl

/-! ## Entries -/

theorem find?_register_eq (key k : Key) :
    (s.register key).ledger.store.find? k =
      if key = k then some ((s.ledger.store.find? k).getD (.new k))
      else s.ledger.store.find? k := by
  rw [register_eq, Store.find?_ensure]
  split
  · rename_i hk
    rw [hk]
  · rfl

theorem find?_introduce (relation : Relation) (fork : Fork) (k : Key) :
    (s.introduce relation fork).ledger.store.find? k =
      if s.trackingKey relation fork = some k then
        some ((s.ledger.store.find? k).getD (.new k))
      else s.ledger.store.find? k := by
  rw [introduce]
  cases s.trackingKey relation fork with
  | none => rfl
  | some key => simpa using s.find?_register_eq key k

theorem find?_update (key : Key) (f : Entry → Entry) (k : Key) :
    (s.update key f).ledger.store.find? k =
      if key = k then some (f ((s.ledger.store.find? k).getD (.new k)))
      else s.ledger.store.find? k := by
  simp only [update, Ledger.withStore, Store.find?_modify, find?_register_eq]
  split
  · rename_i hk
    rw [hk, if_pos trivial, Option.map_some]
  · rfl

theorem find?_bump (q : Request P) (f : Entry → Entry) (k : Key) :
    (s.bump q f).ledger.store.find? k =
      if s.trackingKey q.relation q.fork = some k then
        some ((f ((s.ledger.store.find? k).getD (.new k))).touch s.ledger.clock.now)
      else s.ledger.store.find? k := by
  rw [bump]
  cases s.trackingKey q.relation q.fork with
  | none => rfl
  | some key => simpa using s.find?_update key _ k

theorem find?_account_eq (q : Request P) (block count : BlockNumber) (d : Direction) (k : Key) :
    (s.account q block count d).ledger.store.find? k =
      if s.trackingKey q.relation q.fork = some k then
        some (((s.ledger.store.find? k).getD (.new k)).account d count.toNat s.ledger.clock.lag
          (s.backend.runs.check q.key block count d).1 s.ledger.clock.now)
      else s.ledger.store.find? k := by
  rw [account]
  cases s.trackingKey q.relation q.fork with
  | none => rfl
  | some key =>
    simp only [Option.some.injEq]
    exact find?_update (s.classify q.key key block count d).2 key _ k

theorem find?_stage (q : Request P) (handle : Handle) (block : BlockNumber) (k : Key) :
    (s.stage q handle block).ledger.store.find? k =
      if s.trackingKey q.relation q.fork = some k then
        some ((s.ledger.store.find? k).getD (.new k))
      else s.ledger.store.find? k := by
  rw [stage]
  cases s.trackingKey q.relation q.fork with
  | none => rfl
  | some key =>
    simp only [Option.some.injEq]
    exact s.find?_register_eq key k

/-- The completion of a read changes nothing of the ledger but the store. -/
theorem ledger_settle (handle : Handle) (result : Completion) :
    ∃ store, (s.settle handle result).ledger = { s.ledger with store } := by
  simp only [settle]
  split
  · exact ⟨_, rfl⟩
  · exact ⟨s.ledger.store, rfl⟩

end Site

namespace Chain

variable {P : Type}

/-- A request comes to the device once and unchanged, and what the device says comes back. -/
theorem call_serve (blank : P) {chain : List Link} (h : .device ∈ chain) (q : Request P)
    (s : Site P) :
    (call blank chain q s).1 = (s.device.serve blank q).1 ∧
      (call blank chain q s).2.device = (s.device.serve blank q).2 := by
  induction chain generalizing s with
  | nil => cases h
  | cons link rest ih =>
    cases link with
    | device =>
      simp only [call, Device.serve]
      cases s.device.perform blank q <;> exact ⟨rfl, rfl⟩
    | passing name => exact ih (by simpa using h) s
    | counting =>
      have hrest := ih (by simpa using h) (s.prepare q)
      rw [s.device_prepare q] at hrest
      simp only [call]
      rcases hcall : call blank rest q (s.prepare q) with ⟨_ | pages, t⟩ <;> rw [hcall] at hrest
      · exact hrest
      · exact ⟨hrest.1, (t.device_count q).trans hrest.2⟩

/-- The device hears nothing of a completion. -/
theorem device_complete (chain : List Link) (handle : Handle) (result : Completion) (s : Site P) :
    (complete chain handle result s).2.device = s.device := by
  induction chain generalizing s with
  | nil => rfl
  | cons link rest ih =>
    cases link with
    | device | passing name => exact ih s
    | counting => exact (ih (s.settle handle result)).trans (s.device_settle handle result)

theorem ledger_complete (chain : List Link) (handle : Handle) (result : Completion) (s : Site P) :
    ∃ store, (complete chain handle result s).2.ledger = { s.ledger with store } := by
  induction chain generalizing s with
  | nil => exact ⟨s.ledger.store, rfl⟩
  | cons link rest ih =>
    cases link with
    | device | passing name => exact ih s
    | counting =>
      obtain ⟨_, hsettle⟩ := s.ledger_settle handle result
      obtain ⟨store, hrest⟩ := ih (s.settle handle result)
      exact ⟨store, hrest.trans (by rw [hsettle])⟩

/-! ## Links that only pass on -/

/-- The links of a chain that do more than pass on. -/
def working (chain : List Link) : List Link :=
  chain.filter fun link => link = .counting ∨ link = .device

theorem call_working (blank : P) (chain : List Link) (q : Request P) (s : Site P) :
    call blank (working chain) q s = call blank chain q s := by
  induction chain generalizing s with
  | nil => rfl
  | cons link rest ih =>
    cases link with
    | device => rfl
    | passing name => exact ih s
    | counting =>
      show call blank (.counting :: working rest) q s = call blank (.counting :: rest) q s
      simp only [call, ih]

theorem complete_working (chain : List Link) (handle : Handle) (result : Completion) (s : Site P) :
    complete (working chain) handle result s = complete chain handle result s := by
  induction chain generalizing s with
  | nil => rfl
  | cons link rest ih =>
    cases link with
    | device | passing name => exact ih s
    | counting => exact ih (s.settle handle result)

theorem touches_working (blank : P) (chain : List Link) (q : Request P) (s : Site P) :
    touches blank (working chain) q s = touches blank chain q s := by
  induction chain generalizing s with
  | nil => rfl
  | cons link rest ih =>
    cases link with
    | device => rfl
    | passing name => exact ih s
    | counting =>
      show touches blank (.counting :: working rest) q s = touches blank (.counting :: rest) q s
      simp only [touches, call_working, ih]

end Chain

/-! ## Footings -/

/-- What a member stands on. -/
structure Footing where
  tunables : Tunables
  clock : Clock
  /-- The number of slots of the member. -/
  capacity : Nat
  /-- The lengths of the forks that there are. -/
  lengths : Key → Option Nat := fun _ => none
  entries : Key → Option Entry := fun _ => none
  /-- What the detector of the member has taken in. -/
  memory : List Touch := []

/-- The fork that a request is about: a relation is made known by its main fork. -/
def Request.subject {P : Type} (q : Request P) : Key :=
  match q.operation with
  | .attach => ⟨q.relation.locator, .main⟩
  | _ => q.key

namespace Footing

variable {P : Type} (f : Footing) (q : Request P)

/-- The key that a request is counted under, if it is. -/
def key? : Option Key :=
  ({ tunables := f.tunables } : Ledger).trackingKey q.subject q.relation.temporary

/-- What the detector is told about a request that is carried out. -/
def touch? : Option Touch :=
  match q.operation with
  | .read block n => (f.key? q).map fun key => ⟨q.key, key, .read, block, UInt32.ofNat n⟩
  | .submit handle block => (f.key? q).map fun key => ⟨q.key, key, .read, block, handle.blocks⟩
  | .write block pages =>
    (f.key? q).map fun key => ⟨q.key, key, .write, block, UInt32.ofNat pages.length⟩
  | _ => none

/-- How an access to a fork continues those that the detector has taken in. -/
def access (fork : Key) (block count : BlockNumber) (d : Direction) : Access :=
  ((((f.memory.filter fun t => t.fork = fork).foldl Pattern.note {}).cursor d).step block count).1

/-- What a request is charged that is carried out. -/
def charge? : Option Charge :=
  match q.operation with
  | .attach | .create .. | .submit .. => none
  | .read block n =>
    let count := UInt32.ofNat n
    some (.access .read count.toNat f.clock.lag (f.access q.key block count .read))
  | .write block pages =>
    let count := UInt32.ofNat pages.length
    some (.access .write count.toNat f.clock.lag (f.access q.key block count .write))
  | .append .. => some (.extension 1)
  | .lengthen _ n => some (.extension n.toNat)
  | .truncate _ => some .truncation
  | .sync => some .sync

/-- The entry of a request that is carried out, if there was such an entry before. -/
def entry (e : Entry) : Entry := ((f.charge? q).map fun c => c.apply f.clock.now e).getD e

/-- A request can be carried out. -/
def Admits : Prop :=
  q.operation.needsFork = true → ∃ n ∈ f.lengths q.key, q.operation.reach ≤ n

instance : Decidable (f.Admits q) :=
  inferInstanceAs (Decidable (_ → _))

/-- The footing after a request that has been carried out. -/
def after : Footing :=
  { f with
    lengths := fun k =>
      if q.key = k then q.operation.newLength (f.lengths k) else f.lengths k
    entries := fun k =>
      if f.key? q = some k then some (f.entry q ((f.entries k).getD (.new k))) else f.entries k
    memory := f.memory ++ (f.touch? q).toList }

end Footing

/-- A backend stands on a footing. -/
structure Site.Stands {P : Type} (s : Site P) (f : Footing) : Prop where
  tunables : s.ledger.tunables = f.tunables
  clock : s.ledger.clock = f.clock
  capacity : s.backend.slots.capacity = f.capacity
  lengths : ∀ k, s.device.length? k = f.lengths k
  entries : ∀ k, s.ledger.store.find? k = f.entries k
  memory : s.backend.runs = .noteAll {} f.memory

namespace Site.Stands

variable {P : Type} {s t : Site P} {f : Footing} {q : Request P}

theorem trackingKey (h : s.Stands f) {fork : Fork} (hq : q.subject = ⟨q.relation.locator, fork⟩) :
    s.trackingKey q.relation fork = f.key? q := by
  simp only [Site.trackingKey, Footing.key?, Ledger.trackingKey, h.tunables, hq]

theorem access (h : s.Stands f) (fork : Key) (block count : BlockNumber) (d : Direction) :
    (s.backend.runs.check fork block count d).1 = f.access fork block count d := by
  rw [Footing.access, ← Runs.pattern_noteAll, ← h.memory]
  rfl

/-- Before a request is passed on the detector hears about a submission, and afterwards about all
other accesses. -/
theorem touches (h : s.Stands f)
    (ht : t.trackingKey q.relation q.fork = s.trackingKey q.relation q.fork) :
    (s.submitted? q).toList ++ (t.accessed? q).toList = (f.touch? q).toList := by
  have hkey : ∀ fork, q.subject = ⟨q.relation.locator, fork⟩ →
      s.trackingKey q.relation fork = f.key? q := fun _ => h.trackingKey
  obtain ⟨relation, fork, operation⟩ := q
  simp only [submitted?, accessed?, Footing.touch?, ht]
  cases operation with
  | read | write | submit => simp [hkey _ rfl]
  | _ => rfl

theorem relocate (h : s.Stands f) (r : Relocation) :
    Site.Stands { s with ledger := (s.ledger.relocate r).1 } f where
  tunables := (s.ledger.relocate_tunables r).trans h.tunables
  clock := (s.ledger.relocate_clock r).trans h.clock
  capacity := h.capacity
  lengths := h.lengths
  entries k := by
    dsimp only
    rw [Ledger.relocate_store, h.entries]
  memory := h.memory

theorem find?_introduce (h : s.Stands f) {fork : Fork}
    (hq : q.subject = ⟨q.relation.locator, fork⟩) (hcharge : f.charge? q = none) (k : Key) :
    (s.introduce q.relation fork).ledger.store.find? k = (f.after q).entries k := by
  simp only [Site.find?_introduce, h.trackingKey hq, h.entries, Footing.after, Footing.entry,
    hcharge]
  rfl

/-- The entries after a request that has been carried out, unless it submits a read. -/
theorem find?_count (h : s.Stands f) (hq : ∀ handle block, q.operation ≠ .submit handle block)
    (k : Key) : (s.count q).ledger.store.find? k = (f.after q).entries k := by
  obtain ⟨relation, fork, operation⟩ := q
  have hkey : ∀ fork', Request.subject ⟨relation, fork, operation⟩ = ⟨relation.locator, fork'⟩ →
      s.trackingKey relation fork' = f.key? ⟨relation, fork, operation⟩ :=
    fun _ => h.trackingKey
  cases operation with
  | attach => exact h.find?_introduce rfl rfl k
  | create old redo =>
    simp only [count]
    split
    · exact (h.relocate _).find?_introduce (q := ⟨relation, fork, .create old redo⟩) rfl rfl k
    · exact h.find?_introduce (q := ⟨relation, fork, .create old redo⟩) rfl rfl k
  | submit handle block => exact absurd rfl (hq handle block)
  | read | write =>
    simp only [count, find?_account_eq, Footing.after, hkey _ rfl, h.entries, h.clock, h.access]
    rfl
  | append | lengthen | truncate | sync =>
    simp only [count, find?_bump, Footing.after, hkey _ rfl, h.entries, h.clock]
    rfl

/-- A submission sees to an entry of its key before it is passed on. -/
theorem find?_prepare (h : s.Stands f) {handle : Handle} {block : BlockNumber}
    (hq : q.operation = .submit handle block) (k : Key) :
    (s.prepare q).ledger.store.find? k = (f.after q).entries k := by
  have hsubject : q.subject = ⟨q.relation.locator, q.fork⟩ := by rw [Request.subject, hq]; rfl
  have hcharge : f.charge? q = none := by rw [Footing.charge?, hq]
  simp only [prepare, hq, find?_stage, h.trackingKey hsubject, h.entries, Footing.after,
    Footing.entry, hcharge]
  rfl

theorem withDevice (h : s.Stands f) (d : Device P) :
    Site.Stands { s with device := d } { f with lengths := d.length? } :=
  ⟨h.tunables, h.clock, h.capacity, fun _ => rfl, h.entries, h.memory⟩

/-- The device carries out what can be carried out. -/
theorem perform (h : s.Stands f) (blank : P) (hq : f.Admits q) :
    ∃ pages d, s.device.perform blank q = .ok (pages, d) ∧
      ∀ k, d.length? k = (f.after q).lengths k := by
  have hadmits : s.device.Admits q.key q.operation := by
    intro hneeds
    rw [h.lengths]
    exact hq hneeds
  obtain ⟨⟨pages, hpages⟩, hlength⟩ := Device.serve_length blank q hadmits
  have helse := fun k (hk : k ≠ q.key) => Device.length?_serve_of_ne blank (d := s.device) hk
  rw [Device.serve] at hpages hlength helse
  rcases hperform : s.device.perform blank q with e | ⟨out, d⟩ <;>
    rw [hperform] at hpages hlength helse
  · cases hpages
  · refine ⟨out, d, rfl, fun k => ?_⟩
    simp only [Footing.after]
    split
    · rename_i hk
      rw [← hk, ← h.lengths]
      exact hlength
    · rename_i hk
      rw [← h.lengths]
      exact helse k (Ne.symm hk)

/-- The entries after a request that has been carried out. -/
theorem find?_count_prepare (h : s.Stands f) (d : Device P) (k : Key) :
    (({ s.prepare q with device := d } : Site P).count q).ledger.store.find? k =
      (f.after q).entries k := by
  by_cases hsubmit : ∃ handle block, q.operation = .submit handle block
  · obtain ⟨handle, block, hq⟩ := hsubmit
    rw [count, hq]
    exact h.find?_prepare hq k
  · have hq : ∀ handle block, q.operation ≠ .submit handle block :=
      fun handle block hq => hsubmit ⟨handle, block, hq⟩
    rw [s.prepare_eq_self hq]
    exact (h.withDevice d).find?_count hq k

/-- A request that can be carried out is, and the footing afterwards is known. -/
theorem call (h : s.Stands f) (blank : P) {chain : List Link}
    (hchain : Chain.working chain = Chain.direct) (hq : f.Admits q) :
    (∃ pages, (Chain.call blank chain q s).1 = .ok pages) ∧
      (Chain.call blank chain q s).2.Stands (f.after q) ∧
      Chain.touches blank chain q s = (f.touch? q).toList := by
  rw [← Chain.call_working, ← Chain.touches_working, hchain]
  obtain ⟨pages, d, hperform, hlengths⟩ := h.perform blank hq
  have hmoves := Chain.call_moves blank Chain.direct q s
  have hruns := Chain.runs_call blank Chain.direct q s
  have hdevice : Chain.call blank [.device] q (s.prepare q) =
      (.ok pages, { s.prepare q with device := d }) := by
    simp only [Chain.call, s.device_prepare q, hperform]
  have htouches : Chain.touches blank Chain.direct q s = (f.touch? q).toList := by
    simp only [Chain.direct, Chain.touches, hdevice, List.nil_append]
    exact h.touches ((s.prepare_moves q).trackingKey _ _)
  have hcall : Chain.call blank Chain.direct q s =
      (.ok pages, ({ s.prepare q with device := d }).count q) := by
    rw [Chain.direct, Chain.call, hdevice]
  obtain ⟨pending, hbackend⟩ := Site.backend_count { s.prepare q with device := d } q
  rw [htouches] at hruns
  rw [hcall] at hmoves hruns ⊢
  refine ⟨⟨pages, rfl⟩, ⟨?_, ?_, ?_, fun k => ?_, h.find?_count_prepare d, ?_⟩, htouches⟩
  · exact hmoves.ledger.tunables.trans h.tunables
  · exact hmoves.ledger.clock.trans h.clock
  · rw [hbackend]
    exact (s.capacity_prepare q).trans h.capacity
  · rw [Site.device_count]
    exact hlengths k
  · rw [hruns, h.memory, ← Runs.noteAll_append]
    rfl

/-- The completion of a read changes nothing but entries. -/
theorem complete (h : s.Stands f) (chain : List Link) (handle : Handle) (result : Completion) :
    (Chain.complete chain handle result s).2.Stands
      { f with entries := (Chain.complete chain handle result s).2.ledger.store.find? } := by
  obtain ⟨store, hledger⟩ := Chain.ledger_complete chain handle result s
  have hbackend := Chain.backend_complete chain handle result s
  refine ⟨?_, ?_, ?_, fun k => ?_, fun _ => rfl, ?_⟩
  · rw [hledger]
    exact h.tunables
  · rw [hledger]
    exact h.clock
  · rw [hbackend]
    exact h.capacity
  · rw [Chain.device_complete]
    exact h.lengths k
  · rw [hbackend]
    exact h.memory

end Site.Stands

/-! ## Acts -/

namespace Interplay

variable {P C S : Type}

/-- A member that counts right above the device stands on a footing. -/
def Stands (s : Interplay P C S) (i : Nat) (f : Footing) : Prop :=
  ∃ m, s.cluster.members[i]? = some m ∧ Chain.working m.chain = Chain.direct ∧
    (s.cluster.siteOf m).Stands f

namespace Stands

variable {s : Interplay P C S} {i : Nat} {f : Footing} {q : Request P}

theorem find? (h : s.Stands i f) (k : Key) : s.store.find? k = f.entries k := by
  obtain ⟨m, -, -, hsite⟩ := h
  exact hsite.entries k

theorem capacity (h : s.Stands i f) {g : Gear} (hg : s.gear? i = some g) :
    g.slots.capacity = f.capacity := by
  obtain ⟨m, hm, -, hsite⟩ := h
  rw [gear?, hm] at hg
  obtain rfl := Option.some.inj hg
  exact hsite.capacity

theorem runsOf (h : s.Stands i f) : s.runsOf i = .noteAll {} f.memory := by
  obtain ⟨m, hm, -, hsite⟩ := h
  rw [s.runsOf_eq hm]
  exact hsite.memory

theorem answer (h : s.Stands i f) (blank : P) (hq : f.Admits q) :
    ∃ pages, (s.cluster.call blank i q).1 = .ok pages := by
  obtain ⟨m, hm, hchain, hsite⟩ := h
  simp only [Cluster.call, hm]
  exact (hsite.call blank hchain hq).1

theorem touches (h : s.Stands i f) (blank : P) (hq : f.Admits q) :
    s.touches blank (.call i q) = (f.touch? q).toList.map fun t => (i, t) := by
  obtain ⟨m, hm, hchain, hsite⟩ := h
  simp only [Interplay.touches, hm]
  rw [(hsite.call blank hchain hq).2.2]

variable [Catalog C] [Sink S]

/-- Whoever joins first stands on what is there from the start. -/
theorem start_join (blank : P) (settings : Settings) (clock : Clock) (catalog : C)
    (session : Session) (sink : S) (own : Session) (concurrency : Nat)
    (classes : Option ClassPages) (chain : List Link)
    (hchain : Chain.working chain = Chain.direct) :
    ((start settings clock catalog session sink : Interplay P C S).step blank
        (.join own concurrency classes chain)).Stands 0
      { tunables := .ofSettings settings, clock, capacity := max concurrency 1 } := by
  have hfork := Site.fork?_fresh (P := P) settings clock own concurrency classes
  exact ⟨_, rfl, hchain, rfl, rfl, rfl, fun k => congrArg (Option.map Array.size) (hfork k),
    Ledger.find?_start settings clock, rfl⟩

theorem call (h : s.Stands i f) (blank : P) (hq : f.Admits q) :
    (s.step blank (.call i q)).Stands i (f.after q) := by
  obtain ⟨m, hm, hchain, hsite⟩ := h
  simp only [step, Cluster.call, hm]
  refine ⟨⟨(Chain.call blank m.chain q (s.cluster.siteOf m)).2.backend, m.chain⟩, ?_, hchain,
    (hsite.call blank hchain hq).2.1⟩
  simp [withCluster, Cluster.withSite, Cluster.withBackend, hm]

/-- The completion of a read changes nothing but entries. -/
theorem complete (h : s.Stands i f) (blank : P) (handle : Handle) (result : Completion) :
    let after := s.step blank (.complete i handle result)
    after.Stands i { f with entries := after.store.find? } := by
  obtain ⟨m, hm, hchain, hsite⟩ := h
  simp only [step, Cluster.complete, hm]
  refine ⟨⟨(Chain.complete m.chain handle result (s.cluster.siteOf m)).2.backend, m.chain⟩, ?_,
    hchain, hsite.complete m.chain handle result⟩
  simp [withCluster, Cluster.withSite, Cluster.withBackend, hm]

theorem reload (h : s.Stands i f) (blank : P) (settings : Settings) :
    (s.step blank (.reload settings)).Stands i { f with tunables := .reload settings } := by
  obtain ⟨m, hm, hchain, hsite⟩ := h
  refine ⟨m, hm, hchain, s.cluster.ledger.reload_tunables settings,
    (s.cluster.ledger.reload_clock settings).trans hsite.clock, hsite.capacity, hsite.lengths,
    fun k => ?_, hsite.memory⟩
  exact (congrArg (Store.find? · k) (s.cluster.ledger.reload_store settings)).trans
    (hsite.entries k)

/-- A closing snapshot changes nothing but entries. -/
theorem close (h : s.Stands i f) (blank : P) :
    let after := s.step blank .close
    after.Stands i { f with entries := after.store.find? } := by
  obtain ⟨m, hm, hchain, hsite⟩ := h
  simp only [step]
  cases s.walk <;> exact ⟨m, hm, hchain, hsite.tunables, hsite.clock, hsite.capacity,
    hsite.lengths, fun _ => rfl, hsite.memory⟩

end Stands

/-! ## Runs -/

variable [Catalog C] [Sink S]

/-- A run leads a member to a footing, and its accesses are all that the detectors have been
told. -/
structure Leads (blank : P) (s : Interplay P C S) (acts : List (Act P)) (i : Nat)
    (f : Footing) : Prop where
  stands : (s.run blank acts).Stands i f
  log : s.log blank acts = f.memory.map fun t => (i, t)

namespace Leads

variable {blank : P} {s : Interplay P C S} {acts : List (Act P)} {i : Nat} {f : Footing}
  {q : Request P}

theorem start_join (blank : P) (settings : Settings) (clock : Clock) (catalog : C)
    (session : Session) (sink : S) (own : Session) (concurrency : Nat)
    (classes : Option ClassPages) (chain : List Link)
    (hchain : Chain.working chain = Chain.direct) :
    (start settings clock catalog session sink : Interplay P C S).Leads blank
      [.join own concurrency classes chain] 0
      { tunables := .ofSettings settings, clock, capacity := max concurrency 1 } :=
  ⟨.start_join blank settings clock catalog session sink own concurrency classes chain hchain, rfl⟩

theorem call (h : s.Leads blank acts i f) (hq : f.Admits q) :
    s.Leads blank (acts ++ [.call i q]) i (f.after q) := by
  refine ⟨?_, ?_⟩
  · rw [run_concat]
    exact h.stands.call blank hq
  · rw [log_concat, h.log, h.stands.touches blank hq, ← List.map_append]
    rfl

theorem complete (h : s.Leads blank acts i f) (handle : Handle) (result : Completion) :
    s.Leads blank (acts ++ [.complete i handle result]) i
      { f with
        entries := (s.run blank (acts ++ [.complete i handle result])).store.find? } := by
  refine ⟨?_, ?_⟩
  · rw [run_concat]
    exact h.stands.complete blank handle result
  · rw [log_concat, h.log]
    exact List.append_nil _

theorem reload (h : s.Leads blank acts i f) (settings : Settings) :
    s.Leads blank (acts ++ [.reload settings]) i { f with tunables := .reload settings } := by
  refine ⟨?_, ?_⟩
  · rw [run_concat]
    exact h.stands.reload blank settings
  · rw [log_concat, h.log]
    exact List.append_nil _

end Leads

end Interplay

end BlockLedger
