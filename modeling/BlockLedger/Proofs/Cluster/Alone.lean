import BlockLedger.Proofs.Cluster.Enrolment
import BlockLedger.Proofs.Cluster.Interplay
import BlockLedger.Proofs.Storage.Serving

/-
# A member on its own

When an interplay has a single member, and this one counts right above the device, its calls can be
followed in what the member can reach.  A fork that neither the device nor the ledger knows can be
founded in this way, and its key be asked for.
-/

namespace BlockLedger

theorem Ledger.find?_start (settings : Settings) (clock : Clock) (k : Key) :
    (start settings clock).store.find? k = none := by
  simp [start, Store.find?]

namespace Site

variable {P : Type}

/-- What is within reach of a backend that is there from the start. -/
def fresh (settings : Settings) (clock : Clock) (session : Session) (concurrency : Nat)
    (classes : Option ClassPages) : Site P where
  backend := { Backend.new session concurrency with classes }
  ledger := .start settings clock
  device := {}

section Fresh

variable (settings : Settings) (clock : Clock) (session : Session) (concurrency : Nat)
  (classes : Option ClassPages) (k : Key)

theorem fork?_fresh :
    (fresh settings clock session concurrency classes : Site P).device.fork? k = none := by
  simp [fresh, Device.fork?]

theorem find?_fresh :
    (fresh settings clock session concurrency classes : Site P).ledger.store.find? k = none :=
  Ledger.find?_start settings clock k

end Fresh

variable {s : Site P} {key : Key} {e : Entry}

theorem register_of_find? (h : s.ledger.store.find? key = some e) : s.register key = s := by
  have hensure : s.ledger.store.ensure key = (s.ledger.store, false) := by
    rw [Store.ensure, h]
  rw [register_eq, hensure, h]
  rfl

theorem update_of_find? (h : s.ledger.store.find? key = some e) (f : Entry → Entry) :
    s.update key f = { s with ledger := s.ledger.withStore fun store => store.modify key f } := by
  rw [update, register_of_find? h]

end Site

/-! ## Counting right above the device -/

namespace Chain

variable {P : Type} (blank : P) {s : Site P} {q : Request P} {pages : List P} {d : Device P}

/-- A link that counts, right above the device. -/
def direct : List Link := [.counting, .device]

/-- A request that needs no preparation is counted once the device has carried it out. -/
theorem call_direct (hq : s.prepare q = s) (h : s.device.perform blank q = .ok (pages, d)) :
    call blank direct q s = (.ok pages, ({ s with device := d }).count q) := by
  simp only [direct, call, hq, h]

end Chain

namespace Interplay

variable {P C S : Type}

/-- The only member of the interplay counts right above the device, and reaches the site. -/
structure Alone (s : Interplay P C S) (site : Site P) : Prop where
  members : s.cluster.members = [⟨site.backend, Chain.direct⟩]
  ledger : s.cluster.ledger = site.ledger
  device : s.cluster.device = site.device

namespace Alone

variable {s : Interplay P C S} {site : Site P}

theorem member (h : s.Alone site) : s.cluster.members[0]? = some ⟨site.backend, Chain.direct⟩ := by
  rw [h.members]
  rfl

theorem siteOf (h : s.Alone site) : s.cluster.siteOf ⟨site.backend, Chain.direct⟩ = site := by
  rw [Cluster.siteOf, h.ledger, h.device]

theorem store (h : s.Alone site) : s.store = site.ledger.store := by
  rw [Interplay.store, h.ledger]

variable [Catalog C] [Sink S] (blank : P)

/-- Whoever joins first is on its own. -/
theorem start_join (settings : Settings) (clock : Clock) (catalog : C) (session : Session)
    (sink : S) (own : Session) (concurrency : Nat) (classes : Option ClassPages) :
    ((start settings clock catalog session sink : Interplay P C S).step blank
        (.join own concurrency classes Chain.direct)).Alone
      (.fresh settings clock own concurrency classes) :=
  ⟨rfl, rfl, rfl⟩

theorem call (h : s.Alone site) (q : Request P) :
    (s.step blank (.call 0 q)).Alone (Chain.call blank Chain.direct q site).2 := by
  simp only [step, Cluster.call, h.member, h.siteOf]
  exact ⟨by simp [withCluster, Cluster.withSite, Cluster.withBackend, h.members], rfl, rfl⟩

theorem catalog_call (i : Nat) (q : Request P) :
    (s.step blank (.call i q)).cluster.catalog = s.cluster.catalog := by
  simp only [step, Cluster.call]
  cases s.cluster.members[i]? <;> rfl

theorem finish {catalog : C} (h : s.Alone site) (hcatalog : s.cluster.catalog = catalog)
    (work : Work) :
    let done := site.backend.finish work site.ledger catalog
    (s.step blank (.finish 0 work)).Alone { site with backend := done.2.1, ledger := done.2.2.1 } ∧
      (s.step blank (.finish 0 work)).cluster.catalog = done.2.2.2 := by
  simp only [step, Cluster.finish, h.member, h.ledger, hcatalog]
  exact ⟨⟨by simp [withCluster, Cluster.withBackend, h.members], rfl, h.device⟩, rfl⟩

end Alone

end Interplay

/-! ## A new fork -/

/-- The creation of a fork of a permanent relation. -/
def Request.creation {P : Type} (k : Key) : Request P :=
  ⟨⟨k.locator, false⟩, k.fork, .create ⟨0, 0, 0⟩ false⟩

/-- A fork of a permanent relation is lengthened from its first block on. -/
def Request.growth {P : Type} (k : Key) (n : BlockNumber) : Request P :=
  ⟨⟨k.locator, false⟩, k.fork, .lengthen 0 n⟩

/-- A fork is created and lengthened that neither the device nor the ledger knew.  Nothing else
changes, but that the entry is pending if it is wanted. -/
structure Site.Founds {P : Type} (blank : P) (s : Site P) (k : Key) (n : BlockNumber)
    (t : Site P) : Prop where
  forks : ∀ k', t.device.fork? k' =
    if k = k' then some (Device.lengthenTo blank #[] n.toNat) else s.device.fork? k'
  entries : ∀ k', t.ledger.store.find? k' =
    if k = k' then some ((Charge.extension n.toNat).apply s.ledger.clock.now (.new k))
    else s.ledger.store.find? k'
  clock : t.ledger.clock = s.ledger.clock
  tunables : t.ledger.tunables = s.ledger.tunables
  session : t.backend.session = s.backend.session
  pending : t.backend.pending = Pending.add s.backend.session s.backend.pending k

namespace Chain

variable {P : Type} (blank : P) {s : Site P} {k : Key} {pages : Array P} {e : Entry}

theorem call_creation (hfork : s.device.fork? k = none) :
    call blank direct (.creation k) s =
      (.ok [], { s with device := s.device.put k #[] }.register k) := by
  refine call_direct blank rfl ?_
  have habsent : s.device.forks.contains k = false := by simpa [Device.fork?] using hfork
  exact congrArg (fun d => Except.ok ([], d)) (if_neg (Bool.eq_false_iff.mp habsent))

theorem perform_growth (hfork : s.device.fork? k = some pages) (n : BlockNumber) :
    s.device.perform blank (.growth k n) =
      .ok ([], s.device.put k (Device.lengthenTo blank pages n.toNat)) := by
  have hkey : s.device.fork? ⟨k.locator, k.fork⟩ = some pages := hfork
  simp [Device.perform, Request.growth, Request.key, hkey, Device.operate]

theorem call_growth (hfork : s.device.fork? k = some pages)
    (hentry : s.ledger.store.find? k = some e) (n : BlockNumber) :
    call blank direct (.growth k n) s =
      (.ok [],
        { s with
          device := s.device.put k (Device.lengthenTo blank pages n.toNat)
          ledger := s.ledger.withStore fun store =>
            store.modify k ((Charge.extension n.toNat).apply s.ledger.clock.now) }) := by
  rw [call_direct blank rfl (perform_growth blank hfork n)]
  exact congrArg _ (Site.update_of_find?
    (s := { s with device := s.device.put k (Device.lengthenTo blank pages n.toNat) }) hentry
    ((Charge.extension n.toNat).apply s.ledger.clock.now))

theorem fork?_creation (hfork : s.device.fork? k = none) :
    (call blank direct (.creation k) s).2.device.fork? k = some #[] := by
  rw [call_creation blank hfork, Site.register_eq, Device.fork?_put, if_pos rfl]

theorem find?_creation (hfork : s.device.fork? k = none)
    (hentry : s.ledger.store.find? k = none) :
    (call blank direct (.creation k) s).2.ledger.store.find? k = some (.new k) := by
  rw [call_creation blank hfork, Site.register_eq, Store.find?_ensure, if_pos rfl, hentry,
    Option.getD_none]

theorem backend_creation (hfork : s.device.fork? k = none)
    (hentry : s.ledger.store.find? k = none) :
    (call blank direct (.creation k) s).2.backend =
      { s.backend with pending := Pending.add s.backend.session s.backend.pending k } := by
  rw [call_creation blank hfork, Site.register_eq]
  simp [hentry]

theorem founds (hfork : s.device.fork? k = none) (hentry : s.ledger.store.find? k = none)
    (n : BlockNumber) :
    s.Founds blank k n
      (call blank direct (.growth k n) (call blank direct (.creation k) s).2).2 := by
  rw [call_growth blank (fork?_creation blank hfork) (find?_creation blank hfork hentry),
    call_creation blank hfork, Site.register_eq]
  refine ⟨fun k' => ?_, fun k' => ?_, rfl, rfl, rfl, by simp [hentry]⟩
  · simp only [Device.fork?_put]
    split <;> rfl
  · simp only [Ledger.withStore, Store.find?_modify, Store.find?_ensure, hentry]
    split <;> simp

end Chain

/-- A member on its own creates a fork and lengthens it. -/
theorem Interplay.Alone.founded {P C S : Type} [Catalog C] [Sink S] {s : Interplay P C S}
    {site : Site P} (h : s.Alone site) (blank : P) {k : Key} (hfork : site.device.fork? k = none)
    (hentry : site.ledger.store.find? k = none) (n : BlockNumber) :
    let now := (s.step blank (.call 0 (.creation k))).step blank (.call 0 (.growth k n))
    (∃ t, now.Alone t ∧ site.Founds blank k n t) ∧ now.cluster.catalog = s.cluster.catalog :=
  ⟨⟨_, (h.call blank _).call blank _, Chain.founds blank hfork hentry n⟩,
    (catalog_call blank 0 _).trans (catalog_call blank 0 _)⟩

/-! ## Catching up on one key -/

namespace Interplay.Alone

variable {P C S : Type} [Catalog C] [Sink S] {s : Interplay P C S} {site : Site P} {catalog : C}
  {k : Key} (blank : P)

omit [Catalog C] [Sink S] in
theorem withCatalog (h : s.Alone site) (catalog : C) :
    (s.withCluster { s.cluster with catalog }).Alone site :=
  ⟨h.members, h.ledger, h.device⟩

/-- If the catalog does not know the only key that is pending, all stays as it is. -/
theorem finish_of_missing (h : s.Alone site) (hcatalog : s.cluster.catalog = catalog)
    (hpending : site.backend.pending = [k])
    (howns : site.backend.session.owns k.locator.database = true)
    (hk : site.ledger.store.unresolved k = true)
    (hfind : (Catalog.find catalog site.backend.session k).1 = .missing) :
    (s.step blank (.finish 0 .data)).Alone site := by
  rcases hmissing : Catalog.find catalog site.backend.session k with ⟨finding, catalog'⟩
  obtain rfl : finding = .missing := by rw [← hfind, hmissing]
  have hsettle : Pending.settle site.backend.session k site.ledger catalog =
      (.kept, site.ledger, catalog') := by
    simp [Pending.settle, howns, hk, Pending.ask, hmissing]
  have hdone : site.backend.finish .data site.ledger catalog =
      (⟨0, 1⟩, { site.backend with pending := [k] }, site.ledger, catalog') := by
    simp [Backend.finish, Backend.resolvePending, hpending, Pending.settleAll, hsettle]
  have hfinish := (h.finish blank hcatalog .data).1
  rw [hdone, ← hpending] at hfinish
  exact hfinish

/-- If it knows the key, all forks of the relation are given what it says. -/
theorem finish_of_found {i : Identity} (h : s.Alone site) (hcatalog : s.cluster.catalog = catalog)
    (hpending : site.backend.pending = [k])
    (howns : site.backend.session.owns k.locator.database = true)
    (hk : site.ledger.store.unresolved k = true)
    (hfind : (Catalog.find catalog site.backend.session k).1 = .found i) :
    (s.step blank (.finish 0 .data)).store = (site.ledger.store.resolve k i).2 := by
  rcases hfound : Catalog.find catalog site.backend.session k with ⟨finding, catalog'⟩
  obtain rfl : finding = .found i := by rw [← hfind, hfound]
  rw [(h.finish blank hcatalog .data).1.store]
  simp [Backend.finish, Backend.resolvePending, hpending, Pending.settleAll, Pending.settle, howns,
    hk, Pending.ask, hfound]

end Interplay.Alone

end BlockLedger
