import BlockLedger.Proofs.Cluster.Relocations
import BlockLedger.Proofs.Storage.Serving

/-
# The storage does not notice

Links that count or pass on stand between a backend and the device, but the device is asked just
what it would be asked without them, once, and what it says is what the backend is told.  So all
that backends hear from the storage is the same whatever their chains are, as long as each has a
device in it, and the device ends up with the same pages.  What has been counted by then, and how
temporary relations are tracked, has no say in it.
-/

namespace BlockLedger

/-! ## The storage on its own -/

/-- What a member is told by its chain. -/
inductive Answer (P : Type) where
  | call (result : Except CallError (List P))
  | complete (result : Completion)

/-- A device, and how many members share it. -/
structure Storage (P : Type) where
  members : Nat
  device : Device P

namespace Storage

variable {P : Type}

/-- What a member is told in an act, if anything, and the storage afterwards. -/
def step (blank : P) (d : Storage P) : Act P → Option (Answer P) × Storage P
  | .join .. => (none, { d with members := d.members + 1 })
  | .call i q =>
    if i < d.members then
      (some (.call (d.device.serve blank q).1), { d with device := (d.device.serve blank q).2 })
    else (some (.call (.error (.unhandled q.operation.name))), d)
  | .complete _ _ result => (some (.complete result), d)
  | _ => (none, d)

/-- What the members are told in one act after the other, and the storage afterwards. -/
def run (blank : P) (d : Storage P) : List (Act P) → List (Option (Answer P)) × Storage P
  | [] => ([], d)
  | a :: rest =>
    ((d.step blank a).1 :: ((d.step blank a).2.run blank rest).1,
      ((d.step blank a).2.run blank rest).2)

end Storage

namespace Act

variable {P : Type}

/-- The same act, but whoever joins has a chain of nothing but the device. -/
def bare : Act P → Act P
  | .join own concurrency classes _ => .join own concurrency classes [.device]
  | a => a

/-- If a member joins in an act, its chain leads to the device. -/
def Reaches (a : Act P) : Prop := ∀ chain, a.chain? = some chain → .device ∈ chain

theorem bare_reaches (a : Act P) : a.bare.Reaches := by
  intro chain h
  cases a with
  | join =>
    obtain rfl := Option.some.inj h
    exact List.mem_singleton_self _
  | _ => cases h

end Act

namespace Storage

variable {P : Type}

theorem step_bare (blank : P) (d : Storage P) (a : Act P) :
    d.step blank a.bare = d.step blank a := by
  cases a <;> rfl

theorem run_bare (blank : P) (d : Storage P) (acts : List (Act P)) :
    d.run blank (acts.map Act.bare) = d.run blank acts := by
  induction acts generalizing d with
  | nil => rfl
  | cons a rest ih => simp only [List.map_cons, run, step_bare, ih]

end Storage

/-! ## Whole interplays -/

namespace Interplay

variable {P C S D T : Type}

/-- The storage of an interplay. -/
def storage (s : Interplay P C S) : Storage P := ⟨s.chains.length, s.cluster.device⟩

/-- All members have a device in their chains. -/
def Reaching (s : Interplay P C S) : Prop := ∀ chain ∈ s.chains, .device ∈ chain

section One

variable [Catalog C] [Sink S]

/-- What the member that acts is told in an act, if anything. -/
def answer? (blank : P) (s : Interplay P C S) : Act P → Option (Answer P)
  | .call i q => some (.call (s.cluster.call blank i q).1)
  | .complete i handle result => some (.complete (s.cluster.complete i handle result).1)
  | _ => none

/-- What the members are told in one act after the other. -/
def answers (blank : P) (s : Interplay P C S) : List (Act P) → List (Option (Answer P))
  | [] => []
  | a :: rest => s.answer? blank a :: (s.step blank a).answers blank rest

variable {blank : P} {s : Interplay P C S} {a : Act P}

theorem Reaching.step (hs : s.Reaching) (blank : P) (ha : a.Reaches) :
    (s.step blank a).Reaching := by
  intro chain hchain
  rw [chains_step] at hchain
  rcases List.mem_append.mp hchain with hchain | hchain
  · exact hs chain hchain
  · exact ha chain (Option.mem_toList.mp hchain)

theorem Collecting.device {t : Interplay P C S} {ds : List Mark} (h : s.Collecting a ds t) :
    t.cluster.device = s.cluster.device := by
  cases h <;> rfl

/-- In all acts but calls the device stays as it is. -/
theorem device_step (ha : ∀ i q, a ≠ .call i q) :
    (s.step blank a).cluster.device = s.cluster.device := by
  cases a with
  | call i q => exact absurd rfl (ha i q)
  | join | session | reload | tick | peek => rfl
  | close | cycle | openWalk | list | visit | endWalk =>
    exact (s.collecting_of_step blank rfl).device
  | complete i handle result =>
    simp only [Interplay.step, Cluster.complete]
    cases s.cluster.members[i]? with
    | none => rfl
    | some m => exact Chain.device_complete m.chain handle result (s.cluster.siteOf m)
  | finish i work =>
    simp only [Interplay.step, Cluster.finish]
    cases s.cluster.members[i]? <;> rfl
  | flush i =>
    simp only [Interplay.step]
    cases s.cluster.members[i]? <;> rfl
  | shutdown i =>
    simp only [Interplay.step, Cluster.shutdown]
    cases s.cluster.members[i]? <;> rfl
  | conclude =>
    simp only [Interplay.step]
    cases s.returned.getLast? <;> rfl

/-- What an interplay does to its storage is no more than what the storage does on its own. -/
theorem Reaching.storage_step (hs : s.Reaching) (blank : P) (a : Act P) :
    (s.answer? blank a, (s.step blank a).storage) = s.storage.step blank a := by
  have hidle : ∀ a : Act P, a.chain? = none → (∀ i q, a ≠ .call i q) →
      (s.step blank a).storage = s.storage := by
    intro a hchain hcall
    rw [storage, s.chains_stay blank hchain, device_step hcall, storage]
  cases a with
  | join own concurrency classes chain =>
    have hchains := s.chains_step blank (.join own concurrency classes chain)
    refine Prod.ext rfl ?_
    simp only [storage, hchains, List.length_append]
    rfl
  | call i q =>
    have hlength : s.storage.members = s.cluster.members.length := List.length_map _
    have hchains : (s.step blank (.call i q)).chains = s.chains := s.chains_stay blank rfl
    simp only [answer?, Storage.step]
    cases hm : s.cluster.members[i]? with
    | none =>
      rw [if_neg (by rw [hlength]; exact Nat.not_lt.mpr (List.getElem?_eq_none_iff.mp hm))]
      simp only [Interplay.step, Cluster.call, hm]
      rfl
    | some m =>
      obtain ⟨hi, -⟩ := List.getElem?_eq_some_iff.mp hm
      obtain ⟨hanswer, hdevice⟩ :=
        Chain.call_serve blank (hs m.chain (List.mem_map_of_mem (List.mem_of_getElem? hm))) q
          (s.cluster.siteOf m)
      rw [if_pos (by rw [hlength]; exact hi)]
      refine Prod.ext ?_ ?_
      · simp only [Cluster.call, hm]
        exact congrArg (some ∘ Answer.call) hanswer
      · rw [storage, hchains]
        simp only [Interplay.step, Cluster.call, hm]
        exact congrArg (Storage.mk s.chains.length) hdevice
  | complete i handle result =>
    refine Prod.ext ?_ (hidle _ rfl fun i q h => by cases h)
    exact congrArg (some ∘ Answer.complete) (s.cluster.result_complete i handle result)
  | _ => exact Prod.ext rfl (hidle _ rfl fun i q h => by cases h)

theorem Reaching.storage_run (hs : s.Reaching) (blank : P) {acts : List (Act P)}
    (hacts : ∀ a ∈ acts, a.Reaches) :
    (s.answers blank acts, (s.run blank acts).storage) = s.storage.run blank acts := by
  induction acts generalizing s with
  | nil => rfl
  | cons a rest ih =>
    obtain ⟨ha, hrest⟩ := List.forall_mem_cons.mp hacts
    have hstep := hs.storage_step blank a
    have hrun := ih (hs.step blank ha) hrest
    rw [Storage.run, ← hstep, ← hrun]
    rfl

end One

/-- Whatever the chains of the members are, and whatever has been counted, all members are told the
same as if they had nothing but the device, and the device ends up with the same pages. -/
theorem storage_transparent [Catalog C] [Sink S] [Catalog D] [Sink T] (blank : P)
    {s : Interplay P C S} {t : Interplay P D T} (hdevice : t.cluster.device = s.cluster.device)
    (hbare : t.chains = s.chains.map fun _ => [.device]) (hs : s.Reaching) {acts : List (Act P)}
    (hacts : ∀ a ∈ acts, a.Reaches) :
    t.answers blank (acts.map Act.bare) = s.answers blank acts ∧
      (t.run blank (acts.map Act.bare)).cluster.device = (s.run blank acts).cluster.device := by
  have ht : t.Reaching := by
    intro chain hchain
    rw [hbare] at hchain
    obtain ⟨-, -, rfl⟩ := List.mem_map.mp hchain
    exact List.mem_singleton_self _
  have hbares : ∀ a ∈ acts.map Act.bare, a.Reaches := by
    intro a ha
    obtain ⟨b, -, rfl⟩ := List.mem_map.mp ha
    exact b.bare_reaches
  have hstorage : t.storage = s.storage := by
    rw [storage, storage, hdevice, hbare, List.length_map]
  have hrun : (t.answers blank (acts.map Act.bare), (t.run blank (acts.map Act.bare)).storage) =
      (s.answers blank acts, (s.run blank acts).storage) := by
    rw [ht.storage_run blank hbares, hs.storage_run blank hacts, hstorage, Storage.run_bare]
  exact ⟨congrArg Prod.fst hrun, congrArg (fun r => r.2.device) hrun⟩

/-! ## Two members with chains of their own -/

/-- A fork that both members ask for. -/
def shared (operation : Operation Nat) : Request Nat :=
  ⟨⟨grown.locator, true⟩, grown.fork, operation⟩

/-- One member counts everything twice, and the other has a link that only passes on.  The first one
puts two pages into a temporary relation, and the second one reads them, and reads too far. -/
def paging : List (Act Nat) :=
  [.join {} 1 none [.counting, .counting, .device],
    .join {} 4 none [.passing "audit", .counting, .device],
    .call 0 (shared (.create ⟨0, 0, 0⟩ false)), .call 0 (shared (.append 0 7)),
    .reload { tempTracking := .off }, .call 0 (shared (.append 1 8)),
    .call 1 (shared (.submit ⟨3, 2⟩ 0)), .cycle, .complete 1 ⟨3, 2⟩ .failed,
    .call 1 (shared (.read 0 2)), .call 1 (shared (.read 1 2))]

/-- Nobody has joined, and no fork has been created. -/
def paged : Interplay Nat ListedCatalog History := start {} { now := 1 } .empty {} default

/-- They are told what the device tells them. -/
theorem storage_transparent_paging :
    paged.Reaching ∧ (∀ a ∈ paging, a.Reaches) ∧
      paged.answers 0 paging =
        [none, none, some (.call (.ok [])), some (.call (.ok [])), none, some (.call (.ok [])),
          some (.call (.ok [])), none, some (.complete .failed), some (.call (.ok [7, 8])),
          some (.call (.error (.beyondEnd grown 2 2)))] := by
  have hreaching : paged.Reaching := nofun
  have hacts : ∀ a ∈ paging, a.Reaches := by
    simp [paging, Act.Reaches, Act.chain?]
  refine ⟨hreaching, hacts, ?_⟩
  rw [← (storage_transparent (s := paged) (t := paged) 0 rfl rfl hreaching hacts).1]
  have hbares : ∀ a ∈ paging.map Act.bare, a.Reaches := by
    simp [paging, Act.bare, Act.Reaches, Act.chain?]
  have hstorage := congrArg Prod.fst (hreaching.storage_run 0 hbares)
  refine hstorage.trans ?_
  simp [paging, Act.bare, paged, Interplay.start, storage, chains, shared, grown, Storage.run,
    Storage.step, Device.serve, Device.perform, Device.put, Device.fork?, Device.operate,
    Device.checkRange, Device.lengthenTo, Request.key]

end Interplay

end BlockLedger
