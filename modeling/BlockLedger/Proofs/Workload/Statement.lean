import BlockLedger.Proofs.Cluster.Transparency
import BlockLedger.Proofs.Storage.Reference
import BlockLedger.Proofs.Workload.Generator
import BlockLedger.Workload.Client

/-
# What a statement of a client comes to

Statements are put together from a few actions: a client draws numbers, looks at itself, sends
requests and takes note of things.  For each of them it is said here when it succeeds and what it
leaves.  Of the device only the lengths of forks matter, since no client looks at pages, and neither
what is counted nor how plays any part.
-/

namespace BlockLedger

/-- The main fork of a relation. -/
def Relation.main (r : Relation) : Key := ⟨r.locator, .main⟩

/-! ## Statements that succeed -/

namespace Scene

variable {α β : Type} {s : Scene}

/-- A statement succeeds at a scene, and its result and what it leaves fulfil a condition. -/
def Yields (s : Scene) (act : Statement α) (post : α → Scene → Prop) : Prop :=
  ∃ a t, act s = .ok a t ∧ post a t

theorem Yields.bind {act : Statement α} {f : α → Statement β} {mid : α → Scene → Prop}
    {post : β → Scene → Prop} (h : s.Yields act mid)
    (hf : ∀ a t, mid a t → t.Yields (f a) post) : s.Yields (act >>= f) post := by
  obtain ⟨a, t, hact, hmid⟩ := h
  obtain ⟨b, u, hb, hpost⟩ := hf a t hmid
  refine ⟨b, u, ?_, hpost⟩
  show EStateM.bind act f s = _
  simp only [EStateM.bind, hact, hb]

theorem Yields.pure {post : α → Scene → Prop} {a : α} (h : post a s) :
    s.Yields (Pure.pure a) post :=
  ⟨a, s, rfl, h⟩

theorem Yields.mono {act : Statement α} {mid post : α → Scene → Prop} (h : s.Yields act mid)
    (hpost : ∀ a t, mid a t → post a t) : s.Yields act post := by
  obtain ⟨a, t, hact, hmid⟩ := h
  exact ⟨a, t, hact, hpost a t hmid⟩

/-- Nothing has changed that later statements go by, but for the lengths of some forks: the client
is the same but for its backend, its generator and the number of its next read. -/
structure Alike (forks : List Key) (s t : Scene) : Prop where
  client : t.client = { s.client with
    backend := t.client.backend, generator := t.client.generator, nextRead := t.client.nextRead }
  length : ∀ key ∉ forks, t.device.length? key = s.device.length? key

variable {t u : Scene} {forks : List Key}

theorem Alike.refl (s : Scene) : s.Alike forks s := ⟨rfl, fun _ _ => rfl⟩

theorem Alike.trans (h : s.Alike forks t) (h' : t.Alike forks u) : s.Alike forks u := by
  refine ⟨?_, fun key hkey => (h'.length key hkey).trans (h.length key hkey)⟩
  rw [h'.client, h.client]

theorem Alike.id_eq (h : s.Alike forks t) : t.client.id = s.client.id := by rw [h.client]

theorem Alike.mono {more : List Key} (h : s.Alike forks t) (hsub : forks ⊆ more) :
    s.Alike more t :=
  ⟨h.client, fun key hkey => h.length key fun hmem => hkey (hsub hmem)⟩

/-- What a request that is carried out leaves. -/
structure Called (s : Scene) (relation : Relation) (operation : Operation Unit) (t : Scene) :
    Prop where
  alike : s.Alike [relation.main] t
  length : t.device.length? relation.main =
    operation.newLength (s.device.length? relation.main)

/-- A request may leave the length of its fork as it is. -/
theorem Called.alike_nil {relation : Relation} {operation : Operation Unit}
    (h : s.Called relation operation t) (hcreates : operation.creates = false)
    (hresize : ∀ n, operation.resize n = n) : s.Alike [] t := by
  refine ⟨h.alike.client, fun key _ => ?_⟩
  by_cases hkey : key = relation.main
  · rw [hkey, h.length, Operation.newLength_eq_self hcreates hresize]
  · exact h.alike.length key (by rwa [List.mem_singleton])

/-- The main fork of a relation is there and has at least so many blocks. -/
def Reaches (s : Scene) (relation : Relation) (blocks : Nat) : Prop :=
  ∃ n, s.device.length? relation.main = some n ∧ blocks ≤ n

theorem Reaches.mono {relation : Relation} {m n : Nat} (h : s.Reaches relation n) (hle : m ≤ n) :
    s.Reaches relation m :=
  h.imp fun _ ⟨hlength, hn⟩ => ⟨hlength, hle.trans hn⟩

theorem Reaches.alike {relation : Relation} {n : Nat} (h : s.Reaches relation n)
    (halike : s.Alike forks t) (hkey : relation.main ∉ forks) : t.Reaches relation n := by
  rwa [Reaches, halike.length _ hkey]

end Scene

namespace Client

variable {s : Scene}

/-- Looking at oneself changes nothing. -/
theorem self_bind_yields {α : Type} {f : Client → Statement α} {post : α → Scene → Prop}
    (h : s.Yields (f s.client) post) : s.Yields (self >>= f) post :=
  h

theorem modifyClient_yields (s : Scene) (f : Client → Client) :
    s.Yields (modifyClient f) fun _ t => t = { s with client := f s.client } :=
  ⟨(), _, rfl, rfl⟩

/-- A number is drawn below its bound, and is 0 if the bound is. -/
theorem draw_yields (s : Scene) (bound : UInt32) :
    s.Yields (draw bound) fun n t => n.toNat < max bound.toNat 1 ∧ s.Alike [] t :=
  ⟨(s.client.generator.below bound).1, _, rfl, Generator.below_lt _ _, rfl, fun _ _ => rfl⟩

theorem call_yields (relation : Relation) (operation : Operation Unit)
    (h : s.device.Admits relation.main operation) :
    s.Yields (call relation operation) fun _ t => s.Called relation operation t := by
  have hserve : .device ∈ chain := by decide
  obtain ⟨hresult, hdevice⟩ := Chain.call_serve () hserve ⟨relation, .main, operation⟩
    ⟨s.client.backend, s.ledger, s.device⟩
  obtain ⟨⟨pages, hpages⟩, hlength⟩ :=
    Device.serve_length () ⟨relation, .main, operation⟩ h
  rcases hcall : Chain.call () chain ⟨relation, .main, operation⟩
    ⟨s.client.backend, s.ledger, s.device⟩ with ⟨result, site⟩
  rw [hcall] at hresult hdevice
  dsimp only at hresult hdevice
  obtain rfl : result = .ok pages := hresult.trans hpages
  refine ⟨(), ⟨{ s.client with backend := site.backend }, site.ledger, site.device⟩, ?_,
    ⟨rfl, fun key hkey => ?_⟩, ?_⟩
  · simp only [call, hcall]
  · rw [hdevice, Device.length?_serve_of_ne () (List.mem_singleton.not.1 hkey)]
  · rw [hdevice]
    exact hlength

/-- An access within a fork. -/
theorem access_yields {relation : Relation} {n : Nat} (operation : Operation Unit)
    (h : s.Reaches relation n) (hreach : operation.reach ≤ n) (hcreates : operation.creates = false)
    (hresize : ∀ n, operation.resize n = n) :
    s.Yields (call relation operation) fun _ t => s.Alike [] t :=
  (call_yields _ _ fun _ => h.mono hreach).mono fun _ _ hcalled =>
    hcalled.alike_nil hcreates hresize

theorem complete_yields (s : Scene) (handle : Handle) :
    s.Yields (complete handle) fun _ t => s.Alike [] t := by
  refine ⟨(), _, rfl, rfl, fun key _ => ?_⟩
  have hdevice := Chain.device_complete chain handle .ok ⟨s.client.backend, s.ledger, s.device⟩
  exact congrArg (fun d => Device.length? d key) hdevice

/-- A fork is there once it is created, with the length that it may have had before. -/
theorem create_yields (s : Scene) (relation : Relation) (old : Locator) :
    s.Yields (call relation (.create old false)) fun _ t =>
      s.Alike [relation.main] t ∧ t.device.length? relation.main =
        some ((s.device.length? relation.main).getD 0) := by
  refine (call_yields relation (.create old false) nofun).mono fun _ t hcalled =>
    ⟨hcalled.alike, ?_⟩
  rw [hcalled.length]
  cases s.device.length? relation.main <;> rfl

/-- A fork that is lengthened from its start has at least that length. -/
theorem lengthen_yields {relation : Relation} (h : s.Reaches relation 0) (blocks : UInt32) :
    s.Yields (call relation (.lengthen 0 blocks)) fun _ t =>
      s.Alike [relation.main] t ∧ t.Reaches relation blocks.toNat := by
  refine (call_yields relation (.lengthen 0 blocks) fun _ => h).mono fun _ t hcalled =>
    ⟨hcalled.alike, ?_⟩
  obtain ⟨n, hn, -⟩ := h
  refine ⟨max n (0 + blocks.toNat), ?_, by omega⟩
  rw [hcalled.length, hn]
  rfl

end Client

end BlockLedger
