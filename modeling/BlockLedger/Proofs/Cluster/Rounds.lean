import BlockLedger.Proofs.Cluster.Provenance
import BlockLedger.Proofs.Cluster.Learning
import Mathlib.Logic.Function.Basic

/-
# Rounds

A backend need not go through its pending keys in one go.  Here a member goes on a round: it takes
all keys off its list, looks into one after the other, puts those that stay back at the end of the
list, and applies what has been found to the others.  Between any two of these steps everybody else
may come in, and the entry of the key at hand, or a fork beside it, may be given an identity by
somebody else.  On its round a member does nothing else.

If nobody comes in between, a round comes to the same as going through the list in one go.
-/

namespace BlockLedger

namespace Pending

variable {C : Type} [Catalog C]

/-- What comes of looking into a pending key. -/
inductive Prospect where
  /-- It stays on the list. -/
  | stays
  /-- It leaves the list, since its entry needs no identity. -/
  | leaves
  /-- An identity has been found, and is to be applied. -/
  | found (identity : Identity)

/-- Looks into a pending key. -/
def examine (session : Session) (key : Key) (l : Ledger) (catalog : C) : Prospect × Ledger × C :=
  if session.owns key.locator.database = false then (.stays, l, catalog)
  else if l.store.unresolved key = false then (.leaves, l, catalog)
  else
    match Catalog.find catalog session key with
    | (.found identity, catalog) => (.found identity, l, catalog)
    | (.refused reason, catalog) => (.stays, l.report (.lookupRefused key reason), catalog)
    | (.missing, catalog) => (.stays, l, catalog)
    | (.failed e, catalog) => (.stays, l.report (.lookupFailed key e), catalog)

/-- The ledger when what has been found for a key is applied. -/
def applied (l : Ledger) (key : Key) (identity : Identity) : Ledger :=
  { l with store := (l.store.resolve key identity).2 }

/-- To deal with a key is to look into it, and to apply what has been found. -/
theorem settle_eq (session : Session) (key : Key) (l : Ledger) (catalog : C) :
    settle session key l catalog =
      match examine session key l catalog with
      | (.stays, l, catalog) => (.kept, l, catalog)
      | (.leaves, l, catalog) => (.dropped, l, catalog)
      | (.found i, l, catalog) =>
        (if (l.store.resolve key i).1 then .resolved else .dropped, applied l key i, catalog) := by
  unfold settle examine
  split
  · rfl
  · split
    · rfl
    · unfold ask
      rcases Catalog.find catalog session key with ⟨_ | _ | _ | _, catalog'⟩ <;> rfl

end Pending

/-- How far a member has come on its round. -/
structure Round where
  /-- The key at hand, when an identity has been found for it. -/
  found : Option (Key × Identity) := none
  /-- The keys that it has not looked into yet. -/
  ahead : List Key := []

namespace Round

/-- The keys that are neither back on the list nor done with. -/
def keys (r : Round) : List Key := (r.found.map Prod.fst).toList ++ r.ahead

end Round

/-- An interplay in which members may be on their rounds. -/
structure Rounds (P C S : Type) where
  interplay : Interplay P C S
  round : Nat → Round := fun _ => {}

/-- What can happen in an interplay with rounds. -/
inductive Doing (P C : Type) where
  | turn (t : Turn P C)
  /-- Somebody offers an identity to an entry, in the midst of going through many. -/
  | tell (key : Key) (identity : Identity)
  /-- A member gives identities to the entries of a database that was created. -/
  | adopt (i : Nat) (database tablespace : Oid)
  /-- A member sets out on its round. -/
  | setOut (i : Nat)
  /-- It looks into the next key. -/
  | look (i : Nat)
  /-- It applies what it has found for the key at hand. -/
  | apply (i : Nat)

/-- The member that takes a turn. -/
def Turn.member? {P C : Type} : Turn P C → Option Nat
  | act (.call i _) | act (.complete i _ _) | act (.finish i _) | act (.flush i)
  | act (.shutdown i) | act (.session i _) => some i
  | _ => none

/-- The member that makes a call. -/
def Doing.caller? {P C : Type} : Doing P C → Option Nat
  | turn (.act (.call i _)) => some i
  | _ => none

namespace Rounds

variable {P C S : Type}

/-- The store of the ledger. -/
def store (s : Rounds P C S) : Store := s.interplay.store

/-- The member with a number. -/
def member? (s : Rounds P C S) (i : Nat) : Option Member := s.interplay.cluster.members[i]?

/-- A member goes on: its backend changes, and so do the ledger, the catalog and its round. -/
def goOn (s : Rounds P C S) (i : Nat) (f : Backend → Backend) (ledger : Ledger) (catalog : C)
    (round : Round) : Rounds P C S where
  interplay := s.interplay.withCluster
    { s.interplay.cluster with
      members := s.interplay.cluster.members.modify i fun m => { m with backend := f m.backend }
      ledger
      catalog }
  round := Function.update s.round i round

variable [Catalog C] [Sink S]

/-- Does one thing.  What cannot be done now changes nothing. -/
def step (blank : P) (s : Rounds P C S) : Doing P C → Rounds P C S
  | .turn t =>
    if ∀ i ∈ t.member?, (s.round i).keys = [] then
      { s with interplay := s.interplay.turn blank t }
    else s
  | .tell key identity =>
    { s with
      interplay := s.interplay.withCluster
        { s.interplay.cluster with
          ledger := Pending.applied s.interplay.cluster.ledger key identity } }
  | .adopt i database tablespace =>
    match s.member? i, (s.round i).keys with
    | some m, [] =>
      match m.backend.resolveCreated database tablespace s.interplay.cluster.ledger
        s.interplay.cluster.catalog with
      | (ledger, catalog) => s.goOn i id ledger catalog (s.round i)
    | _, _ => s
  | .setOut i =>
    match s.member? i, (s.round i).keys with
    | some m, [] =>
      s.goOn i (fun b => { b with pending := [] }) s.interplay.cluster.ledger
        s.interplay.cluster.catalog { ahead := m.backend.pending }
    | _, _ => s
  | .look i =>
    match s.member? i, s.round i with
    | some m, ⟨none, key :: rest⟩ =>
      match Pending.examine m.backend.session key s.interplay.cluster.ledger
        s.interplay.cluster.catalog with
      | (.stays, ledger, catalog) =>
        s.goOn i (fun b => { b with pending := b.pending ++ [key] }) ledger catalog
          { ahead := rest }
      | (.leaves, ledger, catalog) => s.goOn i id ledger catalog { ahead := rest }
      | (.found identity, ledger, catalog) =>
        s.goOn i id ledger catalog ⟨some (key, identity), rest⟩
    | _, _ => s
  | .apply i =>
    match s.round i with
    | ⟨some (key, identity), rest⟩ =>
      s.goOn i id (Pending.applied s.interplay.cluster.ledger key identity)
        s.interplay.cluster.catalog { ahead := rest }
    | _ => s

/-- Does one thing after the other. -/
def run (blank : P) (s : Rounds P C S) (doings : List (Doing P C)) : Rounds P C S :=
  doings.foldl (step blank) s

theorem run_concat (blank : P) (s : Rounds P C S) (doings : List (Doing P C)) (d : Doing P C) :
    s.run blank (doings ++ [d]) = (s.run blank doings).step blank d := by
  simp [run]

/-! ## Rounds that nobody interrupts -/

/-- The steps of a round through a number of keys. -/
def through (i : Nat) (keys : List Key) : List (Doing P C) :=
  keys.flatMap fun _ => [.look i, .apply i]

variable (blank : P) (s : Rounds P C S) {i : Nat} {m : Member}

/-- A member on its round, with the keys that it has put back, and those that lie ahead. -/
def onRound (s : Rounds P C S) (i : Nat) (kept ahead : List Key) (l : Ledger) (catalog : C) :
    Rounds P C S :=
  s.goOn i (fun b => { b with pending := kept }) l catalog { ahead }

omit [Catalog C] [Sink S] in
theorem member?_onRound (hm : s.member? i = some m) (kept ahead : List Key) (l : Ledger)
    (catalog : C) :
    (s.onRound i kept ahead l catalog).member? i =
      some { m with backend := { m.backend with pending := kept } } := by
  have hmember : s.interplay.cluster.members[i]? = some m := hm
  simp [onRound, goOn, member?, Interplay.withCluster, hmember]

omit [Catalog C] [Sink S] in
/-- To go on from a round is to go on from where it has begun. -/
theorem goOn_onRound (kept ahead : List Key) (l : Ledger) (catalog : C)
    (f : Backend → Backend) (l' : Ledger) (catalog' : C) (round : Round) :
    (s.onRound i kept ahead l catalog).goOn i f l' catalog' round =
      s.goOn i (fun b => f { b with pending := kept }) l' catalog' round := by
  simp [onRound, goOn, Interplay.withCluster, List.modify_modify_eq, Function.comp_def]

theorem step_setOut (hm : s.member? i = some m) (hidle : s.round i = {}) :
    s.step blank (.setOut i) =
      s.onRound i [] m.backend.pending s.interplay.cluster.ledger s.interplay.cluster.catalog := by
  simp [step, hm, hidle, Round.keys, onRound]

theorem step_look (hm : s.member? i = some m) (kept : List Key) (key : Key) (ahead : List Key)
    (l : Ledger) (catalog : C) :
    (s.onRound i kept (key :: ahead) l catalog).step blank (.look i) =
      match Pending.examine m.backend.session key l catalog with
      | (.stays, l, catalog) => s.onRound i (kept ++ [key]) ahead l catalog
      | (.leaves, l, catalog) => s.onRound i kept ahead l catalog
      | (.found identity, l, catalog) =>
        s.goOn i (fun b => { b with pending := kept }) l catalog ⟨some (key, identity), ahead⟩ := by
  have hmember := s.member?_onRound hm kept (key :: ahead) l catalog
  have hround : (s.onRound i kept (key :: ahead) l catalog).round i = { ahead := key :: ahead } := by
    simp [onRound, goOn]
  have hledger : (s.onRound i kept (key :: ahead) l catalog).interplay.cluster.ledger = l := rfl
  have hcatalog : (s.onRound i kept (key :: ahead) l catalog).interplay.cluster.catalog = catalog :=
    rfl
  simp only [step, hmember, hround, hledger, hcatalog]
  rcases Pending.examine m.backend.session key l catalog with ⟨_ | _ | identity, l', catalog'⟩ <;>
    exact s.goOn_onRound ..

/-- To look into a key and to apply what has been found is to deal with it. -/
theorem run_key (hm : s.member? i = some m) (kept : List Key) (key : Key) (ahead : List Key)
    (l : Ledger) (catalog : C) :
    (s.onRound i kept (key :: ahead) l catalog).run blank [.look i, .apply i] =
      s.onRound i
        (if (Pending.settle m.backend.session key l catalog).1 = .kept then kept ++ [key]
          else kept)
        ahead (Pending.settle m.backend.session key l catalog).2.1
        (Pending.settle m.backend.session key l catalog).2.2 := by
  have hnothing : ∀ (kept ahead : List Key) (l : Ledger) (catalog : C),
      (s.onRound i kept ahead l catalog).step blank (.apply i) =
        s.onRound i kept ahead l catalog := by
    intro kept ahead l catalog
    simp [step, onRound, goOn]
  rw [Pending.settle_eq, run, List.foldl_cons, List.foldl_cons, List.foldl_nil,
    s.step_look blank hm]
  rcases Pending.examine m.backend.session key l catalog with ⟨_ | _ | identity, l', catalog'⟩
  · simpa using hnothing ..
  · simpa using hnothing ..
  · have happly : (s.goOn i (fun b => { b with pending := kept }) l' catalog'
        ⟨some (key, identity), ahead⟩).step blank (.apply i) =
          s.onRound i kept ahead (Pending.applied l' key identity) catalog' := by
      simp [step, onRound, goOn, Interplay.withCluster, List.modify_modify_eq, Function.comp_def]
    have hleaves : ¬(if (l'.store.resolve key identity).1 then Fate.resolved else .dropped) =
        .kept := by
      split <;> simp
    dsimp only
    rw [happly, if_neg hleaves]

theorem run_through (hm : s.member? i = some m) (kept keys : List Key) (l : Ledger) (catalog : C) :
    (s.onRound i kept keys l catalog).run blank (through i keys) =
      s.onRound i (kept ++ (Pending.settleAll m.backend.session keys l catalog).1.1) []
        (Pending.settleAll m.backend.session keys l catalog).2.1
        (Pending.settleAll m.backend.session keys l catalog).2.2 := by
  induction keys generalizing kept l catalog with
  | nil => simp [run, through, Pending.settleAll]
  | cons key rest ih =>
    have hkey := s.run_key blank hm kept key rest l catalog
    have hrest := ih
      (if (Pending.settle m.backend.session key l catalog).1 = .kept then kept ++ [key] else kept)
      (Pending.settle m.backend.session key l catalog).2.1
      (Pending.settle m.backend.session key l catalog).2.2
    rw [through, List.flatMap_cons, run, List.foldl_append]
    rw [run] at hkey
    rw [hkey]
    refine hrest.trans ?_
    rw [Pending.settleAll]
    congr 1
    split <;> simp [*]

/-- A round can be made in one go or step by step. -/
theorem run_round (hm : s.member? i = some m) (hidle : s.round i = {}) :
    s.run blank (.setOut i :: through i m.backend.pending) =
      match m.backend.resolvePending s.interplay.cluster.ledger s.interplay.cluster.catalog with
      | (_, b, ledger, catalog) => s.onRound i b.pending [] ledger catalog := by
  rw [run, List.foldl_cons, s.step_setOut blank hm hidle]
  exact s.run_through blank hm [] m.backend.pending _ _

end Rounds

end BlockLedger
