import BlockLedger.Proofs.Cluster.Airborne
import BlockLedger.Proofs.Cluster.Relocations

/-
# The reads in the air of all members

If all members of an interplay count right above the device and mind their reads in the air, the
slots of all of them hold at any time what has been decided about these reads.
-/

namespace BlockLedger

/-- The reads in the air of all members. -/
abbrev InFlight := Nat → List Flight

namespace Interplay

variable {P C S : Type}

/-- All members count right above the device, and their slots hold what has been decided about their
reads in the air. -/
structure AllHold (s : Interplay P C S) (reads : InFlight) : Prop where
  members : ∀ i < s.chains.length, ∃ capacity, s.Holds i Chain.direct capacity (reads i)
  others : ∀ i, s.chains.length ≤ i → reads i = []

/-- Only members have reads in the air. -/
theorem AllHold.holds_of_mem {s : Interplay P C S} {reads : InFlight} (h : s.AllHold reads)
    {i : Nat} {f : Flight} (hf : f ∈ reads i) :
    ∃ capacity, s.Holds i Chain.direct capacity (reads i) := by
  refine h.members i (Nat.lt_of_not_le fun hle => ?_)
  rw [h.others i hle] at hf
  cases hf

theorem AllHold.direct {s : Interplay P C S} {reads : InFlight} (h : s.AllHold reads) :
    ∀ chain ∈ s.chains, chain = Chain.direct := by
  intro chain hchain
  obtain ⟨i, hi, hget⟩ := List.getElem_of_mem hchain
  obtain ⟨capacity, ⟨g, hg, hdirect, -⟩, -⟩ := h.members i hi
  obtain ⟨m, hm, rfl⟩ := Option.map_eq_some_iff.mp hg
  have hchains : s.chains[i]? = some m.chain := by
    rw [chains, List.getElem?_map, hm, Option.map_some]
  rw [List.getElem?_eq_getElem hi, hget] at hchains
  rw [Option.some.inj hchains]
  exact hdirect

theorem AllHold.same {s t : Interplay P C S} {reads : InFlight} (h : s.AllHold reads)
    (hchains : t.chains = s.chains) (hgear : ∀ i, t.gear? i = s.gear? i) : t.AllHold reads := by
  constructor
  · intro i hi
    rw [hchains] at hi
    obtain ⟨capacity, hold⟩ := h.members i hi
    refine ⟨capacity, hold.same (.refl _) fun g hg => ⟨g.runs, ?_⟩⟩
    rw [hgear, hg]
  · rw [hchains]
    exact h.others

variable [Catalog C] [Sink S]

/-- The reads in the air of all members after a turn. -/
def inFlightAfter (blank : P) (s : Interplay P C S) (reads : InFlight) : Turn P C → InFlight
  | .act a => fun i => s.aloftAfter blank i (reads i) a
  | _ => reads

/-- What all members must mind in a turn. -/
def Minds (s : Interplay P C S) (reads : InFlight) (t : Turn P C) : Prop :=
  ∀ a, t = .act a → ∀ i g, s.gear? i = some g → a.Minds i g.slots.capacity (reads i)

/-- All members mind their reads in the air at every turn. -/
def AllMinded (blank : P) (s : Interplay P C S) (reads : InFlight) : List (Turn P C) → Prop
  | [] => True
  | t :: rest =>
    s.Minds reads t ∧ (s.turn blank t).AllMinded blank (s.inFlightAfter blank reads t) rest

/-- The reads in the air of all members after one turn after the other. -/
def inFlight (blank : P) (s : Interplay P C S) (reads : InFlight) : List (Turn P C) → InFlight
  | [] => reads
  | t :: rest => (s.turn blank t).inFlight blank (s.inFlightAfter blank reads t) rest

theorem inFlight_concat (blank : P) (s : Interplay P C S) (reads : InFlight)
    (turns : List (Turn P C)) (t : Turn P C) :
    s.inFlight blank reads (turns ++ [t]) =
      (s.play blank turns).inFlightAfter blank (s.inFlight blank reads turns) t := by
  induction turns generalizing s reads with
  | nil => rfl
  | cons u rest ih => exact ih ..

theorem allMinded_concat (blank : P) (s : Interplay P C S) (reads : InFlight)
    (turns : List (Turn P C)) (t : Turn P C) :
    s.AllMinded blank reads (turns ++ [t]) ↔
      s.AllMinded blank reads turns ∧
        (s.play blank turns).Minds (s.inFlight blank reads turns) t := by
  induction turns generalizing s reads with
  | nil => exact and_comm
  | cons u rest ih =>
    rw [List.cons_append, AllMinded, AllMinded, ih, and_assoc]
    rfl

variable {blank : P} {s : Interplay P C S} {reads : InFlight} {t : Turn P C}

omit [Catalog C] [Sink S] in
/-- Only who acts must mind anything. -/
theorem minds_act {a : Act P} :
    s.Minds reads (.act a) ↔
      match a with
      | .call i q =>
        ∀ g, s.gear? i = some g → ∀ handle block, q.operation = .submit handle block →
          ∀ f ∈ reads i, f.handle.id % g.slots.capacity ≠ handle.id % g.slots.capacity
      | .complete i handle _ => ∀ g, s.gear? i = some g → ∃ f ∈ reads i, f.handle = handle
      | _ => True := by
  constructor
  · intro h
    cases a with
    | call | complete => exact fun g hg => h _ rfl _ g hg rfl
    | _ => trivial
  · rintro h b ⟨⟩ i g hg
    cases a with
    | call | complete =>
      rintro rfl
      exact h g hg
    | _ => trivial

omit [Catalog C] [Sink S] in
theorem aloftAfter_stranger {i : Nat} (h : s.cluster.members[i]? = none) (a : Act P) :
    s.aloftAfter blank i [] a = [] := by
  cases a with
  | call j q =>
    have hnone : s.takeoff? blank i q = none := by
      rw [takeoff?, h]
    simp [aloftAfter, hnone]
  | complete => simp [aloftAfter]
  | _ => rfl

/-- Whoever joins has nothing in the air. -/
theorem AllHold.join (h : s.AllHold reads) (blank : P) (session : Session) (concurrency : Nat)
    (classes : Option ClassPages) {i : Nat} (hi : i = s.chains.length) :
    ∃ capacity, (s.step blank (.join session concurrency classes Chain.direct)).Holds i Chain.direct
      capacity (reads i) := by
  have hmembers : i = s.cluster.members.length := hi.trans (List.length_map _)
  rw [h.others i (Nat.le_of_eq hi.symm), hmembers]
  exact ⟨_, Holds.join s blank session concurrency classes Chain.direct⟩

theorem AllHold.step {a : Act P} (h : s.AllHold reads)
    (hdirect : ∀ chain, a.chain? = some chain → chain = Chain.direct)
    (hminds : s.Minds reads (.act a)) :
    (s.step blank a).AllHold fun i => s.aloftAfter blank i (reads i) a := by
  have hlength : (s.step blank a).chains.length = s.chains.length + a.chain?.toList.length := by
    rw [s.chains_step blank a, List.length_append]
  constructor
  · intro i hi
    rw [hlength] at hi
    by_cases hmember : i < s.chains.length
    · obtain ⟨capacity, hold⟩ := h.members i hmember
      obtain ⟨g, hg, -, hcapacity, -⟩ := hold.gear
      refine ⟨capacity, hold.step rfl ?_⟩
      rw [← hcapacity]
      exact hminds a rfl i g hg
    · cases a with
      | join session concurrency classes chain =>
        obtain rfl := hdirect chain rfl
        have hlast : i < s.chains.length + 1 := hi
        exact h.join blank session concurrency classes (by omega)
      | _ => exact absurd hi hmember
  · intro i hi
    have hstranger : s.chains.length ≤ i := by omega
    have hnone : s.cluster.members[i]? = none := by
      rw [List.getElem?_eq_none_iff]
      simpa [chains] using hstranger
    rw [h.others i hstranger, aloftAfter_stranger hnone]

theorem AllHold.turn (h : s.AllHold reads)
    (hdirect : ∀ a chain, t = .act a → a.chain? = some chain → chain = Chain.direct)
    (hminds : s.Minds reads t) : (s.turn blank t).AllHold (s.inFlightAfter blank reads t) := by
  cases t with
  | act a => exact h.step (fun chain => hdirect a chain rfl) hminds
  | catalog catalog => exact h.same rfl fun i => rfl
  | classes i classes =>
    refine h.same ((s.chains_turn blank (.classes i classes)).trans (List.append_nil _)) ?_
    exact gear?_same (f := fun m => { m with backend := { m.backend with classes } }) rfl
      fun m _ => rfl

end Interplay

end BlockLedger
