import BlockLedger.Store

/-
# Spreading identities

The forks of a relation share its identity.  When the entry of one fork takes an identity on, it
is handed on to the entries of the other forks that have none yet; no entry is created for it, and
an identity that was taken on is never replaced.
-/

namespace BlockLedger

namespace Key

/-- The keys of the other forks of the same relation. -/
def siblings (k : Key) : List Key :=
  (Fork.all.filter fun f => f != k.fork).map k.withFork

end Key

namespace Store

/-- Offers an identity to every key of a list: how many entries took it on, and the store. -/
def identifyAll (s : Store) (i : Identity) : List Key → Nat × Store
  | [] => (0, s)
  | key :: rest =>
    let (s, accepted) := s.identify key i
    let (n, s) := s.identifyAll i rest
    (if accepted then n + 1 else n, s)

/-- Hands the identity of a fork on to the other forks: how many took it on, and the store. -/
def spread (s : Store) (key : Key) (i : Identity) : Nat × Store := s.identifyAll i key.siblings

/-- Gives an identity to the entry of a key and, if the entry takes it on, hands it on: whether it
did, and the store. -/
def resolve (s : Store) (key : Key) (i : Identity) : Bool × Store :=
  match s.identify key i with
  | (s, true) => (true, (s.spread key i).2)
  | (s, false) => (false, s)

/-- Whether a key has an entry without an identity. -/
def unresolved (s : Store) (key : Key) : Bool :=
  match s.find? key with
  | some e => !e.identity.valid
  | none => false

end Store

end BlockLedger
