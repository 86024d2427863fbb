import BlockLedger.Entry
import BlockLedger.Relation.Relocation
import BlockLedger.Wire.Primitive

/-
# The wire form of records

A record is what a segment file holds: the entries of a closed bucket, or the associations that
were collected together with it.  Each type has a writer and a reader, which go through its parts
in the same order.
-/

namespace BlockLedger

/-- A closed bucket. -/
structure BucketRecord where
  bucket : Nat
  /-- The end of the collection, in microseconds since 1970. -/
  collectedAt : Int
  entries : List Entry
  deriving DecidableEq, Inhabited

/-- The associations collected together with a bucket. -/
structure AssociationRecord where
  bucket : Nat
  collectedAt : Int
  associations : List Association
  deriving DecidableEq, Inhabited, Repr

namespace Wire

/-! ## Keys and identities -/

/-- The bytes of a word of 32 bits. -/
def ofWord32 (w : UInt32) : List UInt8 := ofNat w.toNat

def ofLocator (l : Locator) : List UInt8 :=
  ofWord32 l.tablespace ++ ofWord32 l.database ++ ofWord32 l.number

def locator : Reader Locator := do
  return { tablespace := ← word32, database := ← word32, number := ← word32 }

def ofFork (f : Fork) : List UInt8 := ofNat f.code

def fork : Reader Fork := alternative Fork.ofCode?

def ofKey (k : Key) : List UInt8 := ofLocator k.locator ++ ofFork k.fork

def key : Reader Key := do return { locator := ← locator, fork := ← fork }

def ofIdentity (i : Identity) : List UInt8 :=
  ofWord32 i.oid ++ ofWord32 i.mainOid ++ ofOption (fun k => ofNat k.code) i.kind
    ++ ofText i.name ++ ofText i.schema ++ ofBool i.valid

def identity : Reader Identity := do
  return {
    oid := ← word32
    mainOid := ← word32
    kind := ← option (alternative RelKind.ofCode?)
    name := ← text
    schema := ← text
    valid := ← bool }

/-! ## Statistics -/

def ofMoments (m : Moments Double) : List UInt8 :=
  ofNat m.count ++ ofDouble m.mean ++ ofDouble m.squares

def moments : Reader (Moments Double) := do
  return { count := ← nat64, mean := ← double, squares := ← double }

def ofHistogram (h : Histogram) : List UInt8 :=
  h.bins.toList.flatMap ofNat ++ ofNat h.count ++ ofNat h.total ++ ofNat h.least
    ++ ofNat h.greatest

/-- Reads a vector, whose length is known from its type. -/
def vector {α : Type} (read : Reader α) (n : Nat) : Reader (Vector α n) := do
  let xs ← times read n
  if h : xs.toArray.size = n then return ⟨xs.toArray, h⟩ else throw .ended

def histogram : Reader Histogram := do
  return {
    bins := ← vector nat64 Histogram.binCount
    count := ← nat64
    total := ← nat64
    least := ← nat64
    greatest := ← nat64 }

/-- The gaps between accesses, with the time of the latest access. -/
def ofBursts (t : Traffic) : List UInt8 := ofMoments t.gaps ++ ofInt t.last

def bursts : Reader (Moments Double × Int) := do return (← moments, ← int64)

/-- The bytes of an entry.  The two directions are interleaved: first how much there was of
either, then how long it took, how it was spread over time, how it was split into runs, and the
runs themselves. -/
def ofEntry (e : Entry) : List UInt8 :=
  ofKey e.key ++ ofNat e.reads.count ++ ofNat e.reads.blocks ++ ofNat e.writes.count
    ++ ofNat e.writes.blocks ++ ofNat e.extensions ++ ofNat e.extendedBlocks
    ++ ofNat e.truncations ++ ofNat e.syncs ++ ofHistogram e.reads.latency
    ++ ofHistogram e.writes.latency ++ ofBursts e.reads ++ ofBursts e.writes
    ++ ofNat e.reads.sequential ++ ofNat e.reads.random ++ ofNat e.writes.sequential
    ++ ofNat e.writes.random ++ ofMoments e.reads.runs ++ ofMoments e.writes.runs
    ++ ofNat e.activeSeconds ++ ofInt e.lastActiveSecond ++ ofInt e.firstAccess
    ++ ofInt e.lastAccess ++ ofIdentity e.identity

def entry : Reader Entry := do
  let key ← key
  let readCount ← nat64
  let readBlocks ← nat64
  let writeCount ← nat64
  let writeBlocks ← nat64
  let extensions ← nat64
  let extendedBlocks ← nat64
  let truncations ← nat64
  let syncs ← nat64
  let readLatency ← histogram
  let writeLatency ← histogram
  let (readGaps, readLast) ← bursts
  let (writeGaps, writeLast) ← bursts
  let sequentialReads ← nat64
  let randomReads ← nat64
  let sequentialWrites ← nat64
  let randomWrites ← nat64
  let readRuns ← moments
  let writeRuns ← moments
  let activeSeconds ← nat32
  let lastActiveSecond ← int64
  let firstAccess ← int64
  let lastAccess ← int64
  let identity ← identity
  return {
    key
    reads :=
      { count := readCount, blocks := readBlocks, latency := readLatency, gaps := readGaps
        last := readLast, sequential := sequentialReads, random := randomReads
        runs := readRuns }
    writes :=
      { count := writeCount, blocks := writeBlocks, latency := writeLatency, gaps := writeGaps
        last := writeLast, sequential := sequentialWrites, random := randomWrites
        runs := writeRuns }
    extensions, extendedBlocks, truncations, syncs, activeSeconds, lastActiveSecond
    firstAccess, lastAccess, identity }

/-! ## Records -/

def ofAssociation (a : Association) : List UInt8 :=
  ofLocator a.source ++ ofLocator a.target ++ ofFork a.fork ++ ofBool a.redo
    ++ ofOption ofIdentity a.identity

def association : Reader Association := do
  return {
    source := ← locator
    target := ← locator
    fork := ← fork
    redo := ← bool
    identity := ← option identity }

def ofBucket (r : BucketRecord) : List UInt8 :=
  ofNat r.bucket ++ ofInt r.collectedAt ++ ofList ofEntry r.entries

def bucket : Reader BucketRecord := do
  return { bucket := ← nat64, collectedAt := ← int64, entries := ← list entry }

def ofAssociations (r : AssociationRecord) : List UInt8 :=
  ofNat r.bucket ++ ofInt r.collectedAt ++ ofList ofAssociation r.associations

def associations : Reader AssociationRecord := do
  return { bucket := ← nat64, collectedAt := ← int64, associations := ← list association }

/-- Takes a record from the front of a sequence of bytes; what follows it is not looked at. -/
def decode {α : Type} (read : Reader α) (bytes : List UInt8) : Except WireError α :=
  match read bytes with
  | .ok (a, _) => .ok a
  | .error e => .error e

end Wire

end BlockLedger
