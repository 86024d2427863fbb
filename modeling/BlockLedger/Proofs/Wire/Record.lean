import BlockLedger.Proofs.Wire.Reading
import BlockLedger.Segment.Record

/-
# Records come back

The numbers of a record have a width on the wire, and a record whose numbers keep to it comes back
as it was written: every part is read in the place where it was written, and as what it was.
-/

namespace BlockLedger

/-! ## Widths -/

/-- The numbers keep to their widths. -/
structure Moments.Fits (m : Moments Double) : Prop where
  count : Wire.IsNat64 m.count

/-- The numbers keep to their widths. -/
structure Histogram.Fits (h : Histogram) : Prop where
  bins : ∀ n ∈ h.bins.toList, Wire.IsNat64 n
  count : Wire.IsNat64 h.count
  total : Wire.IsNat64 h.total
  least : Wire.IsNat64 h.least
  greatest : Wire.IsNat64 h.greatest

/-- The numbers keep to their widths. -/
structure Traffic.Fits (t : Traffic) : Prop where
  count : Wire.IsNat64 t.count
  blocks : Wire.IsNat64 t.blocks
  latency : t.latency.Fits
  gaps : t.gaps.Fits
  last : Wire.IsInt64 t.last
  sequential : Wire.IsNat64 t.sequential
  random : Wire.IsNat64 t.random
  runs : t.runs.Fits

theorem Traffic.fits_empty : ({} : Traffic).Fits where
  count := by decide
  blocks := by decide
  latency := ⟨by decide, by decide, by decide, by decide, by decide⟩
  gaps := ⟨by decide⟩
  last := by decide
  sequential := by decide
  random := by decide
  runs := ⟨by decide⟩

/-- The lengths of the names keep to their widths. -/
structure Identity.Fits (i : Identity) : Prop where
  name : Wire.IsNat64 i.name.utf8ByteSize
  schema : Wire.IsNat64 i.schema.utf8ByteSize

/-- The numbers keep to their widths. -/
structure Entry.Fits (e : Entry) : Prop where
  reads : e.reads.Fits
  writes : e.writes.Fits
  extensions : Wire.IsNat64 e.extensions
  extendedBlocks : Wire.IsNat64 e.extendedBlocks
  truncations : Wire.IsNat64 e.truncations
  syncs : Wire.IsNat64 e.syncs
  activeSeconds : Wire.IsNat32 e.activeSeconds
  lastActiveSecond : Wire.IsInt64 e.lastActiveSecond
  firstAccess : Wire.IsInt64 e.firstAccess
  lastAccess : Wire.IsInt64 e.lastAccess
  identity : e.identity.Fits

/-- The numbers keep to their widths, and so does the number of entries. -/
structure BucketRecord.Fits (r : BucketRecord) : Prop where
  bucket : Wire.IsNat64 r.bucket
  collectedAt : Wire.IsInt64 r.collectedAt
  length : Wire.IsNat64 r.entries.length
  entries : ∀ e ∈ r.entries, e.Fits

/-- The numbers keep to their widths, and so does the number of associations. -/
structure AssociationRecord.Fits (r : AssociationRecord) : Prop where
  bucket : Wire.IsNat64 r.bucket
  collectedAt : Wire.IsInt64 r.collectedAt
  length : Wire.IsNat64 r.associations.length
  identities : ∀ a ∈ r.associations, ∀ i, a.identity = some i → i.Fits

/-- The numbers of a record keep to their widths. -/
def SegmentRecord.Fits : SegmentRecord → Prop
  | .bucket r => r.Fits
  | .associations r => r.Fits

namespace Wire

/-! ## Keys and identities -/

theorem reads_word32 (w : UInt32) : Reads word32 w (ofWord32 w) := by
  have hlast := (reads_nat32 w.toNat_lt).last (f := UInt32.ofNat)
  rwa [UInt32.ofNat_toNat] at hlast

theorem reads_locator (l : Locator) : Reads locator l (ofLocator l) := by
  rw [ofLocator, List.append_assoc]
  exact (reads_word32 _).bind ((reads_word32 _).bind (reads_word32 _).last)

theorem reads_fork (f : Fork) : Reads fork f (ofFork f) := by
  have hcode : IsNat32 f.code := by
    cases f <;> decide
  exact reads_alternative hcode f.ofCode?_code

theorem reads_key (k : Key) : Reads key k (ofKey k) :=
  (reads_locator _).bind (reads_fork _).last

theorem reads_kind (k : RelKind) : Reads (alternative RelKind.ofCode?) k (ofNat k.code) := by
  have hcode : IsNat32 k.code := by
    cases k <;> decide
  exact reads_alternative hcode k.ofCode?_code

theorem reads_identity {i : Identity} (h : i.Fits) : Reads identity i (ofIdentity i) := by
  simp only [ofIdentity, List.append_assoc]
  refine (reads_word32 _).bind ((reads_word32 _).bind ?_)
  refine (reads_option fun k _ => reads_kind k).bind ?_
  exact (reads_text h.name).bind ((reads_text h.schema).bind (reads_bool _).last)

/-! ## Statistics -/

theorem reads_moments {m : Moments Double} (h : m.Fits) : Reads moments m (ofMoments m) := by
  rw [ofMoments, List.append_assoc]
  exact (reads_nat64 h.count).bind ((reads_double _).bind (reads_double _).last)

theorem reads_vector {α : Type} {read : Reader α} {write : α → List UInt8} {n : Nat}
    {v : Vector α n} (h : ∀ x ∈ v.toList, Reads read x (write x)) :
    Reads (vector read n) v (v.toList.flatMap write) := by
  have htimes := reads_times h
  rw [Vector.length_toList] at htimes
  have hread : Reads (vector read n) v (v.toList.flatMap write ++ []) := by
    refine htimes.bind ?_
    have hsize : v.toList.toArray.size = n := by simp
    rw [dif_pos hsize]
    have hvector : (⟨v.toList.toArray, hsize⟩ : Vector α n) = v :=
      Vector.toArray_inj.mp Array.toArray_toList
    rw [hvector]
    exact .pure v
  rwa [List.append_nil] at hread

theorem reads_histogram {h : Histogram} (hfits : h.Fits) : Reads histogram h (ofHistogram h) := by
  simp only [ofHistogram, List.append_assoc]
  refine (reads_vector fun n hn => reads_nat64 (hfits.bins n hn)).bind ?_
  refine (reads_nat64 hfits.count).bind ((reads_nat64 hfits.total).bind ?_)
  exact (reads_nat64 hfits.least).bind (reads_nat64 hfits.greatest).last

theorem reads_bursts {t : Traffic} (h : t.Fits) : Reads bursts (t.gaps, t.last) (ofBursts t) :=
  (reads_moments h.gaps).bind (reads_int64 h.last).last

theorem reads_entry {e : Entry} (h : e.Fits) : Reads entry e (ofEntry e) := by
  unfold ofEntry
  simp only [List.append_assoc]
  refine (reads_key e.key).bind ?_
  refine (reads_nat64 h.reads.count).bind ((reads_nat64 h.reads.blocks).bind ?_)
  refine (reads_nat64 h.writes.count).bind ((reads_nat64 h.writes.blocks).bind ?_)
  refine (reads_nat64 h.extensions).bind ((reads_nat64 h.extendedBlocks).bind ?_)
  refine (reads_nat64 h.truncations).bind ((reads_nat64 h.syncs).bind ?_)
  refine (reads_histogram h.reads.latency).bind ((reads_histogram h.writes.latency).bind ?_)
  refine (reads_bursts h.reads).bind ((reads_bursts h.writes).bind ?_)
  refine (reads_nat64 h.reads.sequential).bind ((reads_nat64 h.reads.random).bind ?_)
  refine (reads_nat64 h.writes.sequential).bind ((reads_nat64 h.writes.random).bind ?_)
  refine (reads_moments h.reads.runs).bind ((reads_moments h.writes.runs).bind ?_)
  refine (reads_nat32 h.activeSeconds).bind ((reads_int64 h.lastActiveSecond).bind ?_)
  refine (reads_int64 h.firstAccess).bind ((reads_int64 h.lastAccess).bind ?_)
  exact (reads_identity h.identity).last

/-! ## Records -/

theorem reads_association {a : Association} (h : ∀ i, a.identity = some i → i.Fits) :
    Reads association a (ofAssociation a) := by
  simp only [ofAssociation, List.append_assoc]
  refine (reads_locator _).bind ((reads_locator _).bind ?_)
  refine (reads_fork _).bind ((reads_bool _).bind ?_)
  exact (reads_option fun i hi => reads_identity (h i hi)).last

theorem reads_bucket {r : BucketRecord} (h : r.Fits) : Reads bucket r (ofBucket r) := by
  rw [ofBucket, List.append_assoc]
  refine (reads_nat64 h.bucket).bind ((reads_int64 h.collectedAt).bind ?_)
  exact (reads_list h.length fun e he => reads_entry (h.entries e he)).last

theorem reads_associations {r : AssociationRecord} (h : r.Fits) :
    Reads associations r (ofAssociations r) := by
  rw [ofAssociations, List.append_assoc]
  refine (reads_nat64 h.bucket).bind ((reads_int64 h.collectedAt).bind ?_)
  exact (reads_list h.length fun a ha => reads_association (h.identities a ha)).last

end Wire

/-- A record comes back from its bytes. -/
theorem SegmentRecord.reads {r : SegmentRecord} (h : r.Fits) :
    Wire.Reads (reader r.kind) r r.bytes := by
  cases r with
  | bucket r => exact (Wire.reads_bucket h).last
  | associations r => exact (Wire.reads_associations h).last

end BlockLedger
