import BlockLedger.Proofs.Bytes.Burst
import BlockLedger.Proofs.Segment.RoundTrip

/-
# Damaged segment files

A file that has lost some of its end is recognised by its length, and one with wrong bytes in a row
by the checksum of its payload.  Both are found out before the payload is touched, so that neither
the expansion of a damaged payload nor what is read from it has a say in the outcome.
-/

namespace BlockLedger

namespace SegmentFile

/-- Reads the record in a file, with any way to expand a payload and any way to take its bytes
apart. -/
def readWith (expand : List UInt8 → Except InflateError (List UInt8))
    (decode : SegmentKind → List UInt8 → Except WireError SegmentRecord) (path : String)
    (expected : SegmentKind) (data : List UInt8) : Except StorageError SegmentRecord × List Event :=
  match open? expected data with
  | .error damage => (.error (.corrupt damage), [])
  | .ok payload =>
    match expand payload with
    | .error e => (.error (.inflate e), [])
    | .ok bytes =>
      match decode expected bytes with
      | .error e => (.error (.wire e), [.recordUnreadable path payload.length e])
      | .ok record => (.ok record, [])

/-- A file is read by expanding its payload and decoding the bytes. -/
theorem readWith_expand :
    readWith Zstd.expand (fun kind => Wire.decode (SegmentRecord.reader kind)) = read := rfl

variable {kind : SegmentKind} {payload : List UInt8}

/-- What a reader finds wrong with a file of which only a part is left. -/
def shortfall (kind expected : SegmentKind) (length : Nat) : Damage :=
  if length < headerSize then .tooSmall
  else if expected = kind then .length
  else .kind expected (some kind)

/-- The end of a file cannot be missed. -/
theorem open?_cut (h : payload.length < 2 ^ 64) {data : List UInt8}
    (hcut : data <+: header kind payload ++ payload)
    (hne : data ≠ header kind payload ++ payload) (expected : SegmentKind) :
    open? expected data = .error (shortfall kind expected data.length) := by
  rw [shortfall]
  split
  · rename_i hsmall
    rw [open?, if_pos hsmall]
  · rename_i hlarge
    -- the header is there in full
    obtain ⟨rest, rfl⟩ : header kind payload <+: data :=
      List.prefix_of_prefix_length_le (List.prefix_append _ _) hcut
        (by rw [length_header]; omega)
    have hrest : rest <+: payload := (List.prefix_append_right_inj _).mp hcut
    have hshort : rest.length < payload.length := by
      refine Nat.lt_of_le_of_ne hrest.length_le fun hlength => hne ?_
      rw [hrest.eq_of_length hlength]
    split
    · rename_i hkind
      rw [hkind, open?_header h, if_pos hshort]
    · rename_i hkind
      exact open?_other hkind rest

/-- Nor can bytes within four in a row of the payload be replaced unnoticed. -/
theorem open?_burst (h : payload.length < 2 ^ 64) {start : Nat} {damaged : List UInt8}
    (hburst : Burst start payload damaged) (hne : damaged ≠ payload) :
    open? kind (header kind payload ++ damaged) = .error .checksum := by
  have htake : damaged.take payload.length = damaged := by
    rw [← hburst.length, List.take_length]
  rw [open?_header h, htake, if_neg (by rw [hburst.length]; omega),
    if_neg fun hchecksum => hne (hburst.eq_of_checksum_eq hchecksum)]

theorem readWith_error {expected : SegmentKind} {data : List UInt8} {damage : Damage}
    (h : open? expected data = .error damage) (expand decode) (path : String) :
    readWith expand decode path expected data = (.error (.corrupt damage), []) := by
  rw [readWith, h]

/-- The file of a record, whoever has compressed it, is refused as damaged by every reader when any
part of its end is missing, and by a reader of its kind for its checksum when bytes within four in a
row of its payload have been replaced.  Nothing is expanded or decoded before that. -/
theorem damage_noticed (r : SegmentRecord) {payload : List UInt8} (h : payload.length < 2 ^ 64)
    (path : String) :
    (∀ data, data <+: header r.kind payload ++ payload → data ≠ header r.kind payload ++ payload →
      ∀ expected,
        read path expected data =
          (.error (.corrupt (shortfall r.kind expected data.length)), []) ∧
        ∀ expand decode, readWith expand decode path expected data = read path expected data) ∧
    ∀ start damaged, Burst start payload damaged → damaged ≠ payload →
      read path r.kind (header r.kind payload ++ damaged) = (.error (.corrupt .checksum), []) ∧
      ∀ expand decode, readWith expand decode path r.kind (header r.kind payload ++ damaged) =
        read path r.kind (header r.kind payload ++ damaged) := by
  constructor
  · intro data hcut hne expected
    have hopen := open?_cut h hcut hne expected
    rw [← readWith_expand, readWith_error hopen]
    exact ⟨rfl, fun expand decode => readWith_error hopen expand decode path⟩
  · intro start damaged hburst hne
    have hopen : open? r.kind (header r.kind payload ++ damaged) = .error .checksum :=
      open?_burst h hburst hne
    rw [← readWith_expand, readWith_error hopen]
    exact ⟨rfl, fun expand decode => readWith_error hopen expand decode path⟩

/-- The file of a record without its last byte, and with another byte in the middle. -/
theorem damage_noticed_sample :
    (SegmentFile.payload sample).length < 2 ^ 64 ∧
      read "" .bucket (write sample).dropLast = (.error (.corrupt .length), []) ∧
      read "" .bucket
          (header .bucket (SegmentFile.payload sample) ++ (SegmentFile.payload sample).set 40 0xFF) =
        (.error (.corrupt .checksum), []) := by
  have hlength : (SegmentFile.payload sample).length < 2 ^ 64 := by
    decide +kernel
  obtain ⟨hcut, hburst⟩ := damage_noticed sample hlength ""
  have hshorter : (write sample).dropLast.length ≠ (write sample).length := by
    decide +kernel
  have hshort : shortfall sample.kind .bucket (write sample).dropLast.length = .length := by
    decide +kernel
  have hset : (SegmentFile.payload sample).set 40 0xFF ≠ SegmentFile.payload sample := by
    decide +kernel
  refine ⟨hlength, ?_, (hburst 40 _ (.set 40 0xFF _) hset).1⟩
  have hread := (hcut (write sample).dropLast (List.dropLast_prefix _)
    (fun h => hshorter (congrArg List.length h)) .bucket).1
  rw [hshort] at hread
  exact hread

end SegmentFile

end BlockLedger
