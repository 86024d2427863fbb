import BlockLedger.Proofs.Wire.Record
import BlockLedger.Proofs.Zstd.Stored
import BlockLedger.Segment.File

/-
# Segment files come back

A record whose numbers keep to their widths is read from the file that was written of it, whoever
compressed it, as long as the payload expands to the bytes of the record.  To a reader who expects
the other kind of record the file is damaged.
-/

namespace BlockLedger

namespace SegmentFile

/-! ## Headers -/

/-- A number stands in a field if its bytes do. -/
theorem field_append (before after : List UInt8) {count n : Nat} (h : n < 256 ^ count) :
    field (before ++ (LittleEndian.encode count n ++ after)) before.length count = n := by
  rw [field, List.drop_left, List.take_left' (by simp), LittleEndian.decode_encode count n h]

section Header

variable (kind : SegmentKind) (payload rest : List UInt8)

theorem take_mark : (header kind payload ++ rest).take 4 = mark := by
  simp only [header, List.append_assoc]
  exact List.take_left' rfl

theorem field_version : field (header kind payload ++ rest) 4 2 = version := by
  simp only [header, List.append_assoc]
  exact field_append mark _ (by decide)

theorem field_kind : field (header kind payload ++ rest) 6 1 = kind.code := by
  have hcode : kind.code < 256 ^ 1 := by
    cases kind <;> decide
  simp only [header, List.append_assoc]
  exact field_append (mark ++ LittleEndian.encode 2 version) ([0] ++ _) hcode

variable {payload} in
theorem field_length (h : payload.length < 2 ^ 64) :
    field (header kind payload ++ rest) 8 8 = payload.length := by
  simp only [header, List.append_assoc]
  exact field_append (mark ++ LittleEndian.encode 2 version ++ [UInt8.ofNat kind.code, 0]) _ h

theorem field_checksum :
    field (header kind payload ++ rest) 16 4 = (Crc32.checksum payload).toNat := by
  simp only [header, List.append_assoc]
  exact field_append
    (mark ++ LittleEndian.encode 2 version ++ [UInt8.ofNat kind.code, 0] ++
      LittleEndian.encode 8 payload.length) _ (Crc32.checksum payload).toNat_lt

theorem length_header : (header kind payload).length = headerSize := rfl

end Header

variable {kind : SegmentKind} {payload : List UInt8}

/-- A reader who expects the kind of the header goes by the length and the checksum in it, whatever
follows. -/
theorem open?_header (h : payload.length < 2 ^ 64) (rest : List UInt8) :
    open? kind (header kind payload ++ rest) =
      if rest.length < payload.length then .error .length
      else if Crc32.checksum (rest.take payload.length) = Crc32.checksum payload then
        .ok (rest.take payload.length)
      else .error .checksum := by
  have hlength : (header kind payload ++ rest).length = headerSize + rest.length := by
    rw [List.length_append, length_header]
  have hrest : (header kind payload ++ rest).drop headerSize = rest :=
    List.drop_left' (length_header ..)
  simp only [open?, take_mark, field_version, field_kind, SegmentKind.ofCode?_code, payloadEnd,
    field_length kind rest h, field_checksum, hlength, hrest, ne_eq, not_true_eq_false, if_false,
    UInt32.toNat_inj, Nat.add_lt_add_iff_left]
  rw [if_neg (by omega)]

/-- A reader who expects the kind of the header gets at the payload. -/
theorem open?_same (h : payload.length < 2 ^ 64) :
    open? kind (header kind payload ++ payload) = .ok payload := by
  rw [open?_header h, if_neg (Nat.lt_irrefl _), List.take_length, if_pos rfl]

/-- A reader who expects another kind is told which one it is. -/
theorem open?_other {other : SegmentKind} (h : other ≠ kind) (rest : List UInt8) :
    open? other (header kind payload ++ rest) = .error (.kind other (some kind)) := by
  have hlength : (header kind payload ++ rest).length = headerSize + rest.length := by
    rw [List.length_append, length_header]
  have hkind : some kind ≠ some other := fun hsome => h (Option.some.inj hsome).symm
  simp only [open?, take_mark, field_version, field_kind, SegmentKind.ofCode?_code, hlength, ne_eq,
    not_true_eq_false, if_false, hkind, not_false_eq_true, if_true]
  rw [if_neg (by omega)]

/-! ## Records -/

variable {r : SegmentRecord}

theorem read_same (hr : r.Fits) (path : String) (hexpand : Zstd.expand payload = .ok r.bytes)
    (h : payload.length < 2 ^ 64) :
    read path r.kind (header r.kind payload ++ payload) = (.ok r, []) := by
  have hdecode : Wire.decode (SegmentRecord.reader r.kind) r.bytes = .ok r := by
    have hreads := SegmentRecord.reads hr []
    rw [List.append_nil] at hreads
    rw [Wire.decode, hreads]
  simp only [read, open?_same h, hexpand, hdecode]

theorem read_other (path : String) {other : SegmentKind} (h : other ≠ kind) :
    read path other (header kind payload ++ payload) =
      (.error (.corrupt (.kind other (some kind))), []) := by
  simp only [read, open?_other h]

/-- A record comes back from its bytes, whatever follows them, and from every file that holds them
compressed; the other kind of record is not found in there. -/
theorem round_trip (hr : r.Fits) :
    (∀ rest, SegmentRecord.reader r.kind (r.bytes ++ rest) = .ok (r, rest)) ∧
    (∀ payload, Zstd.expand payload = .ok r.bytes → payload.length < 2 ^ 64 → ∀ path,
      read path r.kind (header r.kind payload ++ payload) = (.ok r, []) ∧
      ∀ other, other ≠ r.kind → read path other (header r.kind payload ++ payload) =
        (.error (.corrupt (.kind other (some r.kind))), [])) ∧
    ((SegmentFile.payload r).length < 2 ^ 64 → ∀ path, read path r.kind (write r) = (.ok r, []) ∧
      ∀ other, other ≠ r.kind →
        read path other (write r) = (.error (.corrupt (.kind other (some r.kind))), [])) := by
  have hfile : ∀ payload, Zstd.expand payload = .ok r.bytes → payload.length < 2 ^ 64 → ∀ path,
      read path r.kind (header r.kind payload ++ payload) = (.ok r, []) ∧
      ∀ other, other ≠ r.kind → read path other (header r.kind payload ++ payload) =
        (.error (.corrupt (.kind other (some r.kind))), []) := by
    intro payload hexpand hlength path
    exact ⟨read_same hr path hexpand hlength, fun other hother => read_other path hother⟩
  have hstored : Zstd.expand (SegmentFile.payload r) = .ok r.bytes := Zstd.expand_enclose r.bytes
  exact ⟨SegmentRecord.reads hr, hfile, hfile _ hstored⟩

/-- A record with numbers of more than seven bits, times before 1970, texts beyond ASCII and a
double that stands for no number. -/
def sample : SegmentRecord :=
  .bucket
    { bucket := 300
      collectedAt := -1700000000000000
      entries :=
        [{ key := ⟨⟨1663, 5, 16500⟩, .visibility⟩
           reads := { count := 2 ^ 64 - 1, gaps := ⟨128, ⟨0x7FF8000000000001⟩, ⟨0⟩⟩, last := -1 }
           activeSeconds := 2 ^ 32 - 1
           lastActiveSecond := -2 ^ 63
           identity := { kind := some .toast, name := "таблица", valid := true } },
         { key := .temporaries 5 }] }

theorem sample_fits : sample.Fits := by
  have htraffic : ({} : Traffic).Fits := Traffic.fits_empty
  refine ⟨by decide, by decide, by decide, fun e he => ?_⟩
  rcases List.mem_cons.mp he with rfl | he
  · exact
      { reads := ⟨by decide, by decide, htraffic.latency, ⟨by decide⟩, by decide, by decide,
          by decide, htraffic.runs⟩
        writes := htraffic
        extensions := by decide
        extendedBlocks := by decide
        truncations := by decide
        syncs := by decide
        activeSeconds := by decide
        lastActiveSecond := by decide
        firstAccess := by decide
        lastAccess := by decide
        identity := ⟨by decide, by decide⟩ }
  · obtain rfl := List.mem_singleton.mp he
    exact ⟨htraffic, htraffic, by decide, by decide, by decide, by decide, by decide, by decide,
      by decide, by decide, ⟨by decide, by decide⟩⟩

theorem round_trip_sample :
    sample.Fits ∧ (SegmentFile.payload sample).length < 2 ^ 64 ∧
      read "" .bucket (write sample) = (.ok sample, []) ∧
      read "" .associations (write sample) =
        (.error (.corrupt (.kind .associations (some .bucket))), []) := by
  have hlength : (SegmentFile.payload sample).length < 2 ^ 64 := by
    decide +kernel
  obtain ⟨-, -, hwrite⟩ := round_trip sample_fits
  exact ⟨sample_fits, hlength, (hwrite hlength "").1, (hwrite hlength "").2 .associations (by decide)⟩

end SegmentFile

end BlockLedger
