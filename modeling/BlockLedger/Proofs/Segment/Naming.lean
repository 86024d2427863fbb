import BlockLedger.Proofs.Time.Gregorian
import BlockLedger.Proofs.Time.Reading
import BlockLedger.Segment.Record

/-
# Names of segment files are read back

A name ends with the number of the bucket, and the `_b` before it is the last one, since there is no
other mark than a digit behind it.  So a name that has been written tells the kind, the time and the
bucket that it was written for, and no two of them are the same.
-/

namespace BlockLedger

theorem SegmentKind.code_injective {kind kind' : SegmentKind} (h : kind.code = kind'.code) :
    kind = kind' := by
  have hread := SegmentKind.ofCode?_code kind
  rw [h, SegmentKind.ofCode?_code] at hread
  exact (Option.some.inj hread).symm

/-- The place of a second in the order of time. -/
def Timestamp.rank (t : Timestamp) : Int := 2 * t.seconds + if t.leap then 1 else 0

theorem Timestamp.rank_injective {t t' : Timestamp} (h : t.rank = t'.rank) : t = t' := by
  obtain ⟨seconds, _ | _⟩ := t <;> obtain ⟨seconds', _ | _⟩ := t' <;>
    simp only [rank, if_true, Bool.false_eq_true, if_false] at h
  · obtain rfl : seconds = seconds' := by omega
    rfl
  · omega
  · omega
  · obtain rfl : seconds = seconds' := by omega
    rfl

theorem Timestamp.le_iff (t t' : Timestamp) : t.le t' = true ↔ t.rank ≤ t'.rank := by
  obtain ⟨seconds, _ | _⟩ := t <;> obtain ⟨seconds', _ | _⟩ := t' <;> simp [Timestamp.le, rank] <;>
    omega

namespace SegmentName

/-! ## Taking names apart -/

theorem dropLead_append (lead cs : List Char) : dropLead lead (lead ++ cs) = some cs := by
  induction lead with
  | nil => rfl
  | cons c lead ih => rw [List.cons_append, dropLead, if_pos rfl, ih]

theorem dropLead_eq_some {lead cs rest : List Char} (h : dropLead lead cs = some rest) :
    cs = lead ++ rest := by
  induction lead generalizing cs with
  | nil => exact Option.some.inj h
  | cons c lead ih =>
    cases cs with
    | nil => cases h
    | cons d cs =>
      rw [dropLead] at h
      split at h
      · rename_i hcd
        rw [hcd, ih h, List.cons_append]
      · cases h

theorem dropTail_append (cs tail : List Char) : dropTail tail (cs ++ tail) = some cs := by
  rw [dropTail, List.reverse_append, dropLead_append, Option.map_some, List.reverse_reverse]

theorem dropTail_eq_some {tail cs before : List Char} (h : dropTail tail cs = some before) :
    cs = before ++ tail := by
  obtain ⟨rev, hrev, rfl⟩ := Option.map_eq_some_iff.1 h
  have hreverse := congrArg List.reverse (dropLead_eq_some hrev)
  rwa [List.reverse_reverse, List.reverse_append, List.reverse_reverse] at hreverse

theorem splitLast_none {cs : List Char} (h : '_' ∉ cs) : splitLast cs = none := by
  induction cs with
  | nil => rfl
  | cons c cs ih =>
    obtain ⟨hc, hcs⟩ : '_' ≠ c ∧ '_' ∉ cs := by simpa using h
    rw [splitLast, ih hcs, dropLead, if_neg hc]
    rfl

/-- The last `_b` is the one after which there is no other dash below the line. -/
theorem splitLast_append (before : List Char) {after : List Char} (h : '_' ∉ after) :
    splitLast (before ++ '_' :: 'b' :: after) = some (before, after) := by
  induction before with
  | nil =>
    have hrest : '_' ∉ 'b' :: after := by simpa using h
    rw [List.nil_append, splitLast, splitLast_none hrest]
    rfl
  | cons c before ih => rw [List.cons_append, splitLast, ih]

theorem splitLast_eq_some {cs before after : List Char} (h : splitLast cs = some (before, after)) :
    cs = before ++ '_' :: 'b' :: after := by
  induction cs generalizing before with
  | nil => cases h
  | cons c cs ih =>
    rw [splitLast] at h
    split at h
    · rename_i hlater
      cases h
      exact congrArg _ (ih hlater)
    · obtain ⟨rest, hlead, hpair⟩ := Option.map_eq_some_iff.1 h
      cases hpair
      have hmark := dropLead_eq_some hlead
      rwa [List.cons_append, List.cons_append, List.nil_append] at hmark

theorem readBucket_toDigits {n : Nat} (h : n < 2 ^ 64) :
    readBucket (Nat.toDigits 10 n) = some n := by
  have hdigits : ∀ c ∈ Nat.toDigits 10 n, c.isDigit = true :=
    fun c => Nat.isDigit_of_mem_toDigits (by decide) (by decide)
  have hall : ((Nat.toDigits 10 n).isEmpty || !(Nat.toDigits 10 n).all Char.isDigit) = false := by
    rw [List.isEmpty_eq_false_iff.mpr Nat.toDigits_ne_nil, List.all_eq_true.mpr hdigits]
    rfl
  have hvalue := Timestamp.digitsValue_toDigits n
  unfold readBucket
  generalize Nat.toDigits 10 n = ds at *
  split
  · -- a plus sign is no digit
    cases hdigits '+' List.mem_cons_self
  · dsimp only
    rw [hall, hvalue]
    exact if_pos h

theorem readKind_lead (kind : SegmentKind) (cs : List Char) :
    readKind (kind.lead.toList ++ cs) = some (kind, cs) := by
  cases kind with
  | bucket =>
    rw [readKind, dropLead_append]
  | associations =>
    have hother : dropLead SegmentKind.bucket.lead.toList
        (SegmentKind.associations.lead.toList ++ cs) = none := rfl
    rw [readKind, hother, dropLead_append]
    rfl

theorem readKind_eq_some {kind : SegmentKind} {cs rest : List Char}
    (h : readKind cs = some (kind, rest)) : cs = kind.lead.toList ++ rest := by
  rw [readKind] at h
  split at h
  · rename_i hbucket
    cases h
    exact dropLead_eq_some hbucket
  · obtain ⟨rest', hassociations, hpair⟩ := Option.map_eq_some_iff.1 h
    cases hpair
    exact dropLead_eq_some hassociations

/-! ## Names -/

/-- Whether a name can be read back: the calendar holds its time, and the bucket fits its word. -/
structure Readable (n : SegmentName) : Prop where
  written : n.written.Plain
  bucket : n.bucket < 2 ^ 64

/-- A name, character by character. -/
theorem toList_text (n : SegmentName) :
    n.text.toList = n.kind.lead.toList ++
      ((n.written.fileText.toList ++ '_' :: 'b' :: Nat.toDigits 10 n.bucket) ++
        suffix.toList) := by
  simp [text]

theorem not_mem_toDigits (bucket : Nat) : '_' ∉ Nat.toDigits 10 bucket := by
  intro hmem
  cases Nat.isDigit_of_mem_toDigits (by decide) (by decide) hmem

theorem parse?_text {n : SegmentName} (h : n.Readable) : parse? n.text = some n := by
  simp only [parse?, toList_text, readKind_lead, dropTail_append,
    splitLast_append _ (not_mem_toDigits n.bucket), h.written.read?_fileText,
    readBucket_toDigits h.bucket, Option.bind_eq_bind, Option.bind_some]
  rfl

/-- No two names are written the same. -/
theorem eq_of_text_eq {n n' : SegmentName} (h : n.Readable) (h' : n'.Readable)
    (htext : n.text = n'.text) : n = n' := by
  have hparse := parse?_text h
  rw [htext, parse?_text h'] at hparse
  exact (Option.some.inj hparse).symm

/-- The name for a record tells what it is for: the kind and the bucket of the record, and the
second in which it was collected, as the calendar has it. -/
theorem parse?_ofRecord (kind : SegmentKind) {micros : Int} {bucket : Nat} {d : Date}
    (hday : Date.Falls (micros / 86400000000) d) (hfirst : Date.minYear ≤ d.year)
    (hlast : d.year ≤ Date.maxYear) (hbucket : bucket < 2 ^ 64) :
    ∃ t : Timestamp, parse? (ofRecord kind micros bucket).text = some ⟨kind, t, bucket⟩ ∧
      t.Floors micros d := by
  obtain ⟨t, ht, hfloors⟩ := Timestamp.exists_floors hday hfirst hlast
  have hplain := (Timestamp.plain_of_ofMicros? ht).1
  have hname : ofRecord kind micros bucket = ⟨kind, t, bucket⟩ := by
    rw [ofRecord, ht, Option.getD_some]
  refine ⟨t, ?_, hfloors⟩
  rw [hname]
  exact parse?_text ⟨hplain, hbucket⟩

/-- Half a second before 1970, and half a second before the calendar ends. -/
theorem parse?_ofRecord_edges :
    (∃ t : Timestamp, parse? (ofRecord .associations (-500000) 7).text =
        some ⟨.associations, t, 7⟩ ∧ t.Floors (-500000) ⟨1969, 12, 31⟩) ∧
      ∃ t : Timestamp, parse? (ofRecord .bucket 8210266876799500000 0).text =
        some ⟨.bucket, t, 0⟩ ∧ t.Floors 8210266876799500000 ⟨262142, 12, 31⟩ := by
  have hbefore : Date.Falls (-500000 / 86400000000) ⟨1969, 12, 31⟩ := Date.falls_iff.2 (by decide)
  have hend : Date.Falls (8210266876799500000 / 86400000000) ⟨262142, 12, 31⟩ :=
    Date.falls_iff.2 (by decide)
  exact ⟨parse?_ofRecord .associations hbefore (by decide) (by decide) (by decide),
    parse?_ofRecord .bucket hend (by decide) (by decide) (by decide)⟩

/-! ## The order of names -/

theorem le_iff (n n' : SegmentName) :
    n.le n' = true ↔ n.written.rank < n'.written.rank ∨ n.written.rank = n'.written.rank ∧
      (n.bucket < n'.bucket ∨ n.bucket = n'.bucket ∧ n.kind.code ≤ n'.kind.code) := by
  unfold le
  split <;> rename_i hwritten
  · have hne : n.written.rank ≠ n'.written.rank := fun h => hwritten (Timestamp.rank_injective h)
    rw [Timestamp.le_iff]
    omega
  · rw [Classical.not_not.mp hwritten]
    simp

theorem le_trans {a b c : SegmentName} (hab : a.le b = true) (hbc : b.le c = true) :
    a.le c = true := by
  rw [le_iff] at hab hbc ⊢
  omega

theorem le_total (a b : SegmentName) : a.le b = true ∨ b.le a = true := by
  rw [le_iff, le_iff]
  omega

theorem le_antisymm {a b : SegmentName} (hab : a.le b = true) (hba : b.le a = true) : a = b := by
  rw [le_iff] at hab hba
  have hwritten : a.written = b.written := Timestamp.rank_injective (by omega)
  have hbucket : a.bucket = b.bucket := by omega
  have hkind : a.kind = b.kind := SegmentKind.code_injective (by omega)
  exact (mk.injEq ..).mpr ⟨hkind, hwritten, hbucket⟩

end SegmentName

end BlockLedger
