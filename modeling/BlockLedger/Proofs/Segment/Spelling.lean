import BlockLedger.Proofs.Segment.Naming
import BlockLedger.Proofs.Time.Spelling

/-
# How names of segments may be spelled

The name of a segment is read as generously as the time in it, and the number of its bucket may have
a plus sign and leading zeros.  So there are names that are taken for those of segments and that no
segment is ever given.  What tells them from the others can be seen from the name alone: blanks, a
number that is not filled up to its width or filled up further, or a sign that would not be written.
-/

namespace BlockLedger

namespace SegmentName

open Timestamp (digitsValue Filled)

/-- The name of a segment as it is spelled. -/
structure Spelling where
  kind : SegmentKind
  time : Timestamp.Spelling
  /-- There is a plus sign before the number of the bucket. -/
  plus : Bool
  bucket : List Char

namespace Spelling

/-- The number of the bucket, character by character. -/
def bucketChars (w : Spelling) : List Char := if w.plus then '+' :: w.bucket else w.bucket

/-- The name. -/
def text (w : Spelling) : String :=
  String.ofList (w.kind.lead.toList ++
    ((w.time.chars ++ '_' :: 'b' :: w.bucketChars) ++ suffix.toList))

/-- What is spelled is the name of a segment. -/
structure Tells (w : Spelling) (n : SegmentName) : Prop where
  kind : w.kind = n.kind
  time : w.time.Tells n.written
  digit : ∀ c ∈ w.bucket, c.isDigit = true
  ne_nil : w.bucket ≠ []
  bucket : digitsValue w.bucket = n.bucket
  lt : n.bucket < 2 ^ 64

/-- The name is spelled as it is written. -/
structure Full (w : Spelling) : Prop where
  time : w.time.Full
  plus : w.plus = false
  bucket : Filled 1 w.bucket

variable {w : Spelling} {n : SegmentName}

theorem Tells.readBucket (h : w.Tells n) : readBucket w.bucketChars = some n.bucket := by
  have hall : (w.bucket.isEmpty || !w.bucket.all Char.isDigit) = false := by
    rw [List.isEmpty_eq_false_iff.2 h.ne_nil, List.all_eq_true.2 h.digit]
    rfl
  have hread : SegmentName.readBucket w.bucketChars =
      if w.bucket.isEmpty || !w.bucket.all Char.isDigit then none
      else if digitsValue w.bucket < 2 ^ 64 then some (digitsValue w.bucket) else none := by
    rw [bucketChars]
    cases w.plus with
    | true => rfl
    | false =>
      rw [if_neg Bool.false_ne_true]
      unfold SegmentName.readBucket
      dsimp only
      split
      · -- a plus sign is no digit
        rename_i hplus
        cases h.digit '+' (hplus ▸ List.mem_cons_self)
      · rfl
  rw [hread, hall, h.bucket]
  exact if_pos h.lt

theorem exists_of_readBucket {cs : List Char} {bucket : Nat}
    (h : SegmentName.readBucket cs = some bucket) :
    ∃ (plus : Bool) (ds : List Char), cs = (if plus then '+' :: ds else ds) ∧
      (∀ c ∈ ds, c.isDigit = true) ∧ ds ≠ [] ∧ digitsValue ds = bucket ∧ bucket < 2 ^ 64 := by
  obtain ⟨plus, ds, rfl, hread⟩ : ∃ (plus : Bool) (ds : List Char),
      cs = (if plus then '+' :: ds else ds) ∧ (if ds.isEmpty || !ds.all Char.isDigit then none
        else if digitsValue ds < 2 ^ 64 then some (digitsValue ds) else none) = some bucket := by
    unfold SegmentName.readBucket at h
    dsimp only at h
    split at h
    · exact ⟨true, _, rfl, h⟩
    · exact ⟨false, _, rfl, h⟩
  split at hread
  · cases hread
  · rename_i hall
    split at hread
    · rename_i hlt
      cases hread
      rw [Bool.or_eq_true, not_or] at hall
      refine ⟨plus, ds, rfl, ?_, ?_, rfl, hlt⟩
      · simpa using hall.2
      · simpa using hall.1
    · cases hread

theorem not_mem_bucketChars (hdigit : ∀ c ∈ w.bucket, c.isDigit = true) : '_' ∉ w.bucketChars := by
  have hbucket : '_' ∉ w.bucket := fun h => by cases hdigit _ h
  rw [bucketChars]
  split
  · rw [List.mem_cons, not_or]
    exact ⟨by decide, hbucket⟩
  · exact hbucket

/-- What is read as the name of a segment is one that is spelled. -/
theorem parse?_eq_some_iff {name : String} :
    parse? name = some n ↔ ∃ w : Spelling, w.text = name ∧ w.Tells n := by
  constructor
  · intro h
    simp only [parse?, Option.bind_eq_bind, Option.bind_eq_some_iff] at h
    obtain ⟨⟨kind, rest⟩, hkind, stem, hstem, ⟨time, bucket⟩, hsplit, written, htime, number,
      hbucket, hname⟩ := h
    cases hname
    dsimp only at hstem htime hbucket
    obtain ⟨time, rfl, htells⟩ := Timestamp.Spelling.read?_eq_some_iff.1 htime
    obtain ⟨plus, ds, rfl, hdigit, hne, hvalue, hlt⟩ := exists_of_readBucket hbucket
    refine ⟨⟨kind, time, plus, ds⟩, ?_, ⟨rfl, htells, hdigit, hne, hvalue, hlt⟩⟩
    rw [← String.toList_inj, text, String.toList_ofList, readKind_eq_some hkind,
      dropTail_eq_some hstem, splitLast_eq_some hsplit]
    rfl
  · rintro ⟨w, rfl, h⟩
    simp only [parse?, text, String.toList_ofList, readKind_lead, dropTail_append,
      splitLast_append _ (not_mem_bucketChars h.digit),
      Timestamp.Spelling.read?_eq_some_iff.2 ⟨w.time, rfl, h.time⟩, h.readBucket, h.kind,
      Option.bind_eq_bind, Option.bind_some]
    rfl

/-- The number of a bucket is written without a sign, and with a leading zero only if it is 0. -/
theorem bucketChars_eq_iff (h : w.Tells n) :
    w.bucketChars = Nat.toDigits 10 n.bucket ↔ w.plus = false ∧ Filled 1 w.bucket := by
  have hwritten : (Timestamp.padded 1 n.bucket).toList = Nat.toDigits 10 n.bucket := by
    have hlength := List.length_pos_iff.2 (Nat.toDigits_ne_nil (b := 10) (n := n.bucket))
    rw [Timestamp.toList_padded, Nat.sub_eq_zero_of_le hlength]
    rfl
  rw [← Timestamp.padded_digitsValue Nat.one_pos h.digit, h.bucket, hwritten, bucketChars]
  cases w.plus with
  | true =>
    -- a plus sign is no digit
    refine ⟨fun heq => ?_, fun heq => Bool.noConfusion heq.1⟩
    rw [if_pos rfl] at heq
    have hmem : '+' ∈ Nat.toDigits 10 n.bucket := heq ▸ List.mem_cons_self
    cases Nat.isDigit_of_mem_toDigits (by decide) (by decide) hmem
  | false => exact ⟨fun heq => ⟨rfl, heq.symm⟩, fun heq => heq.2.symm⟩

/-- A name is written just if it is spelled as it is written. -/
theorem text_eq_iff (h : w.Tells n) : w.text = n.text ↔ w.Full := by
  have hname : n.text.toList = n.kind.lead.toList ++
      ((n.written.fileText.toList ++ '_' :: 'b' :: Nat.toDigits 10 n.bucket) ++
        suffix.toList) := toList_text n
  rw [← String.toList_inj, hname, text, String.toList_ofList, h.kind, List.append_cancel_left_eq,
    List.append_cancel_right_eq]
  constructor
  · intro heq
    have hsplit := splitLast_append w.time.chars (not_mem_bucketChars h.digit)
    rw [heq, splitLast_append _ (not_mem_toDigits n.bucket)] at hsplit
    obtain ⟨htime, hbucket⟩ := Prod.mk.inj (Option.some.inj hsplit)
    obtain ⟨hplus, hfilled⟩ := (bucketChars_eq_iff h).1 hbucket.symm
    exact ⟨(Timestamp.Spelling.chars_eq_iff h.time).1 htime.symm, hplus, hfilled⟩
  · rintro ⟨htime, hplus, hfilled⟩
    rw [(Timestamp.Spelling.chars_eq_iff h.time).2 htime,
      (bucketChars_eq_iff h).2 ⟨hplus, hfilled⟩]

end Spelling

end SegmentName

end BlockLedger
