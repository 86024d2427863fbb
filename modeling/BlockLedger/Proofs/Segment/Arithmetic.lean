import BlockLedger.Proofs.Bytes.Burst
import BlockLedger.Proofs.Segment.RoundTrip

/-
# The end of the payload as a sum of words

Where the payload ends is the sum of a constant and of a number that the file brings along, and it is
calculated in words of 64 bits before anything has been said about that number.  The greatest lengths
take it out of its word.  A program that looks out for that crashes at such a file.  One that does
not calculates an end before the start of the payload, where there are no bytes to be found, and
refuses the file as it should.

No other files tell the two apart.
-/

namespace BlockLedger

/-- Whether a program looks out for sums that leave their words. -/
inductive Build where
  /-- It crashes at such a sum. -/
  | checked
  /-- It goes on with what is left of the sum in the word. -/
  | unchecked
  deriving DecidableEq, Inhabited, Repr

/-- The sum of two words of 64 bits, `none` if the program crashes. -/
def Build.sum (build : Build) (x y : Nat) : Option Nat :=
  if x + y < 2 ^ 64 then some (x + y)
  else
    match build with
    | .checked => none
    | .unchecked => some ((x + y) % 2 ^ 64)

namespace SegmentFile

/-! ## Reading with sums of words -/

/-- What is found wrong with a header before its length is looked at. -/
def headDamage? (expected : SegmentKind) (data : List UInt8) : Option Damage :=
  if data.length < headerSize then some .tooSmall
  else if data.take 4 ≠ mark then some (.magic (data.take 4))
  else if field data 4 2 ≠ version then some (.version (field data 4 2))
  else if SegmentKind.ofCode? (field data 6 1) ≠ some expected then
    some (.kind expected (SegmentKind.ofCode? (field data 6 1)))
  else none

/-- The payload, if its checksum fits. -/
def verify (data payload : List UInt8) : Except Damage (List UInt8) :=
  if (Crc32.checksum payload).toNat = field data 16 4 then .ok payload else .error .checksum

/-- The bytes from `start` to `stop`, if these are the ends of a range within the data. -/
def slice? (data : List UInt8) (start stop : Nat) : Option (List UInt8) :=
  if start ≤ stop ∧ stop ≤ data.length then some ((data.take stop).drop start) else none

/-- Checks the header of a file as a program does that calculates with words, `none` if it
crashes. -/
def openIn (build : Build) (expected : SegmentKind) (data : List UInt8) :
    Option (Except Damage (List UInt8)) :=
  match headDamage? expected data with
  | some damage => some (.error damage)
  | none =>
    (build.sum headerSize (field data 8 8)).map fun stop =>
      match slice? data headerSize stop with
      | some payload => verify data payload
      | none => .error .length

/-- What comes of a file, by what has come of its header. -/
def readOpened (path : String) (expected : SegmentKind) :
    Except Damage (List UInt8) → Except StorageError SegmentRecord × List Event
  | .error damage => (.error (.corrupt damage), [])
  | .ok payload =>
    match Zstd.expand payload with
    | .error e => (.error (.inflate e), [])
    | .ok bytes =>
      match Wire.decode (SegmentRecord.reader expected) bytes with
      | .error e => (.error (.wire e), [.recordUnreadable path payload.length e])
      | .ok record => (.ok record, [])

/-- Reads the record in a file as a program does that calculates with words, `none` if it
crashes. -/
def readIn (build : Build) (path : String) (expected : SegmentKind) (data : List UInt8) :
    Option (Except StorageError SegmentRecord × List Event) :=
  (openIn build expected data).map (readOpened path expected)

/-- The end of the payload is calculated, and leaves its word. -/
def Overflows (expected : SegmentKind) (data : List UInt8) : Prop :=
  headDamage? expected data = none ∧ 2 ^ 64 ≤ payloadEnd data

instance (expected : SegmentKind) (data : List UInt8) : Decidable (Overflows expected data) :=
  inferInstanceAs (Decidable (_ ∧ _))

/-! ## What becomes of the length -/

variable {expected : SegmentKind} {data : List UInt8}

theorem readOpened_open? (path : String) (expected : SegmentKind) (data : List UInt8) :
    readOpened path expected (open? expected data) = read path expected data := rfl

/-- The exact end of the payload decides whether it is there. -/
theorem open?_eq (expected : SegmentKind) (data : List UInt8) :
    open? expected data =
      match headDamage? expected data with
      | some damage => .error damage
      | none =>
        if data.length < payloadEnd data then .error .length
        else verify data ((data.drop headerSize).take (field data 8 8)) := by
  simp only [open?, headDamage?]
  split
  · rfl
  split
  · rfl
  split
  · rfl
  split
  · rfl
  rfl

theorem field_lt (data : List UInt8) (start count : Nat) : field data start count < 256 ^ count :=
  calc field data start count
      < 256 ^ ((data.drop start).take count).length := LittleEndian.decode_lt _
    _ ≤ 256 ^ count := Nat.pow_le_pow_right (by decide) (List.length_take_le _ _)

theorem open?_of_overflows (h : data.length < 2 ^ 64) (hover : Overflows expected data) :
    open? expected data = .error .length := by
  obtain ⟨hhead, hend⟩ := hover
  rw [open?_eq, hhead]
  exact if_pos (by omega)

theorem slice?_add (data : List UInt8) (start count : Nat) :
    slice? data start (start + count) =
      if data.length < start + count then none else some ((data.drop start).take count) := by
  rw [slice?, List.drop_take, Nat.add_sub_cancel_left]
  by_cases hstop : start + count ≤ data.length
  · rw [if_pos ⟨Nat.le_add_right .., hstop⟩, if_neg (Nat.not_lt.2 hstop)]
  · rw [if_neg fun hboth => hstop hboth.2, if_pos (Nat.lt_of_not_le hstop)]

/-- As long as the sum stays in its word, every program does what the exact end says. -/
theorem openIn_of_not_overflows (build : Build) (h : ¬Overflows expected data) :
    openIn build expected data = some (open? expected data) := by
  rw [openIn, open?_eq]
  cases hhead : headDamage? expected data with
  | some damage => rfl
  | none =>
    have hfits : headerSize + field data 8 8 < 2 ^ 64 :=
      Nat.lt_of_not_le fun hend => h ⟨hhead, hend⟩
    simp only [Build.sum, if_pos hfits, Option.map_some, slice?_add]
    rw [← payloadEnd]
    by_cases hstop : data.length < payloadEnd data
    · rw [if_pos hstop, if_pos hstop]
    · rw [if_neg hstop, if_neg hstop]

/-- What is left of a sum that has left its word ends before the payload begins. -/
theorem openIn_of_overflows (build : Build) (hover : Overflows expected data) :
    openIn build expected data =
      match build with
      | .checked => none
      | .unchecked => some (.error .length) := by
  obtain ⟨hhead, hend⟩ := hover
  have hlength : field data 8 8 < 2 ^ 64 := field_lt data 8 8
  have hover : ¬headerSize + field data 8 8 < 2 ^ 64 := Nat.not_lt.2 hend
  have hbefore : ¬headerSize ≤ (headerSize + field data 8 8) % 2 ^ 64 := by
    simp only [headerSize] at hover ⊢
    omega
  rw [openIn, hhead]
  cases build with
  | checked => simp only [Build.sum, if_neg hover, Option.map_none]
  | unchecked =>
    simp only [Build.sum, if_neg hover, Option.map_some, slice?, hbefore, false_and, if_false]

/-- Every program answers for a file as the exact end of the payload says, unless it looks out for
sums that leave their words and the end of the payload is such a sum: then it crashes.  A file with
such a length is to be refused, and a program that does not look out refuses it. -/
theorem answers_in_every_build_iff (expected : SegmentKind) {data : List UInt8}
    (h : data.length < 2 ^ 64) :
    ((∀ build, ∃ answer, openIn build expected data = some answer) ↔ ¬Overflows expected data) ∧
    (∀ build, openIn build expected data =
      if build = .checked ∧ Overflows expected data then none else some (open? expected data)) ∧
    (∀ build path, readIn build path expected data =
      if build = .checked ∧ Overflows expected data then none
      else some (read path expected data)) ∧
    (Overflows expected data → open? expected data = .error .length) := by
  have hopen : ∀ build, openIn build expected data =
      if build = .checked ∧ Overflows expected data then none else some (open? expected data) := by
    intro build
    by_cases hover : Overflows expected data
    · rw [openIn_of_overflows build hover, open?_of_overflows h hover]
      cases build <;> simp [hover]
    · rw [openIn_of_not_overflows build hover, if_neg fun hboth => hover hboth.2]
  refine ⟨⟨fun hall hover => ?_, fun hover build => ?_⟩, hopen, fun build path => ?_,
    open?_of_overflows h⟩
  · obtain ⟨answer, hanswer⟩ := hall .checked
    rw [hopen, if_pos ⟨rfl, hover⟩] at hanswer
    cases hanswer
  · exact ⟨_, openIn_of_not_overflows build hover⟩
  · rw [readIn, hopen]
    split
    · rfl
    · rw [Option.map_some, readOpened_open?]

/-- A file that ends after its header, with a length of the payload that it does not have. -/
def claiming (length : Nat) : List UInt8 :=
  mark ++ LittleEndian.encode 2 version ++ [UInt8.ofNat SegmentKind.bucket.code, 0]
    ++ LittleEndian.encode 8 length ++ LittleEndian.encode 4 0

/-- The greatest length with which the end of the payload stays in its word is answered for. -/
theorem answers_in_every_build_to_the_last :
    (claiming (2 ^ 64 - 21)).length < 2 ^ 64 ∧ ¬Overflows .bucket (claiming (2 ^ 64 - 21)) ∧
      ∀ build, openIn build .bucket (claiming (2 ^ 64 - 21)) = some (.error .length) := by
  have hlength : (claiming (2 ^ 64 - 21)).length < 2 ^ 64 := by decide
  have hfits : ¬Overflows .bucket (claiming (2 ^ 64 - 21)) := by decide
  obtain ⟨-, hopen, -, -⟩ := answers_in_every_build_iff .bucket hlength
  refine ⟨hlength, hfits, fun build => ?_⟩
  rw [hopen, if_neg fun hboth => hfits hboth.2]
  rfl

/-- The greatest length of all makes the end of the payload leave its word: where the file is to be
refused, a program that looks out for this crashes. -/
theorem crashes_at_greatest_length :
    (claiming (2 ^ 64 - 1)).length = headerSize ∧
      payloadEnd (claiming (2 ^ 64 - 1)) = 2 ^ 64 + 19 ∧
      open? .bucket (claiming (2 ^ 64 - 1)) = .error .length ∧
      openIn .checked .bucket (claiming (2 ^ 64 - 1)) = none :=
  ⟨rfl, rfl, rfl, rfl⟩

end SegmentFile

end BlockLedger
