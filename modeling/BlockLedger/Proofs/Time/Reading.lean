import BlockLedger.Number.Natural
import BlockLedger.Proofs.Time.Gregorian
import BlockLedger.Time.Reading

/-
# Times in file names are read back

A time is written with a year of at least four digits and two digits for everything else.  Every
number ends where it should when it is read: those of two digits after the second one, and a year
with a sign before the dash that follows it.
-/

namespace BlockLedger

namespace Timestamp

/-! ## Digits -/

theorem not_blank_of_digit {c : Char} (h : c.isDigit = true) : isBlank c = false := by
  obtain ⟨hlow, hhigh⟩ : 48 ≤ c.toNat ∧ c.toNat ≤ 57 := by
    simpa [Char.isDigit, UInt32.le_iff_toNat_le] using h
  simp only [isBlank, Bool.or_eq_false_iff, Bool.and_eq_false_iff, decide_eq_false_iff_not,
    beq_eq_false_iff_ne]
  omega

theorem toList_padded (width n : Nat) :
    (padded width n).toList =
      List.replicate (width - (Nat.toDigits 10 n).length) '0' ++ Nat.toDigits 10 n := by
  simp [padded]

theorem digit_of_mem_padded {width n : Nat} {c : Char} (h : c ∈ (padded width n).toList) :
    c.isDigit = true := by
  rw [toList_padded] at h
  rcases List.mem_append.mp h with h | h
  · rw [List.eq_of_mem_replicate h]
    rfl
  · exact Nat.isDigit_of_mem_toDigits (by decide) (by decide) h

theorem digitsValue_toDigits (n : Nat) : digitsValue (Nat.toDigits 10 n) = n :=
  Nat.ofDigitChars_toDigits (by decide) (by decide)

theorem digitsValue_padded (width n : Nat) : digitsValue (padded width n).toList = n := by
  have happend : digitsValue (padded width n).toList = Nat.ofDigitChars 10
      (List.replicate (width - (Nat.toDigits 10 n).length) '0' ++ Nat.toDigits 10 n) 0 := by
    rw [← toList_padded]
    rfl
  rw [happend, Nat.ofDigitChars_append, Nat.ofDigitChars_replicate_zero, Nat.mul_zero,
    Nat.ofDigitChars_toDigits (by decide) (by decide)]

theorem padded_ne_nil (width n : Nat) : (padded width n).toList ≠ [] := by
  rw [toList_padded]
  exact fun h => Nat.toDigits_ne_nil (List.append_eq_nil_iff.mp h).2

theorem length_padded {width n : Nat} (hwidth : 0 < width) (hn : n < 10 ^ width) :
    (padded width n).toList.length = width := by
  have hlength := (Nat.length_toDigits_le_iff (by decide) hwidth).mpr hn
  rw [toList_padded, List.length_append, List.length_replicate]
  omega

/-! ## Numbers -/

/-- A number starts with a digit. -/
theorem exists_padded (width n : Nat) :
    ∃ c cs, (padded width n).toList = c :: cs ∧ c.isDigit = true := by
  obtain ⟨c, cs, h⟩ := List.exists_cons_of_ne_nil (padded_ne_nil width n)
  exact ⟨c, cs, h, digit_of_mem_padded (h ▸ List.mem_cons_self)⟩

/-- No blank is skipped before a number. -/
theorem dropWhile_padded (width n : Nat) (rest : List Char) :
    ((padded width n).toList ++ rest).dropWhile isBlank = (padded width n).toList ++ rest := by
  obtain ⟨c, cs, h, hc⟩ := exists_padded width n
  rw [h, List.cons_append, List.dropWhile_cons_of_neg (by simp [not_blank_of_digit hc])]

variable {ds : List Char}

/-- A number ends where there is no other digit, or where there may be none. -/
theorem readDigits_append (hdigits : ∀ c ∈ ds, c.isDigit = true) (hne : ds ≠ []) {width : Nat}
    (hwidth : ds.length ≤ width) {rest : List Char}
    (hrest : (rest.take (width - ds.length)).takeWhile Char.isDigit = []) :
    readDigits width (ds ++ rest) = some (digitsValue ds, rest) := by
  have htake : ((ds ++ rest).take width).takeWhile Char.isDigit = ds := by
    rw [List.take_append, List.take_of_length_le hwidth, List.takeWhile_append_of_pos hdigits, hrest,
      List.append_nil]
  unfold readDigits
  simp only [htake]
  rw [if_neg (by simpa using hne), List.drop_left]

/-- A number of two digits, whatever follows it. -/
theorem readField_padded {least greatest n : Nat} (hleast : least ≤ n) (hgreatest : n ≤ greatest)
    (hn : n < 100) (rest : List Char) :
    readField least greatest ((padded 2 n).toList ++ rest) = some (n, rest) := by
  have hlength : (padded 2 n).toList.length = 2 := length_padded (by decide) hn
  have hread : readDigits 2 ((padded 2 n).toList ++ rest) = some (n, rest) := by
    rw [readDigits_append (fun _ => digit_of_mem_padded) (padded_ne_nil 2 n) (Nat.le_of_eq hlength),
      digitsValue_padded]
    rw [hlength]
    rfl
  rw [readField, dropWhile_padded, hread]
  exact if_pos ⟨hleast, hgreatest⟩

/-- A number that is followed by a dash is read to its end. -/
theorem readDigits_padded (n : Nat) (rest : List Char) :
    readDigits ((padded 4 n).toList ++ '-' :: rest).length ((padded 4 n).toList ++ '-' :: rest) =
      some (n, '-' :: rest) := by
  rw [readDigits_append (fun _ => digit_of_mem_padded) (padded_ne_nil 4 n) (by simp),
    digitsValue_padded]
  rw [List.length_append, Nat.add_sub_cancel_left, List.length_cons, List.take_succ_cons,
    List.takeWhile_cons_of_neg (by decide)]

/-- A year, whatever follows the dash. -/
theorem readYear_yearText (y : Int) (rest : List Char) :
    readYear ((yearText y).toList ++ '-' :: rest) = some (y, '-' :: rest) := by
  unfold yearText
  split
  · rename_i hrange
    have hlength : (padded 4 y.toNat).toList.length = 4 := length_padded (by decide) (by omega)
    have hread : readDigits 4 ((padded 4 y.toNat).toList ++ '-' :: rest) =
        some (y.toNat, '-' :: rest) := by
      rw [readDigits_append (fun _ => digit_of_mem_padded) (padded_ne_nil 4 _)
        (Nat.le_of_eq hlength), digitsValue_padded]
      rw [hlength]
      rfl
    obtain ⟨c, cs, hcons, hc⟩ := exists_padded 4 y.toNat
    rw [readYear, dropWhile_padded]
    rw [hcons, List.cons_append] at hread ⊢
    split
    · -- a digit is no sign
      rename_i heq
      cases heq
      cases hc
    · rename_i heq
      cases heq
      cases hc
    · rw [hread, Option.map_some]
      simp only [Option.some.injEq, Prod.mk.injEq, and_true]
      omega
  · have hread := readDigits_padded y.natAbs rest
    split
    · have hlead : ("-" ++ padded 4 y.natAbs).toList = '-' :: (padded 4 y.natAbs).toList := by
        simp
      rw [hlead, List.cons_append, readYear, List.dropWhile_cons_of_neg (by decide)]
      simp only [hread, Option.map_some, Option.some.injEq, Prod.mk.injEq, and_true]
      omega
    · have hlead : ("+" ++ padded 4 y.natAbs).toList = '+' :: (padded 4 y.natAbs).toList := by
        simp
      rw [hlead, List.cons_append, readYear, List.dropWhile_cons_of_neg (by decide)]
      simp only [hread, Option.map_some, Option.some.injEq, Prod.mk.injEq, and_true]
      omega

/-! ## Times -/

/-- A time as it stands in file names, character by character. -/
theorem toList_fileText (t : Timestamp) :
    t.fileText.toList = (yearText t.date.year).toList ++ '-' :: ((padded 2 t.date.month).toList ++
      '-' :: ((padded 2 t.date.day).toList ++ '_' :: ((padded 2 t.hour).toList ++
        '-' :: ((padded 2 t.minute).toList ++ '-' :: ((padded 2 t.second).toList ++ []))))) := by
  simp [fileText, dateText, timeText]

/-- Whether the calendar holds a second, which is not a leap second. -/
def Plain (t : Timestamp) : Prop :=
  t.leap = false ∧ minSeconds ≤ t.seconds ∧ t.seconds ≤ maxSeconds

theorem plain_of_ofMicros? {micros : Int} {t : Timestamp} (h : ofMicros? micros = some t) :
    t.Plain ∧ t.seconds = micros.fdiv 1000000 := by
  unfold ofMicros? at h
  dsimp only at h
  split at h
  · rename_i hrange
    cases h
    exact ⟨⟨rfl, hrange⟩, rfl⟩
  · cases h

variable {t : Timestamp}

theorem Plain.valid_date (ht : t.Plain) : t.date.valid = true := by
  obtain ⟨-, hmin, hmax⟩ := ht
  unfold minSeconds at hmin
  unfold maxSeconds at hmax
  have hday := Int.fdiv_eq_ediv_of_nonneg t.seconds (by decide : (0 : Int) ≤ 86400)
  exact Date.valid_ofDays (by omega) (by omega)

theorem secondOfDay_lt (t : Timestamp) : t.secondOfDay < 86400 := by
  have hrest := Int.fmod_eq_emod_of_nonneg t.seconds (by decide : (0 : Int) ≤ 86400)
  unfold secondOfDay
  omega

theorem hour_lt (t : Timestamp) : t.hour < 24 := by
  have hday := t.secondOfDay_lt
  unfold hour
  omega

theorem minute_lt (t : Timestamp) : t.minute < 60 := Nat.mod_lt _ (by decide)

theorem Plain.second_eq (ht : t.Plain) : t.second = t.secondOfDay % 60 := by
  rw [second, ht.1]
  rfl

theorem Plain.second_lt (ht : t.Plain) : t.second < 60 := by
  rw [ht.second_eq]
  exact Nat.mod_lt _ (by decide)

/-- Days, hours, minutes and seconds make up the time. -/
theorem seconds_eq (t : Timestamp) :
    t.date.toDays * 86400 + (t.hour * 3600 + t.minute * 60 + t.secondOfDay % 60 : Nat) =
      t.seconds := by
  have hdays : t.date.toDays = t.seconds.fdiv 86400 := Date.toDays_ofDays _
  have hday := Int.fdiv_eq_ediv_of_nonneg t.seconds (by decide : (0 : Int) ≤ 86400)
  have hrest := Int.fmod_eq_emod_of_nonneg t.seconds (by decide : (0 : Int) ≤ 86400)
  rw [hdays]
  unfold hour minute secondOfDay
  omega

theorem Plain.seconds_eq (ht : t.Plain) :
    t.date.toDays * 86400 + (t.hour * 3600 + t.minute * 60 + t.second : Nat) = t.seconds := by
  rw [ht.second_eq, Timestamp.seconds_eq]

/-- A second of the calendar is that in which a time in microseconds lies, on the day of a date. -/
structure Floors (t : Timestamp) (micros : Int) (d : Date) : Prop where
  leap : t.leap = false
  le : t.seconds * 1000000 ≤ micros
  lt : micros < (t.seconds + 1) * 1000000
  date : t.date = d
  hour : t.hour < 24
  minute : t.minute < 60
  second : t.second < 60
  /-- Hours, minutes and seconds are counted from midnight. -/
  clock : t.seconds = micros / 86400000000 * 86400 +
    (t.hour * 3600 + t.minute * 60 + t.second : Nat)

/-- Every time in the years that the calendar holds lies in a second of it. -/
theorem exists_floors {micros : Int} {d : Date} (hday : Date.Falls (micros / 86400000000) d)
    (hfirst : Date.minYear ≤ d.year) (hlast : d.year ≤ Date.maxYear) :
    ∃ t, ofMicros? micros = some t ∧ t.Floors micros d := by
  have hdate : d = .ofDays (micros / 86400000000) := Date.falls_iff.1 hday
  have hproper : d.Proper := hdate ▸ Date.proper_ofDays _
  obtain ⟨hmin, hmax⟩ := Date.toDays_range hproper hfirst hlast
  rw [hdate, Date.toDays_ofDays] at hmin hmax
  have hsecond := Int.fdiv_eq_ediv_of_nonneg micros (by decide : (0 : Int) ≤ 1000000)
  have hrange : minSeconds ≤ micros.fdiv 1000000 ∧ micros.fdiv 1000000 ≤ maxSeconds := by
    unfold minSeconds maxSeconds
    omega
  have ht : ofMicros? micros = some ⟨micros.fdiv 1000000, false⟩ := if_pos hrange
  have hplain := (plain_of_ofMicros? ht).1
  have hsame : (micros.fdiv 1000000).fdiv 86400 = micros / 86400000000 := by
    rw [Int.fdiv_eq_ediv_of_nonneg _ (by decide)]
    omega
  refine ⟨_, ht, ?_⟩
  constructor
  case leap => rfl
  case hour => exact hour_lt _
  case minute => exact minute_lt _
  case second => exact hplain.second_lt
  case date =>
    rw [hdate, date, hsame]
  case clock =>
    rw [← hplain.seconds_eq, date, Date.toDays_ofDays, hsame]
  case le =>
    show micros.fdiv 1000000 * 1000000 ≤ micros
    omega
  case lt =>
    show micros < (micros.fdiv 1000000 + 1) * 1000000
    omega

/-- The numbers in which a time is written lead back to it, if it is a leap second just when it is
written as one. -/
theorem ofFields?_fields (hvalid : t.date.valid = true) (hleap : t.leap = true ↔ t.second = 60) :
    ofFields? t.date t.hour t.minute t.second = some t := by
  have hmod : t.secondOfDay % 60 < 60 := Nat.mod_lt _ (by decide)
  have hflag : (t.second == 60) = t.leap := by
    rw [Bool.eq_iff_iff, beq_iff_eq, hleap]
  have hmin : min t.second 59 = t.secondOfDay % 60 := by
    rw [second] at hleap ⊢
    split at hleap
    · -- the leap second comes after the last second of its minute
      rename_i h
      have := hleap.1 h
      rw [if_pos h]
      omega
    · rename_i h
      rw [if_neg h]
      omega
  rw [ofFields?, if_pos hvalid, hmin, t.seconds_eq, hflag]

/-- A time of the calendar is read back from a file name. -/
theorem Plain.read?_fileText (ht : t.Plain) : read? t.fileText.toList = some t := by
  obtain ⟨-, -, hmonth, hmonth', hday, hday'⟩ := (Date.valid_iff _).mp ht.valid_date
  have hday31 : t.date.day ≤ 31 := hday'.trans (Date.monthLength_le ..)
  have hhour : t.hour ≤ 23 := Nat.le_of_lt_succ t.hour_lt
  have hminute : t.minute ≤ 59 := Nat.le_of_lt_succ t.minute_lt
  have hsecond : t.second ≤ 60 := Nat.le_of_lt ht.second_lt
  have hleap : t.leap = true ↔ t.second = 60 := by
    rw [ht.1, iff_false_left Bool.false_ne_true]
    exact ht.second_lt.ne
  have hfields := ofFields?_fields ht.valid_date hleap
  rw [toList_fileText]
  simp only [read?, readYear_yearText, expect, if_true, Option.bind_eq_bind, Option.bind_some,
    readField_padded hmonth hmonth' (by omega), readField_padded hday hday31 (by omega),
    readField_padded (Nat.zero_le _) hhour (by omega),
    readField_padded (Nat.zero_le _) hminute (by omega),
    readField_padded (Nat.zero_le _) hsecond (by omega), List.isEmpty_nil]
  exact hfields

end Timestamp

end BlockLedger
