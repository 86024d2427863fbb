import BlockLedger.Proofs.Time.Reading
import Mathlib.Data.List.Induction
import Mathlib.Data.List.Infix
import Mathlib.Data.List.TakeWhile

/-
# How times may be spelled

A reader of times takes more than a writer puts down: blanks before a number, one digit for two,
years of fewer than four digits, signs and leading zeros where none are written.  A time that is
read has some spelling, and it is the one that is written just if every number is filled up to its
width with zeros, and no further, and stands without blanks.
-/

namespace BlockLedger

namespace Timestamp

variable {ds es : List Char} {width : Nat}

/-! ## Digits -/

theorem digitsValue_concat (ds : List Char) (c : Char) :
    digitsValue (ds ++ [c]) = 10 * digitsValue ds + (c.toNat - '0'.toNat) := by
  simp [digitsValue, List.foldl_append]

theorem digit_bounds {c : Char} (h : c.isDigit = true) :
    '0'.toNat ≤ c.toNat ∧ c.toNat ≤ '0'.toNat + 9 := by
  simpa [Char.isDigit, UInt32.le_iff_toNat_le] using h

theorem digitsValue_lt (hds : ∀ c ∈ ds, c.isDigit = true) : digitsValue ds < 10 ^ ds.length := by
  induction ds using List.reverseRecOn with
  | nil => exact Nat.one_pos
  | append_singleton ds c ih =>
    have hvalue := ih fun d hd => hds d (List.mem_append_left _ hd)
    have hc := digit_bounds (hds c (by simp))
    rw [digitsValue_concat, List.length_append, List.length_singleton, Nat.pow_succ]
    omega

/-- As many digits of the same value are the same digits. -/
theorem eq_of_digitsValue_eq (hds : ∀ c ∈ ds, c.isDigit = true) (hes : ∀ c ∈ es, c.isDigit = true)
    (hlength : ds.length = es.length) (h : digitsValue ds = digitsValue es) : ds = es := by
  induction ds using List.reverseRecOn generalizing es with
  | nil => exact (List.length_eq_zero_iff.1 hlength.symm).symm
  | append_singleton ds c ih =>
    cases es using List.reverseRecOn with
    | nil => simp at hlength
    | append_singleton es d _ =>
      have hc := digit_bounds (hds c (by simp))
      have hd := digit_bounds (hes d (by simp))
      rw [digitsValue_concat, digitsValue_concat] at h
      have hlast : c = d := Char.toNat_inj.1 (by omega)
      have hrest : ds = es := by
        refine ih (fun c hc => hds c (List.mem_append_left _ hc))
          (fun c hc => hes c (List.mem_append_left _ hc)) ?_ (by omega)
        simpa using hlength
      rw [hlast, hrest]

theorem le_digitsValue_cons {c : Char} (hc : c.isDigit = true) (hzero : c ≠ '0') :
    10 ^ ds.length ≤ digitsValue (c :: ds) := by
  induction ds using List.reverseRecOn with
  | nil =>
    have hbounds := digit_bounds hc
    have hne : c.toNat ≠ '0'.toNat := fun h => hzero (Char.toNat_inj.1 h)
    show 1 ≤ 10 * 0 + (c.toNat - '0'.toNat)
    omega
  | append_singleton ds d ih =>
    rw [← List.cons_append, digitsValue_concat, List.length_append, List.length_singleton,
      Nat.pow_succ]
    omega

/-- Digits are filled up to a width with zeros, and no further. -/
def Filled (width : Nat) (ds : List Char) : Prop :=
  ds.length = width ∨ width < ds.length ∧ ds.head? ≠ some '0'

theorem length_toList_padded (width n : Nat) :
    (padded width n).toList.length = max width (Nat.toDigits 10 n).length := by
  rw [toList_padded, List.length_append, List.length_replicate]
  omega

/-- A number is written in the digits that are filled up to its width. -/
theorem padded_digitsValue (hwidth : 0 < width) (hds : ∀ c ∈ ds, c.isDigit = true) :
    (padded width (digitsValue ds)).toList = ds ↔ Filled width ds := by
  have hvalue := digitsValue_lt hds
  constructor
  · intro h
    have hlength := length_toList_padded width (digitsValue ds)
    rw [h] at hlength
    rcases Nat.lt_or_ge width ds.length with hlong | hshort
    · refine .inr ⟨hlong, fun hzero => ?_⟩
      -- without the leading zero the digits would be too few for the number
      obtain ⟨cs, rfl⟩ : ∃ cs, ds = '0' :: cs := by
        cases ds with
        | nil => cases hzero
        | cons c cs => exact ⟨cs, by rw [Option.some.inj hzero]⟩
      have hfew : digitsValue ('0' :: cs) < 10 ^ cs.length :=
        digitsValue_lt fun c hc => hds c (List.mem_cons_of_mem _ hc)
      rw [List.length_cons] at hlength hlong
      have := (Nat.length_toDigits_le_iff (by decide) (by omega)).2 hfew
      omega
    · exact .inl (by omega)
  · intro h
    refine eq_of_digitsValue_eq (fun _ => digit_of_mem_padded) hds ?_ (digitsValue_padded ..)
    obtain rfl | ⟨hlong, hzero⟩ := h
    · exact length_padded hwidth hvalue
    · cases ds with
      | nil => cases hlong
      | cons c cs =>
        have hmany : 10 ^ cs.length ≤ digitsValue (c :: cs) :=
          le_digitsValue_cons (hds c List.mem_cons_self) fun h => hzero (congrArg some h)
        rw [List.length_cons] at hlong hvalue
        have hle := (Nat.length_toDigits_le_iff (by decide) (Nat.succ_pos cs.length)).2 hvalue
        have hlt : ¬(Nat.toDigits 10 (digitsValue (c :: cs))).length ≤ cs.length := by
          rw [Nat.length_toDigits_le_iff (by decide) (by omega)]
          omega
        rw [length_toList_padded, List.length_cons]
        omega

/-- Nothing that follows a number is read as one more digit of it. -/
def Ends (rest : List Char) : Prop := ∀ c ∈ rest.head?, c.isDigit = false

theorem ends_nil : Ends [] := by
  intro c hc
  cases hc

theorem ends_cons {c : Char} (hc : c.isDigit = false) (rest : List Char) : Ends (c :: rest) := by
  intro d hd
  rwa [← Option.some.inj hd]

theorem ends_dash (rest : List Char) : Ends ('-' :: rest) := ends_cons rfl rest

theorem ends_underscore (rest : List Char) : Ends ('_' :: rest) := ends_cons rfl rest

theorem takeWhile_of_ends {rest : List Char} (h : Ends rest) (n : Nat) :
    (rest.take n).takeWhile Char.isDigit = [] := by
  cases rest with
  | nil => simp
  | cons c rest =>
    cases n with
    | zero => rfl
    | succ n =>
      rw [List.take_succ_cons, List.takeWhile_cons_of_neg]
      exact Bool.eq_false_iff.1 (h c rfl)

/-- What is read as a number is digits. -/
theorem exists_of_readDigits {cs rest : List Char} {n : Nat}
    (h : readDigits width cs = some (n, rest)) :
    ∃ ds, cs = ds ++ rest ∧ digitsValue ds = n ∧ (∀ c ∈ ds, c.isDigit = true) ∧ ds ≠ [] ∧
      ds.length ≤ width := by
  unfold readDigits at h
  dsimp only at h
  split at h
  · cases h
  · rename_i hne
    cases h
    refine ⟨(cs.take width).takeWhile Char.isDigit, ?_, rfl, ?_, by simpa using hne, ?_⟩
    · exact List.prefix_append_drop ((List.takeWhile_prefix _).trans (List.take_prefix ..))
    · intro c hc
      exact List.mem_takeWhile_imp hc
    · exact (List.takeWhile_prefix _).length_le.trans (List.length_take_le ..)

/-- No blank stands where none is written. -/
theorem blanks_eq_nil {blanks rest written : List Char} (hblanks : ∀ c ∈ blanks, isBlank c = true)
    (hwritten : ∀ c ∈ written, isBlank c = false) (h : blanks ++ rest = written) : blanks = [] := by
  rw [List.eq_nil_iff_forall_not_mem]
  intro c hc
  have hblank := hwritten c (h ▸ List.mem_append_left rest hc)
  exact Bool.noConfusion ((hblanks c hc).symm.trans hblank)

/-- Two texts that are read the same up to what is left of them are the same up to there. -/
theorem append_inj_of_read {α : Type} {f : List Char → Option (α × List Char)}
    {as bs rest rest' : List Char} {x y : α} (h : f (as ++ rest) = some (x, rest))
    (h' : f (bs ++ rest') = some (y, rest')) (heq : as ++ rest = bs ++ rest') :
    as = bs ∧ rest = rest' := by
  rw [heq, h'] at h
  cases h
  exact ⟨List.append_cancel_right heq, rfl⟩

/-! ## Numbers -/

/-- A number as it is spelled: blanks, and then digits. -/
structure Numeral where
  blanks : List Char
  digits : List Char

namespace Numeral

/-- The characters of a number. -/
def chars (w : Numeral) : List Char := w.blanks ++ w.digits

/-- The number. -/
def value (w : Numeral) : Nat := digitsValue w.digits

/-- There are blanks, and then digits, but not more than may be read. -/
structure Proper (w : Numeral) (width : Nat) : Prop where
  blank : ∀ c ∈ w.blanks, isBlank c = true
  digit : ∀ c ∈ w.digits, c.isDigit = true
  ne_nil : w.digits ≠ []
  length_le : w.digits.length ≤ width

/-- The number is spelled as it is written. -/
def Full (w : Numeral) (width : Nat) : Prop := w.blanks = [] ∧ Filled width w.digits

variable {w : Numeral} {least greatest : Nat} {rest : List Char}

theorem dropWhile_chars (hblank : ∀ c ∈ w.blanks, isBlank c = true)
    (hdigit : ∀ c ∈ w.digits, c.isDigit = true) (hne : w.digits ≠ []) (rest : List Char) :
    (w.chars ++ rest).dropWhile isBlank = w.digits ++ rest := by
  obtain ⟨c, cs, hcs⟩ := List.exists_cons_of_ne_nil hne
  have hc := not_blank_of_digit (hdigit c (hcs ▸ List.mem_cons_self))
  rw [chars, List.append_assoc, List.dropWhile_append_of_pos hblank, hcs, List.cons_append,
    List.dropWhile_cons_of_neg (by simp [hc])]

theorem Proper.readField (h : w.Proper 2) (hrest : Ends rest) (hleast : least ≤ w.value)
    (hgreatest : w.value ≤ greatest) :
    readField least greatest (w.chars ++ rest) = some (w.value, rest) := by
  have hread : readDigits 2 (w.digits ++ rest) = some (w.value, rest) :=
    readDigits_append h.digit h.ne_nil h.length_le (takeWhile_of_ends hrest _)
  rw [Timestamp.readField, dropWhile_chars h.blank h.digit h.ne_nil, hread]
  exact if_pos ⟨hleast, hgreatest⟩

theorem exists_of_readField {cs : List Char} {n : Nat}
    (h : Timestamp.readField least greatest cs = some (n, rest)) :
    ∃ w : Numeral, w.Proper 2 ∧ cs = w.chars ++ rest ∧ w.value = n ∧ least ≤ n ∧ n ≤ greatest := by
  unfold Timestamp.readField at h
  split at h
  · rename_i n' rest' hread
    split at h
    · rename_i hbounds
      cases h
      obtain ⟨ds, hds, hvalue, hdigit, hne, hlength⟩ := exists_of_readDigits hread
      refine ⟨⟨cs.takeWhile isBlank, ds⟩, ⟨?_, hdigit, hne, hlength⟩, ?_, hvalue, hbounds⟩
      · exact fun c hc => List.mem_takeWhile_imp hc
      · rw [chars, List.append_assoc, ← hds, List.takeWhile_append_dropWhile]
    · cases h
  · cases h

theorem Proper.chars_eq_iff {most : Nat} (h : w.Proper most) (hwidth : 0 < width) :
    w.chars = (padded width w.value).toList ↔ w.Full width := by
  rw [Full, ← padded_digitsValue hwidth h.digit]
  constructor
  · intro hchars
    have hblanks : w.blanks = [] :=
      blanks_eq_nil h.blank (fun _ hc => not_blank_of_digit (digit_of_mem_padded hc)) hchars
    rw [chars, hblanks, List.nil_append] at hchars
    exact ⟨hblanks, hchars.symm⟩
  · rintro ⟨hblanks, hdigits⟩
    rw [chars, hblanks, List.nil_append]
    exact hdigits.symm

theorem Proper.value_lt (h : w.Proper 2) : w.value < 100 :=
  (digitsValue_lt h.digit).trans_le (Nat.pow_le_pow_right (by decide) h.length_le)

/-- A text that starts with a number as it is spelled, and with one as it is written, starts with
one number. -/
theorem Proper.append_inj (h : w.Proper 2) (hrest : Ends rest) {rest' : List Char}
    (heq : w.chars ++ rest = (padded 2 w.value).toList ++ rest') :
    w.chars = (padded 2 w.value).toList ∧ rest = rest' := by
  have hle : w.value ≤ 99 := Nat.le_of_lt_succ h.value_lt
  exact append_inj_of_read (h.readField hrest (Nat.zero_le _) hle)
    (readField_padded (Nat.zero_le _) hle h.value_lt rest') heq

end Numeral

/-! ## Years -/

/-- What may stand before a year. -/
inductive Sign where
  | none
  | plus
  | minus
  deriving DecidableEq

/-- The characters of a sign. -/
def Sign.chars : Sign → List Char
  | none => []
  | plus => ['+']
  | minus => ['-']

/-- The sign that is written before a year. -/
def Sign.ofYear (y : Int) : Sign := if y < 0 then minus else if 9999 < y then plus else none

theorem Sign.not_blank {s : Sign} {c : Char} (h : c ∈ s.chars) : isBlank c = false := by
  cases s with
  | none => cases h
  | plus | minus =>
    obtain rfl := List.mem_singleton.1 h
    rfl

/-- A sign is no digit. -/
theorem Sign.eq_of_append {s s' : Sign} (hds : ∀ c ∈ ds, c.isDigit = true)
    (hes : ∀ c ∈ es, c.isDigit = true) (h : s.chars ++ ds = s'.chars ++ es) : s = s' ∧ ds = es := by
  cases s <;> cases s' <;> simp only [chars, List.nil_append, List.cons_append] at h
  case none.none => exact ⟨rfl, h⟩
  case plus.plus | minus.minus => exact ⟨rfl, List.tail_eq_of_cons_eq h⟩
  case none.plus | none.minus =>
    have hdigit := hds _ (h ▸ List.mem_cons_self)
    cases hdigit
  case plus.none | minus.none =>
    have hdigit := hes _ (h ▸ List.mem_cons_self)
    cases hdigit
  case plus.minus | minus.plus => cases h

/-- A year as it is spelled: blanks, perhaps a sign, and then digits. -/
structure YearNumeral where
  blanks : List Char
  sign : Sign
  digits : List Char

theorem toList_yearText (y : Int) :
    (yearText y).toList = (Sign.ofYear y).chars ++ (padded 4 y.natAbs).toList := by
  unfold yearText Sign.ofYear
  split
  · rename_i h
    have hvalue : y.toNat = y.natAbs := by omega
    rw [if_neg (by omega), if_neg (by omega), hvalue]
    rfl
  · rename_i h
    split
    · simp [Sign.chars]
    · rw [if_pos (by omega)]
      simp [Sign.chars]

namespace YearNumeral

/-- The characters of a year. -/
def chars (w : YearNumeral) : List Char := w.blanks ++ (w.sign.chars ++ w.digits)

/-- The year. -/
def value (w : YearNumeral) : Int :=
  match w.sign with
  | .minus => -(digitsValue w.digits : Int)
  | _ => digitsValue w.digits

/-- There are blanks, perhaps a sign, and then digits, but not more than may be read.  After a sign
there may be any number of them. -/
structure Proper (w : YearNumeral) : Prop where
  blank : ∀ c ∈ w.blanks, isBlank c = true
  digit : ∀ c ∈ w.digits, c.isDigit = true
  ne_nil : w.digits ≠ []
  length_le : w.sign = .none → w.digits.length ≤ 4

/-- The year is spelled as it is written. -/
structure Full (w : YearNumeral) : Prop where
  blanks : w.blanks = []
  sign : w.sign = .ofYear w.value
  digits : Filled 4 w.digits

variable {w : YearNumeral} {rest : List Char}

theorem natAbs_value (w : YearNumeral) : w.value.natAbs = digitsValue w.digits := by
  unfold value
  split <;> omega

/-- Before its digits a year has no blank any more. -/
theorem Proper.dropWhile_chars (h : w.Proper) (rest : List Char) :
    (w.chars ++ rest).dropWhile isBlank = w.sign.chars ++ (w.digits ++ rest) := by
  obtain ⟨c, cs, hcs⟩ := List.exists_cons_of_ne_nil h.ne_nil
  have hc := not_blank_of_digit (h.digit c (hcs ▸ List.mem_cons_self))
  rw [chars, List.append_assoc, List.dropWhile_append_of_pos h.blank, List.append_assoc]
  cases w.sign with
  | none =>
    rw [hcs]
    exact List.dropWhile_cons_of_neg (by simp [hc])
  | plus => exact List.dropWhile_cons_of_neg (by decide)
  | minus => exact List.dropWhile_cons_of_neg (by decide)

theorem Proper.readYear (h : w.Proper) (hrest : Ends rest) :
    readYear (w.chars ++ rest) = some (w.value, rest) := by
  have hlong : readDigits (w.digits ++ rest).length (w.digits ++ rest) =
      some (digitsValue w.digits, rest) :=
    readDigits_append h.digit h.ne_nil (by simp) (takeWhile_of_ends hrest _)
  rw [Timestamp.readYear, h.dropWhile_chars, value]
  cases hsign : w.sign with
  | plus =>
    simp only [Sign.chars, List.cons_append, List.nil_append, hlong]
    rfl
  | minus =>
    simp only [Sign.chars, List.cons_append, List.nil_append, hlong]
    rfl
  | none =>
    have hread : readDigits 4 (w.digits ++ rest) = some (digitsValue w.digits, rest) :=
      readDigits_append h.digit h.ne_nil (h.length_le hsign) (takeWhile_of_ends hrest _)
    obtain ⟨c, cs, hcs⟩ := List.exists_cons_of_ne_nil h.ne_nil
    have hc := h.digit c (hcs ▸ List.mem_cons_self)
    simp only [Sign.chars, List.nil_append]
    rw [hcs, List.cons_append] at hread ⊢
    split
    · -- a digit is no sign
      rename_i heq
      cases heq
      cases hc
    · rename_i heq
      cases heq
      cases hc
    · rw [hread]
      rfl

theorem exists_of_readYear {cs : List Char} {y : Int}
    (h : Timestamp.readYear cs = some (y, rest)) :
    ∃ w : YearNumeral, w.Proper ∧ cs = w.chars ++ rest ∧ w.value = y := by
  obtain ⟨sign, tail, width, n, hdrop, hread, hy, hwidth⟩ :
      ∃ (sign : Sign) (tail : List Char) (width n : Nat),
        cs.dropWhile isBlank = sign.chars ++ tail ∧ readDigits width tail = some (n, rest) ∧
          (match sign with | .minus => -(n : Int) | _ => n) = y ∧ (sign = .none → width = 4) := by
    unfold Timestamp.readYear at h
    split at h
    · rename_i tail heq
      obtain ⟨⟨n, rest'⟩, hread, hpair⟩ := Option.map_eq_some_iff.1 h
      cases hpair
      exact ⟨.minus, tail, _, n, heq, hread, rfl, nofun⟩
    · rename_i tail heq
      obtain ⟨⟨n, rest'⟩, hread, hpair⟩ := Option.map_eq_some_iff.1 h
      cases hpair
      exact ⟨.plus, tail, _, n, heq, hread, rfl, nofun⟩
    · obtain ⟨⟨n, rest'⟩, hread, hpair⟩ := Option.map_eq_some_iff.1 h
      cases hpair
      exact ⟨.none, _, 4, n, rfl, hread, rfl, fun _ => rfl⟩
  obtain ⟨ds, hds, rfl, hdigit, hne, hlength⟩ := exists_of_readDigits hread
  refine ⟨⟨cs.takeWhile isBlank, sign, ds⟩, ⟨?_, hdigit, hne, ?_⟩, ?_, hy⟩
  · exact fun c hc => List.mem_takeWhile_imp hc
  · rintro rfl
    exact (hwidth rfl) ▸ hlength
  · rw [chars, List.append_assoc, List.append_assoc, ← hds, ← hdrop,
      List.takeWhile_append_dropWhile]

theorem Proper.chars_eq_iff (h : w.Proper) :
    w.chars = (yearText w.value).toList ↔ w.Full := by
  have hpadded : ∀ c ∈ (padded 4 w.value.natAbs).toList, c.isDigit = true :=
    fun _ => digit_of_mem_padded
  have hfilled : (padded 4 w.value.natAbs).toList = w.digits ↔ Filled 4 w.digits := by
    rw [natAbs_value]
    exact padded_digitsValue (by decide) h.digit
  rw [toList_yearText]
  constructor
  · intro hchars
    have hblanks : w.blanks = [] := by
      refine blanks_eq_nil h.blank (fun c hc => ?_) hchars
      rcases List.mem_append.1 hc with hc | hc
      · exact Sign.not_blank hc
      · exact not_blank_of_digit (hpadded c hc)
    rw [chars, hblanks, List.nil_append] at hchars
    obtain ⟨hsign, hdigits⟩ := Sign.eq_of_append h.digit hpadded hchars
    exact ⟨hblanks, hsign, hfilled.1 hdigits.symm⟩
  · rintro ⟨hblanks, hsign, hdigits⟩
    rw [chars, hblanks, hsign, List.nil_append, hfilled.2 hdigits]

end YearNumeral

/-! ## Times -/

theorem expect_eq_some_iff {c : Char} {cs rest : List Char} :
    expect c cs = some rest ↔ cs = c :: rest := by
  cases cs with
  | nil => simp [expect]
  | cons d cs =>
    rw [expect, List.cons.injEq]
    split <;> simp_all

/-- The numbers of a second are the ones of which it is made. -/
theorem fields_of_ofFields? {d : Date} {hour minute second : Nat} {t : Timestamp}
    (hhour : hour ≤ 23) (hminute : minute ≤ 59) (hsecond : second ≤ 60)
    (h : ofFields? d hour minute second = some t) :
    d.valid = true ∧ t.date = d ∧ t.hour = hour ∧ t.minute = minute ∧ t.second = second ∧
      (t.leap = true ↔ second = 60) := by
  unfold ofFields? at h
  split at h
  · rename_i hvalid
    cases h
    set clock : Nat := hour * 3600 + minute * 60 + min second 59 with hclock
    have hpos : (0 : Int) ≤ 86400 := by decide
    have hday := Int.fdiv_eq_ediv_of_nonneg (d.toDays * 86400 + clock) hpos
    have hrest := Int.fmod_eq_emod_of_nonneg (d.toDays * 86400 + clock) hpos
    have hdate : (d.toDays * 86400 + clock).fdiv 86400 = d.toDays := by omega
    have hof : secondOfDay ⟨d.toDays * 86400 + clock, second == 60⟩ = clock := by
      unfold secondOfDay
      dsimp only
      omega
    refine ⟨hvalid, ?_, ?_, ?_, ?_, beq_iff_eq⟩
    · rw [date, hdate, Date.ofDays_toDays (Date.proper_of_valid hvalid)]
    · rw [Timestamp.hour, hof]
      omega
    · rw [Timestamp.minute, hof]
      omega
    · rw [Timestamp.second, hof]
      by_cases hleap : second = 60
      · subst hleap
        simp
        omega
      · simp [hleap]
        omega
  · cases h

/-- A time as it is spelled in the name of a file. -/
structure Spelling where
  year : YearNumeral
  month : Numeral
  day : Numeral
  hour : Numeral
  minute : Numeral
  second : Numeral

namespace Spelling

/-- The characters of a time. -/
def chars (w : Spelling) : List Char :=
  w.year.chars ++ '-' :: (w.month.chars ++ '-' :: (w.day.chars ++ '_' :: (w.hour.chars ++
    '-' :: (w.minute.chars ++ '-' :: w.second.chars))))

/-- The day that is spelled. -/
def date (w : Spelling) : Date := ⟨w.year.value, w.month.value, w.day.value⟩

/-- What is spelled is a second of the calendar.  The last one of a minute may be its leap
second. -/
structure Tells (w : Spelling) (t : Timestamp) : Prop where
  year : w.year.Proper
  month : w.month.Proper 2
  day : w.day.Proper 2
  hour : w.hour.Proper 2
  minute : w.minute.Proper 2
  second : w.second.Proper 2
  valid : w.date.valid = true
  date_eq : t.date = w.date
  hour_eq : t.hour = w.hour.value
  minute_eq : t.minute = w.minute.value
  second_eq : t.second = w.second.value
  leap_iff : t.leap = true ↔ w.second.value = 60

/-- The time is spelled as it is written. -/
structure Full (w : Spelling) : Prop where
  year : w.year.Full
  month : w.month.Full 2
  day : w.day.Full 2
  hour : w.hour.Full 2
  minute : w.minute.Full 2
  second : w.second.Full 2

variable {w : Spelling} {t : Timestamp}

theorem Tells.read? (h : w.Tells t) : Timestamp.read? w.chars = some t := by
  obtain ⟨-, -, hmonth, hmonth', hday, hday'⟩ := (Date.valid_iff _).1 h.valid
  have hhour : w.hour.value ≤ 23 := h.hour_eq ▸ Nat.le_of_lt_succ t.hour_lt
  have hminute : w.minute.value ≤ 59 := h.minute_eq ▸ Nat.le_of_lt_succ t.minute_lt
  have hsecond : w.second.value ≤ 60 := by
    rw [← h.second_eq, Timestamp.second]
    have := Nat.mod_lt t.secondOfDay (by decide : 0 < 60)
    split <;> omega
  have hend : readField 0 60 (w.second.chars ++ []) = some (w.second.value, []) :=
    h.second.readField ends_nil (Nat.zero_le _) hsecond
  rw [List.append_nil] at hend
  have hfields : ofFields? w.date w.hour.value w.minute.value w.second.value = some t := by
    rw [← h.date_eq, ← h.hour_eq, ← h.minute_eq, ← h.second_eq]
    exact ofFields?_fields (h.date_eq ▸ h.valid) (h.second_eq ▸ h.leap_iff)
  simp only [Timestamp.read?, chars, h.year.readYear (ends_dash _), expect, if_true,
    Option.bind_eq_bind, Option.bind_some, h.month.readField (ends_dash _) hmonth hmonth',
    h.day.readField (ends_underscore _) hday (hday'.trans (Date.monthLength_le ..)),
    h.hour.readField (ends_dash _) (Nat.zero_le _) hhour,
    h.minute.readField (ends_dash _) (Nat.zero_le _) hminute, hend, List.isEmpty_nil]
  exact hfields

theorem exists_of_read? {cs : List Char} (h : Timestamp.read? cs = some t) :
    ∃ w : Spelling, w.chars = cs ∧ w.Tells t := by
  simp only [Timestamp.read?, Option.bind_eq_bind, Option.bind_eq_some_iff,
    expect_eq_some_iff] at h
  obtain ⟨⟨y, cs₁⟩, hyear, cs₁, rfl, ⟨m, cs₂⟩, hmonth, cs₂, rfl, ⟨d, cs₃⟩, hday, cs₃, rfl,
    ⟨hour, cs₄⟩, hhour, cs₄, rfl, ⟨minute, cs₅⟩, hminute, cs₅, rfl, ⟨second, cs₆⟩, hsecond,
    hfields⟩ := h
  dsimp only at hyear hmonth hday hhour hminute hsecond hfields
  obtain ⟨wy, hwy, rfl, rfl⟩ := YearNumeral.exists_of_readYear hyear
  obtain ⟨wm, hwm, rfl, rfl, -⟩ := Numeral.exists_of_readField hmonth
  obtain ⟨wd, hwd, rfl, rfl, -⟩ := Numeral.exists_of_readField hday
  obtain ⟨wh, hwh, rfl, rfl, -, hh⟩ := Numeral.exists_of_readField hhour
  obtain ⟨wi, hwi, rfl, rfl, -, hi⟩ := Numeral.exists_of_readField hminute
  obtain ⟨ws, hws, rfl, rfl, -, hs⟩ := Numeral.exists_of_readField hsecond
  split at hfields
  · rename_i hempty
    obtain rfl := List.isEmpty_iff.1 hempty
    obtain ⟨hvalid, hdate, hhour', hminute', hsecond', hleap⟩ :=
      fields_of_ofFields? hh hi hs hfields
    refine ⟨⟨wy, wm, wd, wh, wi, ws⟩, ?_, ?_⟩
    · rw [List.append_nil]
      rfl
    · exact ⟨hwy, hwm, hwd, hwh, hwi, hws, hvalid, hdate, hhour', hminute', hsecond', hleap⟩
  · cases hfields

/-- What is read as a time is one that is spelled. -/
theorem read?_eq_some_iff {cs : List Char} :
    Timestamp.read? cs = some t ↔ ∃ w : Spelling, w.chars = cs ∧ w.Tells t := by
  refine ⟨exists_of_read?, ?_⟩
  rintro ⟨w, rfl, h⟩
  exact h.read?

theorem chars_eq_iff (h : w.Tells t) : w.chars = t.fileText.toList ↔ w.Full := by
  have hyear : t.date.year = w.year.value := congrArg Date.year h.date_eq
  have hmonth : t.date.month = w.month.value := congrArg Date.month h.date_eq
  have hday : t.date.day = w.day.value := congrArg Date.day h.date_eq
  rw [toList_fileText, List.append_nil, hyear, hmonth, hday, h.hour_eq, h.minute_eq, h.second_eq,
    chars]
  constructor
  · intro heq
    -- number after number is read from both texts, and what is left of them stays the same
    obtain ⟨hyear, heq⟩ := append_inj_of_read (h.year.readYear (ends_dash _))
      (readYear_yearText ..) heq
    obtain ⟨hmonth, heq⟩ := h.month.append_inj (ends_dash _) (List.tail_eq_of_cons_eq heq)
    obtain ⟨hday, heq⟩ := h.day.append_inj (ends_underscore _) (List.tail_eq_of_cons_eq heq)
    obtain ⟨hhour, heq⟩ := h.hour.append_inj (ends_dash _) (List.tail_eq_of_cons_eq heq)
    obtain ⟨hminute, heq⟩ := h.minute.append_inj (ends_dash _) (List.tail_eq_of_cons_eq heq)
    have hsecond := List.tail_eq_of_cons_eq heq
    exact ⟨h.year.chars_eq_iff.1 hyear, (h.month.chars_eq_iff (by decide)).1 hmonth,
      (h.day.chars_eq_iff (by decide)).1 hday, (h.hour.chars_eq_iff (by decide)).1 hhour,
      (h.minute.chars_eq_iff (by decide)).1 hminute, (h.second.chars_eq_iff (by decide)).1 hsecond⟩
  · rintro ⟨hyear, hmonth, hday, hhour, hminute, hsecond⟩
    rw [h.year.chars_eq_iff.2 hyear, (h.month.chars_eq_iff (by decide)).2 hmonth,
      (h.day.chars_eq_iff (by decide)).2 hday, (h.hour.chars_eq_iff (by decide)).2 hhour,
      (h.minute.chars_eq_iff (by decide)).2 hminute,
      (h.second.chars_eq_iff (by decide)).2 hsecond]

end Spelling

end Timestamp

end BlockLedger
