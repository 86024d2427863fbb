import BlockLedger.Proofs.History.Interruption
import BlockLedger.Proofs.Segment.Spelling

/-
# Strangers in history

History goes by the names of files, and takes for a segment whatever has a name that can be read.
What is trimmed are the files with such names that tell an old time, and nothing else.  A name that
can be read need not be one that a segment is ever given, so that a file of another origin may be
listed beside the segment that it is mistaken for, and is thrown away like it.
-/

namespace BlockLedger

namespace Folder

variable {f g : Folder} {name : String}

/-- Only a file can be removed. -/
theorem remove_eq_ok (h : f.remove name = .ok g) :
    ∃ bytes, f.find? name = some (.file bytes) ∧ g = f.erase name := by
  rw [remove] at h
  split at h
  · exact ⟨_, ‹_›, (Except.ok.inj h).symm⟩
  · cases h
  · cases h

theorem remove_eq_error {e : FileFault} (h : f.remove name = .error e) :
    f.find? name = none ∨ f.find? name = some .folder := by
  rw [remove] at h
  split at h
  · cases h
  · exact .inr ‹_›
  · exact .inl ‹_›

end Folder

namespace History

/-- What stands under a name in the folder. -/
def find? (h : History) (file : String) : Option Node := h.folder.bind fun f => f.find? file

variable {f : Folder} {file : String}

/-- A file is gone when it has been removed, and a folder is not. -/
theorem find?_remove {g : Folder} {name : String} (h : f.remove name = .ok g) :
    g.find? file = if name = file then (f.find? file).filter (· = .folder) else f.find? file := by
  obtain ⟨bytes, hbytes, rfl⟩ := Folder.remove_eq_ok h
  rw [Folder.find?_erase]
  split
  · rename_i hname
    rw [← hname, hbytes]
    rfl
  · rfl

theorem find?_of_remove_error {name : String} {e : FileFault} (h : f.remove name = .error e) :
    f.find? name = (f.find? name).filter (· = .folder) := by
  rcases Folder.remove_eq_error h with hnode | hnode <;> rw [hnode] <;> rfl

/-- A segment of a list bears this name and was written before a time. -/
def Overdue (limit : Int) (segments : List ListedSegment) (file : String) : Prop :=
  ∃ s ∈ segments, s.file = file ∧ s.name.written.before limit = true

instance (limit : Int) (segments : List ListedSegment) (file : String) :
    Decidable (Overdue limit segments file) := by
  unfold Overdue
  infer_instance

theorem overdue_cons (limit : Int) (s : ListedSegment) (rest : List ListedSegment)
    (file : String) : Overdue limit (s :: rest) file ↔
      (s.file = file ∧ s.name.written.before limit = true) ∨ Overdue limit rest file := by
  rw [Overdue, List.exists_mem_cons_iff]
  rfl

/-- Of all that stands in the folder the overdue files are removed. -/
theorem find?_trimAll (path : String → String) (limit : Int) (segments : List ListedSegment)
    (f : Folder) (file : String) :
    (trimAll path limit segments f).2.2.find? file =
      if Overdue limit segments file then (f.find? file).filter (· = .folder)
      else f.find? file := by
  induction segments generalizing f with
  | nil => simp [trimAll, Overdue]
  | cons s rest ih =>
    rw [trimAll]
    split
    · rename_i hbefore
      cases hremove : f.remove s.file with
      | ok g =>
        show (trimAll path limit rest g).2.2.find? file = _
        rw [ih, find?_remove hremove]
        by_cases hfile : s.file = file
        · simp [overdue_cons, hfile, hbefore]
        · simp [overdue_cons, hfile]
      | error e =>
        show (trimAll path limit rest f).2.2.find? file = _
        rw [ih]
        by_cases hfile : s.file = file
        · subst hfile
          rw [← find?_of_remove_error hremove, ite_self, ite_self]
        · simp [overdue_cons, hfile]
    · rename_i hbefore
      show (trimAll path limit rest f).2.2.find? file = _
      simp [ih, overdue_cons, hbefore]

/-- Whatever is in the folder is overdue if its name can be read and tells a time that is old
enough. -/
theorem overdue_listFolder {limit : Int} {node : Node} (hnode : f.find? file = some node) :
    Overdue limit (listFolder f) file ↔
      ∃ n, SegmentName.parse? file = some n ∧ n.written.before limit = true := by
  constructor
  · rintro ⟨s, hs, rfl, hbefore⟩
    exact ⟨s.name, (mem_listFolder.1 hs).1, hbefore⟩
  · rintro ⟨n, hn, hbefore⟩
    exact ⟨⟨file, n, node.size⟩, mem_listFolder.2 ⟨hn, node, hnode, rfl⟩, rfl, hbefore⟩

/-- Whatever is in the folder goes just if it is a file and its name can be read and tells a time
that is old enough. -/
theorem find?_trim {h : History} (hours : Nat) (now : Int) {node : Node}
    (hnode : h.find? file = some node) :
    (h.trim hours now).2.2.find? file = none ↔
      hours ≠ 0 ∧ (Timestamp.ofMicros? (limit now hours)).isSome = true ∧ node ≠ .folder ∧
        ∃ n, SegmentName.parse? file = some n ∧ n.written.before (limit now hours) = true := by
  obtain ⟨base, _ | f⟩ := h
  · cases hnode
  · change f.find? file = some node at hnode
    rw [trim]
    dsimp only
    split
    · rename_i hzero
      show f.find? file = none ↔ _
      simp [hnode, hzero]
    · rename_i hzero
      split
      · rename_i hout
        show f.find? file = none ↔ _
        rw [Option.isNone_iff_eq_none] at hout
        simp [hnode, hout]
      · rename_i hin
        show (trimAll _ _ _ f).2.2.find? file = none ↔ _
        have hin : (Timestamp.ofMicros? (limit now hours)).isSome = true :=
          Option.isSome_iff_ne_none.2 (by simpa using hin)
        rw [find?_trimAll, hnode, ← overdue_listFolder hnode]
        by_cases hfile : Overdue (limit now hours) (listFolder f) file
        · simp [hfile, hzero, hin, Option.filter]
        · simp [hfile]

/-! ## Names that are taken for those of segments -/

/-- Whether the name of a file is taken for that of a segment, whether it is the name that the
segment is given, which no other one is then, and whether the file is thrown away: with old segments
go all files that bear an old name, however it is spelled. -/
theorem taken_for_segments (h : History) (hours : Nat) (now : Int) (file : String) :
    (∀ n, SegmentName.parse? file = some n ↔
      ∃ w : SegmentName.Spelling, w.text = file ∧ w.Tells n) ∧
    (∀ (w : SegmentName.Spelling) n, w.text = file → w.Tells n → (file = n.text ↔ w.Full)) ∧
    (∀ (w w' : SegmentName.Spelling) n, w.text = file → w.Tells n → w.Full → w'.Tells n →
      (w'.text = file ↔ w'.Full)) ∧
    ∀ node, h.find? file = some node →
      ((h.trim hours now).2.2.find? file = none ↔
        hours ≠ 0 ∧ (Timestamp.ofMicros? (limit now hours)).isSome = true ∧ node ≠ .folder ∧
          ∃ (w : SegmentName.Spelling) (n : SegmentName), w.text = file ∧ w.Tells n ∧
            n.written.before (limit now hours) = true) := by
  refine ⟨fun n => SegmentName.Spelling.parse?_eq_some_iff, ?_, ?_, fun node hnode => ?_⟩
  · rintro w n rfl hw
    exact SegmentName.Spelling.text_eq_iff hw
  · rintro w w' n rfl hw hfull hw'
    rw [(SegmentName.Spelling.text_eq_iff hw).2 hfull]
    exact SegmentName.Spelling.text_eq_iff hw'
  · simp only [find?_trim hours now hnode, SegmentName.Spelling.parse?_eq_some_iff]
    refine and_congr_right fun _ => and_congr_right fun _ => and_congr_right fun _ => ?_
    constructor
    · rintro ⟨n, ⟨w, hw, htells⟩, hbefore⟩
      exact ⟨w, n, hw, htells, hbefore⟩
    · rintro ⟨w, n, hw, htells, hbefore⟩
      exact ⟨n, ⟨w, hw, htells⟩, hbefore⟩

/-- A segment and notes, one with each number filled up and the other without zeros: both names are
taken for that of the segment, and only the first one is its name. -/
theorem taken_for_segments_alike :
    ∃ (w w' : SegmentName.Spelling) (n : SegmentName),
      w.text = "smgrstat_2026-01-09_01-02-03_b12.zst" ∧ w.Tells n ∧ w.Full ∧
        w'.text = "smgrstat_2026-1-9_1-2-3_b12.zst" ∧ w'.Tells n ∧ ¬ w'.Full := by
  let n : SegmentName := ⟨.bucket, ⟨1767920523, false⟩, 12⟩
  obtain ⟨hsegment, hname, halike, -⟩ :=
    taken_for_segments { base := "" } 1 0 "smgrstat_2026-01-09_01-02-03_b12.zst"
  obtain ⟨hnotes, -⟩ := taken_for_segments { base := "" } 1 0 "smgrstat_2026-1-9_1-2-3_b12.zst"
  obtain ⟨w, hw, htells⟩ := (hsegment n).1 (by decide)
  obtain ⟨w', hw', htells'⟩ := (hnotes n).1 (by decide)
  have hfull : w.Full := (hname w n hw htells).1 (by decide)
  have hsame := halike w w' n hw htells hfull htells'
  rw [hw'] at hsame
  refine ⟨w, w', n, hw, htells, hfull, hw', htells', fun hfull' => ?_⟩
  exact absurd (hsame.2 hfull') (by decide)

/-- Notes with one digit for a month, a day, an hour, a minute and a second are taken for a segment,
the same as one that has another name, and are thrown away an hour and a bit later. -/
theorem notes_taken_for_segment :
    let file := "smgrstat_2026-1-9_1-2-3_b12.zst"
    let n : SegmentName := ⟨.bucket, ⟨1767920523, false⟩, 12⟩
    let h : History := { base := "", folder := some (({} : Folder).put file (.file [])) }
    SegmentName.parse? file = some n ∧ n.text = "smgrstat_2026-01-09_01-02-03_b12.zst" ∧
      n.text ≠ file ∧ SegmentName.parse? n.text = some n ∧ h.find? file = some (.file []) ∧
        (h.trim 1 1767924124000000).2.2.find? file = none := by
  intro file n h
  have hparse : SegmentName.parse? file = some n := by decide
  have htext : n.text = "smgrstat_2026-01-09_01-02-03_b12.zst" := by decide
  have hnotes : h.find? file = some (.file []) := by
    show (({} : Folder).put file (.file [])).find? file = _
    rw [Folder.find?_put, if_pos rfl]
  refine ⟨hparse, htext, by decide, by decide, hnotes, ?_⟩
  exact (find?_trim 1 1767924124000000 hnotes).2
    ⟨by decide, by decide, by decide, n, hparse, by decide⟩

end History

end BlockLedger
