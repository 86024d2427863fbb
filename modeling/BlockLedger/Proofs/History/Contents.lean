import BlockLedger.History
import BlockLedger.Proofs.Segment.Naming
import BlockLedger.Proofs.Segment.RoundTrip
import Mathlib.Data.List.Nodup

/-
# What is in history

A folder that nothing else is put into holds the segments of some records and nothing else.  Storing
another record adds its segment, whole, and trimming takes away those that have been written too
long ago.  A listing gives the records back by their names, and every segment is read back as the
record that was stored, however its bytes have been compressed, if they can be expanded again.
-/

namespace BlockLedger

/-! ## Files -/

namespace Folder

variable {f : Folder} {name file : String} {n : Node}

theorem find?_put :
    (f.put name n).find? file = if name = file then some n else f.find? file := by
  simp [put, find?, Std.HashMap.getElem?_insert]

theorem find?_erase : (f.erase name).find? file = if name = file then none else f.find? file := by
  simp [erase, find?, Std.HashMap.getElem?_erase]

theorem mem_names : file ∈ f.names ↔ (f.find? file).isSome = true := by
  simp [names, find?]

theorem names_nodup : f.names.Nodup := by
  rw [names, (List.mergeSort_perm ..).nodup_iff]
  exact Std.HashMap.nodup_keys

/-- A file is written under a name that nothing is left of. -/
theorem run_write {draft target : String} (hdraft : f.find? draft = none)
    (htarget : f.find? target = none) (hne : draft ≠ target) (head rest : List UInt8) :
    ∃ f', f.run [.create draft, .append draft head, .append draft rest, .sync draft,
        .rename draft target] = (none, f') ∧
      ∀ file, f'.find? file =
        if target = file then some (.file (head ++ rest)) else f.find? file := by
  refine ⟨((((f.put draft (.file [])).put draft (.file head)).put draft
    (.file (head ++ rest))).erase draft).put target (.file (head ++ rest)), ?_, fun file => ?_⟩
  · simp [run, apply, read, find?_put, hdraft, htarget, hne, bind, Except.bind, pure, Except.pure]
  · simp only [find?_put, find?_erase]
    by_cases hfile : draft = file
    · subst file
      simp [hdraft]
    · simp [hfile]

/-- A folder holds the segments of some records, compressed in one way, and nothing else. -/
structure Holds (f : Folder) (compress : List UInt8 → List UInt8) (rs : List SegmentRecord) :
    Prop where
  files : ∀ r ∈ rs, f.find? r.name.text = some (.file (SegmentFile.writeWith compress r))
  only : ∀ file, (f.find? file).isSome = true → ∃ r ∈ rs, r.name.text = file

end Folder

namespace History

/-- A segment never bears the name of a file that is being written. -/
theorem draftName_ne_text (n n' : SegmentName) : draftName n ≠ n'.text := by
  intro h
  have hdraft : (draftName n).toList.getLast? = some 'p' := by
    rw [draftName, String.toList_append, List.getLast?_append]
    rfl
  have htext : n'.text.toList.getLast? = some 't' := by
    rw [SegmentName.text, String.toList_append, List.getLast?_append]
    rfl
  rw [h, htext] at hdraft
  cases hdraft

/-- History compresses in some way, and holds the segments of some records and nothing else. -/
structure Keeps (h : History) (compress : List UInt8 → List UInt8) (rs : List SegmentRecord) :
    Prop where
  encoder : h.compress = compress
  folder : ∃ f, h.folder = some f ∧ f.Holds compress rs

variable {h : History} {compress : List UInt8 → List UInt8} {rs : List SegmentRecord}

/-- A record is stored beside those that are there, if none of them has its name. -/
theorem Keeps.store (hkeeps : h.Keeps compress rs) {r : SegmentRecord}
    (hfresh : ∀ r' ∈ rs, r'.name.text ≠ r.name.text) :
    (h.store r).1 = none ∧ (h.store r).2.2.Keeps compress (rs ++ [r]) := by
  obtain ⟨rfl, f, hfolder, hholds⟩ := hkeeps
  -- whatever is not the segment of one of the records is not there, so no draft is left either
  have habsent : ∀ file, (∀ r' ∈ rs, r'.name.text ≠ file) → f.find? file = none := by
    intro file hfile
    cases hfind : f.find? file with
    | none => rfl
    | some n =>
      obtain ⟨r', hr', htext⟩ := hholds.only file (by rw [hfind]; rfl)
      exact absurd htext (hfile r' hr')
  have hdraft : f.find? (draftName r.name) = none :=
    habsent _ fun r' _ => (draftName_ne_text r.name r'.name).symm
  obtain ⟨f', hrun, hfind⟩ := Folder.run_write hdraft (habsent _ hfresh)
    (draftName_ne_text r.name r.name) (SegmentFile.header r.kind (h.compress r.bytes))
    (h.compress r.bytes)
  have hsteps : f.run (writeSteps h.compress r) = (none, f') := hrun
  unfold History.store
  rw [hfolder]
  simp only [hsteps]
  refine ⟨trivial, rfl, f', rfl, fun r' hr' => ?_, fun file hfile => ?_⟩
  · rw [hfind]
    rcases List.mem_append.mp hr' with hr' | hr'
    · rw [if_neg (hfresh r' hr').symm]
      exact hholds.files r' hr'
    · obtain rfl := List.mem_singleton.mp hr'
      rw [if_pos rfl]
      rfl
  · rw [hfind] at hfile
    split at hfile
    · exact ⟨r, by simp, ‹_›⟩
    · obtain ⟨r', hr', htext⟩ := hholds.only file hfile
      exact ⟨r', List.mem_append_left _ hr', htext⟩

end History

/-! ## Listings -/

namespace SegmentRecord

theorem written_eq {r : SegmentRecord} (h : (Timestamp.ofMicros? r.collectedAt).isSome = true) :
    r.name.written.Plain ∧ r.name.written.seconds = r.collectedAt.fdiv 1000000 := by
  obtain ⟨t, ht⟩ := Option.isSome_iff_exists.mp h
  have hname : r.name.written = t := by
    rw [name, SegmentName.ofRecord, ht]
    rfl
  rw [hname]
  exact Timestamp.plain_of_ofMicros? ht

/-- A record comes before another in history: it was collected no later, and it belongs to an
earlier bucket, or to the same and has the entries. -/
def Precedes (r r' : SegmentRecord) : Prop :=
  r.collectedAt ≤ r'.collectedAt ∧
    (r.number < r'.number ∨ r.number = r'.number ∧ r.kind.code < r'.kind.code)

theorem Precedes.name {r r' : SegmentRecord} (h : r.Precedes r')
    (hr : (Timestamp.ofMicros? r.collectedAt).isSome = true)
    (hr' : (Timestamp.ofMicros? r'.collectedAt).isSome = true) :
    r.name.le r'.name = true ∧ r.name ≠ r'.name := by
  obtain ⟨⟨hleap, -⟩, hseconds⟩ := written_eq hr
  obtain ⟨⟨hleap', -⟩, hseconds'⟩ := written_eq hr'
  obtain ⟨htime, hnumber⟩ := h
  have hfdiv := Int.fdiv_eq_ediv_of_nonneg r.collectedAt (by decide : (0 : Int) ≤ 1000000)
  have hfdiv' := Int.fdiv_eq_ediv_of_nonneg r'.collectedAt (by decide : (0 : Int) ≤ 1000000)
  have hrank : r.name.written.rank ≤ r'.name.written.rank := by
    simp only [Timestamp.rank, hleap, hleap', hseconds, hseconds']
    omega
  have hrises : r.name.bucket < r'.name.bucket ∨
      r.name.bucket = r'.name.bucket ∧ r.name.kind.code < r'.name.kind.code := hnumber
  refine ⟨(SegmentName.le_iff ..).mpr (by omega), fun hname => ?_⟩
  rw [hname] at hrises
  omega

end SegmentRecord

/-- Records in the order of history, in which every record can be told by its name. -/
structure Chronicle (rs : List SegmentRecord) : Prop where
  calendar : ∀ r ∈ rs, (Timestamp.ofMicros? r.collectedAt).isSome = true
  number : ∀ r ∈ rs, r.number < 2 ^ 64
  order : rs.Pairwise SegmentRecord.Precedes

namespace Chronicle

variable {rs rs' : List SegmentRecord}

theorem sublist (h : Chronicle rs) (hsub : rs'.Sublist rs) : Chronicle rs' :=
  ⟨fun r hr => h.calendar r (hsub.subset hr), fun r hr => h.number r (hsub.subset hr),
    h.order.sublist hsub⟩

theorem readable (h : Chronicle rs) {r : SegmentRecord} (hr : r ∈ rs) : r.name.Readable :=
  ⟨(SegmentRecord.written_eq (h.calendar r hr)).1, h.number r hr⟩

/-- The names rise. -/
theorem names (h : Chronicle rs) :
    rs.Pairwise fun r r' => r.name.le r'.name = true ∧ r.name ≠ r'.name :=
  h.order.imp_of_mem fun hr hr' hprecedes =>
    hprecedes.name (h.calendar _ hr) (h.calendar _ hr')

/-- The last record is stored under a name of its own. -/
theorem fresh {r : SegmentRecord} (h : Chronicle (rs ++ [r])) :
    ∀ r' ∈ rs, r'.name.text ≠ r.name.text := by
  intro r' hr' htext
  have hnames := (List.pairwise_append.mp h.names).2.2 r' hr' r (by simp)
  exact hnames.2
    (SegmentName.eq_of_text_eq (h.readable (by simp [hr'])) (h.readable (by simp)) htext)

/-- No two records are stored under one name. -/
theorem nodup (h : Chronicle rs) : (rs.map fun r => r.name.text).Nodup := by
  refine List.pairwise_map.mpr (List.Pairwise.imp_of_mem ?_ h.names)
  rintro r r' hr hr' ⟨-, hne⟩ htext
  exact hne (SegmentName.eq_of_text_eq (h.readable hr) (h.readable hr') htext)

end Chronicle

/-- The segment of a record in a listing. -/
def SegmentRecord.listed (compress : List UInt8 → List UInt8) (r : SegmentRecord) :
    ListedSegment where
  file := r.name.text
  name := r.name
  size := (SegmentFile.writeWith compress r).length

namespace Folder

variable {f : Folder} {compress : List UInt8 → List UInt8} {rs : List SegmentRecord}

theorem Holds.names_perm (hf : f.Holds compress rs) (hrs : Chronicle rs) :
    f.names.Perm (rs.map fun r => r.name.text) := by
  refine (List.perm_ext_iff_of_nodup names_nodup hrs.nodup).mpr fun file => ?_
  rw [mem_names, List.mem_map]
  constructor
  · exact hf.only file
  · rintro ⟨r, hr, rfl⟩
    rw [hf.files r hr]
    rfl

/-- The segment that a file is, if it is one. -/
def segment? (f : Folder) (file : String) : Option ListedSegment := do
  let name ← SegmentName.parse? file
  let node ← f.find? file
  return { file, name, size := node.size }

theorem Holds.segments (hf : f.Holds compress rs) (hrs : Chronicle rs) :
    (rs.map fun r => r.name.text).filterMap f.segment? =
      rs.map (SegmentRecord.listed compress) := by
  rw [List.filterMap_map, ← List.filterMap_eq_map]
  refine List.filterMap_congr fun r hr => ?_
  simp only [Function.comp_apply, segment?, SegmentName.parse?_text (hrs.readable hr),
    hf.files r hr]
  rfl

theorem Holds.listFolder (hf : f.Holds compress rs) (hrs : Chronicle rs) :
    History.listFolder f = rs.map (SegmentRecord.listed compress) := by
  have hperm : (History.listFolder f).Perm (rs.map (SegmentRecord.listed compress)) := by
    rw [← hf.segments hrs]
    exact (List.mergeSort_perm ..).trans ((hf.names_perm hrs).filterMap _)
  have hsorted : (History.listFolder f).Pairwise fun a b => a.name.le b.name = true := by
    refine List.pairwise_mergeSort ?_ ?_ _
    · exact fun _ _ _ => SegmentName.le_trans
    · exact fun a b => by simpa using SegmentName.le_total a.name b.name
  -- both are in the order of names, and no two records have one name
  refine List.Perm.eq_of_pairwise ?_ hsorted (List.pairwise_map.mpr (hrs.names.imp fun h => h.1))
    hperm
  rintro a b ha hb hab hba
  obtain ⟨r, hr, rfl⟩ := List.mem_map.mp (hperm.mem_iff.mp ha)
  obtain ⟨r', hr', rfl⟩ := List.mem_map.mp hb
  have hname : r.name = r'.name := SegmentName.le_antisymm hab hba
  rw [List.inj_on_of_nodup_map hrs.nodup hr hr' (congrArg SegmentName.text hname)]

/-- One segment is taken away. -/
theorem Holds.remove {us rest : List SegmentRecord} {r : SegmentRecord}
    (hf : f.Holds compress (us ++ r :: rest)) (hrs : Chronicle (us ++ r :: rest)) :
    f.remove r.name.text = .ok (f.erase r.name.text) ∧
      (f.erase r.name.text).Holds compress (us ++ rest) := by
  have hother : ∀ r' ∈ us ++ rest, r.name.text ≠ r'.name.text := by
    intro r' hr' htext
    have hnodup := hrs.nodup
    rw [List.map_append, List.map_cons, List.nodup_middle, ← List.map_append] at hnodup
    exact (List.nodup_cons.mp hnodup).1 (htext ▸ List.mem_map_of_mem hr')
  have hmem : ∀ r', r' ∈ us ++ r :: rest ↔ r' = r ∨ r' ∈ us ++ rest := by
    intro r'
    simp only [List.mem_append, List.mem_cons]
    exact or_left_comm
  refine ⟨?_, fun r' hr' => ?_, fun file hfile => ?_⟩
  · rw [Folder.remove, hf.files r ((hmem r).mpr (.inl rfl))]
  · rw [find?_erase, if_neg (hother r' hr')]
    exact hf.files r' ((hmem r').mpr (.inr hr'))
  · rw [find?_erase] at hfile
    split at hfile
    · cases hfile
    · rename_i hne
      obtain ⟨r', hr', htext⟩ := hf.only file hfile
      rcases (hmem r').mp hr' with rfl | hr'
      · exact absurd htext hne
      · exact ⟨r', hr', htext⟩

end Folder

namespace History

variable {h : History} {compress : List UInt8 → List UInt8} {rs : List SegmentRecord}

theorem Keeps.list (hkeeps : h.Keeps compress rs) (hrs : Chronicle rs) :
    h.list = .ok (rs.map (SegmentRecord.listed compress)) := by
  obtain ⟨-, f, hfolder, hholds⟩ := hkeeps
  rw [History.list, hfolder]
  exact congrArg Except.ok (hholds.listFolder hrs)

/-- A record is read back as it was stored. -/
theorem Keeps.read (hkeeps : h.Keeps compress rs) {r : SegmentRecord} (hr : r ∈ rs)
    (hfits : r.Fits) (hexpand : Zstd.expand (compress r.bytes) = .ok r.bytes)
    (hlength : (compress r.bytes).length < 2 ^ 64) :
    h.read r.name.text r.kind = (.ok r, []) := by
  obtain ⟨-, f, hfolder, hholds⟩ := hkeeps
  have hread : f.read r.name.text = .ok (SegmentFile.writeWith compress r) := by
    rw [Folder.read, hholds.files r hr]
  rw [History.read, hfolder]
  simp only [hread]
  exact SegmentFile.read_same hfits _ hexpand hlength

/-! ## Trimming -/

/-- Whether a record was collected, by whole seconds, more than a number of hours before a time.
With 0 hours none was. -/
def outdated (hours : Nat) (now : Int) (r : SegmentRecord) : Bool :=
  hours ≠ 0 && r.collectedAt.fdiv 1000000 * 1000000 < now - 3600000000 * hours

theorem outdated_iff (hours : Nat) (now : Int) (r : SegmentRecord) :
    outdated hours now r = true ↔
      hours ≠ 0 ∧ r.collectedAt.fdiv 1000000 * 1000000 < now - 3600000000 * hours := by
  simp [outdated]

/-- Trimming goes by the time in the name. -/
theorem before_limit {hours : Nat} (hhours : hours ≠ 0) (now : Int) {r : SegmentRecord}
    (h : (Timestamp.ofMicros? r.collectedAt).isSome = true) :
    r.name.written.before (limit now hours) = outdated hours now r := by
  obtain ⟨⟨hleap, -⟩, hseconds⟩ := SegmentRecord.written_eq h
  have hfdiv := Int.fdiv_eq_ediv_of_nonneg (limit now hours) (by decide : (0 : Int) ≤ 1000000)
  have hfmod := Int.fmod_eq_emod_of_nonneg (limit now hours) (by decide : (0 : Int) ≤ 1000000)
  rw [Bool.eq_iff_iff, outdated_iff, ← hseconds]
  simp only [Timestamp.before, hleap, Bool.or_eq_true, Bool.and_eq_true, decide_eq_true_eq,
    beq_iff_eq, Bool.not_false, and_true]
  unfold limit at *
  omega

/-- What is outdated stays so. -/
theorem outdated_mono {hours : Nat} {now now' : Int} (hnow : now ≤ now') {r : SegmentRecord}
    (h : outdated hours now r = true) : outdated hours now' r = true := by
  rw [outdated_iff] at h ⊢
  omega

/-- To look for what is outdated once more is to look for it at the later time. -/
theorem filter_outdated {hours : Nat} {now now' : Int} (hnow : now ≤ now')
    (rs : List SegmentRecord) :
    (rs.filter fun r => !outdated hours now r).filter (fun r => !outdated hours now' r) =
      rs.filter fun r => !outdated hours now' r := by
  rw [List.filter_filter]
  refine List.filter_congr fun r _ => ?_
  cases hold : outdated hours now r with
  | true => simp [outdated_mono hnow hold]
  | false => simp

/-- A record that has just been collected is not outdated. -/
theorem not_outdated_now (hours : Nat) (r : SegmentRecord) :
    outdated hours r.collectedAt r = false := by
  have hfdiv := Int.fdiv_eq_ediv_of_nonneg r.collectedAt (by decide : (0 : Int) ≤ 1000000)
  rw [Bool.eq_false_iff, ne_eq, outdated_iff]
  omega

theorem trimAll_holds (path : String → String) {hours : Nat} (hhours : hours ≠ 0) (now : Int)
    (us : List SegmentRecord) {rs : List SegmentRecord} {f : Folder}
    (hf : f.Holds compress (us ++ rs)) (hrs : Chronicle (us ++ rs)) :
    (trimAll path (limit now hours) (rs.map (SegmentRecord.listed compress)) f).2.2.Holds compress
      (us ++ rs.filter fun r => !outdated hours now r) := by
  -- `us` are the segments that have been looked at and stay
  induction rs generalizing us f with
  | nil => exact hf
  | cons r rest ih =>
    have hbefore : (r.listed compress).name.written.before (limit now hours) =
        outdated hours now r :=
      before_limit hhours now (hrs.calendar r (by simp))
    rw [List.map_cons, trimAll, hbefore]
    cases hold : outdated hours now r with
    | true =>
      obtain ⟨hremove, hholds⟩ := hf.remove hrs
      have hfile : f.remove (r.listed compress).file = .ok (f.erase r.name.text) := hremove
      have hsub : (us ++ rest).Sublist (us ++ r :: rest) :=
        (List.sublist_cons_self r rest).append_left us
      rw [if_pos rfl, hfile, List.filter_cons_of_neg (by simp [hold])]
      exact ih us hholds (hrs.sublist hsub)
    | false =>
      have hsplit : ∀ vs, us ++ r :: vs = (us ++ [r]) ++ vs := by simp
      rw [if_neg (by simp), List.filter_cons_of_pos (by simp [hold]), hsplit]
      rw [hsplit] at hf hrs
      exact ih (us ++ [r]) hf hrs

/-- Trimming takes away what is outdated, and nothing else. -/
theorem Keeps.trim (hkeeps : h.Keeps compress rs) (hrs : Chronicle rs) (hours : Nat) (now : Int)
    (hlimit : hours = 0 ∨ (Timestamp.ofMicros? (limit now hours)).isSome = true) :
    (∃ t, (h.trim hours now).1 = .done t) ∧
      (h.trim hours now).2.2.Keeps compress (rs.filter fun r => !outdated hours now r) := by
  obtain ⟨hcompress, f, hfolder, hholds⟩ := hkeeps
  unfold History.trim
  rw [hfolder]
  dsimp only
  by_cases hzero : hours = 0
  · have hall : rs.filter (fun r => !outdated hours now r) = rs := by
      simp [outdated, hzero]
    rw [if_pos hzero, hall]
    exact ⟨⟨_, rfl⟩, hcompress, f, hfolder, hholds⟩
  · have hsome := Option.isSome_iff_ne_none.mp (hlimit.resolve_left hzero)
    have htrim := trimAll_holds h.path hzero now [] hholds hrs
    rw [if_neg hzero, if_neg (by simpa using hsome), hholds.listFolder hrs]
    rcases htrimmed : trimAll h.path (limit now hours) (rs.map (SegmentRecord.listed compress)) f
      with ⟨t, events, f'⟩
    rw [htrimmed] at htrim
    exact ⟨⟨t, rfl⟩, hcompress, f', rfl, htrim⟩

end History

end BlockLedger
