import BlockLedger.Proofs.History.Contents

/-
# Writes that are cut short

A segment is written under the name of a draft and renamed at the end.  A write may end at any point:
the program may be stopped or get an error in the middle of a step, of which nothing, all or some of
the bytes are left then, and a crash of the whole machine may take away what was written to the draft
or put anything else in its place.  Only the last step touches a name that a segment could bear, and
a draft never bears one.  So the segments are as they were, or the new one is there in full; and
opening history takes the draft away without coming near a segment.
-/

namespace BlockLedger

namespace Folder

/-! ## Steps that are cut short -/

/-- What may be left of a step. -/
inductive Begun (f : Folder) : Step → Folder → Prop
  | untouched (step : Step) : Begun f step f
  | done {step : Step} {g : Folder} (h : f.apply step = .ok g) : Begun f step g
  /-- Only the first bytes have been added. -/
  | part {name : String} {before : List UInt8} (bytes : List UInt8) (n : Nat)
      (h : f.read name = .ok before) :
      Begun f (.append name bytes) (f.put name (.file (before ++ bytes.take n)))

/-- What may be left of steps that were to be carried out one after the other. -/
inductive Cut : Folder → List Step → Folder → Prop
  | stopped (f : Folder) (steps : List Step) : Cut f steps f
  | within {f g : Folder} {step : Step} (rest : List Step) (h : f.Begun step g) :
      Cut f (step :: rest) g
  | later {f f' g : Folder} {step : Step} {rest : List Step} (h : f.apply step = .ok f')
      (hg : Cut f' rest g) : Cut f (step :: rest) g

/-- Steps that run to their end or to an error leave what may be left of them. -/
theorem cut_run (f : Folder) (steps : List Step) : f.Cut steps (f.run steps).2 := by
  induction steps generalizing f with
  | nil => exact .stopped f []
  | cons step rest ih =>
    rw [run]
    split
    · exact .later ‹_› (ih _)
    · exact .stopped f _

/-- What every step preserves, cut short or not, is preserved by all of them. -/
theorem Cut.preserves {steps : List Step} {P : Folder → Prop} {f g : Folder} (h : f.Cut steps g)
    (hP : ∀ step ∈ steps, ∀ f g, f.Begun step g → P f → P g) (hf : P f) : P g := by
  induction h with
  | stopped => exact hf
  | within rest h => exact hP _ (by simp) _ _ h hf
  | later h _ ih =>
    exact ih (fun step hstep => hP step (List.mem_cons_of_mem _ hstep))
      (hP _ (by simp) _ _ (.done h) hf)

/-- Either the last step has not been reached, or all others have been carried out. -/
theorem Cut.of_concat {steps : List Step} {last : Step} {f g : Folder}
    (h : f.Cut (steps ++ [last]) g) :
    f.Cut steps g ∨ ∃ f', f.run steps = (none, f') ∧ f'.Begun last g := by
  induction steps generalizing f with
  | nil =>
    cases h with
    | stopped => exact .inl (.stopped _ _)
    | within _ h => exact .inr ⟨_, rfl, h⟩
    | later h hg =>
      cases hg
      exact .inr ⟨_, rfl, .done h⟩
  | cons step rest ih =>
    cases h with
    | stopped => exact .inl (.stopped _ _)
    | within _ h => exact .inl (.within rest h)
    | later h hg =>
      rcases ih hg with hg | ⟨f', hrun, hlast⟩
      · exact .inl (.later h hg)
      · exact .inr ⟨f', by simp only [run, h, hrun], hlast⟩

/-- The names that a step is about. -/
def Step.names : Step → List String
  | .create name | .append name _ | .sync name => [name]
  | .rename source target => [source, target]

theorem read_eq_ok_iff {f : Folder} {name : String} {bytes : List UInt8} :
    f.read name = .ok bytes ↔ f.find? name = some (.file bytes) := by
  unfold read
  split <;> simp_all

theorem rename_eq_ok {f g : Folder} {source target : String}
    (h : f.apply (.rename source target) = .ok g) :
    ∃ bytes, f.find? source = some (.file bytes) ∧ f.find? target ≠ some .folder ∧
      g = (f.erase source).put target (.file bytes) := by
  cases hread : f.read source with
  | error e =>
    rw [apply, hread] at h
    cases h
  | ok bytes =>
    simp only [apply, hread, bind, Except.bind] at h
    split at h
    · cases h
    · exact ⟨bytes, read_eq_ok_iff.mp hread, by simpa using ‹_›, (Except.ok.inj h).symm⟩

/-- What can be left of a step is that something was put under its first name, or that it was
carried out as a renaming. -/
theorem Begun.cases {f g : Folder} {step : Step} (h : f.Begun step g) :
    g = f ∨
    (∃ name bytes, name ∈ step.names ∧ f.find? name ≠ some .folder ∧ g = f.put name (.file bytes)) ∨
    ∃ source target bytes, step = .rename source target ∧ f.find? source = some (.file bytes) ∧
      f.find? target ≠ some .folder ∧ g = (f.erase source).put target (.file bytes) := by
  cases h with
  | untouched => exact .inl rfl
  | part bytes n h =>
    refine .inr (.inl ⟨_, _, by simp [Step.names], ?_, rfl⟩)
    rw [read_eq_ok_iff.mp h]
    nofun
  | done h =>
    cases step with
    | create name =>
      simp only [apply] at h
      split at h
      · cases h
      · obtain rfl := Except.ok.inj h
        exact .inr (.inl ⟨name, [], by simp [Step.names], by simpa using ‹_›, rfl⟩)
    | append name bytes =>
      cases hread : f.read name with
      | error e =>
        rw [apply, hread] at h
        cases h
      | ok before =>
        rw [apply, hread] at h
        obtain rfl := Except.ok.inj h
        refine .inr (.inl ⟨name, before ++ bytes, by simp [Step.names], ?_, rfl⟩)
        rw [read_eq_ok_iff.mp hread]
        nofun
    | sync name =>
      cases hread : f.read name with
      | error e =>
        rw [apply, hread] at h
        cases h
      | ok before =>
        rw [apply, hread] at h
        exact .inl (Except.ok.inj h).symm
    | rename source target =>
      obtain ⟨bytes, hsource, htarget, rfl⟩ := rename_eq_ok h
      exact .inr (.inr ⟨source, target, bytes, rfl, hsource, htarget, rfl⟩)

/-- What a step is not about stays as it is. -/
theorem Begun.find?_eq {f g : Folder} {step : Step} (h : f.Begun step g) {file : String}
    (hfile : file ∉ step.names) : g.find? file = f.find? file := by
  rcases h.cases with rfl | ⟨name, bytes, hname, -, rfl⟩ | ⟨source, target, bytes, rfl, -, -, rfl⟩
  · rfl
  · rw [find?_put, if_neg (ne_of_mem_of_not_mem hname hfile)]
  · obtain ⟨hsource, htarget⟩ : file ≠ source ∧ file ≠ target := by
      simpa [Step.names] using hfile
    rw [find?_put, if_neg htarget.symm, find?_erase, if_neg hsource.symm]

/-- No step ever touches a folder. -/
theorem Begun.find?_folder {f g : Folder} {step : Step} (h : f.Begun step g) {file : String}
    (hfile : f.find? file = some .folder) : g.find? file = some .folder := by
  rcases h.cases with rfl | ⟨name, bytes, -, hname, rfl⟩ |
    ⟨source, target, bytes, -, hsource, htarget, rfl⟩
  · exact hfile
  · rw [find?_put, if_neg (by rintro rfl; exact hname hfile), hfile]
  · have hne : source ≠ file := by
      rintro rfl
      rw [hfile] at hsource
      cases hsource
    rw [find?_put, if_neg (by rintro rfl; exact htarget hfile), find?_erase, if_neg hne, hfile]

theorem Cut.find?_eq {f g : Folder} {steps : List Step} (h : f.Cut steps g) {file : String}
    (hfile : ∀ step ∈ steps, file ∉ step.names) : g.find? file = f.find? file :=
  h.preserves (P := fun g => g.find? file = f.find? file)
    (fun step hstep _ _ hbegun hP => (hbegun.find?_eq (hfile step hstep)).trans hP) rfl

theorem Cut.find?_folder {f g : Folder} {steps : List Step} (h : f.Cut steps g) {file : String}
    (hfile : f.find? file = some .folder) : g.find? file = some .folder :=
  h.preserves (fun _ _ _ _ hbegun hP => hbegun.find?_folder hP) hfile

/-- The steps before the renaming leave a draft with all bytes in it. -/
theorem find?_draft {f f' : Folder} {draft : String} {head rest : List UInt8}
    (h : f.run [.create draft, .append draft head, .append draft rest, .sync draft] = (none, f')) :
    f'.find? draft = some (.file (head ++ rest)) := by
  by_cases hdraft : f.find? draft = some .folder
  · simp [run, apply, hdraft] at h
  · simp [run, apply, read, find?_put, bind, Except.bind, pure, Except.pure] at h
    subst h
    simp [find?_put]

/-- A crash of the machine has come to a folder in which one file was being written. -/
structure Spoiled (name : String) (f g : Folder) : Prop where
  others : ∀ file, file ≠ name → g.find? file = f.find? file
  folder : f.find? name = some .folder ↔ g.find? name = some .folder

/-! ## Names in order -/

theorem names_pairwise (f : Folder) : f.names.Pairwise fun a b => a ≤ b := by
  have hle : ∀ a b : String, (!decide (b < a)) = true ↔ a ≤ b := fun a b => by
    rw [Bool.not_eq_true', decide_eq_false_iff_not]
    exact String.not_lt
  have hsorted : f.names.Pairwise fun a b => (!decide (b < a)) = true := by
    refine List.pairwise_mergeSort (fun a b c hab hbc => ?_) (fun a b => ?_) _
    · exact (hle a c).mpr (String.le_trans ((hle a b).mp hab) ((hle b c).mp hbc))
    · rw [Bool.or_eq_true, hle, hle]
      exact String.le_total a b
  exact hsorted.imp fun h => (hle _ _).mp h

/-- Two folders have the names of some sort in common if the one has each of them just if the other
has it. -/
theorem names_filter_congr {f g : Folder} {p : String → Bool}
    (h : ∀ file, p file = true → ((g.find? file).isSome ↔ (f.find? file).isSome)) :
    g.names.filter p = f.names.filter p := by
  refine List.Perm.eq_of_pairwise (fun a b _ _ => String.le_antisymm)
    (g.names_pairwise.filter p) (f.names_pairwise.filter p) ?_
  rw [List.perm_ext_iff_of_nodup (names_nodup.filter p) (names_nodup.filter p)]
  intro file
  rw [List.mem_filter, List.mem_filter, mem_names, mem_names]
  exact and_congr_left (h file)

end Folder

namespace History

open Folder

/-! ## Drafts -/

theorem isDraft_iff {file : String} :
    isDraft file = true ↔ draftSuffix.toList <:+ file.toList ∧ file ≠ draftSuffix := by
  have hends : file.endsWith draftSuffix = true ↔ draftSuffix.toList <:+ file.toList := by
    rw [String.endsWith_eq_endsWith_toSlice, String.Slice.endsWith_string_iff, String.copy_toSlice]
  rw [isDraft, Bool.and_eq_true, hends, bne_iff_ne]

theorem isDraft_draftName (n : SegmentName) : isDraft (draftName n) = true := by
  have htext : (draftName n).toList =
      (n.kind.lead ++ n.written.fileText ++ "_b" ++ toString n.bucket).toList ++
        draftSuffix.toList := String.toList_append ..
  refine isDraft_iff.mpr ⟨?_, fun h => ?_⟩
  · rw [htext]
    exact List.suffix_append _ _
  · have hlength := congrArg (fun s => s.toList.length) h
    simp only [htext, List.length_append, String.toList_append] at hlength
    have hlead : 0 < n.kind.lead.toList.length := by
      cases n.kind <;> decide
    omega

end History

namespace SegmentName

/-- What is read as the name of a segment ends like one. -/
theorem suffix_of_parse? {file : String} {n : SegmentName} (h : parse? file = some n) :
    suffix.toList <:+ file.toList := by
  simp only [parse?, Option.bind_eq_bind, Option.bind_eq_some_iff] at h
  obtain ⟨⟨kind, rest⟩, hkind, stem, hstem, -⟩ := h
  dsimp only at hstem
  rw [readKind_eq_some hkind, dropTail_eq_some hstem, ← List.append_assoc]
  exact List.suffix_append _ _

end SegmentName

namespace History

/-- No name is one of a draft and of a segment. -/
theorem isDraft_of_parse? {file : String} {n : SegmentName}
    (h : SegmentName.parse? file = some n) : isDraft file = false := by
  rw [Bool.eq_false_iff]
  intro hdraft
  obtain ⟨stem, hstem⟩ := SegmentName.suffix_of_parse? h
  obtain ⟨stem', hstem'⟩ := (isDraft_iff.mp hdraft).1
  -- the two endings differ in their last letter
  have hlast := congrArg List.getLast? (hstem.trans hstem'.symm)
  rw [List.getLast?_append, List.getLast?_append] at hlast
  cases hlast

theorem draftName_ne_of_parse? (n : SegmentName) {file : String} {n' : SegmentName}
    (h : SegmentName.parse? file = some n') : draftName n ≠ file := by
  rintro rfl
  have := isDraft_of_parse? h
  rw [isDraft_draftName] at this
  cases this

open Folder

/-! ## Listings -/

theorem segment?_eq_some_iff {f : Folder} {file : String} {s : ListedSegment} :
    f.segment? file = some s ↔
      s.file = file ∧ SegmentName.parse? file = some s.name ∧
        ∃ node, f.find? file = some node ∧ s.size = node.size := by
  simp only [segment?, Option.bind_eq_bind, Option.bind_eq_some_iff]
  constructor
  · rintro ⟨name, hname, node, hnode, hs⟩
    obtain rfl := Option.some.inj hs
    exact ⟨rfl, hname, node, hnode, rfl⟩
  · rintro ⟨rfl, hname, node, hnode, hsize⟩
    refine ⟨_, hname, node, hnode, ?_⟩
    rw [← hsize]
    rfl

theorem mem_listFolder {f : Folder} {s : ListedSegment} :
    s ∈ listFolder f ↔
      SegmentName.parse? s.file = some s.name ∧
        ∃ node, f.find? s.file = some node ∧ s.size = node.size := by
  have hlist : listFolder f =
      (f.names.filterMap f.segment?).mergeSort fun a b => a.name.le b.name := rfl
  rw [hlist, List.mem_mergeSort, List.mem_filterMap]
  constructor
  · rintro ⟨file, -, hs⟩
    obtain ⟨rfl, hs⟩ := segment?_eq_some_iff.mp hs
    exact hs
  · rintro ⟨hname, node, hnode, hsize⟩
    exact ⟨s.file, mem_names.mpr (by rw [hnode]; rfl),
      segment?_eq_some_iff.mpr ⟨rfl, hname, node, hnode, hsize⟩⟩

theorem listFolder_nodup (f : Folder) : (listFolder f).Nodup := by
  refine (List.mergeSort_perm ..).nodup_iff.mpr (names_nodup.filterMap ?_)
  intro a b s ha hb
  rw [← (segment?_eq_some_iff.mp ha).1, ← (segment?_eq_some_iff.mp hb).1]

theorem listFolder_pairwise (f : Folder) :
    (listFolder f).Pairwise fun a b => a.name.le b.name = true := by
  refine List.pairwise_mergeSort ?_ ?_ _
  · exact fun _ _ _ => SegmentName.le_trans
  · exact fun a b => by simpa using SegmentName.le_total a.name b.name

/-- A listing goes by what stands under the names of segments. -/
theorem listFolder_congr {f g : Folder}
    (h : ∀ file n, SegmentName.parse? file = some n → g.find? file = f.find? file) :
    listFolder g = listFolder f := by
  let p : String → Bool := fun file => (SegmentName.parse? file).isSome
  have hseg : ∀ (f : Folder) (names : List String), (names.filter p).filterMap f.segment? =
      names.filterMap f.segment? := by
    intro f names
    rw [List.filterMap_filter]
    refine List.filterMap_congr fun file _ => ?_
    cases hname : SegmentName.parse? file with
    | none => simp [p, hname, segment?]
    | some n => simp [p, hname]
  have hnames : g.names.filter p = f.names.filter p := by
    refine names_filter_congr fun file hfile => ?_
    obtain ⟨n, hn⟩ := Option.isSome_iff_exists.mp hfile
    rw [h file n hn]
  have hsegments : g.names.filterMap g.segment? = f.names.filterMap f.segment? := by
    rw [← hseg g, ← hseg f, hnames]
    refine List.filterMap_congr fun file hfile => ?_
    obtain ⟨n, hn⟩ := Option.isSome_iff_exists.mp (List.mem_filter.mp hfile).2
    simp only [segment?, h file n hn]
  exact congrArg (List.mergeSort · fun a b => a.name.le b.name) hsegments

/-! ## What a write may leave -/

/-- What may be in the folder after the write of a record that may have been cut short. -/
inductive Interrupted (compress : List UInt8 → List UInt8) (f : Folder) (r : SegmentRecord)
    (g : Folder) : Prop
  | stopped (h : f.Cut (writeSteps compress r) g)
  /-- The machine has crashed before the renaming. -/
  | crashed (g' : Folder) (h : f.Cut (writeSteps compress r).dropLast g')
      (hs : Spoiled (draftName r.name) g' g)

variable {compress : List UInt8 → List UInt8} {f g : Folder} {r : SegmentRecord}

/-- A write that runs to its end, or to an error, leaves what may be left. -/
theorem interrupted_store {h : History} (hfolder : h.folder = some f) (r : SegmentRecord) :
    ∃ g, (h.store r).2.2 = { h with folder := some g } ∧ Interrupted h.compress f r g := by
  refine ⟨(f.run (writeSteps h.compress r)).2, ?_, .stopped (cut_run f _)⟩
  rw [store, hfolder]
  dsimp only
  split <;> rename_i hrun <;> rw [hrun]

theorem find?_of_cut_dropLast (h : f.Cut (writeSteps compress r).dropLast g) {file : String}
    (hfile : file ≠ draftName r.name) : g.find? file = f.find? file := by
  refine h.find?_eq fun step hstep => ?_
  simp only [writeSteps, List.dropLast_cons_cons, List.dropLast_singleton, List.mem_cons,
    List.not_mem_nil, or_false] at hstep
  rcases hstep with rfl | rfl | rfl | rfl <;> simpa [Step.names] using hfile

/-- Nothing is changed but the draft, or the segment is there in full and the draft is gone. -/
theorem Interrupted.find?_cases (h : Interrupted compress f r g) :
    (∀ file, file ≠ draftName r.name → g.find? file = f.find? file) ∨
    ∀ file, g.find? file =
      if r.name.text = file then some (.file (SegmentFile.writeWith compress r))
      else if draftName r.name = file then none else f.find? file := by
  cases h with
  | crashed g' h hs =>
    exact .inl fun file hfile => (hs.others file hfile).trans (find?_of_cut_dropLast h hfile)
  | stopped h =>
    -- all steps but the last touch nothing but the draft
    have hsplit : writeSteps compress r =
        (writeSteps compress r).dropLast ++ [.rename (draftName r.name) r.name.text] := rfl
    rw [hsplit] at h
    rcases h.of_concat with h | ⟨f', hrun, hlast⟩
    · exact .inl fun file hfile => find?_of_cut_dropLast h hfile
    · have hkept : f.Cut (writeSteps compress r).dropLast f' := by
        have := cut_run f (writeSteps compress r).dropLast
        rwa [hrun] at this
      have hdraft := find?_draft hrun
      cases hlast with
      | untouched => exact .inl fun file hfile => find?_of_cut_dropLast hkept hfile
      | done h =>
        obtain ⟨bytes, hbytes, -, rfl⟩ := rename_eq_ok h
        have hwritten : bytes = SegmentFile.writeWith compress r :=
          Node.file.inj (Option.some.inj (hbytes.symm.trans hdraft))
        refine .inr fun file => ?_
        rw [find?_put, find?_erase, hwritten]
        by_cases hfile : draftName r.name = file
        · simp [hfile]
        · simp [hfile, find?_of_cut_dropLast hkept (Ne.symm hfile)]

/-- A file is read as before if it is as before. -/
theorem read_congr (h : History) {file : String} (hfile : g.find? file = f.find? file)
    (kind : SegmentKind) :
    ({ h with folder := some g } : History).read file kind =
      ({ h with folder := some f } : History).read file kind := by
  have hread : g.read file = f.read file := by
    rw [Folder.read, Folder.read, hfile]
  simp only [History.read, hread]
  rfl

/-- The name of a record is one that can be read back, also if the calendar does not hold its
time. -/
theorem readable_name (h : r.Fits) : r.name.Readable where
  written := by
    have hepoch : Timestamp.Plain ⟨0, false⟩ := ⟨rfl, by decide, by decide⟩
    cases htime : Timestamp.ofMicros? r.collectedAt with
    | none =>
      rw [SegmentRecord.name, SegmentName.ofRecord, htime]
      exact hepoch
    | some t => exact (SegmentRecord.written_eq (by rw [htime]; rfl)).1
  bucket := by
    cases r with
    | bucket b => exact h.bucket
    | associations a => exact h.bucket

/-- A segment that has been written is in the listing, in the place of what was there before. -/
theorem listFolder_written (hname : r.name.Readable) (hg : ∀ file, g.find? file =
      if r.name.text = file then some (.file (SegmentFile.writeWith compress r))
      else if draftName r.name = file then none else f.find? file) :
    (listFolder g).Perm
      (r.listed compress :: (listFolder f).filter fun s => s.file ≠ r.name.text) := by
  have hfresh : r.listed compress ∉ (listFolder f).filter fun s => s.file ≠ r.name.text := by
    simp [SegmentRecord.listed]
  refine (List.perm_ext_iff_of_nodup (listFolder_nodup g)
    (List.nodup_cons.mpr ⟨hfresh, (listFolder_nodup f).filter _⟩)).mpr fun s => ?_
  rw [List.mem_cons, List.mem_filter, mem_listFolder, mem_listFolder, hg]
  -- any other segment is found as before, as its name is not that of the draft
  by_cases hfile : r.name.text = s.file
  · have hparse : SegmentName.parse? s.file = some r.name := by
      rw [← hfile, SegmentName.parse?_text hname]
    obtain ⟨file, name, size⟩ := s
    obtain rfl : r.name.text = file := hfile
    rw [if_pos rfl, hparse]
    simp [SegmentRecord.listed, Node.size, eq_comm]
  · rw [if_neg hfile]
    constructor
    · rintro ⟨hparse, hnode⟩
      rw [if_neg (draftName_ne_of_parse? r.name hparse)] at hnode
      exact .inr ⟨⟨hparse, hnode⟩, decide_eq_true (Ne.symm hfile)⟩
    · rintro (rfl | ⟨⟨hparse, hnode⟩, -⟩)
      · exact absurd rfl hfile
      · rw [if_neg (draftName_ne_of_parse? r.name hparse)]
        exact ⟨hparse, hnode⟩

/-! ## Opening -/

/-- A draft is taken away if it is a file, and nothing else is touched. -/
theorem sweep_cons (f : Folder) (x : String) (rest : List String) :
    ∃ f', sweep f (x :: rest) = sweep f' rest ∧ ∀ file, f'.find? file =
      if isDraft x = true ∧ x = file ∧ f.find? file ≠ some .folder then none
      else f.find? file := by
  rw [sweep]
  by_cases hdraft : isDraft x = true
  · rw [if_pos hdraft]
    cases hx : f.remove x with
    | error e =>
      refine ⟨f, rfl, fun file => ?_⟩
      split
      · rename_i hfile
        obtain ⟨-, rfl, hfolder⟩ := hfile
        rw [Folder.remove] at hx
        split at hx
        · cases hx
        · exact absurd ‹_› hfolder
        · assumption
      · rfl
    | ok f' =>
      refine ⟨f', rfl, fun file => ?_⟩
      rw [Folder.remove] at hx
      split at hx
      · rename_i bytes hbytes
        obtain rfl := Except.ok.inj hx
        rw [find?_erase]
        by_cases hfile : x = file
        · subst hfile
          simp [hdraft, hbytes]
        · simp [hfile]
      · cases hx
      · cases hx
  · rw [if_neg hdraft]
    exact ⟨f, rfl, fun file => by simp [hdraft]⟩

theorem find?_sweep (f : Folder) (files : List String) (file : String) :
    (sweep f files).find? file =
      if isDraft file = true ∧ file ∈ files ∧ f.find? file ≠ some .folder then none
      else f.find? file := by
  induction files generalizing f with
  | nil => simp [sweep]
  | cons x rest ih =>
    obtain ⟨f', hsweep, hfind⟩ := sweep_cons f x rest
    rw [hsweep, ih, hfind]
    by_cases hfile : x = file
    · subst hfile
      by_cases hdraft : isDraft x = true <;> by_cases hfolder : f.find? x = some .folder <;>
        simp [hdraft, hfolder]
    · simp [hfile, Ne.symm hfile]

/-- Opening history takes away the files that bear names of drafts. -/
theorem find?_opened (f : Folder) (file : String) :
    (sweep f f.names).find? file =
      if isDraft file = true ∧ f.find? file ≠ some .folder then none else f.find? file := by
  simp only [find?_sweep, mem_names]
  cases f.find? file <;> simp

/-- What bears the name of a segment is left alone when history is opened. -/
theorem find?_opened_of_parse? (f : Folder) {file : String} {n : SegmentName}
    (h : SegmentName.parse? file = some n) : (sweep f f.names).find? file = f.find? file := by
  rw [find?_opened, isDraft_of_parse? h, if_neg (by simp)]

/-- The folders that writes, each of which may be cut short, and openings in between may lead to. -/
inductive Led (compress : List UInt8 → List UInt8) (f : Folder) : Folder → Prop
  | refl : Led compress f f
  | write {g g' : Folder} (r : SegmentRecord) (h : Led compress f g)
      (hg : Interrupted compress g r g') : Led compress f g'
  | opened {g : Folder} (h : Led compress f g) : Led compress f (sweep g g.names)

/-- However many writes were cut short, what bears the name of a segment is what was there at first
or the file of a record that was written, in full. -/
theorem Led.find?_cases (h : Led compress f g) {file : String} {n : SegmentName}
    (hname : SegmentName.parse? file = some n) :
    g.find? file = f.find? file ∨
      ∃ r : SegmentRecord, r.name.text = file ∧
        g.find? file = some (.file (SegmentFile.writeWith compress r)) := by
  induction h with
  | refl => exact .inl rfl
  | @write g g' r _ hg ih =>
    have hdraft := draftName_ne_of_parse? r.name hname
    rcases hg.find?_cases with hsame | hwritten
    · rw [hsame file hdraft.symm]
      exact ih
    · rw [hwritten]
      by_cases hfile : r.name.text = file
      · rw [if_pos hfile]
        exact .inr ⟨r, hfile, rfl⟩
      · rw [if_neg hfile, if_neg hdraft]
        exact ih
  | opened _ ih =>
    rw [find?_opened_of_parse? _ hname]
    exact ih

/-- A write that is cut short never shows: history lists and reads what it did before, or the new
record is there beside it in full, however its bytes are compressed if they can be expanded again.
When history is opened again the draft is gone, with everything
else that bears the name of one, and nothing else has changed. -/
theorem interrupted_never_shows (h : History) (f g : Folder) (r : SegmentRecord)
    (hfolder : h.folder = some f) (hfits : r.Fits)
    (hexpand : Zstd.expand (h.compress r.bytes) = .ok r.bytes)
    (hlength : (h.compress r.bytes).length < 2 ^ 64) (hg : Interrupted h.compress f r g) :
    let left : History := { h with folder := some g }
    ((left.list = h.list ∧
        ∀ s ∈ listFolder f, ∀ kind, left.read s.file kind = h.read s.file kind) ∨
      ∃ segments, left.list = .ok segments ∧
        segments.Pairwise (fun a b => a.name.le b.name = true) ∧
        segments.Perm
          (r.listed h.compress :: (listFolder f).filter fun s => s.file ≠ r.name.text) ∧
        left.read r.name.text r.kind = (.ok r, []) ∧
        ∀ s ∈ listFolder f, s.file ≠ r.name.text →
          ∀ kind, left.read s.file kind = h.read s.file kind) ∧
    ∃ opened : Folder, left.start = { h with folder := some opened } ∧
      (∀ file, opened.find? file =
        if isDraft file = true ∧ g.find? file ≠ some .folder then none else g.find? file) ∧
      isDraft (draftName r.name) = true ∧ left.start.list = left.list ∧
      ∀ s ∈ listFolder g, ∀ kind, left.start.read s.file kind = left.read s.file kind := by
  obtain ⟨base, folder, compress⟩ := h
  obtain rfl : folder = some f := hfolder
  refine ⟨?_, sweep g g.names, rfl, find?_opened g, isDraft_draftName r.name, ?_, ?_⟩
  · rcases hg.find?_cases with hsame | hwritten
    · have hsegment : ∀ file n, SegmentName.parse? file = some n → g.find? file = f.find? file :=
        fun file n hn => hsame file (draftName_ne_of_parse? r.name hn).symm
      refine .inl ⟨congrArg Except.ok (listFolder_congr hsegment), fun s hs kind => ?_⟩
      exact read_congr _ (hsegment _ _ (mem_listFolder.mp hs).1) kind
    · refine .inr ⟨_, rfl, listFolder_pairwise g,
        listFolder_written (readable_name hfits) hwritten, ?_, fun s hs hne kind => ?_⟩
      · have hread : g.read r.name.text = .ok (SegmentFile.writeWith compress r) := by
          rw [read_eq_ok_iff, hwritten, if_pos rfl]
        simp only [History.read, hread]
        exact SegmentFile.read_same hfits _ hexpand hlength
      · refine read_congr _ ?_ kind
        have hdraft := draftName_ne_of_parse? r.name (mem_listFolder.mp hs).1
        rw [hwritten, if_neg (Ne.symm hne), if_neg hdraft]
  · exact congrArg Except.ok (listFolder_congr fun file n hn => find?_opened_of_parse? g hn)
  · intro s hs kind
    exact read_congr _ (find?_opened_of_parse? g (mem_listFolder.mp hs).1) kind

/-- A write may stop after any number of bytes. -/
theorem interrupted_partway (compress : List UInt8 → List UInt8) (f : Folder) (r : SegmentRecord)
    (n : Nat) (hfolder : f.find? (draftName r.name) ≠ some .folder) :
    ∃ g, Interrupted compress f r g ∧ g.find? (draftName r.name) = some (.file
      (SegmentFile.header r.kind (compress r.bytes) ++ (compress r.bytes).take n)) := by
  have hcreate : f.apply (.create (draftName r.name)) =
      .ok (f.put (draftName r.name) (.file [])) := by
    rw [apply]
    split
    · exact absurd ‹_› hfolder
    · rfl
  have hput : ∀ (f : Folder) bytes, (f.put (draftName r.name) (.file bytes)).read
      (draftName r.name) = .ok bytes := by
    intro f bytes
    rw [read_eq_ok_iff, find?_put, if_pos rfl]
  have hheader : ∀ head, (f.put (draftName r.name) (.file [])).apply
      (.append (draftName r.name) head) =
        .ok ((f.put (draftName r.name) (.file [])).put (draftName r.name) (.file head)) := by
    intro head
    rw [apply, hput]
    rfl
  exact ⟨_, .stopped (.later hcreate (.later (hheader _) (.within _ (.part _ n (hput _ _))))),
    by rw [find?_put, if_pos rfl]⟩

open SegmentFile (sample sample_fits) in
/-- The machine stops after three bytes of the payload; the draft is gone when history is opened. -/
theorem interrupted_never_shows_halfway :
    ∃ g opened : Folder,
      g.find? (draftName sample.name) = some (.file (SegmentFile.header sample.kind
        (SegmentFile.payload sample) ++ (SegmentFile.payload sample).take 3)) ∧
      ({ base := "", folder := some g } : History).start =
        { base := "", folder := some opened } ∧
      opened.find? (draftName sample.name) = none := by
  have hlength : (SegmentFile.payload sample).length < 2 ^ 64 := by
    decide +kernel
  obtain ⟨g, hg, hfile⟩ := interrupted_partway Zstd.enclose {} sample 3 (by simp [find?])
  obtain ⟨-, opened, hstart, hopened, hdraft, -⟩ :=
    interrupted_never_shows { base := "", folder := some {} } {} g sample rfl sample_fits
      (Zstd.expand_enclose sample.bytes) hlength hg
  refine ⟨g, opened, hfile, hstart, ?_⟩
  rw [hopened, hdraft, hfile, if_pos ⟨rfl, by simp⟩]

end History

end BlockLedger
