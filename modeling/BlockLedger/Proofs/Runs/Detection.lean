import BlockLedger.Runs
import Mathlib.Data.List.Induction
import Mathlib.Data.List.Nodup

/-
# What a run detector remembers

A run detector takes in one access after the other.  What it remembers of a fork afterwards is told
from the accesses alone: in each direction the block that the latest access ended at, and the key
that the fork's runs are handed out under.  The latter is set only by accesses that are counted
under another key than the fork's own, and is the same for both directions.
-/

namespace BlockLedger

/-- An access that a run detector takes in. -/
structure Touch where
  fork : Key
  /-- The key that the access is counted under. -/
  key : Key
  direction : Direction
  /-- The first block. -/
  block : BlockNumber
  blocks : BlockNumber
  deriving DecidableEq, Repr

namespace Touch

/-- The last block.  Block numbers wrap around. -/
def last (t : Touch) : BlockNumber := t.block + t.blocks - 1

end Touch

/-- The latest access to a fork in a direction. -/
def latest (ts : List Touch) (f : Key) (d : Direction) : Option Touch :=
  (ts.filter fun t => t.fork = f ∧ t.direction = d).getLast?

/-- The key that the open runs of a fork are handed out under: that of the latest access that was
not counted under the fork's own. -/
def destination (ts : List Touch) (f : Key) : Key :=
  ((ts.filter fun t => t.fork = f ∧ t.key ≠ f).getLast?.map Touch.key).getD f

section Latest

variable (ts : List Touch) (t : Touch) (f : Key) (d : Direction)

@[simp] theorem latest_nil : latest [] f d = none := rfl

theorem latest_concat :
    latest (ts ++ [t]) f d = if t.fork = f ∧ t.direction = d then some t else latest ts f d := by
  unfold latest
  rw [List.filter_append]
  split <;> rename_i h <;> simp [h]

variable {ts t f d}

theorem mem_of_latest (h : latest ts f d = some t) : t ∈ ts ∧ t.fork = f ∧ t.direction = d := by
  simpa using List.mem_of_getLast? h

theorem latest_isSome : (latest ts f d).isSome ↔ ∃ t ∈ ts, t.fork = f ∧ t.direction = d := by
  simp [latest]

/-- Open runs are handed out under one of the keys that the fork was counted under, or its own. -/
theorem destination_eq_or (ts : List Touch) (f : Key) :
    ((∀ t ∈ ts, t.fork = f → t.key = f) ∧ destination ts f = f) ∨
      ∃ t ∈ ts, t.fork = f ∧ t.key ≠ f ∧ destination ts f = t.key := by
  unfold destination
  cases h : (ts.filter fun t => t.fork = f ∧ t.key ≠ f).getLast? with
  | none =>
    refine .inl ⟨fun t ht hf => ?_, rfl⟩
    by_contra hne
    have hnil := List.getLast?_eq_none_iff.mp h
    have : t ∈ ts.filter fun t => t.fork = f ∧ t.key ≠ f := by simp [ht, hf, hne]
    rw [hnil] at this
    cases this
  | some t =>
    obtain ⟨ht, hf, hne⟩ := by simpa using List.mem_of_getLast? h
    exact .inr ⟨t, ht, hf, hne, rfl⟩

/-- Of a fork that is counted under at most one key besides its own, open runs are handed out under
the key of an access just if that is the other one, or the other one has never been used. -/
theorem destination_eq_iff {ts : List Touch} {f other : Key}
    (hkeys : ∀ u ∈ ts, u.fork = f → u.key = f ∨ u.key = other) {t : Touch} (ht : t ∈ ts)
    (hfork : t.fork = f) :
    destination ts f = t.key ↔ (t.key = f → ∀ u ∈ ts, u.fork = f → u.key = f) := by
  rcases destination_eq_or ts f with ⟨hall, hdest⟩ | ⟨v, hv, hvfork, hvkey, hdest⟩
  · rw [hdest, hall t ht hfork]
    exact ⟨fun _ _ => hall, fun _ => rfl⟩
  · have hother : v.key = other := (hkeys v hv hvfork).resolve_left hvkey
    rw [hdest]
    constructor
    · intro heq htkey
      exact absurd (heq.trans htkey) hvkey
    · intro himp
      rcases hkeys t ht hfork with htkey | htkey
      · exact absurd (himp htkey v hv hvfork) hvkey
      · rw [hother, htkey]

end Latest

/-! ## Taking in an access -/

namespace Pattern

/-- Takes in an access to the fork. -/
def note (p : Pattern) (t : Touch) : Pattern :=
  let p := p.withCursor t.direction ((p.cursor t.direction).step t.block t.blocks).2
  if t.key = t.fork then p else { p with account := some t.key }

variable (p : Pattern) (t : Touch) (d : Direction)

theorem cursor_withCursor (d' : Direction) (c : Cursor) :
    (p.withCursor d' c).cursor d = if d' = d then c else p.cursor d := by
  cases d <;> cases d' <;> rfl

theorem cursor_note :
    (p.note t).cursor d =
      if t.direction = d then ((p.cursor d).step t.block t.blocks).2 else p.cursor d := by
  have hcursor : (p.note t).cursor d =
      (p.withCursor t.direction ((p.cursor t.direction).step t.block t.blocks).2).cursor d := by
    unfold note
    cases d <;> simp only <;> split <;> rfl
  rw [hcursor, cursor_withCursor]
  split
  · subst d
    rfl
  · rfl

theorem account_note :
    (p.note t).account = if t.key = t.fork then p.account else some t.key := by
  unfold note
  dsimp only
  split
  · cases t.direction <;> rfl
  · rfl

end Pattern

namespace Cursor

variable (c : Cursor) (t : Touch)

theorem last_step : (c.step t.block t.blocks).2.last = some t.last := by
  unfold step
  dsimp only
  split <;> rfl

theorem sequential_step : (c.step t.block t.blocks).1.sequential = c.continues t.block := by
  unfold step
  dsimp only
  split <;> rename_i h <;> simp [h]

theorem ended_step :
    (c.step t.block t.blocks).1.ended =
      if c.continues t.block = true then 0 else c.run.toNat := by
  unfold step
  dsimp only
  split <;> rfl

/-- The length of a run wraps around. -/
theorem run_step :
    (c.step t.block t.blocks).2.run.toNat =
      if c.continues t.block = true then (c.run.toNat + t.blocks.toNat) % 2 ^ 64
      else t.blocks.toNat := by
  unfold step
  dsimp only
  split <;> simp

end Cursor

namespace Runs

/-- How an access continues what is remembered. -/
def judge (r : Runs) (t : Touch) : Access := (r.check t.fork t.block t.blocks t.direction).1

theorem judge_eq (r : Runs) (t : Touch) :
    r.judge t = (((r.pattern t.fork).cursor t.direction).step t.block t.blocks).1 := rfl

/-- Takes in an access, and the key that it is counted under if that is not the fork's own. -/
def note (r : Runs) (t : Touch) : Runs :=
  let runs := (r.check t.fork t.block t.blocks t.direction).2
  if t.key = t.fork then runs else runs.accountUnder t.fork t.key

/-- Takes in one access after the other. -/
def noteAll (r : Runs) (ts : List Touch) : Runs := ts.foldl note r

theorem noteAll_append (r : Runs) (ts us : List Touch) :
    r.noteAll (ts ++ us) = (r.noteAll ts).noteAll us :=
  List.foldl_append

theorem noteAll_concat (r : Runs) (ts : List Touch) (t : Touch) :
    r.noteAll (ts ++ [t]) = (r.noteAll ts).note t :=
  r.noteAll_append ts [t]

section Patterns

variable (r : Runs) (key other : Key)

theorem pattern_insert (p : Pattern) :
    pattern ⟨r.patterns.insert key p⟩ other = if key = other then p else r.pattern other := by
  simp [pattern, Std.HashMap.getD_insert]

theorem pattern_check (block count : BlockNumber) (d : Direction) :
    (r.check key block count d).2.pattern other =
      if key = other then
        (r.pattern key).withCursor d (((r.pattern key).cursor d).step block count).2
      else r.pattern other :=
  pattern_insert r key other _

theorem mem_check (block count : BlockNumber) (d : Direction) :
    key ∈ (r.check key block count d).2.patterns := by
  simp [check]

theorem pattern_accountUnder (target : Key) (h : key ∈ r.patterns) :
    (r.accountUnder key target).pattern other =
      if key = other then { r.pattern key with account := some target } else r.pattern other := by
  obtain ⟨p, hp⟩ := Std.HashMap.mem_iff_isSome_getElem?.mp h |> Option.isSome_iff_exists.mp
  have hpattern : r.pattern key = p := by simp [pattern, Std.HashMap.getD_eq_getD_getElem?, hp]
  rw [accountUnder, hp, hpattern]
  exact pattern_insert r key other _

/-- An access is taken in by what is remembered of its fork, and by nothing else. -/
theorem pattern_note (t : Touch) :
    (r.note t).pattern other =
      if t.fork = other then (r.pattern other).note t else r.pattern other := by
  unfold note Pattern.note
  dsimp only
  split
  · rw [pattern_check]
    split
    · subst other
      rfl
    · rfl
  · -- the fork is remembered by now, so that the key can be noted
    rw [pattern_accountUnder _ _ _ _ (mem_check ..), pattern_check, pattern_check, if_pos rfl]
    split
    · subst other
      rfl
    · rfl

end Patterns

/-! ## What is told from the accesses -/

@[simp] theorem pattern_empty (f : Key) : ({} : Runs).pattern f = {} := by
  simp [pattern]

/-- What is remembered of a fork is told from the accesses to it. -/
theorem pattern_noteAll (ts : List Touch) (f : Key) :
    (noteAll {} ts).pattern f = (ts.filter fun t => t.fork = f).foldl Pattern.note {} := by
  induction ts using List.reverseRecOn with
  | nil => exact pattern_empty f
  | append_singleton ts t ih =>
    rw [noteAll_concat, List.filter_append, List.foldl_append, pattern_note, ih]
    by_cases hf : t.fork = f <;> simp [hf]

theorem last_noteAll (ts : List Touch) (f : Key) (d : Direction) :
    (((noteAll {} ts).pattern f).cursor d).last = (latest ts f d).map Touch.last := by
  induction ts using List.reverseRecOn with
  | nil => cases d <;> simp [noteAll, Pattern.cursor]
  | append_singleton ts t ih =>
    rw [noteAll_concat, latest_concat, pattern_note]
    by_cases hf : t.fork = f
    · rw [if_pos hf, Pattern.cursor_note]
      by_cases hd : t.direction = d
      · simp [hf, hd, Cursor.last_step]
      · simpa [hd] using ih
    · simpa [hf] using ih

/-- As long as a fork has not been accessed in a direction, nothing is remembered of it. -/
theorem cursor_of_latest (ts : List Touch) (f : Key) (d : Direction) (h : latest ts f d = none) :
    ((noteAll {} ts).pattern f).cursor d = {} := by
  induction ts using List.reverseRecOn with
  | nil => cases d <;> simp [noteAll, Pattern.cursor]
  | append_singleton ts t ih =>
    rw [latest_concat] at h
    split at h
    · cases h
    · rename_i hne
      rw [noteAll_concat, pattern_note]
      by_cases hf : t.fork = f
      · have hd : ¬t.direction = d := fun hd => hne ⟨hf, hd⟩
        rw [if_pos hf, Pattern.cursor_note, if_neg hd]
        exact ih h
      · rw [if_neg hf]
        exact ih h

theorem account_noteAll (ts : List Touch) (f : Key) :
    ((noteAll {} ts).pattern f).account.getD f = destination ts f := by
  suffices h : ((noteAll {} ts).pattern f).account =
      (ts.filter fun t => t.fork = f ∧ t.key ≠ f).getLast?.map Touch.key by
    rw [h, destination]
  induction ts using List.reverseRecOn with
  | nil => simp [noteAll]
  | append_singleton ts t ih =>
    rw [noteAll_concat, List.filter_append, pattern_note]
    by_cases hf : t.fork = f
    · subst hf
      rw [if_pos rfl, Pattern.account_note]
      by_cases hk : t.key = t.fork
      · simpa [hk] using ih
      · simp [hk]
    · simpa [hf] using ih

/-! ## Open runs -/

/-- The forks and directions with an open run. -/
def openSeries (r : Runs) : List (Key × Direction) :=
  (r.patterns.toList.flatMap fun x => [(x.1, .read), (x.1, .write)]).filter fun x =>
    ((r.pattern x.1).cursor x.2).run ≠ 0

/-- The open run of a fork in a direction. -/
def openRun (r : Runs) (x : Key × Direction) : EndedRun :=
  ⟨(r.pattern x.1).account.getD x.1, x.2, ((r.pattern x.1).cursor x.2).run.toNat⟩

theorem pattern_of_mem {r : Runs} {f : Key} {p : Pattern} (h : (f, p) ∈ r.patterns.toList) :
    r.pattern f = p := by
  rw [Std.HashMap.mem_toList_iff_getElem?_eq_some] at h
  simp [pattern, Std.HashMap.getD_eq_getD_getElem?, h]

theorem openRuns_eq (r : Runs) : r.openRuns = r.openSeries.map r.openRun := by
  unfold openRuns openSeries
  rw [List.filter_flatMap, List.map_flatMap]
  refine List.flatMap_congr fun x hx => ?_
  obtain ⟨f, p⟩ := x
  have hp := pattern_of_mem hx
  by_cases hreads : p.reads.run = 0 <;> by_cases hwrites : p.writes.run = 0 <;>
    simp [openOf, openRun, hp, Pattern.cursor, hreads, hwrites]

theorem mem_openSeries (r : Runs) (x : Key × Direction) :
    x ∈ r.openSeries ↔ ((r.pattern x.1).cursor x.2).run ≠ 0 := by
  obtain ⟨f, d⟩ := x
  unfold openSeries
  rw [List.mem_filter]
  refine ⟨fun h => by simpa using h.2, fun h => ⟨?_, by simpa using h⟩⟩
  cases hget : r.patterns[f]? with
  | none =>
    -- of a fork that is not remembered there is no run
    have hp : r.pattern f = {} := by simp [pattern, Std.HashMap.getD_eq_getD_getElem?, hget]
    refine absurd ?_ h
    rw [hp]
    cases d <;> rfl
  | some p =>
    rw [List.mem_flatMap]
    refine ⟨(f, p), Std.HashMap.mem_toList_iff_getElem?_eq_some.mpr hget, ?_⟩
    cases d <;> simp

theorem openSeries_nodup (r : Runs) : r.openSeries.Nodup := by
  refine List.Nodup.filter _ (List.nodup_flatMap.mpr ⟨fun x _ => by simp, ?_⟩)
  refine r.patterns.distinct_keys_toList.imp fun {a b} h => ?_
  have hne : a.1 ≠ b.1 := by simpa using h
  simp [Function.onFun, hne.symm]

theorem openSeries_eq_singleton {r : Runs} {x : Key × Direction}
    (h : ∀ y : Key × Direction, ((r.pattern y.1).cursor y.2).run ≠ 0 ↔ y = x) :
    r.openSeries = [x] := by
  refine List.perm_singleton.mp ?_
  rw [List.perm_ext_iff_of_nodup r.openSeries_nodup (List.nodup_singleton x)]
  intro y
  rw [mem_openSeries, h, List.mem_singleton]

theorem openSeries_empty : ({} : Runs).openSeries = [] := by
  rw [List.eq_nil_iff_forall_not_mem]
  rintro ⟨f, d⟩ h
  rw [mem_openSeries, pattern_empty] at h
  cases d <;> exact h rfl

/-- A fork with an open run has been accessed. -/
theorem latest_of_mem_openSeries {ts : List Touch} {x : Key × Direction}
    (h : x ∈ (noteAll {} ts).openSeries) : ∃ t, latest ts x.1 x.2 = some t := by
  rw [mem_openSeries] at h
  cases hlatest : latest ts x.1 x.2 with
  | some t => exact ⟨t, rfl⟩
  | none =>
    rw [cursor_of_latest ts x.1 x.2 hlatest] at h
    exact absurd rfl h

/-- Open runs are handed out under keys that accesses were counted under. -/
theorem key_of_mem_openRuns {ts : List Touch} {r : EndedRun} (h : r ∈ (noteAll {} ts).openRuns) :
    ∃ t ∈ ts, t.key = r.key := by
  rw [openRuns_eq] at h
  obtain ⟨x, hx, rfl⟩ := List.mem_map.mp h
  have hkey : ((noteAll {} ts).openRun x).key = destination ts x.1 := account_noteAll ts x.1
  rw [hkey]
  rcases destination_eq_or ts x.1 with ⟨hall, heq⟩ | ⟨t, ht, -, -, heq⟩
  · obtain ⟨t, hlatest⟩ := latest_of_mem_openSeries hx
    obtain ⟨ht, hfork, -⟩ := mem_of_latest hlatest
    exact ⟨t, ht, by rw [heq, hall t ht hfork]⟩
  · exact ⟨t, ht, heq.symm⟩

/-- Accesses to one fork in one direction leave one run open. -/
theorem openRuns_noteAll (ts : List Touch) (f : Key) (d : Direction) (n : UInt64)
    (hts : ∀ t ∈ ts, t.fork = f ∧ t.key = f ∧ t.direction = d)
    (hrun : ((ts.foldl Pattern.note {}).cursor d).run = n) (hn : n ≠ 0) :
    (noteAll {} ts).openRuns = [⟨f, d, n.toNat⟩] := by
  have hall : ts.filter (fun t => t.fork = f) = ts :=
    List.filter_eq_self.mpr fun t ht => decide_eq_true (hts t ht).1
  rw [← hall, ← pattern_noteAll] at hrun
  have hseries : (noteAll {} ts).openSeries = [(f, d)] := by
    refine openSeries_eq_singleton fun y => ?_
    constructor
    · intro hy
      obtain ⟨t, hlatest⟩ := latest_of_mem_openSeries ((mem_openSeries _ y).mpr hy)
      obtain ⟨ht, hfork, hdirection⟩ := mem_of_latest hlatest
      obtain ⟨hf, -, hd⟩ := hts t ht
      exact Prod.ext (hfork.symm.trans hf) (hdirection.symm.trans hd)
    · rintro rfl
      exact hrun ▸ hn
  have hkey : ((noteAll {} ts).pattern f).account.getD f = f := by
    rw [account_noteAll]
    rcases destination_eq_or ts f with ⟨-, heq⟩ | ⟨t, ht, -, hne, -⟩
    · exact heq
    · exact absurd (hts t ht).2.1 hne
  rw [openRuns_eq, hseries, List.map_singleton, openRun, hkey, hrun]

end Runs

end BlockLedger
