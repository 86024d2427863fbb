import BlockLedger.Proofs.Runs.Answers

/-
# Accesses to no block

An access may move no block at all: a vector of no pages is read or written.  It touches nothing, and
so it should leave no trace in how later accesses are classified.  But a detector takes it for an
access that has ended at the block before its own, and the next access to the same fork in the same
direction is compared with that block.  No later one is, since by then the next access has taken its
place.

Leaving out an empty access is therefore harmless exactly if the next access is answered in the same
way from the access that came before: both times it carries on, or neither time.
-/

namespace BlockLedger

namespace Touch

/-- An access ends at the last block number or before. -/
def InBounds (t : Touch) : Prop := t.block.toNat + t.blocks.toNat ≤ 2 ^ 32

instance (t : Touch) : Decidable t.InBounds := Nat.decLe ..

/-- An access moves at least one block. -/
def touches (t : Touch) : Bool := t.blocks ≠ 0

end Touch

theorem accessesTo_of_head? {ts : List Touch} {f : Key} {d : Direction} {u : Touch}
    (h : (accessesTo ts f d).head? = some u) : u.fork = f ∧ u.direction = d := by
  simpa using (List.mem_filter.mp (List.mem_of_head? h)).2

/-- The latest access to a fork in a direction that has really touched a block. -/
def latestTouching (ts : List Touch) (f : Key) (d : Direction) : Option Touch :=
  latest (ts.filter Touch.touches) f d

/-- An access starts right after the last block that was really touched before. -/
def FollowsTouched (ts : List Touch) (u : Touch) : Prop :=
  ∃ t, latestTouching ts u.fork u.direction = some t ∧
    t.block.toNat + t.blocks.toNat = u.block.toNat

/-- Among accesses, one that touches a block and is the latest is the latest that does. -/
theorem latestTouching_of_latest {ts : List Touch} {f : Key} {d : Direction} {t : Touch}
    (h : latest ts f d = some t) (ht : t.touches = true) : latestTouching ts f d = some t := by
  obtain ⟨init, hinit⟩ := List.getLast?_eq_some_iff.mp h
  have hswap : (ts.filter Touch.touches).filter (fun u => u.fork = f ∧ u.direction = d) =
      (ts.filter fun u => u.fork = f ∧ u.direction = d).filter Touch.touches :=
    List.filter_comm ..
  rw [latestTouching, latest, hswap, hinit, List.filter_append]
  simp [ht]

namespace Cursor

variable {c c' : Cursor} {t : Touch}

/-- Whether an access carries on depends on where the latest one ended, and on nothing else. -/
theorem continues_congr (h : c.last = c'.last) (block : BlockNumber) :
    c.continues block = c'.continues block := by
  unfold continues
  rw [h]

/-- What carries on an access is told from its bounds.  Nothing is carried on by the first block. -/
theorem continues_inBounds (ht : t.InBounds) (hc : c.last = some t.last) (u : Touch) :
    c.continues u.block = true ↔
      u.block ≠ 0 ∧ t.block.toNat + t.blocks.toNat = u.block.toNat := by
  have hlast : t.last.toNat = (t.block.toNat + t.blocks.toNat + (2 ^ 32 - 1)) % 2 ^ 32 := by
    rw [Touch.last, UInt32.toNat_sub, UInt32.toNat_add]
    have hone : (1 : UInt32).toNat = 1 := rfl
    omega
  have hblock := u.block.toNat_lt
  have hmax : (4294967295 : UInt32).toNat = 4294967295 := rfl
  have hone : (1 : UInt32).toNat = 1 := rfl
  have hzero : (0 : UInt32).toNat = 0 := rfl
  unfold Touch.InBounds at ht
  rw [continues, hc]
  simp only [ne_eq, ← UInt32.toNat_inj, hmax, hone, hzero, UInt32.toNat_add, Bool.and_eq_true,
    decide_eq_true_eq, beq_iff_eq]
  -- an access of no block at the first one ends, like one of the last block, at the last one
  omega

end Cursor

namespace Runs

/-- Where the latest access to a fork in a direction ended. -/
def lastOf (r : Runs) (f : Key) (d : Direction) : Option BlockNumber :=
  ((r.pattern f).cursor d).last

/-- Which accesses are answered to be sequential. -/
def kinds (r : Runs) (ts : List Touch) : List Bool :=
  (r.transcript ts).map fun x => x.2.sequential

section Kinds

variable {r r' : Runs}

theorem kinds_cons (r : Runs) (t : Touch) (ts : List Touch) :
    r.kinds (t :: ts) = (r.judge t).sequential :: (r.note t).kinds ts := rfl

theorem kinds_append (r : Runs) (ts us : List Touch) :
    r.kinds (ts ++ us) = r.kinds ts ++ (r.noteAll ts).kinds us := by
  rw [kinds, transcript_append, List.map_append, kinds, kinds]

theorem length_kinds (r : Runs) (ts : List Touch) : (r.kinds ts).length = ts.length := by
  induction ts generalizing r with
  | nil => rfl
  | cons t ts ih => rw [kinds_cons, List.length_cons, ih, List.length_cons]

theorem lastOf_note (r : Runs) (t : Touch) (f : Key) (d : Direction) :
    (r.note t).lastOf f d = if t.fork = f ∧ t.direction = d then some t.last else r.lastOf f d := by
  unfold lastOf
  rw [pattern_note]
  by_cases hf : t.fork = f
  · rw [if_pos hf, Pattern.cursor_note]
    by_cases hd : t.direction = d
    · rw [if_pos hd, if_pos ⟨hf, hd⟩, Cursor.last_step]
    · rw [if_neg hd, if_neg fun h => hd h.2]
  · rw [if_neg hf, if_neg fun h => hf h.1]

theorem sequential_congr {u : Touch}
    (h : r.lastOf u.fork u.direction = r'.lastOf u.fork u.direction) :
    (r.judge u).sequential = (r'.judge u).sequential := by
  rw [judge_eq, judge_eq, Cursor.sequential_step, Cursor.sequential_step]
  exact Cursor.continues_congr h u.block

theorem kinds_congr (h : ∀ f d, r.lastOf f d = r'.lastOf f d) (ts : List Touch) :
    r.kinds ts = r'.kinds ts := by
  induction ts generalizing r r' with
  | nil => rfl
  | cons t ts ih =>
    have hnote : ∀ f d, (r.note t).lastOf f d = (r'.note t).lastOf f d := by
      intro f d
      rw [lastOf_note, lastOf_note, h]
    rw [kinds_cons, kinds_cons, sequential_congr (h _ _), ih hnote]

/-- Two detectors that differ in what they remember of one fork in one direction answer alike if
they do so at the next access to it. -/
theorem kinds_eq_iff {f : Key} {d : Direction}
    (h : ∀ f' d', ¬(f = f' ∧ d = d') → r.lastOf f' d' = r'.lastOf f' d') (ts : List Touch) :
    r.kinds ts = r'.kinds ts ↔
      ∀ u, (accessesTo ts f d).head? = some u →
        (r.judge u).sequential = (r'.judge u).sequential := by
  induction ts generalizing r r' with
  | nil => simp [accessesTo, kinds, transcript]
  | cons t ts ih =>
    rw [kinds_cons, kinds_cons, List.cons.injEq]
    by_cases ht : t.fork = f ∧ t.direction = d
    · -- from here on both remember the same
      have hnote : ∀ f' d', (r.note t).lastOf f' d' = (r'.note t).lastOf f' d' := by
        intro f' d'
        rw [lastOf_note, lastOf_note]
        split <;> rename_i hne
        · rfl
        · exact h f' d' (by rwa [← ht.1, ← ht.2])
      have hhead : (accessesTo (t :: ts) f d).head? = some t := by simp [accessesTo, ht]
      simp [hhead, kinds_congr hnote ts]
    · have hsame : (r.judge t).sequential = (r'.judge t).sequential :=
        sequential_congr (h _ _ fun hc => ht ⟨hc.1.symm, hc.2.symm⟩)
      have hnote : ∀ f' d', ¬(f = f' ∧ d = d') →
          (r.note t).lastOf f' d' = (r'.note t).lastOf f' d' := by
        intro f' d' hne
        rw [lastOf_note, lastOf_note, h f' d' hne]
      have hnext : ∀ (q : Runs) u, (accessesTo ts f d).head? = some u →
          ((q.note t).judge u).sequential = (q.judge u).sequential := by
        intro q u hu
        obtain ⟨hf, hd⟩ := accessesTo_of_head? hu
        refine sequential_congr ?_
        rw [lastOf_note, hf, hd, if_neg ht]
      have hrest : accessesTo (t :: ts) f d = accessesTo ts f d := by simp [accessesTo, ht]
      rw [and_iff_right hsame, ih hnote, hrest]
      refine forall₂_congr fun u hu => ?_
      rw [hnext r u hu, hnext r' u hu]

end Kinds

variable {ts : List Touch}

/-- An access is sequential if the latest one, whether or not it touched a block, ended right before
it, and it is not to the first block. -/
theorem sequential_iff (hts : ∀ t ∈ ts, t.InBounds) (u : Touch) :
    ((noteAll {} ts).judge u).sequential = true ↔
      u.block ≠ 0 ∧ ∃ t, latest ts u.fork u.direction = some t ∧
        t.block.toNat + t.blocks.toNat = u.block.toNat := by
  have hlast := last_noteAll ts u.fork u.direction
  rw [judge_eq, Cursor.sequential_step]
  cases h : latest ts u.fork u.direction with
  | none =>
    rw [h, Option.map_none] at hlast
    simp [Cursor.continues, hlast]
  | some t =>
    rw [h, Option.map_some] at hlast
    rw [Cursor.continues_inBounds (hts t (mem_of_latest h).1) hlast u]
    simp

/-- An access is sequential without following the last block that was touched only if the latest
access was an empty one at the very same block. -/
theorem followsTouched_of_sequential_iff (hts : ∀ t ∈ ts, t.InBounds) (u : Touch) :
    (((noteAll {} ts).judge u).sequential = true → FollowsTouched ts u) ↔
      ∀ z, latest ts u.fork u.direction = some z → z.blocks = 0 → z.block = u.block →
        u.block ≠ 0 → FollowsTouched ts u := by
  rw [sequential_iff hts]
  constructor
  · intro h z hz hempty hblock hne
    refine h ⟨hne, z, hz, ?_⟩
    rw [hempty, hblock]
    rfl
  · rintro h ⟨hne, t, ht, hend⟩
    by_cases hempty : t.blocks = 0
    · refine h t ht hempty ?_ hne
      rw [hempty] at hend
      exact UInt32.toNat_inj.mp hend
    · exact ⟨t, latestTouching_of_latest ht (by simpa [Touch.touches] using hempty), hend⟩

/-- Leaving out an empty access changes no other answer exactly if the next access to its fork in its
direction carries on both the empty access and the one before it, or neither of them. -/
theorem kinds_without_iff {pre post : List Touch} {z : Touch}
    (hin : ∀ t ∈ pre ++ z :: post, t.InBounds) (hz : z.blocks = 0) :
    (({} : Runs).kinds (pre ++ z :: post)).eraseIdx pre.length = ({} : Runs).kinds (pre ++ post) ↔
      ∀ u, (accessesTo post z.fork z.direction).head? = some u → u.block ≠ 0 →
        (z.block = u.block ↔ ∃ t, latest pre z.fork z.direction = some t ∧
          t.block.toNat + t.blocks.toNat = u.block.toNat) := by
  have herase : (({} : Runs).kinds (pre ++ z :: post)).eraseIdx pre.length =
      ({} : Runs).kinds pre ++ (noteAll {} (pre ++ [z])).kinds post := by
    rw [kinds_append, kinds_cons, noteAll_concat, ← length_kinds ({} : Runs) pre,
      List.eraseIdx_append_of_length_le (Nat.le_refl _), Nat.sub_self, List.eraseIdx_zero,
      List.tail_cons]
  have helse : ∀ f d, ¬(z.fork = f ∧ z.direction = d) →
      (noteAll {} (pre ++ [z])).lastOf f d = (noteAll {} pre).lastOf f d := by
    intro f d hne
    rw [noteAll_concat, lastOf_note, if_neg hne]
  rw [herase, kinds_append, List.append_right_inj, kinds_eq_iff helse]
  refine forall₂_congr fun u hu => ?_
  -- the next access is to the fork of the empty one, in its direction
  obtain ⟨hfork, hdirection⟩ := accessesTo_of_head? hu
  have hpre : ∀ t ∈ pre, t.InBounds := fun t ht => hin t (by simp [ht])
  have hwith : ∀ t ∈ pre ++ [z], t.InBounds := by
    intro t ht
    refine hin t ?_
    rw [List.mem_append, List.mem_singleton] at ht
    rcases ht with ht | rfl <;> simp [*]
  have hblocks : z.blocks.toNat = 0 := by rw [hz]; rfl
  rw [Bool.eq_iff_iff, sequential_iff hwith, sequential_iff hpre, hfork, hdirection, latest_concat,
    if_pos ⟨rfl, rfl⟩, and_congr_right_iff]
  simp [hblocks, UInt32.toNat_inj]

/-- When an empty access leaves no trace in how others are classified. -/
theorem emptyAccess_unnoticed_iff (ts : List Touch) (hts : ∀ t ∈ ts, t.InBounds) :
    (∀ pre z post, ts = pre ++ z :: post → z.blocks = 0 →
      ((({} : Runs).kinds ts).eraseIdx pre.length = ({} : Runs).kinds (pre ++ post) ↔
        ∀ u, (accessesTo post z.fork z.direction).head? = some u → u.block ≠ 0 →
          (z.block = u.block ↔ ∃ t, latest pre z.fork z.direction = some t ∧
            t.block.toNat + t.blocks.toNat = u.block.toNat))) ∧
    ∀ pre u post, ts = pre ++ u :: post →
      ((((noteAll {} pre).judge u).sequential = true → FollowsTouched pre u) ↔
        ∀ z, latest pre u.fork u.direction = some z → z.blocks = 0 → z.block = u.block →
          u.block ≠ 0 → FollowsTouched pre u) := by
  constructor
  · rintro pre z post rfl hz
    exact kinds_without_iff hts hz
  · rintro pre u post rfl
    exact followsTouched_of_sequential_iff (fun t ht => hts t (by simp [ht])) u

/-- An empty access that starts right where the one before it ended is not noticed, whatever is done
to other forks and in the other direction in between. -/
theorem emptyAccess_unnoticed_between :
    let table : Key := ⟨⟨1663, 5, 16500⟩, .main⟩
    let index : Key := ⟨⟨1663, 5, 16501⟩, .main⟩
    let pre : List Touch := [⟨table, table, .read, 0, 5⟩, ⟨index, index, .read, 7, 1⟩]
    let empty : Touch := ⟨table, table, .read, 5, 0⟩
    let post : List Touch := [⟨table, table, .write, 5, 1⟩, ⟨table, table, .read, 5, 1⟩]
    (∀ t ∈ pre ++ empty :: post, t.InBounds) ∧ empty.blocks = 0 ∧
      (({} : Runs).kinds (pre ++ empty :: post)).eraseIdx pre.length =
        ({} : Runs).kinds (pre ++ post) := by
  intro table index pre empty post
  have hin : ∀ t ∈ pre ++ empty :: post, t.InBounds := by decide
  refine ⟨hin, rfl, ?_⟩
  rw [(emptyAccess_unnoticed_iff _ hin).1 pre empty post rfl rfl]
  intro u hu _
  obtain rfl : ⟨table, table, .read, 5, 1⟩ = u := Option.some.inj hu
  exact ⟨fun _ => ⟨⟨table, table, .read, 0, 5⟩, rfl, rfl⟩, fun _ => rfl⟩

/-- An empty access makes the first block that is touched look like the next one. -/
theorem emptyAccess_noticed :
    let table : Key := ⟨⟨1663, 5, 16500⟩, .main⟩
    let empty : Touch := ⟨table, table, .read, 5, 0⟩
    let first : Touch := ⟨table, table, .read, 5, 1⟩
    (∀ t ∈ [empty, first], t.InBounds) ∧ empty.blocks = 0 ∧
      ({} : Runs).kinds [empty, first] = [false, true] ∧ ({} : Runs).kinds [first] = [false] ∧
      ¬FollowsTouched [empty] first := by
  intro table empty first
  refine ⟨by decide, rfl, by cbv, by cbv, ?_⟩
  rintro ⟨t, ht, -⟩
  cases ht

end Runs

end BlockLedger
