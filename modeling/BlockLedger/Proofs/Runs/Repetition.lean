import BlockLedger.Proofs.Runs.Detection

/-
# Accesses that are taken in again

A run detector keeps of an access the block that it ended at, the blocks of the run that it belongs
to, and the key that the run is handed out under.  An access that finds all of this as it would
leave it is not noticed.  Taking it in once more is then no different from not taking it in at all,
and an access that is noticed the first time still shows after any number of times.
-/

namespace BlockLedger

/-- After an access that ended at the same block, only one that moves nothing carries on. -/
theorem Cursor.step_of_last {c : Cursor} {t : Touch} (h : c.last = some t.last) :
    (c.step t.block t.blocks).2 =
      if t.blocks = 0 ∧ t.block ≠ 0 then c else ⟨some t.last, t.blocks.toUInt64⟩ := by
  have hcontinues : c.continues t.block = true ↔ t.blocks = 0 ∧ t.block ≠ 0 := by
    have hblock := t.block.toNat_lt
    have hblocks := t.blocks.toNat_lt
    simp only [continues, h, Touch.last, ne_eq, ← UInt32.toNat_inj, UInt32.toNat_add,
      UInt32.toNat_sub, UInt32.reduceToNat, Bool.and_eq_true, decide_eq_true_eq, beq_iff_eq]
    omega
  unfold step
  by_cases hempty : t.blocks = 0 ∧ t.block ≠ 0
  · obtain ⟨last, run⟩ := c
    obtain rfl : last = some t.last := h
    rw [if_pos (hcontinues.mpr hempty), if_pos hempty, hempty.1]
    simp [Touch.last, hempty.1]
  · rw [if_neg fun h => hempty (hcontinues.mp h), if_neg hempty]
    rfl

namespace Pattern

/-- The latest access ended at the same block as `t`, and the open run is as long as `t` or `t`
moves no block; and the runs are handed out under the key that `t` is counted under. -/
structure Repeats (p : Pattern) (t : Touch) : Prop where
  last : (p.cursor t.direction).last = some t.last
  run : (p.cursor t.direction).run = t.blocks.toUInt64 ∨ t.blocks = 0 ∧ t.block ≠ 0
  account : t.key = t.fork ∨ p.account = some t.key

variable {p : Pattern} {t : Touch}

theorem eq_of_cursors {p p' : Pattern} (hcursor : ∀ d, p.cursor d = p'.cursor d)
    (haccount : p.account = p'.account) : p = p' := by
  obtain ⟨reads, writes, account⟩ := p
  obtain ⟨reads', writes', account'⟩ := p'
  obtain rfl : reads = reads' := hcursor .read
  obtain rfl : writes = writes' := hcursor .write
  obtain rfl : account = account' := haccount
  rfl

/-- An access that repeats the latest one leaves no trace. -/
theorem Repeats.note_eq (h : p.Repeats t) : p.note t = p := by
  refine eq_of_cursors (fun d => ?_) ?_
  · rw [cursor_note]
    split <;> rename_i hd
    · subst hd
      rw [Cursor.step_of_last h.last]
      split <;> rename_i hempty
      · rfl
      · rw [← h.last, ← h.run.resolve_right hempty]
    · rfl
  · rw [account_note]
    split <;> rename_i hkey
    · rfl
    · exact (h.account.resolve_left hkey).symm

theorem last_foldl_note (n : Nat) (h : (p.cursor t.direction).last = some t.last) :
    (((List.replicate n t).foldl note p).cursor t.direction).last = some t.last := by
  induction n generalizing p with
  | zero => exact h
  | succ n ih =>
    rw [List.replicate_succ, List.foldl_cons]
    refine ih ?_
    rw [cursor_note, if_pos rfl, Cursor.last_step]

/-- However often an access is taken in, it leaves no trace just if it repeats the latest one. -/
theorem foldl_note_eq_self_iff (p : Pattern) (t : Touch) (n : Nat) :
    (List.replicate (n + 1) t).foldl note p = p ↔ p.Repeats t := by
  constructor
  · intro h
    -- the last time was after an access that ended at the same block
    rw [List.replicate_succ', List.foldl_concat] at h
    have hcursor : (p.cursor t.direction) = ((((List.replicate n t).foldl note p).cursor
        t.direction).step t.block t.blocks).2 := by
      conv_lhs => rw [← h, cursor_note, if_pos rfl]
    have hlast : (p.cursor t.direction).last = some t.last := by
      rw [hcursor, Cursor.last_step]
    have haccount := congrArg account h
    rw [account_note] at haccount
    refine ⟨hlast, ?_, ?_⟩
    · rw [hcursor, Cursor.step_of_last (last_foldl_note n hlast)]
      split <;> rename_i hempty
      · exact .inr hempty
      · exact .inl rfl
    · split at haccount
      · exact .inl ‹_›
      · exact .inr haccount.symm
  · intro h
    induction n with
    | zero => exact h.note_eq
    | succ n ih => rw [List.replicate_succ, List.foldl_cons, h.note_eq, ih]

end Pattern

namespace Runs

variable (r : Runs) (t : Touch)

theorem getElem?_note (f : Key) :
    (r.note t).patterns[f]? =
      if t.fork = f then some ((r.pattern f).note t) else r.patterns[f]? := by
  have hcheck : ∀ f, (r.check t.fork t.block t.blocks t.direction).2.patterns[f]? =
      if t.fork = f then some ((r.pattern t.fork).withCursor t.direction
        (((r.pattern t.fork).cursor t.direction).step t.block t.blocks).2)
      else r.patterns[f]? := by
    intro f
    simp [check, Std.HashMap.getElem?_insert]
  unfold note Pattern.note
  dsimp only
  by_cases hkey : t.key = t.fork
  · rw [if_pos hkey, if_pos hkey, hcheck]
    split
    · subst f
      rfl
    · rfl
  · -- the fork is remembered by now, so that the key can be noted
    rw [if_neg hkey, if_neg hkey, accountUnder, hcheck, if_pos rfl]
    simp only [Std.HashMap.getElem?_insert, beq_iff_eq, hcheck]
    split
    · subst f
      rfl
    · rfl

theorem getElem?_noteAll_replicate (n : Nat) (f : Key) :
    (r.noteAll (List.replicate (n + 1) t)).patterns[f]? =
      if t.fork = f then some ((List.replicate (n + 1) t).foldl Pattern.note (r.pattern f))
      else r.patterns[f]? := by
  induction n generalizing r with
  | zero => exact getElem?_note r t f
  | succ n ih =>
    have hcons : r.noteAll (List.replicate (n + 2) t) =
        (r.note t).noteAll (List.replicate (n + 1) t) := rfl
    rw [hcons, ih, pattern_note, List.replicate_succ (n := n + 1), List.foldl_cons]
    by_cases hf : t.fork = f
    · simp only [if_pos hf]
    · rw [if_neg hf, if_neg hf, getElem?_note r t f, if_neg hf]

/-- However often an access is taken in, it leaves no trace just if it repeats the latest one. -/
theorem noteAll_replicate_iff (n : Nat) :
    (∀ f : Key, (r.noteAll (List.replicate (n + 1) t)).patterns[f]? = r.patterns[f]?) ↔
      ∃ p, r.patterns[t.fork]? = some p ∧ p.Repeats t := by
  simp only [getElem?_noteAll_replicate]
  constructor
  · intro h
    have hfork := h t.fork
    rw [if_pos rfl] at hfork
    have hpattern : r.pattern t.fork =
        (List.replicate (n + 1) t).foldl Pattern.note (r.pattern t.fork) := by
      conv_lhs => rw [pattern, Std.HashMap.getD_eq_getD_getElem?, ← hfork, Option.getD_some]
    exact ⟨_, by rw [← hfork, ← hpattern], (Pattern.foldl_note_eq_self_iff _ t n).mp hpattern.symm⟩
  · rintro ⟨p, hp, hrepeats⟩ f
    split
    · subst f
      have hpattern : r.pattern t.fork = p := by
        rw [pattern, Std.HashMap.getD_eq_getD_getElem?, hp, Option.getD_some]
      rw [hp, hpattern, (Pattern.foldl_note_eq_self_iff p t n).mpr hrepeats]
    · rfl

end Runs
end BlockLedger
