import BlockLedger.Proofs.Runs.Counting
import Mathlib

/-
# What a run detector answers

A detector is told of one access after the other, and answers each of them from the one cursor that
it keeps for the fork and the direction.  Here its answers are told from the accesses alone.  Only
the earlier accesses to the same fork in the same direction matter; an access is sequential if it
starts right after the block that the latest of them ended at; and if it is not, the run that it ends
is the longest contiguous chain that they end with.

An access either lengthens the run that is open or hands it out, also where block numbers wrap around
and where no block is moved at all.  So no block gets lost, as long as lengths of runs stay within
their words of 64 bits: if accesses that carry on one another move as many blocks as such a word has
numbers, then a program that looks out for that crashes, and one that does not loses multiples of so
many blocks.
-/

namespace BlockLedger

/-! ## Chains -/

/-- The accesses to a fork in one direction. -/
def accessesTo (ts : List Touch) (f : Key) (d : Direction) : List Touch :=
  ts.filter fun t => t.fork = f ∧ t.direction = d

/-- How many blocks accesses move. -/
def blocksOf (ts : List Touch) : Nat := (ts.map fun t => t.blocks.toNat).sum

/-- Whether an access starts at the block after the last one of the access before, where the blocks
of either may wrap around.  After the last block number there is none. -/
def Touch.carries (t u : Touch) : Bool := t.last ≠ 4294967295 && t.last + 1 == u.block

/-- Each access joins the one before. -/
def Contiguous (joins : Touch → Touch → Bool) (ts : List Touch) : Prop :=
  ts.IsChain fun t u => joins t u = true

/-- The longest contiguous chain that a row of accesses ends with. -/
structure ClosingChain (joins : Touch → Touch → Bool) (ts chain : List Touch) : Prop where
  suffix : chain <:+ ts
  contiguous : Contiguous joins chain
  longest : ∀ other, other <:+ ts → Contiguous joins other → other <:+ chain

/-- No contiguous chain within a row has as many blocks as a word of 64 bits has numbers. -/
def RunsFit (ts : List Touch) : Prop :=
  ∀ chain, chain <:+: ts → Contiguous Touch.carries chain → blocksOf chain < 2 ^ 64

section Rows

variable (ts us : List Touch) (t : Touch) (f : Key) (d : Direction)

theorem latest_eq : latest ts f d = (accessesTo ts f d).getLast? := rfl

theorem accessesTo_append :
    accessesTo (ts ++ us) f d = accessesTo ts f d ++ accessesTo us f d :=
  List.filter_append ..

theorem accessesTo_self : accessesTo (accessesTo ts f d) f d = accessesTo ts f d := by
  simp [accessesTo]

theorem accessesTo_singleton :
    accessesTo [t] f d = if t.fork = f ∧ t.direction = d then [t] else [] := by
  simp [accessesTo, List.filter_singleton]

theorem blocksOf_concat : blocksOf (ts ++ [t]) = blocksOf ts + t.blocks.toNat := by
  simp [blocksOf]

variable {ts us} in
theorem blocksOf_le (h : ts <:+ us) : blocksOf ts ≤ blocksOf us :=
  (h.sublist.map _).sum_le_sum fun _ _ => Nat.zero_le _

end Rows

theorem Touch.carries_eq_joins {t : Touch} (ht : t.Fits) (u : Touch) : t.carries u = t.joins u :=
  Cursor.continues_iff ht (c := ⟨some t.last, 0⟩) rfl u

/-- A chain that keeps to the block space is no longer than the space before its end. -/
theorem Contiguous.blocksOf_le {chain : List Touch} (h : Contiguous Touch.joins chain)
    (hfits : ∀ t ∈ chain, t.Fits) {t : Touch} (hlast : chain.getLast? = some t) :
    blocksOf chain ≤ t.block.toNat + t.blocks.toNat := by
  induction chain using List.reverseRecOn generalizing t with
  | nil => cases hlast
  | append_singleton chain u ih =>
    obtain rfl : u = t := by simpa using hlast
    rw [blocksOf_concat]
    cases hend : chain.getLast? with
    | none => simp [List.getLast?_eq_none_iff.mp hend, blocksOf]
    | some v =>
      obtain ⟨hchain, -, hjoins⟩ := List.isChain_append.mp h
      have hbefore := ih hchain (fun v hv => hfits v (List.mem_append_left _ hv)) hend
      have hblock : v.joins u = true := hjoins v hend u rfl
      rw [Touch.joins, beq_iff_eq] at hblock
      omega

namespace ClosingChain

variable {joins joins' : Touch → Touch → Bool} {ts chain : List Touch} {t u : Touch}

theorem nil : ClosingChain joins [] [] :=
  ⟨List.suffix_rfl, List.isChain_nil, fun _ h _ => h⟩

/-- The last access of a row belongs to the chain that the row ends with. -/
theorem getLast? (h : ClosingChain joins ts chain) (hlast : ts.getLast? = some t) :
    chain.getLast? = some t := by
  obtain ⟨init, rfl⟩ := List.getLast?_eq_some_iff.mp hlast
  obtain ⟨rest, rfl⟩ := h.longest [t] (List.suffix_append init [t]) (List.isChain_singleton t)
  simp

/-- An access that starts where the row has ended lengthens the chain. -/
theorem extend (h : ClosingChain joins ts chain) (hlast : ts.getLast? = some t)
    (hjoins : joins t u = true) : ClosingChain joins (ts ++ [u]) (chain ++ [u]) where
  suffix := List.suffix_concat_iff.mpr (.inr ⟨chain, rfl, h.suffix⟩)
  contiguous := by
    refine List.isChain_append.mpr ⟨h.contiguous, List.isChain_singleton u, ?_⟩
    simp [h.getLast? hlast, hjoins]
  longest other hsuffix hother := by
    rcases List.suffix_concat_iff.mp hsuffix with rfl | ⟨rest, rfl, hrest⟩
    · exact List.nil_suffix
    · have hprefix := h.longest rest hrest (List.isChain_append.mp hother).1
      exact List.suffix_concat_iff.mpr (.inr ⟨rest, rfl, hprefix⟩)

/-- Any other access starts a chain of its own. -/
theorem restart (hlast : ∀ t, ts.getLast? = some t → joins t u = false) :
    ClosingChain joins (ts ++ [u]) [u] where
  suffix := List.suffix_append ts [u]
  contiguous := List.isChain_singleton u
  longest other hsuffix hother := by
    rcases List.suffix_concat_iff.mp hsuffix with rfl | ⟨rest, rfl, hrest⟩
    · exact List.nil_suffix
    · -- whatever came before the access would have to be joined by it
      cases hend : rest.getLast? with
      | none =>
        rw [List.getLast?_eq_none_iff.mp hend]
        exact List.suffix_rfl
      | some t =>
        have hjoins : joins t u = true := (List.isChain_append.mp hother).2.2 t hend u rfl
        obtain ⟨init, rfl⟩ := hrest
        have hts : (init ++ rest).getLast? = some t := by
          rw [List.getLast?_append, hend]
          rfl
        rw [hlast t hts] at hjoins
        cases hjoins

/-- What joins what matters only for the accesses of the row. -/
theorem congr (h : ClosingChain joins ts chain) (heq : ∀ t ∈ ts, ∀ u, joins t u = joins' t u) :
    ClosingChain joins' ts chain where
  suffix := h.suffix
  contiguous := h.contiguous.imp_of_mem_imp fun a b ha _ hab => by
    rwa [← heq a (h.suffix.subset ha)]
  longest other hsuffix hother := h.longest other hsuffix <|
    hother.imp_of_mem_imp fun a b ha _ hab => by rwa [heq a (hsuffix.subset ha)]

/-- One more access leaves all runs within their words if it does so for the chain that it ends. -/
theorem runsFit_concat (h : ClosingChain Touch.carries (ts ++ [u]) chain) :
    RunsFit (ts ++ [u]) ↔ RunsFit ts ∧ blocksOf chain < 2 ^ 64 := by
  constructor
  · intro hfit
    exact ⟨fun other hinfix => hfit other (List.infix_concat_iff.mpr (.inr hinfix)),
      hfit chain h.suffix.isInfix h.contiguous⟩
  · rintro ⟨hfit, hchain⟩ other hinfix hother
    rcases List.infix_concat_iff.mp hinfix with hsuffix | hbefore
    · exact Nat.lt_of_le_of_lt (blocksOf_le (h.longest other hsuffix hother)) hchain
    · exact hfit other hbefore hother

end ClosingChain

/-! ## A single row -/

namespace Cursor

/-- What is remembered after a row of accesses to one fork in one direction. -/
def after (ts : List Touch) : Cursor :=
  ts.foldl (fun c t => (c.step t.block t.blocks).2) {}

theorem after_concat (ts : List Touch) (t : Touch) :
    after (ts ++ [t]) = ((after ts).step t.block t.blocks).2 := by
  simp [after]

/-- The length of the open run leaves its word when an access is taken in. -/
def Overflows (c : Cursor) (t : Touch) : Prop :=
  c.continues t.block = true ∧ 2 ^ 64 ≤ c.run.toNat + t.blocks.toNat

instance (c : Cursor) (t : Touch) : Decidable (c.Overflows t) :=
  inferInstanceAs (Decidable (_ ∧ _))

/-- The blocks of an access are added to the run that is open or take its place, and then it is
handed out.  What leaves the word is lost. -/
theorem balance_step (c : Cursor) (t : Touch) :
    (c.step t.block t.blocks).1.ended + (c.step t.block t.blocks).2.run.toNat +
      (if c.Overflows t then 2 ^ 64 else 0) = c.run.toNat + t.blocks.toNat := by
  have hrun := c.run.toNat_lt
  have hblocks := t.blocks.toNat_lt
  rw [ended_step, run_step]
  by_cases hcontinues : c.continues t.block = true
  · rw [if_pos hcontinues, if_pos hcontinues]
    split <;> rename_i hover
    · have hfull := hover.2
      omega
    · have hfits : c.run.toNat + t.blocks.toNat < 2 ^ 64 :=
        Nat.lt_of_not_le fun hle => hover ⟨hcontinues, hle⟩
      omega
  · rw [if_neg hcontinues, if_neg hcontinues, if_neg fun hover => hcontinues hover.1]
    omega

variable {ts : List Touch}

theorem last_after (ts : List Touch) : (after ts).last = ts.getLast?.map Touch.last := by
  cases ts using List.reverseRecOn with
  | nil => rfl
  | append_singleton ts t => rw [after_concat, last_step, List.getLast?_concat, Option.map_some]

/-- An access carries on the run that is open if it starts where the latest access ended. -/
theorem continues_after (ts : List Touch) (u : Touch) :
    (after ts).continues u.block = true ↔ ∃ t, ts.getLast? = some t ∧ t.carries u = true := by
  have hlast := last_after ts
  cases h : ts.getLast? with
  | none =>
    rw [h, Option.map_none] at hlast
    simp [continues, hlast]
  | some t =>
    rw [h, Option.map_some] at hlast
    simp [continues, hlast, Touch.carries]

theorem closingChain_concat {chain : List Touch} (h : ClosingChain Touch.carries ts chain)
    (u : Touch) :
    ClosingChain Touch.carries (ts ++ [u])
      (if (after ts).continues u.block = true then chain ++ [u] else [u]) := by
  split <;> rename_i hcontinues
  · obtain ⟨t, hlast, hcarries⟩ := (continues_after ts u).mp hcontinues
    exact h.extend hlast hcarries
  · refine .restart fun t hlast => ?_
    by_contra hcarries
    exact hcontinues ((continues_after ts u).mpr ⟨t, hlast, by simpa using hcarries⟩)

/-- The run that is open after a row is the chain that the row ends with, told in a word. -/
theorem run_after (ts : List Touch) :
    ∃ chain, ClosingChain Touch.carries ts chain ∧
      (after ts).run.toNat = blocksOf chain % 2 ^ 64 := by
  induction ts using List.reverseRecOn with
  | nil => exact ⟨[], .nil, rfl⟩
  | append_singleton ts t ih =>
    obtain ⟨chain, hchain, hrun⟩ := ih
    refine ⟨_, closingChain_concat hchain t, ?_⟩
    rw [after_concat, run_step]
    split
    · rw [hrun, blocksOf_concat, Nat.mod_add_mod]
    · have hblocks := t.blocks.toNat_lt
      have hone : blocksOf [t] = t.blocks.toNat := by simp [blocksOf]
      rw [hone, Nat.mod_eq_of_lt (by omega)]

/-- Within the block space the word tells the length of the chain. -/
theorem run_after_of_fits (hts : ∀ t ∈ ts, t.Fits) :
    ∃ chain, ClosingChain Touch.joins ts chain ∧ (after ts).run.toNat = blocksOf chain := by
  obtain ⟨chain, hcarries, hrun⟩ := run_after ts
  have hchain := hcarries.congr fun t ht u => Touch.carries_eq_joins (hts t ht) u
  refine ⟨chain, hchain, hrun.trans (Nat.mod_eq_of_lt ?_)⟩
  cases hlast : chain.getLast? with
  | none => simp [List.getLast?_eq_none_iff.mp hlast, blocksOf]
  | some t =>
    have hfits : ∀ t ∈ chain, t.Fits := fun t ht => hts t (hchain.suffix.subset ht)
    have hle := hchain.contiguous.blocksOf_le hfits hlast
    have hbounded := (hfits t (List.mem_of_getLast? hlast)).bounded
    omega

/-- All runs stay within their words as long as none leaves it when an access is taken in. -/
theorem runsFit_concat_iff (ts : List Touch) (t : Touch) :
    RunsFit (ts ++ [t]) ↔ RunsFit ts ∧ ¬(after ts).Overflows t := by
  obtain ⟨chain, hchain, hrun⟩ := run_after ts
  rw [(closingChain_concat hchain t).runsFit_concat]
  refine and_congr_right fun hfit => ?_
  rw [Nat.mod_eq_of_lt (hfit chain hchain.suffix.isInfix hchain.contiguous)] at hrun
  have hblocks := t.blocks.toNat_lt
  rw [Overflows, hrun]
  split <;> rename_i hcontinues
  · rw [blocksOf_concat, not_and, Nat.not_le]
    exact ⟨fun hlt _ => hlt, fun himp => himp hcontinues⟩
  · have hone : blocksOf [t] < 2 ^ 64 := by
      have : blocksOf [t] = t.blocks.toNat := by simp [blocksOf]
      omega
    exact iff_of_true hone fun hover => hcontinues hover.1

end Cursor

/-! ## All rows at once -/

namespace Runs

/-- What is remembered of a fork in one direction is told from the accesses to it alone. -/
theorem cursor_noteAll (ts : List Touch) (f : Key) (d : Direction) :
    ((noteAll {} ts).pattern f).cursor d = Cursor.after (accessesTo ts f d) := by
  induction ts using List.reverseRecOn with
  | nil => cases d <;> simp [noteAll, Pattern.cursor, accessesTo, Cursor.after]
  | append_singleton ts t ih =>
    rw [noteAll_concat, pattern_note, accessesTo_append, accessesTo_singleton]
    by_cases hf : t.fork = f
    · rw [if_pos hf, Pattern.cursor_note, ih]
      by_cases hd : t.direction = d
      · simp [hf, hd, Cursor.after_concat]
      · simp [hd]
    · simp [hf, ih]

theorem judge_noteAll (ts : List Touch) (u : Touch) :
    (noteAll {} ts).judge u =
      ((Cursor.after (accessesTo ts u.fork u.direction)).step u.block u.blocks).1 := by
  rw [judge_eq, cursor_noteAll]

/-- The accesses, each with what the detector answers. -/
def transcript (r : Runs) : List Touch → List (Touch × Access)
  | [] => []
  | t :: ts => (t, r.judge t) :: (r.note t).transcript ts

theorem transcript_append (r : Runs) (ts us : List Touch) :
    r.transcript (ts ++ us) = r.transcript ts ++ (r.noteAll ts).transcript us := by
  induction ts generalizing r with
  | nil => rfl
  | cons t ts ih => simp [transcript, ih, noteAll]

/-- Every access is answered from what is remembered of those before it. -/
theorem getElem?_transcript (r : Runs) (ts : List Touch) (i : Nat) :
    (r.transcript ts)[i]? = ts[i]?.map fun t => (t, (r.noteAll (ts.take i)).judge t) := by
  induction ts generalizing r i with
  | nil => rfl
  | cons t ts ih =>
    cases i with
    | zero => rfl
    | succ i => simp [transcript, ih, noteAll]

/-- How many blocks the runs have that were ended by accesses to a fork in one direction. -/
def endedBlocks (ts : List Touch) (f : Key) (d : Direction) : Nat :=
  ((({} : Runs).transcript ts).filter fun x => x.1.fork = f ∧ x.1.direction = d).map
    (fun x => x.2.ended) |>.sum

theorem endedBlocks_concat (ts : List Touch) (t : Touch) (f : Key) (d : Direction) :
    endedBlocks (ts ++ [t]) f d = endedBlocks ts f d +
      if t.fork = f ∧ t.direction = d then ((noteAll {} ts).judge t).ended else 0 := by
  simp only [endedBlocks, transcript_append, transcript, List.filter_append, List.map_append,
    List.sum_append, List.filter_singleton]
  by_cases h : t.fork = f ∧ t.direction = d <;> simp [h]

/-- What is lost of the blocks accessed are multiples of what a word holds, and none as long as all
runs stay within their words. -/
theorem endedBlocks_add_run (ts : List Touch) (f : Key) (d : Direction) :
    ∃ laps, endedBlocks ts f d + (((noteAll {} ts).pattern f).cursor d).run.toNat + laps * 2 ^ 64 =
        blocksOf (accessesTo ts f d) ∧
      (laps = 0 ↔ RunsFit (accessesTo ts f d)) := by
  induction ts using List.reverseRecOn with
  | nil =>
    refine ⟨0, ?_, iff_of_true rfl fun chain hinfix _ => ?_⟩
    · cases d <;> simp [endedBlocks, transcript, noteAll, Pattern.cursor, accessesTo, blocksOf]
    · have hnil : chain = [] := List.infix_nil.mp hinfix
      simp [hnil, blocksOf]
  | append_singleton ts t ih =>
    obtain ⟨laps, hsum, hlaps⟩ := ih
    rw [cursor_noteAll] at hsum ⊢
    rw [endedBlocks_concat, accessesTo_append, accessesTo_singleton]
    by_cases h : t.fork = f ∧ t.direction = d
    · obtain ⟨rfl, rfl⟩ := h
      have hstep := (Cursor.after (accessesTo ts t.fork t.direction)).balance_step t
      have hfit := Cursor.runsFit_concat_iff (accessesTo ts t.fork t.direction) t
      rw [if_pos ⟨rfl, rfl⟩, if_pos ⟨rfl, rfl⟩, Cursor.after_concat, blocksOf_concat,
        judge_noteAll, hfit, ← hlaps]
      by_cases hover : (Cursor.after (accessesTo ts t.fork t.direction)).Overflows t
      · rw [if_pos hover] at hstep
        exact ⟨laps + 1, by omega, iff_of_false (by omega) fun hnot => hnot.2 hover⟩
      · rw [if_neg hover] at hstep
        exact ⟨laps, by omega, (and_iff_left hover).symm⟩
    · rw [if_neg h, if_neg h, Nat.add_zero, List.append_nil]
      exact ⟨laps, hsum, hlaps⟩

/-- Takes in an access as a program does that looks out for numbers that leave their words: `none` if
it crashes. -/
def note? (r : Runs) (t : Touch) : Option Runs :=
  if ((r.pattern t.fork).cursor t.direction).Overflows t then none else some (r.note t)

/-- A program that looks out remembers the same, or crashes when a run leaves its word. -/
theorem foldlM_note? (ts : List Touch) (r : Runs) :
    ts.foldlM note? {} = some r ↔ (∀ f d, RunsFit (accessesTo ts f d)) ∧ r = noteAll {} ts := by
  induction ts using List.reverseRecOn generalizing r with
  | nil =>
    have hfit : ∀ f d, RunsFit (accessesTo [] f d) := by
      intro f d chain hinfix _
      have hnil : chain = [] := List.infix_nil.mp hinfix
      simp [hnil, blocksOf]
    rw [and_iff_right hfit, List.foldlM_nil, eq_comm]
    exact Option.some_inj
  | append_singleton ts t ih =>
    -- the runs of other forks and of the other direction are as before
    have hfit : (∀ f d, RunsFit (accessesTo (ts ++ [t]) f d)) ↔
        (∀ f d, RunsFit (accessesTo ts f d)) ∧
          ¬(Cursor.after (accessesTo ts t.fork t.direction)).Overflows t := by
      have hone : ∀ f d, RunsFit (accessesTo (ts ++ [t]) f d) ↔ RunsFit (accessesTo ts f d) ∧
          (t.fork = f ∧ t.direction = d →
            ¬(Cursor.after (accessesTo ts t.fork t.direction)).Overflows t) := by
        intro f d
        rw [accessesTo_append, accessesTo_singleton]
        split <;> rename_i h
        · obtain ⟨rfl, rfl⟩ := h
          rw [Cursor.runsFit_concat_iff]
          simp
        · simp [h]
      simp only [hone]
      exact ⟨fun hall => ⟨fun f d => (hall f d).1, (hall _ _).2 ⟨rfl, rfl⟩⟩,
        fun hall f d => ⟨hall.1 f d, fun _ => hall.2⟩⟩
    rw [List.foldlM_append, hfit, noteAll_concat]
    cases hbefore : ts.foldlM note? {} with
    | none =>
      have hnot : ¬∀ f d, RunsFit (accessesTo ts f d) := by
        intro hall
        have hsome := (ih (noteAll {} ts)).mpr ⟨hall, rfl⟩
        rw [hbefore] at hsome
        cases hsome
      exact iff_of_false nofun fun h => hnot h.1.1
    | some before =>
      obtain ⟨hall, rfl⟩ := (ih before).mp hbefore
      rw [Option.bind_eq_bind, Option.bind_some, List.foldlM_cons, note?, cursor_noteAll,
        and_iff_right hall]
      split <;> rename_i hover
      · exact iff_of_false nofun fun h => h.1 hover
      · rw [and_iff_right hover, Option.bind_eq_bind, Option.bind_some, List.foldlM_nil, eq_comm]
        exact Option.some_inj

/-- What the answers of a detector say about the accesses it is told of. -/
theorem answers_tell_runs (ts : List Touch) :
    -- each access is answered, and others than those of its fork and direction do not matter
    (∀ i t, ts[i]? = some t → ∃ a, (({} : Runs).transcript ts)[i]? = some (t, a) ∧
      (noteAll {} (accessesTo (ts.take i) t.fork t.direction)).judge t = a) ∧
    -- as long as all accesses are within the block space
    ((∀ t ∈ ts, t.Fits) → ∀ i t a, (({} : Runs).transcript ts)[i]? = some (t, a) →
      -- an access is sequential if the latest one before it ended at the block before
      (a.sequential = true ↔ ∃ u, latest (ts.take i) t.fork t.direction = some u ∧
        t.block.toNat = u.block.toNat + u.blocks.toNat) ∧
      -- nothing is ended by a sequential access, or by the first one
      (a.sequential = true ∨ latest (ts.take i) t.fork t.direction = none → a.ended = 0) ∧
      -- any other access ends the longest chain right before it
      (a.sequential = false → latest (ts.take i) t.fork t.direction ≠ none →
        ∃ chain, ClosingChain Touch.joins (accessesTo (ts.take i) t.fork t.direction) chain ∧
          a.ended = blocksOf chain)) ∧
    -- in any case no block is counted twice, and none is lost just if all runs stay within their words
    (∀ f d, ∃ lost, endedBlocks ts f d + (((noteAll {} ts).pattern f).cursor d).run.toNat + lost =
        blocksOf (accessesTo ts f d) ∧
      2 ^ 64 ∣ lost ∧ (lost = 0 ↔ RunsFit (accessesTo ts f d))) ∧
    -- if one does not, a program that looks out crashes
    ∀ r, ts.foldlM note? {} = some r ↔
      (∀ f d, RunsFit (accessesTo ts f d)) ∧ r = noteAll {} ts := by
  refine ⟨?_, ?_, fun f d => ?_, foldlM_note? ts⟩
  · intro i t ht
    refine ⟨(noteAll {} (ts.take i)).judge t, by rw [getElem?_transcript, ht, Option.map_some], ?_⟩
    rw [judge_noteAll, judge_noteAll, accessesTo_self]
  · intro hts i t a hi
    obtain ⟨t, -, heq⟩ := Option.map_eq_some_iff.mp ((getElem?_transcript _ ts i).symm.trans hi)
    obtain ⟨rfl, rfl⟩ := Prod.mk.inj heq
    have hfits : ∀ u ∈ accessesTo (ts.take i) t.fork t.direction, u.Fits :=
      fun u hu => hts u (List.mem_of_mem_take (List.mem_of_mem_filter hu))
    have hcontinues := Cursor.continues_after (accessesTo (ts.take i) t.fork t.direction) t
    have hjoins : ∀ u, (accessesTo (ts.take i) t.fork t.direction).getLast? = some u →
        u.carries t = u.joins t := fun u hu =>
      Touch.carries_eq_joins (hfits u (List.mem_of_getLast? hu)) t
    rw [judge_noteAll, latest_eq, Cursor.sequential_step, Cursor.ended_step]
    refine ⟨?_, ?_, ?_⟩
    · rw [hcontinues]
      refine exists_congr fun u => and_congr_right fun hu => ?_
      rw [hjoins u hu, Touch.joins, beq_iff_eq]
    · rintro (h | h)
      · rw [if_pos h]
      · rw [List.getLast?_eq_none_iff.mp h]
        exact ite_self 0
    · intro h _
      obtain ⟨chain, hchain, hrun⟩ := Cursor.run_after_of_fits hfits
      exact ⟨chain, hchain, by rw [if_neg (by simp [h]), hrun]⟩
  · obtain ⟨laps, hsum, hlaps⟩ := endedBlocks_add_run ts f d
    refine ⟨laps * 2 ^ 64, hsum, Nat.dvd_mul_left .., ?_⟩
    rw [← hlaps, Nat.mul_eq_zero, or_iff_left (by decide)]

/-- Two forks are read, and one of them is written, in turn; the last reads are those of the last
block there can be and of the first one. -/
def interleaved : List Touch :=
  let table : Key := ⟨⟨1663, 5, 16500⟩, .main⟩
  let index : Key := ⟨⟨1663, 5, 16501⟩, .main⟩
  [⟨table, table, .read, 10, 4⟩, ⟨index, index, .read, 14, 1⟩, ⟨table, table, .write, 14, 2⟩,
    ⟨table, table, .read, 14, 2⟩, ⟨table, table, .read, 4294967295, 1⟩,
    ⟨table, table, .read, 0, 1⟩]

/-- The read of the last block ends a run of six blocks, and that of the first one carries on
nothing. -/
theorem answers_tell_interleaved :
    (∀ t ∈ interleaved, t.Fits) ∧
      (∃ t a, (({} : Runs).transcript interleaved)[4]? = some (t, a) ∧
        a.sequential = false ∧ a.ended = 6) ∧
      ∃ t a, (({} : Runs).transcript interleaved)[5]? = some (t, a) ∧ a.sequential = false := by
  have hfits : ∀ t ∈ interleaved, t.Fits := by
    have hall : ∀ t ∈ interleaved,
        0 < t.blocks.toNat ∧ t.block.toNat + t.blocks.toNat ≤ 2 ^ 32 := by decide
    exact fun t ht => ⟨(hall t ht).1, (hall t ht).2⟩
  obtain ⟨hanswered, htold, -⟩ := answers_tell_runs interleaved
  have hnot : ∀ i t a, (({} : Runs).transcript interleaved)[i]? = some (t, a) →
      (∀ u, latest (interleaved.take i) t.fork t.direction = some u →
        t.block.toNat ≠ u.block.toNat + u.blocks.toNat) → a.sequential = false := by
    intro i t a hi hne
    by_contra hseq
    obtain ⟨u, hu, hblock⟩ := (htold hfits i t a hi).1.mp (by simpa using hseq)
    exact hne u hu hblock
  refine ⟨hfits, ?_, ?_⟩
  · obtain ⟨a, ha, -⟩ := hanswered 4 _ rfl
    have hseq := hnot 4 _ a ha (by decide)
    obtain ⟨chain, hchain, hended⟩ := (htold hfits 4 _ a ha).2.2 hseq (by decide)
    -- all that has been read of the table so far is one chain
    have hwhole := hchain.longest _ List.suffix_rfl (by simp [Contiguous]; decide)
    have hsix : a.ended = 6 := by
      rw [hended, ← hwhole.eq_of_length_le hchain.suffix.length_le]
      decide
    exact ⟨_, a, ha, hseq, hsix⟩
  · obtain ⟨a, ha, -⟩ := hanswered 5 _ rfl
    exact ⟨_, a, ha, hnot 5 _ a ha (by decide)⟩

/-- The fork that `winding` reads. -/
def wound : Key := ⟨⟨1663, 5, 16500⟩, .main⟩

/-- Reads around the block space, again and again, each of which carries on the one before. -/
def winding (laps : Nat) : List Touch :=
  (List.replicate laps [(⟨wound, wound, .read, 1, 2147483648⟩ : Touch),
    ⟨wound, wound, .read, 2147483649, 2147483648⟩]).flatten

section Winding

variable (laps : Nat)

theorem winding_succ :
    winding (laps + 1) = [⟨wound, wound, .read, 1, 2147483648⟩,
      ⟨wound, wound, .read, 2147483649, 2147483648⟩] ++ winding laps := by
  simp [winding, List.replicate_succ]

theorem accessesTo_winding : accessesTo (winding laps) wound .read = winding laps := by
  simp [accessesTo, winding]

theorem blocksOf_winding : blocksOf (winding laps) = laps * 2 ^ 32 := by
  induction laps with
  | zero => rfl
  | succ laps ih =>
    have hlap : blocksOf (winding (laps + 1)) = 2 ^ 32 + blocksOf (winding laps) := by
      simp [winding_succ, blocksOf]
      omega
    omega

theorem contiguous_winding : Contiguous Touch.carries (winding laps) := by
  induction laps with
  | zero => exact List.isChain_nil
  | succ laps ih =>
    rw [winding_succ]
    refine List.isChain_append.mpr ⟨?_, ih, ?_⟩
    · simp; decide
    · cases laps with
      | zero => simp [winding]
      | succ laps => simp [winding_succ, Touch.carries, Touch.last]

end Winding

/-- Reads that have gone around the block space so often that they have moved as many blocks as a word
of 64 bits has numbers: no run has ended, and the open one is told as empty. -/
theorem winding_leaves_nothing :
    blocksOf (accessesTo (winding (2 ^ 32)) wound .read) = 2 ^ 64 ∧
      Contiguous Touch.carries (accessesTo (winding (2 ^ 32)) wound .read) ∧
      endedBlocks (winding (2 ^ 32)) wound .read = 0 ∧
      (((noteAll {} (winding (2 ^ 32))).pattern wound).cursor .read).run = 0 ∧
      (winding (2 ^ 32)).foldlM note? {} = none := by
  generalize hlaps : 2 ^ 32 = laps
  have hblocks : blocksOf (winding laps) = 2 ^ 64 := by
    rw [blocksOf_winding, ← hlaps]
  have hlong : ¬RunsFit (winding laps) := fun hfit =>
    absurd (hfit _ List.infix_rfl (contiguous_winding laps)) (by omega)
  obtain ⟨lost, hsum, hlost⟩ := endedBlocks_add_run (winding laps) wound .read
  rw [accessesTo_winding] at hsum hlost ⊢
  have hpos : lost ≠ 0 := fun h => hlong (hlost.mp h)
  refine ⟨hblocks, contiguous_winding laps, by omega, ?_, ?_⟩
  · exact UInt64.toNat_inj.mp (show _ = 0 by omega)
  · by_contra hsome
    obtain ⟨r, hr⟩ := Option.ne_none_iff_exists'.mp hsome
    have hfit := ((foldlM_note? _ r).mp hr).1 wound .read
    rw [accessesTo_winding] at hfit
    exact hlong hfit

end Runs

end BlockLedger
