import BlockLedger.Proofs.Store.Path
import Mathlib.Data.List.Nodup

/-
# Closing a bucket

A closing snapshot turns to the next bucket and then comes to every entry once.  It takes along a
copy of each entry with activity, so there is at most one copy for each key, and leaves an entry
without activity behind.
-/

namespace BlockLedger

namespace Store

variable (s : Store)

/-- The marks of taking the entries of a list of keys, one after the other. -/
def takings (s : Store) : List Key → List Mark
  | [] => []
  | k :: rest => .taken k (s.take k).1 :: (s.take k).2.takings rest

theorem takeAll_cons (k : Key) (rest : List Key) :
    s.takeAll (k :: rest) =
      ((s.take k).1.toList ++ ((s.take k).2.takeAll rest).1, ((s.take k).2.takeAll rest).2) :=
  rfl

theorem takeAll_append (ks ks' : List Key) :
    s.takeAll (ks ++ ks') =
      ((s.takeAll ks).1 ++ ((s.takeAll ks).2.takeAll ks').1, ((s.takeAll ks).2.takeAll ks').2) := by
  induction ks generalizing s with
  | nil => rfl
  | cons k rest ih => simp [takeAll_cons, ih]

theorem takeAll_path (ks : List Key) : s.Path (s.takings ks) (s.takeAll ks).2 := by
  induction ks generalizing s with
  | nil => exact .refl
  | cons k rest ih => exact (Step.take k).path.trans (ih _)

theorem copies_takings (ks : List Key) : copies (s.takings ks) = (s.takeAll ks).1 := by
  induction ks generalizing s with
  | nil => rfl
  | cons k rest ih =>
    rw [takings, ← List.singleton_append, copies_append, copies_singleton, ih, takeAll_cons]
    rfl

theorem find?_takeAll (ks : List Key) (k : Key) :
    (s.takeAll ks).2.find? k = if k ∈ ks then (s.find? k).map Entry.closed else s.find? k := by
  induction ks generalizing s with
  | nil => rfl
  | cons k' rest ih =>
    rw [takeAll_cons, ih, find?_take]
    by_cases hk : k' = k
    · subst hk
      simp [Function.comp_def]
    · simp [hk, Ne.symm hk]

/-- An entry that is come to again is without activity by then, and not taken along. -/
theorem mem_takeAll (ks : List Key) (e : Entry) :
    e ∈ (s.takeAll ks).1 ↔ ∃ k ∈ ks, s.find? k = some e ∧ e.active = true := by
  induction ks generalizing s with
  | nil => simp [takeAll]
  | cons k rest ih =>
    have hrest : ∀ k', (s.take k).2.find? k' = some e ∧ e.active = true ↔
        k ≠ k' ∧ s.find? k' = some e ∧ e.active = true := by
      intro k'
      rw [find?_take]
      split
      · refine ⟨fun ⟨he, ha⟩ => ?_, fun h => absurd ‹k = k'› h.1⟩
        obtain ⟨e', -, rfl⟩ := Option.map_eq_some_iff.mp he
        rw [Entry.closed_active] at ha
        cases ha
      · simp [*]
    rw [takeAll_cons, List.mem_append, Option.mem_toList, take_fst, Option.filter_eq_some_iff, ih]
    simp only [hrest, List.mem_cons, exists_eq_or_imp]
    constructor
    · rintro (h | ⟨k', hk', -, h⟩)
      · exact .inl h
      · exact .inr ⟨k', hk', h⟩
    · rintro (h | ⟨k', hk', h⟩)
      · exact .inl h
      · by_cases hk : k = k'
        · subst hk
          exact .inl h
        · exact .inr ⟨k', hk', hk, h⟩

/-- Just the entries with activity are taken along. -/
theorem mem_close (e : Entry) :
    e ∈ s.close.2.1 ↔ ∃ k, s.find? k = some e ∧ e.active = true := by
  have hclose : e ∈ s.close.2.1 ↔ e ∈ (s.nextBucket.2.takeAll s.keys).1 := Iff.rfl
  rw [hclose, mem_takeAll]
  constructor
  · rintro ⟨k, -, h⟩
    exact ⟨k, h⟩
  · rintro ⟨k, h⟩
    refine ⟨k, (s.mem_keys k).mpr ?_, h⟩
    rw [h.1]
    rfl

variable {s}

/-- Nothing is taken along but copies of the entries that were asked for, in their order. -/
theorem Keyed.takeAll_sublist (hs : s.Keyed) (ks : List Key) :
    ((s.takeAll ks).1.map Entry.key).Sublist ks := by
  induction ks generalizing s with
  | nil => exact List.Sublist.refl _
  | cons k rest ih =>
    have hrest := ih ((Step.take k).keyed hs)
    rw [takeAll_cons]
    cases hc : (s.take k).1 with
    | none => simpa using hrest.cons k
    | some e =>
      have he : e.key = k := by
        have hkey := (Step.take k).copy_key hs (e := e) hc
        simpa [Mark.key?] using hkey.symm
      simpa [he] using hrest

variable (s)

/-- The marks of closing a bucket. -/
def closing (s : Store) : List Mark := .turned s.bucket :: s.nextBucket.2.takings s.keys

theorem close_path : s.Path s.closing s.close.2.2 :=
  Step.turn.path.trans (takeAll_path _ _)

theorem copies_closing : copies s.closing = s.close.2.1 := copies_takings _ _

theorem postings_takings (ks : List Key) : postings (s.takings ks) = [] := by
  induction ks generalizing s with
  | nil => rfl
  | cons k rest ih =>
    rw [takings, ← List.singleton_append, postings_append, ih]
    rfl

theorem turns_takings (ks : List Key) : turns (s.takings ks) = [] := by
  induction ks generalizing s with
  | nil => rfl
  | cons k rest ih =>
    rw [takings, ← List.singleton_append, turns_append, ih]
    rfl

theorem turns_closing : turns s.closing = [s.bucket] := by
  rw [closing, ← List.singleton_append, turns_append, turns_takings]
  rfl

theorem postings_closing : postings s.closing = [] := by
  rw [closing, ← List.singleton_append, postings_append, postings_takings]
  rfl

/-- Every entry is left without activity. -/
theorem find?_close (k : Key) : s.close.2.2.find? k = (s.find? k).map Entry.closed := by
  have hclose : s.close.2.2.find? k = (s.nextBucket.2.takeAll s.keys).2.find? k := rfl
  rw [hclose, find?_takeAll, find?_nextBucket]
  split
  · rfl
  · -- what is not among the keys has no entry
    rename_i hk
    rw [mem_keys, Bool.not_eq_true, Option.isSome_eq_false_iff, Option.isNone_iff_eq_none] at hk
    rw [hk]
    rfl

variable {s}

/-- A closing snapshot holds at most one copy for each key. -/
theorem Keyed.close_nodup (hs : s.Keyed) : (s.close.2.1.map Entry.key).Nodup := by
  have hturned : s.nextBucket.2.Keyed := hs
  exact (hturned.takeAll_sublist s.keys).nodup s.keys_nodup

/-- The only entry of a store is all that is taken along of it. -/
theorem Keyed.close_eq_singleton (hs : s.Keyed) {k : Key} {e : Entry}
    (he : ∀ k', s.find? k' = if k = k' then some e else none) (hactive : e.active = true) :
    s.close.2.1 = [e] := by
  have hnodup : s.close.2.1.Nodup := List.Nodup.of_map Entry.key hs.close_nodup
  refine List.perm_singleton.mp ((List.perm_ext_iff_of_nodup hnodup (List.nodup_singleton e)).mpr
    fun e' => ?_)
  rw [mem_close, List.mem_singleton]
  constructor
  · rintro ⟨k', hfind, -⟩
    rw [he] at hfind
    split at hfind
    · exact (Option.some.inj hfind).symm
    · cases hfind
  · rintro rfl
    exact ⟨k, by rw [he, if_pos rfl], hactive⟩

end Store

end BlockLedger
