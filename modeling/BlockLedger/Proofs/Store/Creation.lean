import BlockLedger.Proofs.Store.Sharing
import Mathlib.Algebra.BigOperators.Group.Finset.Basic

/-
# Every entry is created once

However callers come in between each other, the log stays faithful: a slot is put in for a key only
once, and all that is ever returned for the key comes from that slot and has all in it that was done
to it before.  What carries the induction is that the maps, the slots and the log tell the same: the
slot with number `n` belongs to the key that was put in after `n` others.

That only one call comes back as the creator of an entry is a matter of the callers alone.  A key
that has been put in either was returned as created, or there is just one caller who has put it in
and is about to lock it.
-/

namespace BlockLedger

namespace Store

namespace Shared

variable {ι : Type}

/-! ## Callers -/

/-- The key whose entry a caller is about to return as created. -/
def Stage.creating? : Stage → Option Key
  | .reached c _ true => some c.key
  | _ => none

/-- A caller has the slot of its key, if keys were put in in this order. -/
def Stage.Knows (ins : List Key) : Stage → Prop
  | .idle | .missing _ => True
  | .reached c slot created => ins[slot]? = some c.key ∧ (created = true → c.creates = true)
  | .holding key slot => ins[slot]? = some key

theorem Stage.Knows.append {ins : List Key} {x : Stage} (h : x.Knows ins) (more : List Key) :
    x.Knows (ins ++ more) := by
  have grown : ∀ {n : Nat} {key : Key}, ins[n]? = some key → (ins ++ more)[n]? = some key := by
    intro n key hn
    rw [List.getElem?_append_left (List.getElem?_eq_some_iff.mp hn).1, hn]
  cases x with
  | idle | missing => trivial
  | reached c slot created => exact ⟨grown h.1, h.2⟩
  | holding key slot => exact grown h

/-- What holds of the callers when some keys were put in and some were returned as created. -/
structure Attended (ins created : List Key) (stage : ι → Stage) : Prop where
  knows : ∀ i, (stage i).Knows ins
  nodup : created.Nodup
  mem_iff : ∀ key, key ∈ ins ↔ key ∈ created ∨ ∃ i, (stage i).creating? = some key
  not_mem : ∀ i key, (stage i).creating? = some key → key ∉ created
  unique : ∀ i j key, (stage i).creating? = some key → (stage j).creating? = some key → i = j

namespace Attended

variable {ins created : List Key} {stage stage' : ι → Stage} (h : Attended ins created stage)
include h

/-- Callers go on, but none of them puts anything in or comes back with what it has put in. -/
theorem stay (knows : ∀ i, (stage' i).Knows ins)
    (same : ∀ i, (stage' i).creating? = (stage i).creating?) : Attended ins created stage' where
  knows := knows
  nodup := h.nodup
  mem_iff := by simpa only [same] using h.mem_iff
  not_mem := by simpa only [same] using h.not_mem
  unique := by simpa only [same] using h.unique

variable [DecidableEq ι] {i : ι}

/-- One caller goes on. -/
theorem advance {x : Stage} (knows : x.Knows ins) (same : x.creating? = (stage i).creating?) :
    Attended ins created (Function.update stage i x) := by
  apply h.stay
  · intro j
    by_cases hj : j = i
    · subst hj
      simpa using knows
    · simpa [hj] using h.knows j
  · intro j
    by_cases hj : j = i
    · subst hj
      simpa using same
    · simp [hj]

/-- A caller puts a key in. -/
theorem insert {key : Key} (fresh : key ∉ ins) (idle : (stage i).creating? = none) :
    Attended (ins ++ [key]) created
      (Function.update stage i (.reached ⟨key, true⟩ ins.length true)) := by
  have creating : ∀ j k,
      ((Function.update stage i (.reached ⟨key, true⟩ ins.length true)) j).creating? = some k ↔
        (j = i ∧ key = k) ∨ (stage j).creating? = some k := by
    intro j k
    by_cases hj : j = i
    · subst hj
      rw [Function.update_self, idle]
      simp [Stage.creating?]
    · simp [hj]
  -- by `mem_iff`, as the key has not been put in before
  have old : ∀ {k : Key}, key = k → k ∉ created ∧ ∀ j, (stage j).creating? ≠ some k := by
    rintro k rfl
    have hnot := mt (h.mem_iff key).mpr fresh
    exact ⟨fun hk => hnot (.inl hk), fun j hj => hnot (.inr ⟨j, hj⟩)⟩
  refine ⟨fun j => ?_, h.nodup, fun k => ?_, fun j k hj => ?_, fun j j' k hj hj' => ?_⟩
  · by_cases hj : j = i
    · subst hj
      simp [Stage.Knows]
    · simpa [hj] using (h.knows j).append [key]
  · simp only [creating, List.mem_append, List.mem_singleton, h.mem_iff k]
    grind
  · rcases (creating j k).mp hj with ⟨-, hk⟩ | hj
    · exact (old hk).1
    · exact h.not_mem j k hj
  · rcases (creating j k).mp hj with ⟨hji, hk⟩ | hold
    · rcases (creating j' k).mp hj' with ⟨hji', -⟩ | hold'
      · exact hji.trans hji'.symm
      · exact absurd hold' ((old hk).2 j')
    · rcases (creating j' k).mp hj' with ⟨-, hk⟩ | hold'
      · exact absurd hold ((old hk).2 j)
      · exact h.unique j j' k hold hold'

/-- A caller locks its slot and returns. -/
theorem lock {c : Call} {slot : Nat} {new : Bool} (reached : stage i = .reached c slot new) :
    Attended ins (created ++ if new then [c.key] else [])
      (Function.update stage i (.holding c.key slot)) := by
  have hknows : (Stage.holding c.key slot).Knows ins := by
    have := h.knows i
    rw [reached] at this
    exact this.1
  cases new with
  | false =>
    rw [if_neg Bool.false_ne_true, List.append_nil]
    exact h.advance hknows (by simp [reached, Stage.creating?])
  | true =>
    have hi : (stage i).creating? = some c.key := by
      simp [reached, Stage.creating?]
    have creating : ∀ j k, ((Function.update stage i (.holding c.key slot)) j).creating? = some k ↔
        j ≠ i ∧ (stage j).creating? = some k := by
      intro j k
      by_cases hj : j = i
      · subst hj
        simp [Stage.creating?]
      · simp [hj]
    refine ⟨fun j => ?_, ?_, fun k => ?_, fun j k hj => ?_, fun j j' k hj hj' => ?_⟩
    · by_cases hj : j = i
      · subst hj
        simpa using hknows
      · simpa [hj] using h.knows j
    · rw [if_pos rfl, ← List.concat_eq_append]
      exact h.nodup.concat (h.not_mem i _ hi)
    -- the key only moves from the caller to the keys that were returned as created
    · rw [h.mem_iff k]
      simp only [creating, if_true, List.mem_append, List.mem_singleton]
      constructor
      · rintro (hk | ⟨j, hj⟩)
        · exact .inl (.inl hk)
        · by_cases hji : j = i
          · subst hji
            exact .inl (.inr (Option.some.inj (hj.symm.trans hi)))
          · exact .inr ⟨j, hji, hj⟩
      · rintro ((hk | rfl) | ⟨j, -, hj⟩)
        · exact .inl hk
        · exact .inr ⟨i, hi⟩
        · exact .inr ⟨j, hj⟩
    · obtain ⟨hji, hj⟩ := (creating j k).mp hj
      have hne : k ≠ c.key := by
        rintro rfl
        exact hji (h.unique j i _ hj hi)
      simpa [hne] using h.not_mem j k hj
    · exact h.unique j j' k ((creating j k).mp hj).2 ((creating j' k).mp hj').2

end Attended

/-! ## Slots -/

/-- Locking a slot or giving it back leaves what is in it. -/
theorem entries_relock {slots : List Slot} {n : Nat} {x : Slot} (hx : slots[n]? = some x)
    (locked : Bool) :
    (slots.set n { x with locked }).map Slot.entry = slots.map Slot.entry := by
  obtain ⟨hn, rfl⟩ := List.getElem?_eq_some_iff.mp hx
  have hn' : n < (slots.map Slot.entry).length := by simpa using hn
  have he : slots[n].entry = (slots.map Slot.entry)[n] := by simp
  rw [List.map_set, he, List.set_getElem_self]

/-- The maps and the slots are as the log tells. -/
structure Tabled (part : Key → Nat) (maps : Nat → Std.HashMap Key Nat) (slots : List Slot)
    (log : List (Occurrence ι)) : Prop where
  faithful : Faithful log
  slot : ∀ key n, (maps (part key))[key]? = some n ↔ (insertions log)[n]? = some key
  sizes : ∀ p, (maps p).size = ((insertions log).map part).count p
  entries : slots.map Slot.entry = (insertions log).map fun key => contents key log

namespace Tabled

variable {part : Key → Nat} {maps : Nat → Std.HashMap Key Nat} {slots : List Slot}
  {log : List (Occurrence ι)} (h : Tabled part maps slots log)
include h

theorem length_eq : slots.length = (insertions log).length := by
  simpa using congrArg List.length h.entries

theorem mem_of_slot {key : Key} {n : Nat} (hn : (maps (part key))[key]? = some n) :
    key ∈ insertions log :=
  List.mem_of_getElem? ((h.slot key n).mp hn)

theorem not_mem_of_none {key : Key} (hn : (maps (part key))[key]? = none) :
    key ∉ insertions log := by
  intro hkey
  obtain ⟨n, hn'⟩ := List.getElem?_of_mem hkey
  rw [(h.slot key n).mpr hn'] at hn
  cases hn

/-- What is in the slot of a key. -/
theorem entry_eq {key : Key} {n : Nat} {x : Slot} (hn : (insertions log)[n]? = some key)
    (hx : slots[n]? = some x) : x.entry = contents key log := by
  have := congrArg (·[n]?) h.entries
  simpa [hn, hx] using this

/-- The key of what is in a slot is the one that the slot was put in for. -/
theorem insertions_of_slot {n : Nat} {x : Slot} (hx : slots[n]? = some x) :
    (insertions log)[n]? = some x.entry.key := by
  obtain ⟨key, hn⟩ : ∃ key, (insertions log)[n]? = some key := by
    have hlt := (List.getElem?_eq_some_iff.mp hx).1
    rw [h.length_eq] at hlt
    exact ⟨_, List.getElem?_eq_getElem hlt⟩
  rw [hn, h.entry_eq hn hx, contents_key]

/-- Something is noted that puts nothing in. -/
theorem note {o : Occurrence ι} {slots' : List Slot} (fits : o.Fits log)
    (hins : o.inserted? = none)
    (hslots : slots'.map Slot.entry =
      (insertions log).map fun key => o.effect key (contents key log)) :
    Tabled part maps slots' (log ++ [o]) where
  faithful := h.faithful.concat fits
  slot := by simpa [hins] using h.slot
  sizes := by simpa [hins] using h.sizes
  entries := by simpa [hins] using hslots

/-- What is in one slot is replaced as the log tells. -/
theorem entries_set {o : Occurrence ι} {n : Nat} {key : Key} {x : Slot}
    (hn : (insertions log)[n]? = some key) (hx : x.entry = o.effect key (contents key log))
    (hothers : ∀ k e, k ≠ key → o.effect k e = e) :
    (slots.set n x).map Slot.entry =
      (insertions log).map fun k => o.effect k (contents k log) := by
  rw [List.map_set, h.entries]
  apply List.ext_getElem?
  intro m
  by_cases hm : n = m
  · subst hm
    have hlt := (List.getElem?_eq_some_iff.mp hn).1
    rw [List.getElem?_set_self (by simpa using hlt), List.getElem?_map, hn, hx, Option.map_some]
  · rw [List.getElem?_set_ne hm, List.getElem?_map, List.getElem?_map]
    cases hk : (insertions log)[m]? with
    | none => rfl
    | some k =>
      have hne : k ≠ key := by
        rintro rfl
        exact hm ((List.getElem?_inj (List.getElem?_eq_some_iff.mp hn).1
          h.faithful.insertions_nodup).mp (hn.trans hk.symm))
      rw [Option.map_some, Option.map_some, hothers k _ hne]

/-- A slot is put in. -/
theorem insert {i : ι} {key : Key} (fresh : key ∉ insertions log) :
    Tabled part (Function.update maps (part key) ((maps (part key)).insert key slots.length))
      (slots ++ [{ entry := .new key }]) (log ++ [.inserted i key]) where
  faithful := h.faithful.concat fresh
  slot := by
    intro k n
    -- keys of other partitions are looked up in other maps, so they come out as before, too
    have hmap : (Function.update maps (part key) ((maps (part key)).insert key slots.length)
        (part k))[k]? = if key = k then some slots.length else (maps (part k))[k]? := by
      by_cases hp : part k = part key
      · rw [hp, Function.update_self, Std.HashMap.getElem?_insert]
        simp
      · have hne : key ≠ k := fun he => hp (he ▸ rfl)
        rw [Function.update_of_ne hp, if_neg hne]
    have hlist : (insertions log ++ [key])[n]? = some k ↔
        (insertions log)[n]? = some k ∨ n = (insertions log).length ∧ key = k := by
      rcases Nat.lt_trichotomy n (insertions log).length with hn | rfl | hn
      · simp [List.getElem?_append_left hn, Nat.ne_of_lt hn]
      · simp
      · have hend : (insertions log ++ [key]).length ≤ n := by
          rw [List.length_append]
          exact hn
        simp [List.getElem?_eq_none hend, List.getElem?_eq_none (Nat.le_of_lt hn), Nat.ne_of_gt hn]
    rw [hmap, insertions_concat, Occurrence.inserted?, Option.toList_some, hlist, h.length_eq]
    split
    · rename_i he
      subst he
      have habsent : (insertions log)[n]? ≠ some key := fun hn => fresh (List.mem_of_getElem? hn)
      simp [habsent, eq_comm]
    · rename_i hne
      simp [h.slot k n, hne]
  sizes := by
    intro p
    have hnot : key ∉ maps (part key) := by
      rw [← Std.HashMap.contains_iff_mem, ← Std.HashMap.isSome_getElem?_eq_contains]
      intro hsome
      obtain ⟨n, hn⟩ := Option.isSome_iff_exists.mp hsome
      exact fresh (h.mem_of_slot hn)
    by_cases hp : p = part key
    · subst hp
      rw [Function.update_self, Std.HashMap.size_insert, if_neg hnot, h.sizes]
      simp [Occurrence.inserted?]
    · rw [Function.update_of_ne hp, h.sizes]
      simp [Occurrence.inserted?, Ne.symm hp]
  entries := by
    have hnew : contents key log = .new key := h.faithful.contents_of_not_mem fresh
    simpa [Occurrence.inserted?, Occurrence.effect, hnew] using h.entries

end Tabled

/-! ## Locks -/

/-- Who has an entry has locked its slot, and is the only one who has it. -/
structure Guarded (slots : List Slot) (stage : ι → Stage) : Prop where
  locked : ∀ i key n, stage i = .holding key n → ∃ e, slots[n]? = some ⟨e, true⟩
  unique : ∀ i j key key' n, stage i = .holding key n → stage j = .holding key' n → i = j

namespace Guarded

variable {slots : List Slot} {stage : ι → Stage} (h : Guarded slots stage)
include h

/-- Nobody has the entry in a slot that is not locked. -/
theorem ne_of_unlocked {n : Nat} {e : Entry} (hn : slots[n]? = some ⟨e, false⟩) (i : ι)
    (key : Key) : stage i ≠ .holding key n := by
  intro hi
  obtain ⟨e', he'⟩ := h.locked i key n hi
  rw [hn] at he'
  cases he'

/-- Slots may be put in, and what is in a slot may be replaced if it stays locked or is free. -/
theorem change {slots' : List Slot}
    (keep : ∀ i key n, stage i = .holding key n → ∀ e, slots[n]? = some ⟨e, true⟩ →
      ∃ e', slots'[n]? = some ⟨e', true⟩) : Guarded slots' stage where
  locked i key n hi := by
    obtain ⟨e, he⟩ := h.locked i key n hi
    exact keep i key n hi e he
  unique := h.unique

variable [DecidableEq ι] {i : ι}

/-- A caller goes on without an entry. -/
theorem leave {x : Stage} (hx : ∀ key n, x ≠ .holding key n) :
    Guarded slots (Function.update stage i x) := by
  have old : ∀ {j key n}, (Function.update stage i x) j = .holding key n →
      j ≠ i ∧ stage j = .holding key n := by
    intro j key n hj
    by_cases hji : j = i
    · subst hji
      rw [Function.update_self] at hj
      exact absurd hj (hx key n)
    · rw [Function.update_of_ne hji] at hj
      exact ⟨hji, hj⟩
  exact ⟨fun j key n hj => h.locked j key n (old hj).2,
    fun j j' key key' n hj hj' => h.unique j j' key key' n (old hj).2 (old hj').2⟩

/-- A caller locks a slot. -/
theorem lock {n : Nat} {e : Entry} (hn : slots[n]? = some ⟨e, false⟩) (key : Key) :
    Guarded (slots.set n ⟨e, true⟩) (Function.update stage i (.holding key n)) := by
  have hlt := (List.getElem?_eq_some_iff.mp hn).1
  -- no two callers have the same slot, as nobody had this one while it was not locked
  have cases_of : ∀ {j k m}, (Function.update stage i (.holding key n)) j = .holding k m →
      (j = i ∧ n = m) ∨ (n ≠ m ∧ stage j = .holding k m) := by
    intro j k m hj
    by_cases hji : j = i
    · subst hji
      rw [Function.update_self] at hj
      exact .inl ⟨rfl, (Stage.holding.inj hj).2⟩
    · rw [Function.update_of_ne hji] at hj
      refine .inr ⟨?_, hj⟩
      rintro rfl
      exact h.ne_of_unlocked hn j k hj
  refine ⟨fun j k m hj => ?_, fun j j' k k' m hj hj' => ?_⟩
  · rcases cases_of hj with ⟨-, rfl⟩ | ⟨hnm, hj⟩
    · exact ⟨e, List.getElem?_set_self hlt⟩
    · rw [List.getElem?_set_ne hnm]
      exact h.locked j k m hj
  · rcases cases_of hj with ⟨hji, hm⟩ | ⟨hm, hold⟩
    · rcases cases_of hj' with ⟨hji', -⟩ | ⟨hm', -⟩
      · exact hji.trans hji'.symm
      · exact absurd hm hm'
    · rcases cases_of hj' with ⟨-, hm'⟩ | ⟨-, hold'⟩
      · exact absurd hm' hm
      · exact h.unique j j' k k' m hold hold'

/-- A caller gives its entry back. -/
theorem release {key : Key} {n : Nat} (hi : stage i = .holding key n) (x : Slot) :
    Guarded (slots.set n x) (Function.update stage i .idle) := by
  have hleft : Guarded slots (Function.update stage i .idle) := h.leave (by simp)
  refine hleft.change fun j k m hj e he => ?_
  have hji : j ≠ i := by
    rintro rfl
    rw [Function.update_self] at hj
    cases hj
  rw [Function.update_of_ne hji] at hj
  have hnm : n ≠ m := by
    rintro rfl
    exact hji (h.unique j i k key n hj hi)
  exact ⟨e, by rw [List.getElem?_set_ne hnm, he]⟩

end Guarded

/-! ## Runs -/

/-- What holds of a store in use at any time. -/
structure Sound (part : Key → Nat) (s : Shared ι) : Prop where
  tabled : Tabled part s.maps s.slots s.log
  attended : Attended (insertions s.log) (creations s.log) s.stage
  guarded : Guarded s.slots s.stage

theorem sound_start (part : Key → Nat) : Sound part (start : Shared ι) where
  tabled := ⟨.nil, by simp [start], by simp [start], rfl⟩
  attended :=
    ⟨fun _ => trivial, List.nodup_nil, by simp [start, Stage.creating?],
      by simp [start, Stage.creating?], by simp [start, Stage.creating?]⟩
  guarded := ⟨nofun, nofun⟩

namespace Sound

variable {part : Key → Nat} {s t : Shared ι} {m : Move ι}

/-- The slot of a caller that has reached one is that of its key. -/
theorem slot_of_reached (hs : Sound part s) {i : ι} {c : Call} {slot : Nat} {created : Bool}
    (h : s.stage i = .reached c slot created) :
    (insertions s.log)[slot]? = some c.key ∧ (created = true → c.creates = true) := by
  have := hs.attended.knows i
  rwa [h] at this

theorem slot_of_holding (hs : Sound part s) {i : ι} {key : Key} {slot : Nat}
    (h : s.stage i = .holding key slot) : (insertions s.log)[slot]? = some key := by
  have := hs.attended.knows i
  rwa [h] at this

variable [DecidableEq ι]

theorem step (hs : Sound part s) (h : s.Step part m t) : Sound part t := by
  cases h with
  | found i c slot idle h =>
    have hknows := (hs.tabled.slot _ _).mp h
    refine ⟨hs.tabled, hs.attended.advance ⟨hknows, by simp⟩ ?_, hs.guarded.leave (by simp)⟩
    rw [idle]
    rfl
  | missed i key idle h =>
    refine ⟨hs.tabled, hs.attended.advance trivial ?_, hs.guarded.leave (by simp)⟩
    rw [idle]
    rfl
  | absent i key idle h =>
    have fits := hs.tabled.not_mem_of_none h
    refine ⟨hs.tabled.note ⟨rfl, fits⟩ rfl hs.tabled.entries, ?_, hs.guarded⟩
    simpa [note, Occurrence.inserted?, Occurrence.creation?] using hs.attended
  | late i key slot missing h =>
    have hknows := (hs.tabled.slot _ _).mp h
    refine ⟨hs.tabled, hs.attended.advance ⟨hknows, by simp⟩ ?_, hs.guarded.leave (by simp)⟩
    rw [missing]
    rfl
  | insert i key missing h =>
    have fresh := hs.tabled.not_mem_of_none h
    have hidle : (s.stage i).creating? = none := by
      rw [missing]
      rfl
    -- the new slot comes after those that are locked, and these stay where they are
    have hleft : Guarded s.slots
        (Function.update s.stage i (.reached ⟨key, true⟩ s.slots.length true)) :=
      hs.guarded.leave (by simp)
    refine ⟨hs.tabled.insert fresh, ?_, ?_⟩
    · simpa [note, setStage, addSlot, Occurrence.inserted?, Occurrence.creation?,
        hs.tabled.length_eq] using hs.attended.insert fresh hidle
    · refine hleft.change fun j k n _ e he => ⟨e, ?_⟩
      exact (List.getElem?_append_left (List.getElem?_eq_some_iff.mp he).1).trans he
  | lock i c slot created e reached h =>
    obtain ⟨hslot, hcreates⟩ := hs.slot_of_reached reached
    have he : e = contents c.key s.log := hs.tabled.entry_eq hslot h
    refine ⟨hs.tabled.note ⟨hslot, he, hcreates⟩ rfl ?_, ?_, hs.guarded.lock h c.key⟩
    · exact (entries_relock h true).trans hs.tabled.entries
    · have := hs.attended.lock reached
      cases created <;>
        simpa [note, setStage, setSlot, Occurrence.inserted?, Occurrence.creation?] using this
  | change i u key slot x holding h =>
    have hslot := hs.slot_of_holding holding
    refine ⟨hs.tabled.note (List.mem_of_getElem? hslot) rfl (hs.tabled.entries_set hslot ?_ ?_),
      ?_, ?_⟩
    · simp [Occurrence.effect, hs.tabled.entry_eq hslot h]
    · intro k e hne
      simp [Occurrence.effect, Ne.symm hne]
    · simpa [note, setSlot, Occurrence.inserted?, Occurrence.creation?] using hs.attended
    · refine hs.guarded.change fun j k n _ e he => ?_
      by_cases hn : slot = n
      · subst hn
        obtain rfl : x = ⟨e, true⟩ := Option.some.inj (h.symm.trans he)
        exact ⟨_, List.getElem?_set_self (List.getElem?_eq_some_iff.mp h).1⟩
      · exact ⟨e, (List.getElem?_set_ne hn).trans he⟩
  | release i key slot x holding h =>
    refine ⟨⟨hs.tabled.faithful, hs.tabled.slot, hs.tabled.sizes, ?_⟩,
      hs.attended.advance trivial ?_, hs.guarded.release holding _⟩
    · exact (entries_relock h false).trans hs.tabled.entries
    · rw [holding]
      rfl
  | visit slot closing e h =>
    have hslot := hs.tabled.insertions_of_slot h
    refine ⟨hs.tabled.note (List.mem_of_getElem? hslot) rfl (hs.tabled.entries_set hslot ?_ ?_),
      ?_, ?_⟩
    · have he : e = contents e.key s.log := hs.tabled.entry_eq hslot h
      simp only [Occurrence.effect, true_and, ← he]
    · intro k e hne
      simp [Occurrence.effect, Ne.symm hne]
    · simpa [note, setSlot, Occurrence.inserted?, Occurrence.creation?] using hs.attended
    -- only what is not locked is visited, so nobody has it
    · refine hs.guarded.change fun j k n hj e' he' => ⟨e', ?_⟩
      have hn : slot ≠ n := by
        rintro rfl
        exact hs.guarded.ne_of_unlocked h j k hj
      exact (List.getElem?_set_ne hn).trans he'

theorem run (hs : Sound part s) {ms : List (Move ι)} (h : s.run part ms = some t) :
    Sound part t := by
  induction ms generalizing s with
  | nil =>
    obtain rfl := Option.some.inj h
    exact hs
  | cons m rest ih =>
    rw [run_cons] at h
    obtain ⟨s', hm, hrest⟩ := Option.bind_eq_some_iff.mp h
    exact ih (hs.step (step_of_move part hm)) hrest

end Sound

variable [DecidableEq ι] {part : Key → Nat} {s t : Shared ι}

theorem log_prefix_step {m : Move ι} (h : s.Step part m t) : s.log <+: t.log := by
  cases h with
  | found | missed | late | release => exact List.prefix_rfl
  | absent | insert | lock | change | visit => exact List.prefix_append _ _

theorem log_prefix_run {ms : List (Move ι)} (h : s.run part ms = some t) : s.log <+: t.log := by
  induction ms generalizing s with
  | nil =>
    obtain rfl := Option.some.inj h
    exact List.prefix_rfl
  | cons m rest ih =>
    rw [run_cons] at h
    obtain ⟨s', hm, hrest⟩ := Option.bind_eq_some_iff.mp h
    exact (log_prefix_step (step_of_move part hm)).trans (ih hrest)

namespace Sound

/-- The slot of a key stays its slot. -/
theorem slot?_run (hs : Sound part s) {ms : List (Move ι)} (h : s.run part ms = some t)
    {key : Key} {slot : Nat} (hslot : s.slot? part key = some slot) :
    t.slot? part key = some slot := by
  obtain ⟨more, hlog⟩ := log_prefix_run h
  have hins := (hs.tabled.slot key slot).mp hslot
  have hlt := (List.getElem?_eq_some_iff.mp hins).1
  refine ((hs.run h).tabled.slot key slot).mpr ?_
  rw [← hlog, insertions_append, List.getElem?_append_left hlt, hins]

omit [DecidableEq ι] in
/-- The entry of a key is the one that one operation after the other leaves. -/
theorem lookup?_eq (hs : Sound part s) (key : Key) :
    s.lookup? part key = (replay s.log).find? key := by
  rw [hs.tabled.faithful.find?_replay]
  cases hslot : s.slot? part key with
  | none => simp [lookup?, hslot, hs.tabled.not_mem_of_none hslot]
  | some slot =>
    have hins := (hs.tabled.slot key slot).mp hslot
    have hlt : slot < s.slots.length := by
      rw [hs.tabled.length_eq]
      exact (List.getElem?_eq_some_iff.mp hins).1
    have hx := List.getElem?_eq_getElem hlt
    rw [if_pos (hs.tabled.mem_of_slot hslot), lookup?, hslot, Option.bind_some, hx,
      Option.map_some, hs.tabled.entry_eq hins hx]

omit [DecidableEq ι] in
/-- The partitions together have all keys that were put in. -/
theorem size_eq (hs : Sound part s) {count : Nat} (hpart : ∀ key, part key < count) :
    s.size count = (insertions s.log).length := by
  have hall : ∀ p ∈ ((insertions s.log).map part : Multiset Nat), p ∈ Finset.range count := by
    intro p hp
    obtain ⟨key, -, rfl⟩ := List.mem_map.mp hp
    exact Finset.mem_range.mpr (hpart key)
  -- each partition has as many keys as the log says of it, and no key belongs to two
  have hsum := Multiset.sum_count_eq_card hall
  simp only [size, hs.tabled.sizes]
  simpa [Finset.sum, Multiset.range] using hsum

omit [DecidableEq ι] in
/-- A key was returned as created once, if it was put in and whoever did that has come back. -/
theorem count_creations (hs : Sound part s) (key : Key) :
    (creations s.log).count key ≤ 1 ∧
      ((creations s.log).count key = 1 ↔
        key ∈ insertions s.log ∧ ∀ i, (s.stage i).creating? ≠ some key) := by
  have hle := List.nodup_iff_count_le_one.mp hs.attended.nodup key
  refine ⟨hle, fun hone => ?_, fun ⟨hins, hnone⟩ => ?_⟩
  · have hmem : key ∈ creations s.log := List.count_pos_iff.mp (by omega)
    exact ⟨(hs.attended.mem_iff key).mpr (.inl hmem), fun i hi => hs.attended.not_mem i key hi hmem⟩
  · obtain hmem | ⟨i, hi⟩ := (hs.attended.mem_iff key).mp hins
    · have := List.count_pos_iff.mpr hmem
      omega
    · exact absurd hi (hnone i)

omit [DecidableEq ι] in
/-- An entry is in the hands of one caller at most. -/
theorem holder_unique (hs : Sound part s) (i j : ι) (key : Key) (slot slot' : Nat)
    (hi : s.stage i = .holding key slot) (hj : s.stage j = .holding key slot') : i = j := by
  have hslot := hs.slot_of_holding hi
  have hlt := (List.getElem?_eq_some_iff.mp hslot).1
  have he : slot = slot' := (List.getElem?_inj hlt hs.tabled.faithful.insertions_nodup).mp
    (hslot.trans (hs.slot_of_holding hj).symm)
  subst he
  exact hs.guarded.unique i j key key slot hi hj

omit [DecidableEq ι] in
theorem find?_replay_of_none (hs : Sound part s) {key : Key} (h : s.slot? part key = none) :
    (replay s.log).find? key = none := by
  rw [hs.tabled.faithful.find?_replay, if_neg (hs.tabled.not_mem_of_none h)]

/-- A call that nobody interrupts does what `Store.ensure` does. -/
theorem ensure_alone (hs : Sound part s) {i : ι} (idle : s.stage i = .idle)
    (free : ∀ x ∈ s.slots, x.locked = false) (key : Key) :
    ∃ t before x,
      s.run part (if (s.slot? part key).isSome then [.call i ⟨key, true⟩, .lock i]
        else [.call i ⟨key, true⟩, .insert i, .lock i]) = some t ∧
      t.log = before ++ [.returned i ⟨key, true⟩ (some x)] ∧
      x.created = ((replay s.log).ensure key).2 ∧ replay t.log = ((replay s.log).ensure key).1 := by
  cases hslot : s.slot? part key with
  | some slot =>
    have hins := (hs.tabled.slot key slot).mp hslot
    have hlt : slot < s.slots.length := by
      rw [hs.tabled.length_eq]
      exact (List.getElem?_eq_some_iff.mp hins).1
    obtain ⟨⟨e, locked⟩, hx⟩ : ∃ x, s.slots[slot]? = some x := ⟨_, List.getElem?_eq_getElem hlt⟩
    obtain rfl : locked = false := free _ (List.mem_of_getElem? hx)
    have hfind : (replay s.log).find? key = some e := by
      rw [← hs.lookup?_eq, lookup?, hslot, Option.bind_some, hx, Option.map_some]
    have hrun : ∃ t, s.run part [.call i ⟨key, true⟩, .lock i] = some t ∧
        t.log = s.log ++ [.returned i ⟨key, true⟩ (some ⟨slot, false, e⟩)] := by
      simp [run_cons, move, idle, hslot, hx, setStage, setSlot, note]
    obtain ⟨t, ht, hlog⟩ := hrun
    refine ⟨t, s.log, _, ht, hlog, ?_, ?_⟩
    · simp [ensure, hfind]
    · simp [hlog, ensure, hfind, Occurrence.carryOut]
  | none =>
    have hfind := hs.find?_replay_of_none hslot
    have habsent : (replay s.log).entries.contains key = false := by
      simpa [find?] using hfind
    have hrun : ∃ t, s.run part [.call i ⟨key, true⟩, .insert i, .lock i] = some t ∧
        t.log = s.log ++ [.inserted i key] ++
          [.returned i ⟨key, true⟩ (some ⟨s.slots.length, true, .new key⟩)] := by
      have hmap : (s.maps (part key))[key]? = none := hslot
      simp [run_cons, move, idle, slot?, hmap, addSlot, setStage, setSlot, note]
    obtain ⟨t, ht, hlog⟩ := hrun
    refine ⟨t, _, _, ht, hlog, ?_, ?_⟩
    · simp [ensure, hfind, insertIfAbsent, habsent]
    · rw [hlog, replay_concat, replay_concat]
      simp [ensure, hfind, Occurrence.carryOut]

end Sound

/-- Whatever callers do at the same time, and whichever partition a key belongs to, every entry is
created by one call, all calls for a key return the same entry, and each shows everything that was
done to it before. -/
theorem created_once (part : Key → Nat) (count : Nat) (hpart : ∀ key, part key < count)
    (ms : List (Move ι)) (s : Shared ι) (h : start.run part ms = some s) :
    (∀ key, (creations s.log).count key ≤ 1 ∧
      ((creations s.log).count key = 1 ↔
        key ∈ insertions s.log ∧ ∀ i, (s.stage i).creating? ≠ some key)) ∧
    (∀ before i c x after, s.log = before ++ .returned i c (some x) :: after →
      x.shown = contents c.key before ∧ x.shown.key = c.key ∧ c.key ∈ insertions before ∧
        (∀ j c' y, .returned j c' (some y) ∈ s.log → (y.slot = x.slot ↔ c'.key = c.key)) ∧
        ∀ j c', .returned j c' none ∈ after → c'.key ≠ c.key) ∧
    (insertions s.log).Nodup ∧ s.size count = (insertions s.log).length ∧
    (∀ key, s.lookup? part key = (replay s.log).find? key) ∧
    (∀ i j key slot slot', s.stage i = .holding key slot → s.stage j = .holding key slot' → i = j) ∧
    ∀ ms' t key slot, s.run part ms' = some t → s.slot? part key = some slot →
      t.slot? part key = some slot := by
  have hs : Sound part s := (sound_start part).run h
  have hf := hs.tabled.faithful
  refine ⟨hs.count_creations, ?_, hf.insertions_nodup, hs.size_eq hpart, hs.lookup?_eq,
    hs.holder_unique, fun ms' t key slot ht hslot => hs.slot?_run ht hslot⟩
  intro before i c x after hlog
  obtain ⟨hslot, hshown, -⟩ := hf.fits_of_eq hlog
  have hkey : c.key ∈ insertions before := List.mem_of_getElem? hslot
  refine ⟨hshown, by rw [hshown, contents_key], hkey, fun j c' y hy => ?_, fun j c' hnone => ?_⟩
  · have hx : .returned i c (some x) ∈ s.log := by simp [hlog]
    have hx := hf.slot_of_returned hx
    have hy := hf.slot_of_returned hy
    constructor
    · intro he
      rw [he, hx] at hy
      exact (Option.some.inj hy).symm
    · intro he
      rw [he, ← hx] at hy
      have hlt := (List.getElem?_eq_some_iff.mp (hy.trans hx)).1
      exact (List.getElem?_inj hlt hf.insertions_nodup).mp hy
  · rintro he
    obtain ⟨between, rest, rfl⟩ := List.append_of_mem hnone
    rw [← List.cons_append, ← List.append_assoc] at hlog
    obtain ⟨-, habsent⟩ := hf.fits_of_eq hlog
    rw [he, insertions_append, List.mem_append] at habsent
    exact habsent (.inl hkey)

/-- Two callers find no entry.  The one that puts it in is overtaken by the other, which notes that
the fork was forced to disk; the entry is returned as created with that in it. -/
theorem created_once_racing :
    ∃ s, (start : Shared Bool).run Key.partition
        [.call true ⟨default, true⟩, .call false ⟨default, true⟩, .insert true, .insert false,
          .lock false, .change false ⟨fun e => { e with syncs := e.syncs + 1 }, fun _ => rfl⟩,
          .release false, .lock true] = some s ∧
      (creations s.log).count default = 1 ∧ s.size Key.partitionCount = 1 ∧
      ∃ before x, s.log = before ++ [.returned true ⟨default, true⟩ (some x)] ∧
        x.created = true ∧ x.shown.syncs = 1 := by
  let u : Change := ⟨fun e => { e with syncs := e.syncs + 1 }, fun _ => rfl⟩
  obtain ⟨s, hrun, hlog, hstage⟩ : ∃ s, (start : Shared Bool).run Key.partition
      [.call true ⟨default, true⟩, .call false ⟨default, true⟩, .insert true, .insert false,
        .lock false, .change false u, .release false, .lock true] = some s ∧
      s.log = [.inserted true default,
        .returned false ⟨default, true⟩ (some ⟨0, false, .new default⟩),
        .changed false default u,
        .returned true ⟨default, true⟩ (some ⟨0, true, u.1 (.new default)⟩)] ∧
      ∀ i, (s.stage i).creating? = none := by
    simp [run_cons, move, start, slot?, addSlot, setStage, setSlot, note, Stage.creating?]
  obtain ⟨hcount, -, -, hsize, -⟩ :=
    created_once Key.partition Key.partitionCount Key.partition_lt _ s hrun
  refine ⟨s, hrun, (hcount default).2.mpr ⟨?_, ?_⟩, ?_, ?_⟩
  · simp [hlog, insertions, Occurrence.inserted?]
  · simp [hstage]
  · simp [hsize, hlog, insertions, Occurrence.inserted?]
  · exact ⟨[_, _, _], ⟨0, true, u.1 (.new default)⟩, hlog, rfl, rfl⟩

end Shared

end Store

end BlockLedger
