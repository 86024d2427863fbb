import BlockLedger.Proofs.Store.Lookup
import Mathlib.Algebra.GroupWithZero.Nat
import Mathlib.Data.List.Induction
import Mathlib.Data.List.Nodup
import Mathlib.Logic.Function.Basic
import Mathlib.Tactic.Common

/-
# A store in use by many

Any number of callers ask for entries at the same time.  The entries lie in slots, each with a lock
of its own, and every partition has a map that tells the slots of its keys.  A call looks its key up
in the map of the partition.  If there is no slot and an entry is wanted nevertheless, it goes to the
map a second time, now as the only one there, and puts a slot in unless the key has got one by then.
Only after that it locks the slot; then it returns the entry, which stays locked until it is given
back.  Between any two of these moves everybody else may come in, and a snapshot may come to any slot
that is not locked.

What can be seen of all this from outside is written into a log.  The log tells which keys there are
and what must have become of their entries, so what calls return can be judged by the log alone.
-/

namespace BlockLedger

namespace Store

namespace Shared

/-- A call for the entry of a key. -/
structure Call where
  key : Key
  /-- An entry is put in if there is none. -/
  creates : Bool
  deriving DecidableEq

/-- What is done to an entry by somebody who has locked it. -/
abbrev Change := { f : Entry → Entry // ∀ e, (f e).key = e.key }

/-- The place of an entry. -/
structure Slot where
  entry : Entry
  locked : Bool := false

/-- Where a caller stands. -/
inductive Stage where
  /-- It is in no call and has no entry. -/
  | idle
  /-- It has found no slot and is about to put one in. -/
  | missing (key : Key)
  /-- It knows the slot and is about to lock it. -/
  | reached (call : Call) (slot : Nat) (created : Bool)
  /-- Its call has returned the entry in a slot, which it has not given back. -/
  | holding (key : Key) (slot : Nat)

/-- An entry that a call returns. -/
structure Handout where
  slot : Nat
  /-- The call has put it in. -/
  created : Bool
  /-- What is in it at that moment. -/
  shown : Entry

/-- What is written into the log. -/
inductive Occurrence (ι : Type) where
  | inserted (i : ι) (key : Key)
  | returned (i : ι) (call : Call) (handout : Option Handout)
  | changed (i : ι) (key : Key) (change : Change)
  /-- A snapshot comes to the entry of a key. -/
  | visited (key : Key) (closing : Bool)

end Shared

/-- A store with everybody who calls for its entries. -/
structure Shared (ι : Type) where
  /-- The slots of the keys, partition by partition. -/
  maps : Nat → Std.HashMap Key Nat := fun _ => {}
  slots : List Shared.Slot := []
  stage : ι → Shared.Stage := fun _ => .idle
  log : List (Shared.Occurrence ι) := []

namespace Shared

/-- A single access to what is shared. -/
inductive Move (ι : Type) where
  /-- A caller begins a call and looks the key up. -/
  | call (i : ι) (c : Call)
  /-- It puts a slot in, unless there is one by now. -/
  | insert (i : ι)
  /-- It locks the slot, and the call returns. -/
  | lock (i : ι)
  /-- It does something to the entry that it has locked. -/
  | change (i : ι) (u : Change)
  /-- It gives the entry back. -/
  | release (i : ι)
  /-- A snapshot comes to a slot, and starts a new period there if it closes the bucket. -/
  | visit (slot : Nat) (closing : Bool)

variable {ι : Type} (part : Key → Nat)

/-- Nobody has done anything yet. -/
def start : Shared ι := {}

/-- The slot of a key, by the map of its partition. -/
def slot? (s : Shared ι) (key : Key) : Option Nat := (s.maps (part key))[key]?

/-- The entry of a key. -/
def lookup? (s : Shared ι) (key : Key) : Option Entry :=
  ((s.slot? part key).bind fun slot => s.slots[slot]?).map Slot.entry

/-- The number of entries: the sizes of the maps, added up. -/
def size (s : Shared ι) (count : Nat) : Nat :=
  ((List.range count).map fun p => (s.maps p).size).sum

/-- Writes into the log. -/
def note (s : Shared ι) (o : Occurrence ι) : Shared ι := { s with log := s.log ++ [o] }

/-- Puts in a slot with a fresh entry. -/
def addSlot (s : Shared ι) (key : Key) : Shared ι :=
  { s with
    maps := Function.update s.maps (part key) ((s.maps (part key)).insert key s.slots.length)
    slots := s.slots ++ [{ entry := .new key }] }

/-- Replaces what is in a slot. -/
def setSlot (s : Shared ι) (slot : Nat) (x : Slot) : Shared ι :=
  { s with slots := s.slots.set slot x }

section Moves

variable [DecidableEq ι]

/-- A caller goes on to another stage. -/
def setStage (s : Shared ι) (i : ι) (stage : Stage) : Shared ι :=
  { s with stage := Function.update s.stage i stage }

/-- Makes a move, if it is the turn of whoever makes it and the slot that it needs is not locked. -/
def move (s : Shared ι) : Move ι → Option (Shared ι)
  | .call i c =>
    match s.stage i with
    | .idle =>
      match s.slot? part c.key with
      | some slot => some (s.setStage i (.reached c slot false))
      | none =>
        if c.creates then some (s.setStage i (.missing c.key))
        else some (s.note (.returned i c none))
    | _ => none
  | .insert i =>
    match s.stage i with
    | .missing key =>
      match s.slot? part key with
      | some slot => some (s.setStage i (.reached ⟨key, true⟩ slot false))
      | none =>
        some (((s.addSlot part key).setStage i (.reached ⟨key, true⟩ s.slots.length true)).note
          (.inserted i key))
    | _ => none
  | .lock i =>
    match s.stage i with
    | .reached c slot created =>
      match s.slots[slot]? with
      | some ⟨e, false⟩ =>
        some (((s.setSlot slot ⟨e, true⟩).setStage i (.holding c.key slot)).note
          (.returned i c (some ⟨slot, created, e⟩)))
      | _ => none
    | _ => none
  | .change i u =>
    match s.stage i with
    | .holding key slot =>
      match s.slots[slot]? with
      | some x => some ((s.setSlot slot { x with entry := u.1 x.entry }).note (.changed i key u))
      | none => none
    | _ => none
  | .release i =>
    match s.stage i with
    | .holding _ slot =>
      match s.slots[slot]? with
      | some x => some ((s.setSlot slot { x with locked := false }).setStage i .idle)
      | none => none
    | _ => none
  | .visit slot closing =>
    match s.slots[slot]? with
    | some ⟨e, false⟩ =>
      some ((s.setSlot slot ⟨if closing then e.closed else e, false⟩).note (.visited e.key closing))
    | _ => none

/-- Makes one move after the other. -/
def run (s : Shared ι) : List (Move ι) → Option (Shared ι)
  | [] => some s
  | m :: rest => (s.move part m).bind fun t => t.run rest

@[simp] theorem run_nil (s : Shared ι) : s.run part [] = some s := rfl

theorem run_cons (s : Shared ι) (m : Move ι) (rest : List (Move ι)) :
    s.run part (m :: rest) = (s.move part m).bind fun t => t.run part rest := rfl

/-! ## Moves -/

/-- The moves, each with what it needs and what it leads to. -/
inductive Step (s : Shared ι) : Move ι → Shared ι → Prop
  | found (i : ι) (c : Call) (slot : Nat) (idle : s.stage i = .idle)
      (h : s.slot? part c.key = some slot) :
      Step s (.call i c) (s.setStage i (.reached c slot false))
  | missed (i : ι) (key : Key) (idle : s.stage i = .idle) (h : s.slot? part key = none) :
      Step s (.call i ⟨key, true⟩) (s.setStage i (.missing key))
  | absent (i : ι) (key : Key) (idle : s.stage i = .idle) (h : s.slot? part key = none) :
      Step s (.call i ⟨key, false⟩) (s.note (.returned i ⟨key, false⟩ none))
  | late (i : ι) (key : Key) (slot : Nat) (missing : s.stage i = .missing key)
      (h : s.slot? part key = some slot) :
      Step s (.insert i) (s.setStage i (.reached ⟨key, true⟩ slot false))
  | insert (i : ι) (key : Key) (missing : s.stage i = .missing key)
      (h : s.slot? part key = none) :
      Step s (.insert i)
        (((s.addSlot part key).setStage i (.reached ⟨key, true⟩ s.slots.length true)).note
          (.inserted i key))
  | lock (i : ι) (c : Call) (slot : Nat) (created : Bool) (e : Entry)
      (reached : s.stage i = .reached c slot created) (h : s.slots[slot]? = some ⟨e, false⟩) :
      Step s (.lock i)
        (((s.setSlot slot ⟨e, true⟩).setStage i (.holding c.key slot)).note
          (.returned i c (some ⟨slot, created, e⟩)))
  | change (i : ι) (u : Change) (key : Key) (slot : Nat) (x : Slot)
      (holding : s.stage i = .holding key slot) (h : s.slots[slot]? = some x) :
      Step s (.change i u)
        ((s.setSlot slot { x with entry := u.1 x.entry }).note (.changed i key u))
  | release (i : ι) (key : Key) (slot : Nat) (x : Slot) (holding : s.stage i = .holding key slot)
      (h : s.slots[slot]? = some x) :
      Step s (.release i) ((s.setSlot slot { x with locked := false }).setStage i .idle)
  | visit (slot : Nat) (closing : Bool) (e : Entry) (h : s.slots[slot]? = some ⟨e, false⟩) :
      Step s (.visit slot closing)
        ((s.setSlot slot ⟨if closing then e.closed else e, false⟩).note (.visited e.key closing))

theorem step_of_move {s t : Shared ι} {m : Move ι} (h : s.move part m = some t) :
    s.Step part m t := by
  cases m with
  | call i c =>
    obtain ⟨key, creates⟩ := c
    simp only [move] at h
    split at h
    · rename_i idle
      split at h
      · obtain rfl := Option.some.inj h
        exact .found i _ _ idle ‹_›
      · cases creates with
        | true =>
          obtain rfl := Option.some.inj h
          exact .missed i key idle ‹_›
        | false =>
          obtain rfl := Option.some.inj h
          exact .absent i key idle ‹_›
    · cases h
  | insert i =>
    simp only [move] at h
    split at h
    · rename_i key missing
      split at h
      · obtain rfl := Option.some.inj h
        exact .late i key _ missing ‹_›
      · obtain rfl := Option.some.inj h
        exact .insert i key missing ‹_›
    · cases h
  | lock i =>
    simp only [move] at h
    split at h
    · rename_i c slot created reached
      split at h
      · obtain rfl := Option.some.inj h
        exact .lock i c slot created _ reached ‹_›
      · cases h
    · cases h
  | change i u =>
    simp only [move] at h
    split at h
    · rename_i key slot holding
      split at h
      · obtain rfl := Option.some.inj h
        exact .change i u key slot _ holding ‹_›
      · cases h
    · cases h
  | release i =>
    simp only [move] at h
    split at h
    · rename_i key slot holding
      split at h
      · obtain rfl := Option.some.inj h
        exact .release i key slot _ holding ‹_›
      · cases h
    · cases h
  | visit slot closing =>
    simp only [move] at h
    split at h
    · obtain rfl := Option.some.inj h
      exact .visit slot closing _ ‹_›
    · cases h

end Moves

/-! ## Logs -/

namespace Occurrence

/-- The key for which a slot was put in. -/
def inserted? : Occurrence ι → Option Key
  | inserted _ key => some key
  | _ => none

/-- The key whose entry a call has returned as one that it has created. -/
def creation? : Occurrence ι → Option Key
  | returned _ c (some h) => if h.created then some c.key else none
  | _ => none

/-- What an occurrence does to the entry of a key. -/
def effect (key : Key) (e : Entry) : Occurrence ι → Entry
  | changed _ k u => if k = key then u.1 e else e
  | visited k closing => if k = key ∧ closing then e.closed else e
  | _ => e

/-- What an occurrence comes to in a store that nobody else uses. -/
def carryOut (t : Store) : Occurrence ι → Store
  | inserted _ key => (t.insertIfAbsent key).1
  | returned .. => t
  | changed _ key u => t.modify key u.1
  | visited key closing => if closing then (t.take key).2 else t

@[simp] theorem effect_key (o : Occurrence ι) (key : Key) (e : Entry) :
    (o.effect key e).key = e.key := by
  cases o with
  | inserted => rfl
  | returned => rfl
  | changed i k u =>
    simp only [effect]
    split
    · exact u.2 e
    · rfl
  | visited k closing =>
    simp only [effect]
    split
    · exact e.closed_key
    · rfl

end Occurrence

variable (log : List (Occurrence ι)) (o : Occurrence ι)

/-- The keys for which a slot was put in, oldest first. -/
def insertions : List Key := log.filterMap Occurrence.inserted?

/-- The keys whose entries were returned as created. -/
def creations : List Key := log.filterMap Occurrence.creation?

/-- What must be in the entry of a key: all that was done to it, one thing after the other. -/
def contents (key : Key) (log : List (Occurrence ι)) : Entry :=
  log.foldl (fun e o => o.effect key e) (.new key)

/-- The store that a log leaves if one operation of the store is carried out after the other. -/
def replay : Store := log.foldl (fun t o => o.carryOut t) {}

@[simp] theorem insertions_nil : insertions ([] : List (Occurrence ι)) = [] := rfl

theorem insertions_append (more : List (Occurrence ι)) :
    insertions (log ++ more) = insertions log ++ insertions more :=
  List.filterMap_append

@[simp] theorem insertions_concat :
    insertions (log ++ [o]) = insertions log ++ o.inserted?.toList := by
  simp only [insertions, List.filterMap_append, List.filterMap_cons, List.filterMap_nil]
  cases o.inserted? <;> rfl

@[simp] theorem creations_nil : creations ([] : List (Occurrence ι)) = [] := rfl

@[simp] theorem creations_concat :
    creations (log ++ [o]) = creations log ++ o.creation?.toList := by
  simp only [creations, List.filterMap_append, List.filterMap_cons, List.filterMap_nil]
  cases o.creation? <;> rfl

@[simp] theorem contents_nil (key : Key) : contents key ([] : List (Occurrence ι)) = .new key := rfl

@[simp] theorem contents_concat (key : Key) :
    contents key (log ++ [o]) = o.effect key (contents key log) := by
  simp [contents]

@[simp] theorem replay_nil : replay ([] : List (Occurrence ι)) = {} := rfl

@[simp] theorem replay_concat : replay (log ++ [o]) = o.carryOut (replay log) := by
  simp [replay]

@[simp] theorem contents_key (key : Key) : (contents key log).key = key := by
  induction log using List.reverseRecOn with
  | nil => rfl
  | append_singleton log o ih => rw [contents_concat, Occurrence.effect_key, ih]

/-- What is written after a log is as it should be: nobody puts in a slot for a key that has one,
an entry is returned from the slot of its key with all that was done to it, and a call comes back
without an entry only if it did not ask for a new one and there was none. -/
def Occurrence.Fits : Occurrence ι → Prop
  | inserted _ key => key ∉ insertions log
  | returned _ c none => c.creates = false ∧ c.key ∉ insertions log
  | returned _ c (some h) =>
    (insertions log)[h.slot]? = some c.key ∧ h.shown = contents c.key log ∧
      (h.created = true → c.creates = true)
  | changed _ key _ => key ∈ insertions log
  | visited key _ => key ∈ insertions log

/-- Everything in a log fits what is written before it. -/
inductive Faithful : List (Occurrence ι) → Prop
  | nil : Faithful []
  | concat {log : List (Occurrence ι)} {o : Occurrence ι} (h : Faithful log) (fits : o.Fits log) :
      Faithful (log ++ [o])

namespace Faithful

variable {log : List (Occurrence ι)} (h : Faithful log)
include h

theorem insertions_nodup : (insertions log).Nodup := by
  induction h with
  | nil => exact List.nodup_nil
  | @concat log o _ fits ih =>
    cases o with
    | inserted i key =>
      simp only [insertions_concat, Occurrence.inserted?, Option.toList_some]
      rw [← List.concat_eq_append]
      exact ih.concat fits
    | returned | changed | visited => simpa [Occurrence.inserted?] using ih

/-- Nothing was done to an entry that there is not. -/
theorem contents_of_not_mem {key : Key} (hkey : key ∉ insertions log) :
    contents key log = .new key := by
  induction h with
  | nil => rfl
  | @concat log o _ fits ih =>
    simp only [insertions_concat, List.mem_append, not_or] at hkey
    rw [contents_concat, ih hkey.1]
    cases o with
    | inserted | returned => rfl
    | changed i k u =>
      have hne : k ≠ key := fun he => hkey.1 (he ▸ fits)
      simp [Occurrence.effect, hne]
    | visited k closing =>
      have hne : k ≠ key := fun he => hkey.1 (he ▸ fits)
      simp [Occurrence.effect, hne]

/-- One operation after the other leaves the same entries. -/
theorem find?_replay (key : Key) :
    (replay log).find? key = if key ∈ insertions log then some (contents key log) else none := by
  -- for all keys at once: an operation on `k` needs what is found for `k`, not for `key` only
  induction h generalizing key with
  | nil => simp [find?]
  | @concat log o h fits ih =>
    rw [replay_concat, contents_concat, insertions_concat]
    cases o with
    | inserted i k =>
      have habsent : (replay log).find? k = none := by
        rw [ih k, if_neg fits]
      rw [Occurrence.carryOut, find?_insertIfAbsent _ _ _ habsent, ih key]
      by_cases hk : k = key
      · subst k
        simp [Occurrence.inserted?, Occurrence.effect, h.contents_of_not_mem fits]
      · simp [Occurrence.inserted?, Occurrence.effect, hk, Ne.symm hk]
    | returned i c x =>
      simpa [Occurrence.carryOut, Occurrence.inserted?, Occurrence.effect] using ih key
    | changed i k u =>
      have hin : k ∈ insertions log := fits
      rw [Occurrence.carryOut, find?_modify, ih key, ih k]
      by_cases hk : k = key
      · subst k
        simp [Occurrence.inserted?, Occurrence.effect, hin]
      · simp [Occurrence.inserted?, Occurrence.effect, hk]
    | visited k closing =>
      have hin : k ∈ insertions log := fits
      cases closing with
      | false => simpa [Occurrence.carryOut, Occurrence.inserted?, Occurrence.effect] using ih key
      | true =>
        rw [Occurrence.carryOut, if_pos rfl, find?_take, ih key, ih k]
        by_cases hk : k = key
        · subst k
          simp [Occurrence.inserted?, Occurrence.effect, hin]
        · simp [Occurrence.inserted?, Occurrence.effect, hk]

/-- What was said of anything in a log. -/
theorem fits_of_eq {before after : List (Occurrence ι)} {o : Occurrence ι}
    (hlog : log = before ++ o :: after) : o.Fits before := by
  induction h generalizing after with
  | nil => simp at hlog
  | @concat log o' _ fits ih =>
    rcases List.eq_nil_or_concat' after with rfl | ⟨rest, last, rfl⟩
    · obtain ⟨rfl, he⟩ := List.append_inj' hlog rfl
      obtain rfl := (List.cons.inj he).1
      exact fits
    · rw [← List.cons_append, ← List.append_assoc] at hlog
      exact ih (List.append_inj' hlog rfl).1

/-- An entry was returned from the slot that belongs to its key. -/
theorem slot_of_returned {i : ι} {c : Call} {x : Handout}
    (hmem : .returned i c (some x) ∈ log) : (insertions log)[x.slot]? = some c.key := by
  obtain ⟨before, after, hlog⟩ := List.append_of_mem hmem
  have hslot := (h.fits_of_eq hlog).1
  have hlt := (List.getElem?_eq_some_iff.mp hslot).1
  rw [hlog, insertions_append, List.getElem?_append_left hlt, hslot]

end Faithful

/-- A store has as many entries as there are keys that are found in it. -/
theorem size_replay {log : List (Occurrence ι)} (h : Faithful log) :
    (replay log).size = (insertions log).length := by
  have hkeys : (replay log).keys.length = (replay log).size := by
    rw [keys, List.length_mergeSort, Std.HashMap.length_keys]
    rfl
  have hmem : ∀ key, key ∈ (replay log).keys ↔ key ∈ insertions log := by
    intro key
    rw [mem_keys, h.find?_replay key]
    split <;> simp_all
  have hperm : (replay log).keys.Perm (insertions log) :=
    (List.perm_ext_iff_of_nodup (keys_nodup _) h.insertions_nodup).mpr hmem
  rw [← hkeys, hperm.length_eq]

end Shared

end Store

end BlockLedger
