import BlockLedger.Proofs.Store.Charge

/-
# Looking up what a store holds

What each operation of the store does is told key by key: which entry is found afterwards, given
the one that was found before.  None of the operations removes an entry, and each of them leaves
all keys alone but the one that it is about.
-/

namespace BlockLedger

namespace Entry

/-- What a closing snapshot leaves of an entry. -/
def closed (e : Entry) : Entry := if e.active then e.reset else e

@[simp] theorem closed_key (e : Entry) : e.closed.key = e.key := by
  unfold closed
  split <;> rfl

theorem closed_of_active {e : Entry} (h : e.active = true) : e.closed = e.reset := by
  simp [closed, h]

theorem closed_of_inactive {e : Entry} (h : e.active = false) : e.closed = e := by
  simp [closed, h]

@[simp] theorem closed_active (e : Entry) : e.closed.active = false := by
  cases h : e.active with
  | true => rw [closed_of_active h, reset_active]
  | false => rw [closed_of_inactive h, h]

@[simp] theorem closed_closed (e : Entry) : e.closed.closed = e.closed :=
  closed_of_inactive (closed_active e)

end Entry

namespace Store

variable (s : Store) (k k' : Key)

theorem find?_insert (e : Entry) (n : Nat) :
    find? ⟨s.entries.insert k e, n⟩ k' = if k = k' then some e else s.find? k' := by
  simp [find?, Std.HashMap.getElem?_insert]

/-- What is found when nothing has changed, put as if something had under `k`. -/
theorem find?_unchanged {o : Option Entry} (h : s.find? k = o) :
    s.find? k' = if k = k' then o else s.find? k' := by
  split
  · subst k'
    exact h
  · rfl

theorem find?_modify (f : Entry → Entry) :
    (s.modify k f).find? k' = if k = k' then (s.find? k).map f else s.find? k' := by
  unfold modify
  cases h : s.find? k with
  | some e => rw [find?_insert, Option.map_some]
  | none => exact s.find?_unchanged k k' h

theorem find?_insertIfAbsent (h : s.find? k = none) :
    (s.insertIfAbsent k).1.find? k' = if k = k' then some (.new k) else s.find? k' := by
  have habsent : s.entries.contains k = false := by
    simpa [find?] using h
  simp only [insertIfAbsent, habsent, Bool.false_eq_true, if_false]
  exact find?_insert s k k' _ _

theorem find?_ensure :
    (s.ensure k).1.find? k' = if k = k' then some ((s.find? k).getD (.new k)) else s.find? k' := by
  unfold ensure
  cases h : s.find? k with
  | some e => exact s.find?_unchanged k k' h
  | none => exact find?_insertIfAbsent s k k' h

/-- A new entry is needed just if there is none. -/
theorem ensure_snd : (s.ensure k).2 = (s.find? k).isNone := by
  unfold ensure
  cases h : s.find? k with
  | some e => rfl
  | none =>
    have habsent : s.entries.contains k = false := by simpa [find?] using h
    simp [insertIfAbsent, habsent]

theorem find?_identify (i : Identity) :
    (s.identify k i).1.find? k' =
      if k = k' then (s.find? k).map fun e => e.identify i else s.find? k' := by
  unfold identify
  cases h : s.find? k with
  | none => exact s.find?_unchanged k k' h
  | some e =>
    cases ha : e.accepts i with
    | true =>
      simp only [ha, if_true]
      rw [find?_modify, h]
    | false =>
      have he : e.identify i = e := by simp [Entry.identify, ha]
      simp only [ha, Bool.false_eq_true, if_false, Option.map_some, he]
      exact s.find?_unchanged k k' h

theorem take_fst : (s.take k).1 = (s.find? k).filter Entry.active := by
  unfold take
  cases h : s.find? k with
  | none => rfl
  | some e => cases ha : e.active <;> simp [ha, Option.filter]

theorem find?_take :
    (s.take k).2.find? k' = if k = k' then (s.find? k).map Entry.closed else s.find? k' := by
  unfold take
  cases h : s.find? k with
  | none => exact s.find?_unchanged k k' h
  | some e =>
    cases ha : e.active with
    | true =>
      simp only [ha, if_true]
      rw [find?_modify, h, Option.map_some, Option.map_some, Entry.closed_of_active ha]
    | false =>
      simp only [ha, Bool.false_eq_true, if_false, Option.map_some, Entry.closed_of_inactive ha]
      exact s.find?_unchanged k k' h

@[simp] theorem find?_nextBucket : s.nextBucket.2.find? k = s.find? k := rfl

/-! ## Numbers of buckets -/

@[simp] theorem bucket_modify (f : Entry → Entry) : (s.modify k f).bucket = s.bucket := by
  unfold modify
  split <;> rfl

@[simp] theorem bucket_ensure : (s.ensure k).1.bucket = s.bucket := by
  unfold ensure insertIfAbsent
  split
  · rfl
  · split <;> rfl

@[simp] theorem bucket_identify (i : Identity) : (s.identify k i).1.bucket = s.bucket := by
  unfold identify
  split
  · split
    · exact bucket_modify s k _
    · rfl
  · rfl

@[simp] theorem bucket_take : (s.take k).2.bucket = s.bucket := by
  unfold take
  split
  · split
    · exact bucket_modify s k _
    · rfl
  · rfl

/-! ## The keys of a store -/

theorem mem_keys : k ∈ s.keys ↔ (s.find? k).isSome := by
  rw [keys, List.mem_mergeSort, Std.HashMap.mem_keys, find?,
    Std.HashMap.isSome_getElem?_eq_contains, Std.HashMap.contains_iff_mem]

theorem keys_nodup : s.keys.Nodup := by
  rw [keys, (List.mergeSort_perm _ _).nodup_iff]
  exact s.entries.nodup_keys

end Store

end BlockLedger
