import BlockLedger.Proofs.Cluster.Calls

/-
# Who notes down which entries

Entries are created in the course of calls and nowhere else.  The backend that makes the call puts
every key whose entry it has created on its list, in the order of their creation, provided that the
key is wanted there.  It notes no other keys down, and no call takes any off the list.
-/

namespace BlockLedger

namespace Store

variable (s : Store) (k k' : Key)

@[simp] theorem isSome_modify (f : Entry → Entry) :
    ((s.modify k f).find? k').isSome = (s.find? k').isSome := by
  rw [find?_modify]
  split
  · subst k'
    simp
  · rfl

theorem isSome_ensure :
    ((s.ensure k).1.find? k').isSome = true ↔ (s.find? k').isSome = true ∨ k' = k := by
  rw [find?_ensure]
  split
  · subst k'
    simp
  · rename_i hne
    simp [Ne.symm hne]

end Store

namespace Site

variable {P : Type}

/-- A site goes on: entries are created for some keys, and those of the keys that are wanted are
noted down. -/
structure Enrols (s : Site P) (ks : List Key) (t : Site P) : Prop where
  session : t.backend.session = s.backend.session
  pending : t.backend.pending =
    s.backend.pending ++ ks.filter (Pending.wanted s.backend.session)
  nodup : ks.Nodup
  absent : ∀ k ∈ ks, (s.ledger.store.find? k).isSome = false
  entries : ∀ k, (t.ledger.store.find? k).isSome = true ↔
    (s.ledger.store.find? k).isSome = true ∨ k ∈ ks

namespace Enrols

variable {s t u : Site P} {ks ks' : List Key}

theorem trans (h : s.Enrols ks t) (h' : t.Enrols ks' u) : s.Enrols (ks ++ ks') u where
  session := h'.session.trans h.session
  pending := by
    rw [h'.pending, h.pending, h.session, List.filter_append, List.append_assoc]
  nodup := by
    refine List.nodup_append.mpr ⟨h.nodup, h'.nodup, ?_⟩
    rintro k hk _ hk' rfl
    -- what has been created before is not created again
    have hsome := (h.entries k).mpr (.inr hk)
    rw [h'.absent k hk'] at hsome
    cases hsome
  absent k hk := by
    rcases List.mem_append.mp hk with hk | hk
    · exact h.absent k hk
    · cases hsome : (s.ledger.store.find? k).isSome with
      | false => rfl
      | true => exact ((h.entries k).mpr (.inl hsome)).symm.trans (h'.absent k hk)
  entries k := by
    rw [h'.entries, h.entries, List.mem_append, or_assoc]

/-- A site goes on, and no entry is created. -/
theorem of_same (hsession : t.backend.session = s.backend.session)
    (hpending : t.backend.pending = s.backend.pending)
    (hentries : ∀ k, (t.ledger.store.find? k).isSome = (s.ledger.store.find? k).isSome) :
    s.Enrols [] t where
  session := hsession
  pending := hpending.trans (List.append_nil _).symm
  nodup := List.nodup_nil
  absent _ hk := absurd hk List.not_mem_nil
  entries k := by simp [hentries]

theorem refl (s : Site P) : s.Enrols [] s := of_same rfl rfl fun _ => rfl

theorem trans_same (h : s.Enrols ks t) (h' : t.Enrols [] u) : s.Enrols ks u := by
  simpa using h.trans h'

end Enrols

variable (s : Site P)

/-! ## Entries -/

theorem register_enrols (key : Key) : ∃ ks, s.Enrols ks (s.register key) := by
  rw [register_eq]
  cases hsome : (s.ledger.store.find? key).isSome with
  | true =>
    refine ⟨[], .of_same rfl rfl fun k => ?_⟩
    rw [Bool.eq_iff_iff, s.ledger.store.isSome_ensure key, or_iff_left_iff_imp]
    rintro rfl
    exact hsome
  | false =>
    refine ⟨[key], rfl, ?_, by simp, fun k hk => ?_, fun k => ?_⟩
    · simp only [Bool.false_eq_true, if_false, Pending.add]
      split <;> simp [*]
    · obtain rfl := List.mem_singleton.mp hk
      exact hsome
    · rw [s.ledger.store.isSome_ensure key, List.mem_singleton]

theorem introduce_enrols (relation : Relation) (fork : Fork) :
    ∃ ks, s.Enrols ks (s.introduce relation fork) := by
  unfold introduce
  split
  · exact s.register_enrols _
  · exact ⟨[], .refl s⟩

theorem update_enrols (key : Key) (f : Entry → Entry) : ∃ ks, s.Enrols ks (s.update key f) := by
  obtain ⟨ks, hks⟩ := s.register_enrols key
  exact ⟨ks, hks.trans_same (.of_same rfl rfl fun k => Store.isSome_modify ..)⟩

/-! ## Calls -/

theorem account_enrols (q : Request P) (block count : BlockNumber) (d : Direction) :
    ∃ ks, s.Enrols ks (s.account q block count d) := by
  unfold account
  split
  · exact ⟨[], .refl s⟩
  · rename_i key _
    obtain ⟨ks, hks⟩ := (s.classify q.key key block count d).2.update_enrols key fun e =>
      e.account d count.toNat s.ledger.clock.lag (s.classify q.key key block count d).1
        s.ledger.clock.now
    exact ⟨ks, hks.session, hks.pending, hks.nodup, hks.absent, hks.entries⟩

theorem bump_enrols (q : Request P) (f : Entry → Entry) : ∃ ks, s.Enrols ks (s.bump q f) := by
  unfold bump
  split
  · exact ⟨[], .refl s⟩
  · exact s.update_enrols _ _

theorem relocate_enrols (r : Relocation) :
    s.Enrols [] { s with ledger := (s.ledger.relocate r).1 } := by
  refine .of_same rfl rfl fun k => ?_
  dsimp only
  rw [Ledger.relocate_store]

theorem count_enrols (q : Request P) : ∃ ks, s.Enrols ks (s.count q) := by
  obtain ⟨relation, fork, operation⟩ := q
  cases operation with
  | attach => exact s.introduce_enrols relation .main
  | create old redo =>
    unfold count
    dsimp only
    split
    · obtain ⟨ks, hks⟩ := introduce_enrols
        { s with ledger := (s.ledger.relocate ⟨old, relation.locator, fork, redo⟩).1 } relation fork
      exact ⟨ks, (s.relocate_enrols _).trans hks⟩
    · exact s.introduce_enrols relation fork
  | read block n => exact s.account_enrols _ block _ .read
  | write block pages => exact s.account_enrols _ block _ .write
  | submit handle block => exact ⟨[], .refl s⟩
  | append | lengthen | truncate | sync => exact s.bump_enrols _ _

theorem prepare_enrols (q : Request P) : ∃ ks, s.Enrols ks (s.prepare q) := by
  unfold prepare stage
  split
  · split
    · exact ⟨[], .of_same rfl rfl fun _ => rfl⟩
    · rename_i key _
      obtain ⟨ks, hks⟩ := s.register_enrols key
      exact ⟨ks, hks.trans_same (.of_same rfl rfl fun _ => rfl)⟩
  · exact ⟨[], .refl s⟩

theorem settle_enrols (handle : Handle) (result : Completion) :
    s.Enrols [] (s.settle handle result) := by
  unfold settle
  split
  · exact .of_same rfl rfl fun k => Store.isSome_modify ..
  · exact .refl s

end Site

namespace Chain

variable {P : Type}

/-- What is created in the course of a call is noted down by the backend that makes it. -/
theorem call_enrols (blank : P) (chain : List Link) (q : Request P) (s : Site P) :
    ∃ ks, s.Enrols ks (call blank chain q s).2 := by
  induction chain generalizing s with
  | nil => exact ⟨[], .refl s⟩
  | cons link rest ih =>
    cases link with
    | device =>
      unfold call
      split
      · exact ⟨[], .of_same rfl rfl fun _ => rfl⟩
      · exact ⟨[], .refl s⟩
    | passing name => exact ih s
    | counting =>
      obtain ⟨ks, hprepare⟩ := s.prepare_enrols q
      obtain ⟨ks', hrest⟩ := ih (s.prepare q)
      unfold call
      rcases h : call blank rest q (s.prepare q) with ⟨_ | pages, t⟩ <;> rw [h] at hrest
      · exact ⟨_, hprepare.trans hrest⟩
      · obtain ⟨ks'', hcount⟩ := t.count_enrols q
        exact ⟨_, (hprepare.trans hrest).trans hcount⟩

/-- The end of an asynchronous read creates nothing. -/
theorem complete_enrols (chain : List Link) (handle : Handle) (result : Completion) (s : Site P) :
    s.Enrols [] (complete chain handle result s).2 := by
  induction chain generalizing s with
  | nil => exact .refl s
  | cons link rest ih =>
    cases link with
    | device | passing name => exact ih s
    | counting => exact (s.settle_enrols handle result).trans_same (ih _)

end Chain

end BlockLedger
