import BlockLedger.Proofs.Cluster.Rounds

/-
# Letting go of keys

An entry that has an identity keeps it, so a key that is done with stays so.  A backend that looks
into a key keeps it on its list, unless the key is done with.  That holds whatever the catalog says,
as long as it marks as valid what it returns.
-/

namespace BlockLedger

/-! ## Entries without an identity -/

namespace Store

variable {s t : Store} {k : Key} {ds : List Mark}

/-- An entry without an identity has had none before, or it is new, and then its key does not stand
for all temporary relations. -/
theorem Path.unresolved (h : s.Path ds t) (ht : t.unresolved k = true) :
    s.unresolved k = true ∨ (s.find? k).isSome = false ∧ k.isTemporaries = false := by
  have hstep : ∀ {d : Option Mark} {u v : Store}, u.Step d v → v.unresolved k = true →
      u.unresolved k = true ∨ (u.find? k).isSome = false ∧ k.isTemporaries = false := by
    intro d u v hstep hv
    have htouch := hstep.touch k
    unfold Store.unresolved at hv ⊢
    generalize u.find? k = o, v.find? k = o' at htouch hv
    cases htouch with
    | other => exact .inl hv
    | create =>
      refine .inr ⟨rfl, ?_⟩
      cases htemp : k.isTemporaries with
      | false => rfl
      | true => simp [Entry.new, htemp] at hv
    | identify e i =>
      refine .inl ?_
      cases hvalid : e.identity.valid with
      | false => simp [hvalid]
      | true => simp [Entry.identify_identity, Identity.takeOn_of_valid, hvalid] at hv
    | post p h e => exact .inl (by simpa using hv)
    | endRun r h e => exact .inl (by simpa using hv)
    | take o =>
      cases o with
      | none => cases hv
      | some e => exact .inl (by simpa using hv)
  induction h with
  | refl => exact .inl ht
  | silent h hlast ih | mark h hlast ih =>
    rcases hstep hlast ht with hu | ⟨hnone, htemp⟩
    · exact ih hu
    · refine .inr ⟨?_, htemp⟩
      cases hsome : (s.find? k).isSome with
      | false => rfl
      | true => exact ((Path.isSome h hsome).symm.trans hnone)

theorem isSome_of_unresolved (h : s.unresolved k = true) : (s.find? k).isSome = true := by
  unfold Store.unresolved at h
  cases hfind : s.find? k with
  | none => simp [hfind] at h
  | some e => rfl

/-- A key that is done with stays so as long as no entry is created for it. -/
theorem Path.done (h : s.Path ds t) (hs : s.unresolved k = false)
    (hentries : (t.find? k).isSome = (s.find? k).isSome) : t.unresolved k = false := by
  cases ht : t.unresolved k with
  | false => rfl
  | true =>
    rcases h.unresolved ht with hu | ⟨hnone, -⟩
    · exact hu.symm.trans hs
    · have hsome := isSome_of_unresolved ht
      rw [hentries, hnone] at hsome
      exact hsome.symm

/-- Whether or not a valid identity is taken on, the entry has one afterwards. -/
theorem unresolved_resolve (s : Store) (k : Key) {i : Identity} (hi : i.valid = true) :
    (s.resolve k i).2.unresolved k = false := by
  have hself : (s.identify k i).1.unresolved k = false := by
    cases hu : s.unresolved k with
    | true => exact not_unresolved_of_known (known_identify_self hu hi) hi
    | false => exact (Step.identify k i).path_silent.done hu (s.isSome_identify i k k)
  unfold resolve
  rcases h : s.identify k i with ⟨u, _ | _⟩ <;> rw [h] at hself
  · exact hself
  · exact (u.identifyAll_path i k.siblings).done hself (u.isSome_identifyAll i k k.siblings)

end Store

theorem Ledger.Learns.done {l l' : Ledger} (h : l.Learns l') {k : Key}
    (hl : l.store.unresolved k = false) : l'.store.unresolved k = false :=
  h.moves.path.done hl (h.isSome k)

/-! ## Letting go of keys -/

/-- A catalog that marks as valid whatever it returns. -/
def Catalog.Honest (C : Type) [Catalog C] : Prop :=
  ∀ (catalog : C) (tablespace number : Oid) (i : Identity),
    (Catalog.relation catalog tablespace number).1 = .ok (some i) → i.valid = true

section Honest

variable {C : Type} [Catalog C] (honest : Catalog.Honest C)
include honest

theorem Catalog.valid_of_search {catalog : C} {tablespace number : Oid} {i : Identity}
    (h : (search catalog tablespace number).1 = .ok (some i)) : i.valid = true := by
  unfold search at h
  split at h
  · split at h
    · cases h
    · exact honest _ _ _ _ h
  · exact honest _ _ _ _ h

theorem Catalog.valid_of_find {catalog : C} {session : Session} {key : Key} {i : Identity}
    (h : (find catalog session key).1 = .found i) : i.valid = true := by
  unfold find at h
  split at h
  · cases h
    rfl
  · split at h
    · cases h
    · split at h <;> rename_i heq
      · cases h
        exact valid_of_search honest (congrArg Prod.fst heq)
      · cases h
      · cases h

namespace Pending

omit honest in
theorem examine_learns (session : Session) (key : Key) (l : Ledger) (catalog : C) :
    l.Learns (examine session key l catalog).2.1 := by
  unfold examine
  split
  · exact .refl
  · split
    · exact .refl
    · split
      · exact .refl
      · exact .report .refl _
      · exact .refl
      · exact .report .refl _

/-- What is found by looking into a key is valid. -/
theorem valid_of_examine {session : Session} {key : Key} {l : Ledger} {catalog : C} {i : Identity}
    (h : (examine session key l catalog).1 = .found i) : i.valid = true := by
  unfold examine at h
  split at h
  · cases h
  · split at h
    · cases h
    · split at h <;> rename_i heq
      · cases h
        exact Catalog.valid_of_find honest (congrArg Prod.fst heq)
      · cases h
      · cases h
      · cases h

omit honest in
/-- A key that leaves the list at once is done with. -/
theorem done_of_examine (session : Session) (key : Key) (l : Ledger) (catalog : C)
    (h : (examine session key l catalog).1 = .leaves) :
    (examine session key l catalog).2.1.store.unresolved key = false := by
  unfold examine at h ⊢
  split at h
  · cases h
  · split at h
    · rename_i hdone
      rw [if_neg ‹_›, if_pos hdone]
      exact hdone
    · split at h <;> cases h

/-- A key that does not stay on the list is done with. -/
theorem done_of_settle {session : Session} {key : Key} {l : Ledger} {catalog : C}
    (h : (settle session key l catalog).1 ≠ .kept) :
    (settle session key l catalog).2.1.store.unresolved key = false := by
  have hleaves := done_of_examine session key l catalog
  have hvalid : ∀ i, (examine session key l catalog).1 = .found i → i.valid = true :=
    fun i hi => valid_of_examine honest hi
  rw [settle_eq] at h ⊢
  rcases hexamine : examine session key l catalog with ⟨_ | _ | i, l', catalog'⟩ <;>
    rw [hexamine] at h hleaves hvalid
  · exact (h rfl).elim
  · exact hleaves rfl
  · exact l'.store.unresolved_resolve key (hvalid i rfl)

/-- Of the keys on a list those that stay do so in their order, and no other is let go of than one
that is done with. -/
theorem settleAll_kept (session : Session) (ks : List Key) (l : Ledger) (catalog : C) :
    (settleAll session ks l catalog).1.1.Sublist ks ∧
      ∀ k ∈ ks, (settleAll session ks l catalog).2.1.store.unresolved k = true →
        k ∈ (settleAll session ks l catalog).1.1 := by
  induction ks generalizing l catalog with
  | nil => exact ⟨.slnil, fun _ hk => absurd hk List.not_mem_nil⟩
  | cons key rest ih =>
    obtain ⟨hsub, hkept⟩ := ih (settle session key l catalog).2.1 (settle session key l catalog).2.2
    have hrest := settleAll_learns session rest (settle session key l catalog).2.1
      (settle session key l catalog).2.2
    rw [settleAll]
    dsimp only
    by_cases hfate : (settle session key l catalog).1 = .kept
    · rw [if_pos hfate]
      refine ⟨hsub.cons_cons key, fun k hk hu => ?_⟩
      rcases List.mem_cons.mp hk with rfl | hk
      · exact List.mem_cons_self
      · exact List.mem_cons_of_mem _ (hkept k hk hu)
    · rw [if_neg hfate]
      refine ⟨hsub.cons key, fun k hk hu => ?_⟩
      rcases List.mem_cons.mp hk with rfl | hk
      · -- it has been done with when it was its turn, and nothing has changed that since
        rw [hrest.done (done_of_settle honest hfate)] at hu
        cases hu
      · exact hkept k hk hu

end Pending

end Honest

end BlockLedger
