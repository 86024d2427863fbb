import BlockLedger.Proofs.Store.Known

/-
# Rightful identities

What has been told about the relation at a locator may be known of the forks of that relation, and
of nothing else.  A key that stands for all temporary relations of a database is known from the
start, and is never taken for one of them.

A store is rightful if all that is known in it is.  It stays so when an identity is offered that has
been told about the locator, for the forks that it is handed on to have the same locator; and it
stays so when nothing is offered at all.
-/

namespace BlockLedger

variable {told : Locator → Identity → Prop} {k : Key} {i j : Identity}

/-- What may be known of a key, given what has been told about the relations at locators. -/
def Rightful (told : Locator → Identity → Prop) (k : Key) (i : Identity) : Prop :=
  if k.isTemporaries then i = .temporaries else i.valid = true → told k.locator i

theorem rightful_of_told (hk : k.isTemporaries = false) (h : i.valid = true → told k.locator i) :
    Rightful told k i := by
  rw [Rightful, hk]
  exact h

theorem rightful_new (told : Locator → Identity → Prop) (k : Key) :
    Rightful told k (Entry.new k).identity := by
  unfold Rightful Entry.new
  cases k.isTemporaries <;> simp

namespace Rightful

/-- What stands for temporary relations is known. -/
theorem not_temporaries (h : Rightful told k i) (hi : i.valid = false) : k.isTemporaries = false := by
  cases hk : k.isTemporaries with
  | false => rfl
  | true =>
    rw [Rightful, if_pos hk] at h
    rw [h] at hi
    cases hi

theorem told_of_valid (h : Rightful told k i) (hk : k.isTemporaries = false) (hi : i.valid = true) :
    told k.locator i := by
  rw [Rightful, hk] at h
  exact h hi

theorem takeOn (h : Rightful told k j) (hi : i.valid = true → told k.locator i) :
    Rightful told k (j.takeOn i) := by
  cases hj : j.valid with
  | true => rwa [Identity.takeOn_of_valid hj]
  | false =>
    unfold Identity.takeOn
    split
    · exact rightful_of_told (h.not_temporaries hj) hi
    · exact h

end Rightful

/-- What is known of an entry, or of a copy of one, is rightful. -/
def Entry.Rightful (told : Locator → Identity → Prop) (e : Entry) : Prop :=
  BlockLedger.Rightful told e.key e.identity

theorem Key.siblings_locator {k' : Key} (h : k' ∈ k.siblings) : k'.locator = k.locator := by
  obtain ⟨f, -, rfl⟩ := List.mem_map.mp h
  rfl

namespace Store

variable {s t u : Store}

/-- All that is known in a store is rightful. -/
def Rightful (told : Locator → Identity → Prop) (s : Store) : Prop :=
  ∀ k i, s.known k = some i → BlockLedger.Rightful told k i

theorem Rightful.not_temporaries (h : s.Rightful told) (hk : s.unresolved k = true) :
    k.isTemporaries = false := by
  obtain ⟨i, hi, hunknown⟩ := (s.unresolved_iff k).mp hk
  exact (h k i hi).not_temporaries hunknown

/-! ## Offers -/

theorem Rightful.identify (h : s.Rightful told) (hi : i.valid = true → told k.locator i) :
    (s.identify k i).1.Rightful told := by
  intro k' j hj
  rw [known_identify] at hj
  split at hj
  · subst k'
    obtain ⟨j', hj', rfl⟩ := Option.map_eq_some_iff.mp hj
    exact (h k j' hj').takeOn hi
  · exact h k' j hj

theorem Rightful.identifyAll (h : s.Rightful told) {ks : List Key}
    (hi : i.valid = true → ∀ k ∈ ks, told k.locator i) : (s.identifyAll i ks).2.Rightful told := by
  induction ks generalizing s with
  | nil => exact h
  | cons k rest ih =>
    refine ih (h.identify fun hv => hi hv k List.mem_cons_self) fun hv k' hk' => ?_
    exact hi hv k' (List.mem_cons_of_mem k hk')

/-- What has been told about a locator may be given to all forks there. -/
theorem Rightful.resolve (h : s.Rightful told) (hi : i.valid = true → told k.locator i) :
    (s.resolve k i).2.Rightful told := by
  have hself : (s.identify k i).1.Rightful told := h.identify hi
  unfold Store.resolve
  rcases hoffer : s.identify k i with ⟨t, _ | _⟩ <;> rw [hoffer] at hself
  · exact hself
  · refine hself.identifyAll fun hv k' hk' => ?_
    rw [Key.siblings_locator hk']
    exact hi hv

/-! ## Without offers -/

/-- Nothing is found out on the way from a store to another: what is known has been known before,
or is known of a new entry. -/
def Keeps (s t : Store) : Prop :=
  ∀ k i, t.known k = some i → s.known k = some i ∨ i = (Entry.new k).identity

theorem Keeps.refl (s : Store) : s.Keeps s := fun _ _ h => .inl h

theorem Keeps.trans (h : s.Keeps t) (h' : t.Keeps u) : s.Keeps u := by
  intro k i hi
  rcases h' k i hi with hi | hi
  · exact h k i hi
  · exact .inr hi

theorem Keeps.of_known (h : ∀ k, t.known k = s.known k) : s.Keeps t := by
  intro k i hi
  exact .inl (h k ▸ hi)

theorem keeps_ensure (s : Store) (k : Key) : s.Keeps (s.ensure k).1 := by
  intro k' i hi
  rw [known_ensure] at hi
  split at hi
  · subst k'
    cases hk : s.known k with
    | none =>
      rw [hk] at hi
      exact .inr (Option.some.inj hi).symm
    | some j =>
      rw [hk] at hi
      exact .inl hi
  · exact .inl hi

theorem Rightful.keeps (h : s.Rightful told) (hst : s.Keeps t) : t.Rightful told := by
  intro k i hi
  rcases hst k i hi with hi | rfl
  · exact h k i hi
  · exact rightful_new told k

/-! ## Copies -/

/-- A copy of an entry is as rightful as the entry itself. -/
theorem Rightful.copy (h : s.Rightful told) (hkeyed : s.Keyed) {e : Entry}
    (he : s.find? k = some e) : e.Rightful told := by
  refine h e.key e.identity ?_
  rw [hkeyed k e he, known, he]
  rfl

theorem Rightful.take (h : s.Rightful told) (hkeyed : s.Keyed) {e : Entry}
    (he : (s.take k).1 = some e) : e.Rightful told := by
  rw [take_fst, Option.filter_eq_some_iff] at he
  exact h.copy hkeyed he.1

theorem Rightful.close (h : s.Rightful told) (hkeyed : s.Keyed) {e : Entry}
    (he : e ∈ s.close.2.1) : e.Rightful told := by
  obtain ⟨k, hk, -⟩ := (s.mem_close e).mp he
  exact h.copy hkeyed hk

end Store

end BlockLedger
