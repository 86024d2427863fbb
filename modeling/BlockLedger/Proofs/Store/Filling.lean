import BlockLedger.Proofs.Store.Rightful

/-
# Filling in what has been found

To resolve a key is to tell all forks of its relation the same: whatever was not known of them is
filled in, and what was known of them stays.  So a store in which relations have been resolved one
after the other is the one before with all that has been found filled in at once, and the order in
which it has been found does not show.
-/

namespace BlockLedger

namespace Identity

/-- What is known once something has been found, or nothing. -/
def fill (j : Identity) (found : Option Identity) : Identity :=
  if j.valid then j else found.getD j

variable {j : Identity}

@[simp] theorem fill_none (j : Identity) : j.fill none = j := by
  simp [fill]

theorem fill_of_valid (h : j.valid = true) (found : Option Identity) : j.fill found = j := by
  simp [fill, h]

theorem fill_of_unknown (h : j.valid = false) (i : Identity) : j.fill (some i) = i := by
  simp [fill, h]

theorem takeOn_eq_fill (j : Identity) {i : Identity} (hi : i.valid = true) :
    j.takeOn i = j.fill (some i) := by
  cases hj : j.valid with
  | true => rw [takeOn_of_valid hj, fill_of_valid hj]
  | false => rw [takeOn_of_unknown hj hi, fill_of_unknown hj]

@[simp] theorem takeOn_takeOn (j i : Identity) : (j.takeOn i).takeOn i = j.takeOn i := by
  cases hj : (j.takeOn i).valid with
  | true => exact takeOn_of_valid hj i
  | false =>
    -- the offer was not taken on, or it is not valid itself
    simp only [takeOn] at hj ⊢
    split at hj <;> rename_i h <;> simp_all

/-- If all that is found is valid, something is known in the end just if it was known or found. -/
theorem valid_fill {found : Option Identity} (h : ∀ i, found = some i → i.valid = true) :
    (j.fill found).valid = (j.valid || found.isSome) := by
  cases hj : j.valid with
  | true => rw [fill_of_valid hj, hj, Bool.true_or]
  | false =>
    cases hfound : found with
    | none => rw [fill_none, hj, Option.isSome_none, Bool.or_false]
    | some i => rw [fill_of_unknown hj, h i hfound, Option.isSome_some, Bool.or_true]

end Identity

theorem Key.eq_or_mem_siblings {k k' : Key} :
    k' = k ∨ k' ∈ k.siblings ↔ k'.locator = k.locator := by
  constructor
  · rintro (rfl | h)
    · rfl
    · exact siblings_locator h
  · intro h
    by_cases hfork : k'.fork = k.fork
    · obtain ⟨l, f⟩ := k
      obtain ⟨l', f'⟩ := k'
      exact .inl (congrArg₂ Key.mk h hfork)
    · refine .inr (List.mem_map.mpr ⟨k'.fork, ?_, congrArg₂ Key.mk h.symm rfl⟩)
      simp [Fork.mem_all, hfork]

/-- An offer moves nothing but the identity. -/
theorem Entry.identify_eq_takeOn (e : Entry) (i : Identity) :
    e.identify i = { e with identity := e.identity.takeOn i } := by
  unfold identify accepts Identity.takeOn
  split <;> rfl

/-- An entry with what has been found, if anything has. -/
def Entry.fill (e : Entry) (found : Option Identity) : Entry :=
  { e with identity := e.identity.fill found }

@[simp] theorem Entry.fill_none (e : Entry) : e.fill none = e := by
  rw [fill, Identity.fill_none]

theorem Entry.identify_eq_fill (e : Entry) {i : Identity} (hi : i.valid = true) :
    e.identify i = e.fill (some i) := by
  rw [identify_eq_takeOn, Identity.takeOn_eq_fill _ hi, fill]

theorem Entry.identify_identify (e : Entry) (i : Identity) :
    (e.identify i).identify i = e.identify i := by
  rw [identify_eq_takeOn, identify_eq_takeOn, Identity.takeOn_takeOn]

namespace Store

variable (s : Store) (i : Identity) (k : Key)

theorem find?_identifyAll (ks : List Key) (k' : Key) :
    (s.identifyAll i ks).2.find? k' =
      if k' ∈ ks then (s.find? k').map fun e => e.identify i else s.find? k' := by
  induction ks generalizing s with
  | nil => rfl
  | cons k rest ih =>
    show ((s.identify k i).1.identifyAll i rest).2.find? k' = _
    rw [ih, find?_identify]
    by_cases hk : k = k'
    · subst hk
      simp [Function.comp_def, Entry.identify_identify]
    · simp [hk, Ne.symm hk]

theorem resolve_fst : (s.resolve k i).1 = (s.unresolved k && i.valid) := by
  rw [← identify_snd, resolve]
  rcases s.identify k i with ⟨t, _ | _⟩ <;> rfl

/-- A key that nothing is to be found out about is left alone. -/
theorem resolve_of_settled (hk : s.unresolved k = false) : s.resolve k i = (false, s) := by
  have hsame : s.identify k i = (s, false) := by
    have hrefused := s.identify_snd k i
    rw [hk, Bool.false_and] at hrefused
    unfold identify at hrefused ⊢
    cases hfind : s.find? k with
    | none => rfl
    | some e =>
      rw [hfind] at hrefused
      cases haccepts : e.accepts i with
      | false => simp [haccepts]
      | true => simp [haccepts] at hrefused
  rw [resolve, hsame]

/-- If a key that nothing is known of is resolved, all forks of its relation are told the same. -/
theorem find?_resolve (hk : s.unresolved k = true) (hi : i.valid = true) (k' : Key) :
    (s.resolve k i).2.find? k' =
      if k'.locator = k.locator then (s.find? k').map fun e => e.identify i else s.find? k' := by
  have hresolve : (s.resolve k i).2 = (s.identifyAll i (k :: k.siblings)).2 := by
    have haccepted : (s.identify k i).2 = true := by
      rw [identify_snd, hk, hi]
      rfl
    simp only [resolve, identifyAll]
    rcases h : s.identify k i with ⟨t, accepted⟩
    rw [h] at haccepted
    obtain rfl : accepted = true := haccepted
    rfl
  have hmem : k' ∈ k :: k.siblings ↔ k'.locator = k.locator := by
    rw [List.mem_cons, Key.eq_or_mem_siblings]
  rw [hresolve, find?_identifyAll]
  simp only [hmem]

theorem known_resolve (hk : s.unresolved k = true) (hi : i.valid = true) (k' : Key) :
    (s.resolve k i).2.known k' =
      if k'.locator = k.locator then (s.known k').map fun j => j.fill (some i)
      else s.known k' := by
  unfold known
  rw [find?_resolve s i k hk hi]
  split
  · simp [Function.comp_def, Entry.identify_identity, Identity.takeOn_eq_fill _ hi]
  · rfl

theorem bucket_identifyAll (ks : List Key) : (s.identifyAll i ks).2.bucket = s.bucket := by
  induction ks generalizing s with
  | nil => rfl
  | cons k rest ih => exact (ih _).trans (s.bucket_identify k i)

@[simp] theorem bucket_resolve : (s.resolve k i).2.bucket = s.bucket := by
  have hself := s.bucket_identify k i
  unfold resolve
  rcases h : s.identify k i with ⟨t, _ | _⟩ <;> rw [h] at hself
  · exact hself
  · exact (t.bucket_identifyAll i k.siblings).trans hself

end Store

end BlockLedger
