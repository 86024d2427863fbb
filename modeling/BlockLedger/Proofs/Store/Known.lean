import BlockLedger.Identify.Spread
import BlockLedger.Proofs.Store.Closing

/-
# What is known of a key

Of all that an entry holds, its identity is what the catalog has to say, and it is moved by nothing
but an offer: neither a charge nor a new period touches it.  An offer is taken on by an entry that
has no valid identity yet, and by no other, so what is once known of a key stays known.
-/

namespace BlockLedger

namespace Identity

/-- What is known after `i` has been offered to one who knew `j`. -/
def takeOn (j i : Identity) : Identity := if !j.valid && i.valid then i else j

theorem takeOn_of_valid {j : Identity} (h : j.valid = true) (i : Identity) : j.takeOn i = j := by
  simp [takeOn, h]

theorem takeOn_of_unknown {j i : Identity} (hj : j.valid = false) (hi : i.valid = true) :
    j.takeOn i = i := by
  simp [takeOn, hj, hi]

end Identity

namespace Entry

variable (e : Entry)

@[simp] theorem withTraffic_identity (d : Direction) (f : Traffic → Traffic) :
    (e.withTraffic d f).identity = e.identity := by
  cases d <;> rfl

@[simp] theorem touch_identity (now : Int) : (e.touch now).identity = e.identity := rfl

@[simp] theorem account_identity (d : Direction) (blocks us : Nat) (a : Access) (now : Int) :
    (e.account d blocks us a now).identity = e.identity := by
  simp [account]

@[simp] theorem closed_identity : e.closed.identity = e.identity := by
  unfold closed
  split <;> rfl

theorem identify_identity (i : Identity) : (e.identify i).identity = e.identity.takeOn i := by
  unfold identify accepts Identity.takeOn
  split <;> rfl

end Entry

@[simp] theorem Charge.apply_identity (c : Charge) (now : Int) (e : Entry) :
    (c.apply now e).identity = e.identity := by
  cases c <;> simp [apply]

namespace Store

variable (s : Store) (k k' : Key)

/-- What is known of a key that has an entry. -/
def known : Option Identity := (s.find? k).map Entry.identity

theorem isSome_known : (s.known k).isSome = (s.find? k).isSome := by
  simp [known]

theorem unresolved_iff :
    s.unresolved k = true ↔ ∃ j, s.known k = some j ∧ j.valid = false := by
  unfold unresolved known
  cases s.find? k <;> simp

theorem known_ensure :
    (s.ensure k).1.known k' =
      if k = k' then some ((s.known k).getD (Entry.new k).identity) else s.known k' := by
  unfold known
  rw [find?_ensure]
  split
  · cases s.find? k <;> rfl
  · rfl

theorem known_modify {f : Entry → Entry} (hf : ∀ e, (f e).identity = e.identity) :
    (s.modify k f).known k' = s.known k' := by
  unfold known
  rw [find?_modify]
  split
  · subst k'
    simp [Function.comp_def, hf]
  · rfl

@[simp] theorem known_endRun (r : EndedRun) : (s.endRun r).known k' = s.known k' :=
  s.known_modify r.key k' fun _ => Entry.withTraffic_identity ..

theorem known_endRuns (rs : List EndedRun) : (rs.foldl endRun s).known k = s.known k := by
  induction rs generalizing s with
  | nil => rfl
  | cons r rest ih => rw [List.foldl_cons, ih, known_endRun]

@[simp] theorem known_nextBucket : s.nextBucket.2.known k = s.known k := rfl

@[simp] theorem known_take : (s.take k).2.known k' = s.known k' := by
  unfold known
  rw [find?_take]
  split
  · subst k'
    simp [Function.comp_def]
  · rfl

@[simp] theorem known_takeAll (ks : List Key) : (s.takeAll ks).2.known k = s.known k := by
  induction ks generalizing s with
  | nil => rfl
  | cons k' rest ih => rw [takeAll_cons, ih, known_take]

@[simp] theorem known_close : s.close.2.2.known k = s.known k :=
  known_takeAll _ k _

theorem known_identify (i : Identity) :
    (s.identify k i).1.known k' =
      if k = k' then (s.known k).map fun j => j.takeOn i else s.known k' := by
  unfold known
  rw [find?_identify]
  split
  · simp [Function.comp_def, Entry.identify_identity]
  · rfl

/-- An offer is taken on just if nothing is known as yet and the offer is valid. -/
theorem identify_snd (i : Identity) :
    (s.identify k i).2 = (s.unresolved k && i.valid) := by
  unfold identify unresolved
  cases s.find? k with
  | none => rfl
  | some e =>
    have haccepts : e.accepts i = (!e.identity.valid && i.valid) := rfl
    dsimp only
    rw [← haccepts]
    cases e.accepts i <;> rfl

variable {s t : Store} {k k'} {i : Identity}

theorem known_identify_self (h : s.unresolved k = true) (hi : i.valid = true) :
    (s.identify k i).1.known k = some i := by
  obtain ⟨j, hj, hunknown⟩ := (s.unresolved_iff k).mp h
  rw [s.known_identify, if_pos rfl, hj, Option.map_some, Identity.takeOn_of_unknown hunknown hi]

theorem known_identify_of_ne (h : k ≠ k') : (s.identify k i).1.known k' = s.known k' := by
  rw [s.known_identify, if_neg h]

theorem unresolved_congr (h : t.known k = s.known k) : t.unresolved k = s.unresolved k := by
  rw [Bool.eq_iff_iff, unresolved_iff, unresolved_iff, h]

theorem not_unresolved_of_known {j : Identity} (h : s.known k = some j) (hj : j.valid = true) :
    s.unresolved k = false := by
  rw [Bool.eq_false_iff, ne_eq, unresolved_iff]
  rintro ⟨j', hj', hunknown⟩
  obtain rfl := Option.some.inj (h.symm.trans hj')
  rw [hj] at hunknown
  cases hunknown

/-- What is once known of a key stays known, whatever happens to the store. -/
theorem Path.known {ds : List Mark} (h : s.Path ds t) {j : Identity} (hk : s.known k = some j)
    (hj : j.valid = true) : t.known k = some j := by
  have hstep : ∀ {d : Option Mark} {u v : Store}, u.Step d v → u.known k = some j →
      v.known k = some j := by
    intro d u v hstep hu
    have htouch := hstep.touch k
    unfold Store.known at hu ⊢
    generalize u.find? k = o, v.find? k = o' at htouch hu
    cases htouch with
    | other => exact hu
    | create => cases hu
    | identify e i =>
      obtain rfl : e.identity = j := Option.some.inj hu
      simp [Entry.identify_identity, Identity.takeOn_of_valid hj]
    | post p h e => simpa using hu
    | endRun r h e => simpa using hu
    | take o => simpa [Function.comp_def] using hu
  induction h with
  | refl => exact hk
  | silent _ h ih | mark _ h ih => exact hstep h ih

end Store

end BlockLedger
