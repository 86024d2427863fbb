import BlockLedger.Proofs.Ring.Invariant
import Mathlib.Data.List.Induction
import Mathlib.Data.List.Infix

/-
# When relocations are refused

A producer that finds no room gives up.  It compares the `head` that it read earlier with a `tail`
that it reads now, and in between drains may have gone on.  As long as `tail` has not gone past that
`head`, the test is right: it fails only if 1023 positions are claimed and not consumed, and they
are so at the very moment of the test.  When `tail` has gone past, the difference wraps around, and
the relocation is refused however empty the ring is.
-/

namespace BlockLedger

namespace Ring

/-- The relocation that a producer is busy with. -/
def Stage.relocation : Stage → Option Relocation
  | .idle => none
  | .loaded e _ | .admitted e _ | .claimed e _ | .filled e _ | .refused e => some e

namespace Shared

variable {ι : Type}

/-! ## The test -/

theorem Sound.length_eq {s : Shared ι} (hs : s.Sound) :
    s.ring.tail.toNat + s.ring.length = s.claims.length := by
  have htail := hs.tail_le
  have hle := hs.gathered_le
  have hhead := hs.head_eq
  have := s.ring.head.toNat_lt
  rw [length, UInt64.toNat_sub]
  omega

/-- What a failed test says about the ring. -/
theorem Sound.full_iff {s : Shared ι} (hs : s.Sound) {i : ι} {e : Relocation} {head : UInt64}
    (h : s.stage i = .loaded e head) :
    full head s.ring.tail = true ↔
      (s.ring.length = 1023 ∧ head = s.ring.head) ∨
        (head.toNat < s.ring.tail.toNat ∧ s.ring.tail.toNat + 1023 ≤ head.toNat + 2 ^ 64) := by
  have hi := hs.stage i
  rw [h] at hi
  have hi : head.toNat ≤ s.claims.length := hi
  have hroom := hs.room
  have hlength := hs.length_eq
  have hhead := hs.head_eq
  rw [full_eq_true_iff, ← UInt64.toNat_inj]
  omega

variable [DecidableEq ι] {s t : Shared ι} {m : Move ι} {i : ι} {e : Relocation}

/-- Only a failed test makes a producer give up. -/
theorem Step.refused (h : Step s m t) (ht : t.stage i = .refused e) :
    s.stage i = .refused e ∨
      m = .test i ∧ ∃ head, s.stage i = .loaded e head ∧ full head s.ring.tail = true := by
  cases h with
  | refuse j f head h noRoom =>
    by_cases hij : i = j
    · subst hij
      have hfe : f = e := by simpa [setStage] using ht
      subst hfe
      exact .inr ⟨rfl, head, h, noRoom⟩
    · exact .inl (by simpa [setStage, hij] using ht)
  | call j | pass j | claim j | retry j | fill j | publish j | giveUp j =>
    by_cases hij : i = j
    · subst hij
      simp [setStage] at ht
    · exact .inl (by simpa [setStage, hij] using ht)
  | _ => exact .inl ht

/-- A producer takes another relocation only with another call. -/
theorem Step.relocation (h : Step s m t) (hm : ∀ f, m ≠ .call i f)
    (ht : (t.stage i).relocation = some e) : (s.stage i).relocation = some e := by
  cases h with
  | call j f h =>
    have hij : i ≠ j := by
      rintro rfl
      exact hm f rfl
    simpa [setStage, hij] using ht
  | pass j f head h | refuse j f head h | claim j f h | retry j spurious f head h
  | fill j f pos h =>
    by_cases hij : i = j
    · subst hij
      simpa [setStage, Stage.relocation, h] using ht
    · simpa [setStage, hij] using ht
  | publish j | giveUp j =>
    by_cases hij : i = j
    · subst hij
      simp [setStage, Stage.relocation] at ht
    · simpa [setStage, hij] using ht
  | _ => exact ht

/-! ## The moment of the test -/

theorem relocation_of_run {ms : List (Move ι)} (h : s.run ms = some t)
    (hms : ∀ f, .call i f ∉ ms) (ht : (t.stage i).relocation = some e) :
    (s.stage i).relocation = some e := by
  induction ms generalizing s with
  | nil =>
    cases h
    exact ht
  | cons m rest ih =>
    rw [run_cons, Option.bind_eq_some_iff] at h
    obtain ⟨u, hu, hrest⟩ := h
    refine (step_of_move hu).relocation ?_ (ih hrest fun f hf => hms f (List.mem_cons_of_mem _ hf))
    rintro f rfl
    exact hms f List.mem_cons_self

/-- The test that made a producer give up is found by going back through its call. -/
theorem test_of_refused {ms : List (Move ι)} (h : s.run ms = some t)
    (hs : s.stage i ≠ .refused e) (ht : t.stage i = .refused e) :
    ∃ ms₁ ms₂ u head, ms = ms₁ ++ .test i :: ms₂ ∧ s.run ms₁ = some u ∧
      u.stage i = .loaded e head ∧ full head u.ring.tail = true := by
  induction ms using List.reverseRecOn generalizing t with
  | nil =>
    cases h
    exact absurd ht hs
  | append_singleton ms m ih =>
    rw [run_concat, Option.bind_eq_some_iff] at h
    obtain ⟨u, hu, hm⟩ := h
    rcases (step_of_move hm).refused ht with hold | ⟨rfl, head, hhead, hfull⟩
    · obtain ⟨ms₁, ms₂, v, head, rfl, hv⟩ := ih hu hold
      exact ⟨ms₁, ms₂ ++ [m], v, head, by simp, hv⟩
    · exact ⟨ms, [], u, head, rfl, hu, hhead, hfull⟩

/-- In a call that counts a drop, the ring was full at the moment of the failed test, unless `tail`
had gone past the `head` that the producer had read. -/
theorem refused_when_full {pre mid : List (Move ι)}
    (h : start.run (pre ++ .call i e :: (mid ++ [.giveUp i])) = some s)
    (hmid : ∀ f, .call i f ∉ mid) (hlt : s.claims.length < 2 ^ 64) :
    ∃ before after u head, mid = before ++ .test i :: after ∧
      start.run (pre ++ .call i e :: before) = some u ∧ u.stage i = .loaded e head ∧
      (u.ring.length = 1023 ∧ u.ring.head = head ↔ u.ring.tail ≤ head) := by
  rw [run_append, Option.bind_eq_some_iff] at h
  obtain ⟨u₀, hpre, h⟩ := h
  rw [run_cons, Option.bind_eq_some_iff] at h
  obtain ⟨u₁, hcall, h⟩ := h
  rw [run_concat, Option.bind_eq_some_iff] at h
  obtain ⟨u₂, hrun, hgive⟩ := h
  -- in between, the producer goes from a `head` that it has read to a refusal
  have hloaded : ∃ head, u₁.stage i = .loaded e head := by
    cases step_of_move hcall with
    | call => exact ⟨u₀.ring.head, by simp [setStage]⟩
  obtain ⟨head₁, hloaded⟩ := hloaded
  have hrefused : u₂.stage i = .refused e := by
    cases step_of_move hgive with
    | giveUp _ f h =>
      have hf := relocation_of_run (e := f) hrun hmid (by rw [h]; rfl)
      rw [hloaded, Stage.relocation, Option.some.injEq] at hf
      rw [hf, h]
  obtain ⟨before, after, u, head, rfl, hu, hhead, hfull⟩ :=
    test_of_refused hrun (by simp [hloaded]) hrefused
  have hstart : start.run (pre ++ .call i e :: before) = some u := by
    rw [run_append, hpre, Option.bind_some, run_cons, hcall, Option.bind_some, hu]
  refine ⟨before, after, u, head, rfl, hstart, hhead, ?_⟩
  -- no claim is undone afterwards, so positions did not wrap around before the test either
  have hle : u.claims.length ≤ s.claims.length := by
    rw [run_append, hu, Option.bind_some] at hrun
    exact Nat.le_trans (claims_grow_of_run hrun).length_le
      (step_of_move hgive).claims_grow.length_le
  have hsound : u.Sound := start_sound.run hstart (by omega)
  have hwhy := (hsound.full_iff hhead).mp hfull
  have hlength := hsound.length_eq
  have hi := hsound.stage i
  rw [hhead] at hi
  have hi : head.toNat ≤ u.claims.length := hi
  rw [← UInt64.toNat_inj, hsound.head_eq] at hwhy ⊢
  rw [UInt64.le_iff_toNat_le]
  omega

/-- Between the two reads of a producer, another one appends a relocation and a drain takes it
out. -/
def overtaking : List (Move Bool) :=
  [.call true default, .test true, .swap true false, .fill true, .publish true, .lock, .readTail,
    .readHead, .probe, .take, .probe, .storeTail, .release, .test false]

/-- The test that refuses the overtaken producer finds `tail` past `head`. -/
theorem refused_when_overtaken :
    ∃ s, start.run ([] ++ .call false default :: (overtaking ++ [.giveUp false])) = some s ∧
      (∀ f, .call false f ∉ overtaking) ∧ s.claims.length < 2 ^ 64 ∧
      ∃ before after u head, overtaking = before ++ .test false :: after ∧
        start.run ([] ++ .call false default :: before) = some u ∧
        u.stage false = .loaded default head ∧
        (u.ring.length = 1023 ∧ u.ring.head = head ↔ u.ring.tail ≤ head) := by
  have hmid : ∀ f, .call false f ∉ overtaking := by simp [overtaking]
  have hlt : (1 : Nat) < 2 ^ 64 := by decide
  exact ⟨_, rfl, hmid, hlt, refused_when_full rfl hmid hlt⟩

/-- The overtaken producer is refused, and there never was more than one relocation in the ring. -/
theorem overtaken_refused :
    (∃ s, start.run (.call false default :: (overtaking ++ [.giveUp false])) = some s ∧
      s.ring.dropped = 1) ∧
    ∀ ms, ms <+: .call false default :: (overtaking ++ [.giveUp false]) →
      ∀ s, start.run ms = some s → s.ring.length ≤ 1 := by
  refine ⟨⟨_, rfl, rfl⟩, ?_⟩
  -- at any moment, one of the initial parts has been run
  have hall : ∀ ms ∈ (.call false default :: (overtaking ++ [.giveUp false])).inits,
      ((start.run ms).map fun s => s.ring.length).all (· ≤ 1) := by
    decide
  intro ms hms s hs
  simpa [hs] using hall ms ((List.mem_inits _ _).mpr hms)

end Shared

end Ring

end BlockLedger
