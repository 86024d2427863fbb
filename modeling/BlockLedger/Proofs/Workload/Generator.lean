import Mathlib.Dynamics.PeriodicPts.Lemmas
import BlockLedger.Workload.Generator

/-
# The states of a generator

A step combines a number three times with itself, shifted.  Shifting respects exclusive or, and a
number that is shifted over and over is gone in the end.  If two numbers were led to the same one,
what they differ by would be left alone by a shift, so that it would have to be nothing.

So no two states are led to the same one.  Since there are only so many of them, every state comes
back, and 0, which is led to itself, is reached from no other state.
-/

namespace BlockLedger

namespace Generator

/-! ## Shifts -/

/-- Shifting respects exclusive or, and repeated often enough it leaves nothing of a number. -/
structure Fades (shift : UInt64 → UInt64) : Prop where
  xor : ∀ x y, shift (x ^^^ y) = shift x ^^^ shift y
  gone : ∃ n, ∀ x, shift^[n] x = 0

theorem toBitVec_iterate_shiftLeft (k : UInt64) (n : Nat) (x : UInt64) :
    ((· <<< k)^[n] x).toBitVec = x.toBitVec <<< (k.toNat % 64 * n) := by
  induction n generalizing x with
  | zero => exact (BitVec.shiftLeft_zero _).symm
  | succ n ih =>
    rw [Function.iterate_succ_apply, ih, UInt64.toBitVec_shiftLeft, Nat.mul_succ, Nat.add_comm,
      BitVec.shiftLeft_add]
    rfl

theorem toBitVec_iterate_shiftRight (k : UInt64) (n : Nat) (x : UInt64) :
    ((· >>> k)^[n] x).toBitVec = x.toBitVec >>> (k.toNat % 64 * n) := by
  induction n generalizing x with
  | zero => exact (BitVec.ushiftRight_zero _).symm
  | succ n ih =>
    rw [Function.iterate_succ_apply, ih, UInt64.toBitVec_shiftRight, Nat.mul_succ, Nat.add_comm,
      BitVec.shiftRight_add]
    rfl

theorem fades_shiftLeft {k : UInt64} (hk : 0 < k.toNat % 64) : Fades (· <<< k) where
  xor _ _ := UInt64.shiftLeft_xor
  gone := by
    refine ⟨64, fun x => ?_⟩
    rw [← UInt64.toBitVec_inj, toBitVec_iterate_shiftLeft]
    exact BitVec.shiftLeft_eq_zero (Nat.le_mul_of_pos_left 64 hk)

theorem fades_shiftRight {k : UInt64} (hk : 0 < k.toNat % 64) : Fades (· >>> k) where
  xor _ _ := UInt64.shiftRight_xor
  gone := by
    refine ⟨64, fun x => ?_⟩
    rw [← UInt64.toBitVec_inj, toBitVec_iterate_shiftRight]
    exact BitVec.ushiftRight_eq_zero (Nat.le_mul_of_pos_left 64 hk)

/-! ## Steps -/

/-- A number combined with what a shift makes of it. -/
def blend (shift : UInt64 → UInt64) (x : UInt64) : UInt64 := x ^^^ shift x

theorem Fades.blend_injective {shift : UInt64 → UInt64} (h : Fades shift) :
    Function.Injective (blend shift) := by
  intro x y hxy
  obtain ⟨n, hgone⟩ := h.gone
  -- what the two numbers differ by is its own shift
  have hfixed : shift (x ^^^ y) = x ^^^ y := by
    rw [blend, blend, ← UInt64.xor_eq_zero_iff] at hxy
    rw [← UInt64.xor_eq_zero_iff, h.xor, ← hxy]
    ac_rfl
  have hzero : x ^^^ y = 0 := by
    rw [← hgone (x ^^^ y), Function.iterate_fixed hfixed]
  exact UInt64.xor_eq_zero_iff.1 hzero

theorem step_eq_blend : step = blend (· <<< 17) ∘ blend (· >>> 7) ∘ blend (· <<< 13) := rfl

theorem step_injective : Function.Injective step := by
  have hfirst : Fades (· <<< 13) := fades_shiftLeft (by decide)
  have hsecond : Fades (· >>> 7) := fades_shiftRight (by decide)
  have hthird : Fades (· <<< 17) := fades_shiftLeft (by decide)
  rw [step_eq_blend]
  exact hthird.blend_injective.comp (hsecond.blend_injective.comp hfirst.blend_injective)

theorem step_ne_zero {x : UInt64} (h : x ≠ 0) : step x ≠ 0 := by
  have hzero : step 0 = 0 := rfl
  exact hzero ▸ step_injective.ne h

/-! ## Numbers in a row -/

/-- The generator after some numbers have been taken from it. -/
def after (g : Generator) (n : Nat) : Generator := (fun g => g.next.2)^[n] g

theorem state_after (g : Generator) (n : Nat) : (g.after n).state = step^[n] g.state := by
  induction n generalizing g with
  | zero => rfl
  | succ n ih => exact ih g.next.2

theorem ofSeed_ne_zero (seed : UInt64) : (ofSeed seed).state ≠ 0 :=
  fun h => absurd (UInt64.or_eq_zero_iff.1 h).2 (by decide)

theorem iterate_step_ne_zero {x : UInt64} (h : x ≠ 0) (n : Nat) : step^[n] x ≠ 0 := by
  induction n generalizing x with
  | zero => exact h
  | succ n ih => exact ih (step_ne_zero h)

/-- Every state comes back. -/
theorem exists_after_eq (g : Generator) : ∃ period, 0 < period ∧ g.after period = g := by
  have hfinite : Finite UInt64 := Finite.of_injective UInt64.toFin fun _ _ => UInt64.toFin_inj.1
  obtain ⟨period, hpos, hperiod⟩ :=
    Function.mem_periodicPts.1 (step_injective.mem_periodicPts g.state)
  refine ⟨period, hpos, ?_⟩
  have hstate : (g.after period).state = g.state := (state_after g period).trans hperiod
  cases g
  exact congrArg Generator.mk hstate

/-- A bound of 0 is taken for a bound of 1. -/
theorem below_lt (g : Generator) (bound : UInt32) :
    (g.below bound).1.toNat < max bound.toNat 1 := by
  have hmax : (max bound 1).toNat = max bound.toNat 1 := by
    rw [← UInt32.toNat_one, UInt32.toNat_max]
  have hpos : 0 < max bound.toNat 1 := by omega
  have hrest : g.next.1.toNat % max bound.toNat 1 < max bound.toNat 1 := Nat.mod_lt _ hpos
  have hword : bound.toNat < 2 ^ 32 := bound.toNat_lt
  show (UInt32.ofNat (g.next.1.toNat % (max bound 1).toNat)).toNat < _
  rw [hmax, UInt32.toNat_ofNat', Nat.mod_eq_of_lt (by omega)]
  exact hrest

/-- However many numbers are taken from the generator of a seed, its state is not 0, and it comes
back.  No two states are led to the same one, and a number that is drawn lies below its bound, or is
0 if the bound is. -/
theorem never_degenerates (seed : UInt64) (n : Nat) :
    ((ofSeed seed).after n).state ≠ 0 ∧
      (∃ period, 0 < period ∧ ((ofSeed seed).after n).after period = (ofSeed seed).after n) ∧
      Function.Injective step ∧
      ∀ (other : Generator) (bound : UInt32), (other.below bound).2 = other.after 1 ∧
        if bound = 0 then (other.below bound).1 = 0 else (other.below bound).1 < bound := by
  refine ⟨?_, exists_after_eq _, step_injective, fun other bound => ⟨rfl, ?_⟩⟩
  · rw [state_after]
    exact iterate_step_ne_zero (ofSeed_ne_zero seed) n
  · have hlt := below_lt other bound
    split
    · rename_i hbound
      subst hbound
      exact UInt32.toNat_inj.1 (Nat.lt_one_iff.1 hlt)
    · rename_i hbound
      have hpos : bound.toNat ≠ 0 := fun hzero => hbound (UInt32.toNat_inj.1 hzero)
      rw [UInt32.lt_iff_toNat_lt]
      omega

end Generator

end BlockLedger
