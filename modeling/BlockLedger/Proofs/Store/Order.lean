import BlockLedger.Proofs.Store.Closing
import Mathlib.Data.List.Nodup

/-
# The order of the keys

A snapshot meets the entries partition by partition, and the keys of a partition by tablespace,
database, number and fork.  This is a linear order, so that the keys of a store come in one order
only, whatever the order in which they were put in.  It does not change when the entries do.
-/

namespace BlockLedger

theorem Fork.code_injective : Function.Injective Fork.code := by
  intro f g h
  have hsome : some f = some g := by rw [← ofCode?_code f, h, ofCode?_code]
  exact Option.some.inj hsome

namespace Key

theorem ranks_injective : Function.Injective ranks := by
  intro a b h
  obtain ⟨⟨s, d, n⟩, f⟩ := a
  obtain ⟨⟨s', d', n'⟩, f'⟩ := b
  simp only [ranks, List.cons.injEq, UInt32.toNat_inj, and_true] at h
  obtain ⟨rfl, rfl, rfl, hf⟩ := h
  rw [Fork.code_injective hf]

theorem le_trans {a b c : Key} (hab : a.le b = true) (hbc : b.le c = true) : a.le c = true := by
  simp only [le, Bool.not_eq_true', List.lex_eq_false_iff_ge] at hab hbc ⊢
  exact List.le_trans hab hbc

theorem le_total (a b : Key) : a.le b = true ∨ b.le a = true := by
  simp only [le, Bool.not_eq_true', List.lex_eq_false_iff_ge]
  exact List.le_total a.ranks b.ranks

theorem le_antisymm {a b : Key} (hab : a.le b = true) (hba : b.le a = true) : a = b := by
  simp only [le, Bool.not_eq_true', List.lex_eq_false_iff_ge] at hab hba
  exact ranks_injective (List.le_antisymm hab hba)

end Key

namespace Store

theorem met_iff {a b : Key} :
    met a b = true ↔ a.partition < b.partition ∨ a.partition = b.partition ∧ a.le b = true := by
  simp [met]

theorem met_trans (a b c : Key) (hab : met a b = true) (hbc : met b c = true) :
    met a c = true := by
  rw [met_iff] at hab hbc ⊢
  rcases hab with hab | ⟨hab, hle⟩
  · rcases hbc with hbc | ⟨hbc, -⟩ <;> exact .inl (by omega)
  · rcases hbc with hbc | ⟨hbc, hle'⟩
    · exact .inl (by omega)
    · exact .inr ⟨hab.trans hbc, Key.le_trans hle hle'⟩

theorem met_total (a b : Key) : (met a b || met b a) = true := by
  rw [Bool.or_eq_true, met_iff, met_iff]
  rcases Nat.lt_trichotomy a.partition b.partition with h | h | h
  · exact .inl (.inl h)
  · exact (Key.le_total a b).imp (.inr ⟨h, ·⟩) (.inr ⟨h.symm, ·⟩)
  · exact .inr (.inl h)

theorem met_antisymm {a b : Key} (hab : met a b = true) (hba : met b a = true) : a = b := by
  rw [met_iff] at hab hba
  rcases hab with hab | ⟨heq, hle⟩
  · omega
  · rcases hba with hba | ⟨-, hle'⟩
    · omega
    · exact Key.le_antisymm hle hle'

variable {s t : Store}

theorem keys_pairwise (s : Store) : s.keys.Pairwise fun a b => met a b = true :=
  List.pairwise_mergeSort met_trans met_total _

/-- Stores in which the same keys have entries meet them in the same order. -/
theorem keys_congr (h : ∀ k, (s.find? k).isSome = (t.find? k).isSome) : s.keys = t.keys := by
  have hperm : s.keys.Perm t.keys := by
    rw [List.perm_ext_iff_of_nodup s.keys_nodup t.keys_nodup]
    intro k
    rw [mem_keys, mem_keys, h]
  exact hperm.eq_of_pairwise (fun _ _ _ _ => met_antisymm) s.keys_pairwise t.keys_pairwise

theorem keys_takeAll (s : Store) (ks : List Key) : (s.takeAll ks).2.keys = s.keys := by
  refine keys_congr fun k => ?_
  rw [find?_takeAll]
  split
  · exact Option.isSome_map
  · rfl

/-- The keys are met one partition after the other. -/
theorem keys_eq_flatMap (s : Store) :
    s.keys = (List.range Key.partitionCount).flatMap fun p =>
      s.keys.filter fun k => k.partition = p := by
  -- both lists hold the same keys, and both are in the order in which keys are met
  refine List.Perm.eq_of_pairwise (fun _ _ _ _ => met_antisymm) s.keys_pairwise ?_ ?_
  · rw [List.pairwise_flatMap]
    refine ⟨fun p _ => s.keys_pairwise.filter _, ?_⟩
    refine List.pairwise_lt_range.imp fun {p q} hpq a ha b hb => ?_
    rw [List.mem_filter, decide_eq_true_eq] at ha hb
    exact met_iff.mpr (.inl (by omega))
  · rw [List.perm_ext_iff_of_nodup s.keys_nodup]
    · intro k
      simp [Key.partition_lt]
    · rw [List.nodup_flatMap]
      refine ⟨fun p _ => s.keys_nodup.filter _, ?_⟩
      refine List.nodup_range.imp fun {p q} hpq k hk hk' => ?_
      rw [List.mem_filter, decide_eq_true_eq] at hk hk'
      exact hpq (hk.2.symm.trans hk'.2)

end Store

end BlockLedger
