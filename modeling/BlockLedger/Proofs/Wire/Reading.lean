import BlockLedger.Wire.Primitive

/-
# Reading what was written

A reader gets a value back if it finds its bytes at the front, whatever follows them, and leaves
what follows.  Said like this it carries over from the parts of a value to the whole: who reads one
part after the other finds the bytes of the next part where it has left off.
-/

namespace BlockLedger

namespace Wire

/-- A reader gets a value out of bytes, and leaves what follows them. -/
def Reads {α : Type} (read : Reader α) (a : α) (bytes : List UInt8) : Prop :=
  ∀ rest, read (bytes ++ rest) = .ok (a, rest)

namespace Reads

variable {α β : Type} {read : Reader α} {a : α} {bytes more : List UInt8}

theorem pure (a : α) : Reads (Pure.pure a) a [] := fun _ => rfl

/-- One after the other. -/
theorem bind {next : α → Reader β} {b : β} (h : Reads read a bytes) (h' : Reads (next a) b more) :
    Reads (read >>= next) b (bytes ++ more) := by
  intro rest
  have hread : read (bytes ++ (more ++ rest)) = .ok (a, more ++ rest) := h _
  have hbind : (read >>= next) (bytes ++ (more ++ rest)) = next a (more ++ rest) := by
    change (read (bytes ++ (more ++ rest)) >>= fun p => next p.1 p.2) = _
    rw [hread]
    rfl
  rw [List.append_assoc, hbind, h']

/-- The last part. -/
theorem last {f : α → β} (h : Reads read a bytes) :
    Reads (read >>= fun a => Pure.pure (f a)) (f a) bytes := by
  have hbind : Reads (read >>= fun a => Pure.pure (f a)) (f a) (bytes ++ []) :=
    h.bind (Reads.pure (f a))
  rwa [List.append_nil] at hbind

end Reads

/-! ## Numbers -/

/-- What fits a word of 64 bits. -/
def IsNat64 (n : Nat) : Prop := n < 2 ^ 64

/-- What fits a word of 32 bits. -/
def IsNat32 (n : Nat) : Prop := n < 2 ^ 32

/-- What fits a word of 64 bits with a sign. -/
def IsInt64 (i : Int) : Prop := -2 ^ 63 ≤ i ∧ i < 2 ^ 63

instance (n : Nat) : Decidable (IsNat64 n) := inferInstanceAs (Decidable (n < 2 ^ 64))

instance (n : Nat) : Decidable (IsNat32 n) := inferInstanceAs (Decidable (n < 2 ^ 32))

instance (i : Int) : Decidable (IsInt64 i) :=
  inferInstanceAs (Decidable (-2 ^ 63 ≤ i ∧ i < 2 ^ 63))

/-- A number that has the bits that are asked for comes back: every byte takes seven of them away,
and the last one comes where there are seven or fewer left, or before. -/
theorem reads_natBelow {bits n : Nat} (h : n < 2 ^ bits) : Reads (natBelow bits) n (ofNat n) := by
  induction n using Nat.strongRecOn generalizing bits with
  | ind n ih =>
    intro rest
    rw [ofNat]
    by_cases hsmall : n < 128
    · have hbyte : (UInt8.ofNat n).toNat = n :=
        UInt8.toNat_ofNat_of_lt' (by unfold UInt8.size; omega)
      rw [if_pos hsmall, List.cons_append, List.nil_append, natBelow]
      simp only [hbyte, if_pos h, if_pos hsmall, ite_self]
    · have hbyte : (UInt8.ofNat (n % 128 + 128)).toNat = n % 128 + 128 :=
        UInt8.toNat_ofNat_of_lt' (by unfold UInt8.size; omega)
      have hbits : 7 < bits := by
        refine Nat.lt_of_not_le fun hfew => ?_
        have hpow : 2 ^ bits ≤ 2 ^ 7 := Nat.pow_le_pow_right (by decide) hfew
        omega
      have hrest : n / 128 < 2 ^ (bits - 7) := by
        rw [Nat.div_lt_iff_lt_mul (by decide)]
        have hpow : 2 ^ (bits - 7) * 2 ^ 7 = 2 ^ bits := by
          rw [← Nat.pow_add, Nat.sub_add_cancel (by omega)]
        omega
      have hnext := ih (n / 128) (by omega) hrest rest
      rw [if_neg hsmall, List.cons_append, natBelow]
      simp only [hbyte]
      rw [if_neg (by omega), if_neg (by omega), hnext]
      simp only [Except.ok.injEq, Prod.mk.injEq, and_true]
      omega

theorem reads_nat64 {n : Nat} (h : IsNat64 n) : Reads nat64 n (ofNat n) := reads_natBelow h

theorem reads_nat32 {n : Nat} (h : IsNat32 n) : Reads nat32 n (ofNat n) := reads_natBelow h

theorem unfold_fold (i : Int) : unfold (fold i) = i := by
  cases i with
  | ofNat n => simp [unfold, fold]
  | negSucc n =>
    have hodd : (2 * n + 1) % 2 ≠ 0 := by omega
    have hhalf : (2 * n + 1) / 2 = n := by omega
    simp only [unfold, fold, if_neg hodd, hhalf]

theorem isNat64_fold {i : Int} (h : IsInt64 i) : IsNat64 (fold i) := by
  obtain ⟨hlow, hhigh⟩ := h
  unfold IsNat64
  cases i with
  | ofNat n =>
    have hcast : (Int.ofNat n : Int) = (n : Int) := rfl
    simp only [fold]
    omega
  | negSucc n =>
    simp only [fold]
    omega

theorem reads_int64 {i : Int} (h : IsInt64 i) : Reads int64 i (ofInt i) := by
  have hlast := (reads_nat64 (isNat64_fold h)).last (f := unfold)
  rwa [unfold_fold] at hlast

theorem split_append (bytes rest : List UInt8) :
    split bytes.length (bytes ++ rest) = some (bytes, rest) := by
  induction bytes with
  | nil => rfl
  | cons b bytes ih => simp [split, ih]

theorem reads_take (bytes : List UInt8) : Reads (take bytes.length) bytes bytes := by
  intro rest
  simp only [take, split_append]

theorem reads_double (x : Double) : Reads double x (ofDouble x) := by
  have hbytes : LittleEndian.decode (ofDouble x) = x.bits.toNat :=
    LittleEndian.decode_encode 8 _ x.bits.toNat_lt
  have hlast := (reads_take (ofDouble x)).last
    (f := fun bytes => (⟨UInt64.ofNat (LittleEndian.decode bytes)⟩ : Double))
  rw [hbytes, UInt64.ofNat_toNat] at hlast
  exact hlast

/-! ## Other simple values -/

theorem reads_byte (b : UInt8) : Reads byte b [b] := fun _ => rfl

theorem reads_bool (b : Bool) : Reads bool b (ofBool b) := by
  intro rest
  cases b <;> rfl

theorem fromUTF8?_toUTF8 (s : String) : String.fromUTF8? ⟨s.toUTF8.data.toList.toArray⟩ = some s := by
  have hbytes : (⟨s.toUTF8.data.toList.toArray⟩ : ByteArray) = s.toByteArray := by
    simp
  rw [hbytes, String.fromUTF8?, dif_pos s.isValidUTF8]
  rfl

theorem reads_text {s : String} (h : IsNat64 s.utf8ByteSize) : Reads text s (ofText s) := by
  have hlength : s.toUTF8.data.toList.length = s.utf8ByteSize := rfl
  have htake := reads_take s.toUTF8.data.toList
  rw [hlength] at htake
  have hread : Reads text s (ofNat s.utf8ByteSize ++ (s.toUTF8.data.toList ++ [])) := by
    refine (reads_nat64 h).bind (htake.bind ?_)
    rw [fromUTF8?_toUTF8]
    exact .pure s
  rwa [List.append_nil] at hread

theorem reads_option {α : Type} {read : Reader α} {write : α → List UInt8} {o : Option α}
    (h : ∀ a, o = some a → Reads read a (write a)) : Reads (option read) o (ofOption write o) := by
  cases o with
  | none => exact fun _ => rfl
  | some a =>
    have hsome : Reads (option read) (some a) ([1] ++ write a) :=
      (reads_byte 1).bind ((h a rfl).last (f := some))
    exact hsome

theorem reads_alternative {α : Type} {ofCode? : Nat → Option α} {a : α} {n : Nat}
    (hn : IsNat32 n) (h : ofCode? n = some a) : Reads (alternative ofCode?) a (ofNat n) := by
  have hread : Reads (alternative ofCode?) a (ofNat n ++ []) := by
    refine (reads_nat32 hn).bind ?_
    rw [h]
    exact .pure a
  rwa [List.append_nil] at hread

theorem reads_times {α : Type} {read : Reader α} {write : α → List UInt8} {xs : List α}
    (h : ∀ x ∈ xs, Reads read x (write x)) : Reads (times read xs.length) xs (xs.flatMap write) := by
  induction xs with
  | nil => exact .pure []
  | cons x xs ih =>
    have hrest := ih fun y hy => h y (List.mem_cons_of_mem _ hy)
    exact (h x (List.mem_cons_self ..)).bind (hrest.last (f := fun ys => x :: ys))

theorem reads_list {α : Type} {read : Reader α} {write : α → List UInt8} {xs : List α}
    (hlength : IsNat64 xs.length) (h : ∀ x ∈ xs, Reads read x (write x)) :
    Reads (list read) xs (ofList write xs) :=
  (reads_nat64 hlength).bind (reads_times h)

end Wire

end BlockLedger
