import BlockLedger.Zstd.Frame

/-
# Stored frames expand

What is enclosed in a frame as it is comes back when the frame is expanded, however long it is.
Reading goes by positions in the whole and writing by lists, so what lies at a position is told
first: it is what follows when the bytes before it are dropped.
-/

namespace BlockLedger

namespace Zstd

/-! ## Positions -/

variable (l : List UInt8)

theorem size_toArray : ByteArray.size ⟨l.toArray⟩ = l.length := rfl

theorem byteAt_toArray (i : Nat) : byteAt ⟨l.toArray⟩ i = ((l[i]?).map UInt8.toNat).getD 0 := by
  unfold byteAt
  split
  · rename_i h
    have hlength : i < l.length := h
    rw [List.getElem?_eq_getElem hlength]
    rfl
  · rename_i h
    have hlength : l.length ≤ i := Nat.le_of_not_lt h
    rw [List.getElem?_eq_none hlength]
    rfl

theorem littleEndian_toArray (start count : Nat) :
    littleEndian ⟨l.toArray⟩ start count = LittleEndian.decode ((l.drop start).take count) := by
  induction count generalizing start with
  | zero => rfl
  | succ count ih =>
    rw [littleEndian, byteAt_toArray, ih]
    by_cases h : start < l.length
    · rw [List.drop_eq_getElem_cons h, List.take_succ_cons, List.getElem?_eq_getElem h]
      rfl
    · -- beyond the end there is nothing, and reading goes on with zeros
      have hdrop : l.drop start = [] := List.drop_eq_nil_of_le (Nat.le_of_not_lt h)
      have hdrop' : l.drop (start + 1) = [] := List.drop_eq_nil_of_le (by omega)
      rw [hdrop, hdrop', List.getElem?_eq_none (Nat.le_of_not_lt h), List.take_nil, List.take_nil]
      rfl

theorem extract_toArray (start stop : Nat) :
    ByteArray.extract ⟨l.toArray⟩ start stop = ⟨((l.drop start).take (stop - start)).toArray⟩ := by
  apply ByteArray.ext
  rw [ByteArray.data_extract, List.extract_toArray, List.extract_eq_take_drop]

theorem append_toArray (l' : List UInt8) :
    (⟨l.toArray⟩ : ByteArray) ++ ⟨l'.toArray⟩ = ⟨(l ++ l').toArray⟩ := by
  apply ByteArray.ext
  rw [ByteArray.data_append, List.append_toArray]

/-! ## Blocks -/

/-- The number in the head of a block that holds its bytes as they are. -/
def rawHead (size : Nat) (last : Bool) : Nat := 8 * size + (if last then 1 else 0)

/-- What a block that holds its bytes as they are does. -/
theorem readBlocks_raw {pos size : Nat} {last : Bool}
    (hhead : littleEndian ⟨l.toArray⟩ pos 3 = rawHead size last) (hsize : size ≤ maxBlock)
    (hfit : pos + 3 + size ≤ l.length) (fuel : Nat) (cx : Context) :
    readBlocks ⟨l.toArray⟩ maxBlock (fuel + 1) pos cx =
      let cx' : Context :=
        { cx with out := cx.out ++ ByteArray.extract ⟨l.toArray⟩ (pos + 3) (pos + 3 + size) }
      if last then .ok (cx', pos + 3 + size)
      else readBlocks ⟨l.toArray⟩ maxBlock fuel (pos + 3 + size) cx' := by
  have hkind : rawHead size last / 2 % 4 = 0 := by
    unfold rawHead
    split <;> omega
  have hlength : rawHead size last / 8 = size := by
    unfold rawHead
    split <;> omega
  have hlast : (rawHead size last % 2 = 1) = (last = true) := by
    unfold rawHead
    cases last <;> simp <;> omega
  have hroom : ¬l.length < pos + 3 := by omega
  have hlimit : ¬maxBlock < size := by omega
  have hend : ¬l.length < pos + 3 + size := by omega
  rw [readBlocks]
  simp only [size_toArray, hhead, hkind, hlength, hlast, if_neg hroom, Nat.zero_ne_one, if_false,
    hlimit, decide_false, Bool.or_false, if_neg hend, if_true, pure_bind]
  rfl

theorem decode_rawHead {size : Nat} (hsize : size ≤ maxBlock) (last : Bool) :
    LittleEndian.decode (LittleEndian.encode 3 (rawHead size last)) = rawHead size last := by
  refine LittleEndian.decode_encode 3 _ ?_
  unfold rawHead
  unfold maxBlock at hsize
  split <;> omega

/-- One block as it is written, between what came before and what follows. -/
theorem readBlocks_append (before block after : List UInt8) (last : Bool)
    (hsize : block.length ≤ maxBlock) (fuel : Nat) (cx : Context) :
    let whole := before ++
      (LittleEndian.encode 3 (rawHead block.length last) ++ (block ++ after))
    readBlocks ⟨whole.toArray⟩ maxBlock (fuel + 1) before.length cx =
      let cx' : Context := { cx with out := cx.out ++ ⟨block.toArray⟩ }
      let finish := before.length + 3 + block.length
      if last then .ok (cx', finish) else readBlocks ⟨whole.toArray⟩ maxBlock fuel finish cx' := by
  intro whole
  have hlength : whole.length = before.length + (3 + (block.length + after.length)) := by
    simp [whole]
  have hhead : littleEndian ⟨whole.toArray⟩ before.length 3 = rawHead block.length last := by
    rw [littleEndian_toArray, List.drop_left, List.take_left' (by simp), decode_rawHead hsize]
  have hblock : ByteArray.extract ⟨whole.toArray⟩ (before.length + 3)
      (before.length + 3 + block.length) = ⟨block.toArray⟩ := by
    have hdrop : whole.drop (before.length + 3) = block ++ after := by
      rw [← List.drop_drop, List.drop_left, List.drop_left' (by simp)]
    rw [extract_toArray, hdrop, Nat.add_sub_cancel_left, List.take_left]
  rw [readBlocks_raw whole hhead hsize (by omega), hblock]

theorem blocks_succ (fuel : Nat) (bytes : List UInt8) :
    blocks (fuel + 1) bytes =
      LittleEndian.encode 3
        (rawHead (bytes.take maxBlock).length (bytes.drop maxBlock).isEmpty) ++
      bytes.take maxBlock ++
      if (bytes.drop maxBlock).isEmpty then [] else blocks fuel (bytes.drop maxBlock) :=
  rfl

/-- Blocks that hold bytes as they are add these to what came before, and reach the end. -/
theorem readBlocks_blocks {fuel fuel' : Nat} {bytes : List UInt8} (hfuel : bytes.length < fuel)
    (hfuel' : bytes.length < fuel') (before : List UInt8) (cx : Context) :
    readBlocks ⟨(before ++ blocks fuel bytes).toArray⟩ maxBlock fuel' before.length cx =
      .ok ({ cx with out := cx.out ++ ⟨bytes.toArray⟩ },
        (before ++ blocks fuel bytes).length) := by
  induction fuel generalizing fuel' bytes before cx with
  | zero => cases hfuel
  | succ fuel ih =>
    obtain ⟨fuel', rfl⟩ : ∃ n, fuel' = n + 1 := ⟨fuel' - 1, by omega⟩
    have hsize : (bytes.take maxBlock).length ≤ maxBlock := List.length_take_le ..
    rw [blocks_succ, List.append_assoc]
    rw [readBlocks_append before _ _ _ hsize]
    cases hlast : (bytes.drop maxBlock).isEmpty with
    | true =>
      have hall : bytes.take maxBlock = bytes := by
        have hsplit := List.take_append_drop maxBlock bytes
        rwa [List.isEmpty_iff.mp hlast, List.append_nil] at hsplit
      simp [hall, Nat.add_assoc]
    | false =>
      have hpos : 0 < maxBlock := by decide
      have hmore : maxBlock < bytes.length := by
        refine Nat.lt_of_not_le fun hle => ?_
        simp [List.drop_eq_nil_of_le hle] at hlast
      have hblock : (bytes.take maxBlock).length = maxBlock := by
        rw [List.length_take, Nat.min_eq_left (by omega)]
      have hhead : (LittleEndian.encode 3 (rawHead (bytes.take maxBlock).length false)).length = 3 :=
        LittleEndian.length_encode ..
      generalize LittleEndian.encode 3 (rawHead (bytes.take maxBlock).length false) = head at hhead ⊢
      have hrest : (bytes.drop maxBlock).length < fuel := by
        rw [List.length_drop]
        omega
      have hrest' : (bytes.drop maxBlock).length < fuel' := by
        rw [List.length_drop]
        omega
      -- what lies before the next block is all that has been read so far
      have hnext := ih hrest hrest' (before ++ (head ++ bytes.take maxBlock))
        { cx with out := cx.out ++ ⟨(bytes.take maxBlock).toArray⟩ }
      have hbefore : (before ++ (head ++ bytes.take maxBlock)).length =
          before.length + 3 + (bytes.take maxBlock).length := by
        rw [List.length_append, List.length_append, hhead, Nat.add_assoc]
      have hout : cx.out ++ ⟨(bytes.take maxBlock).toArray⟩ ++ ⟨(bytes.drop maxBlock).toArray⟩ =
          cx.out ++ (⟨bytes.toArray⟩ : ByteArray) := by
        rw [ByteArray.append_assoc, append_toArray (bytes.take maxBlock), List.take_append_drop]
      rw [hbefore, hout] at hnext
      simpa only [List.append_assoc, Bool.false_eq_true, if_false] using hnext

/-! ## Frames -/

theorem length_blocks {fuel : Nat} {bytes : List UInt8} (h : bytes.length < fuel) :
    bytes.length < (blocks fuel bytes).length := by
  induction fuel generalizing bytes with
  | zero => cases h
  | succ fuel ih =>
    have hpos : 0 < maxBlock := by decide
    rw [blocks_succ, List.length_append, List.length_append, LittleEndian.length_encode,
      List.length_take]
    split
    · rename_i hlast
      have hlength : (bytes.drop maxBlock).length = 0 := by
        rw [List.isEmpty_iff.mp hlast]
        rfl
      rw [List.length_drop] at hlength
      omega
    · rename_i hlast
      have hlength : (bytes.drop maxBlock).length ≠ 0 := by
        rwa [ne_eq, List.length_eq_zero_iff, ← List.isEmpty_iff]
      rw [List.length_drop] at hlength
      have hfuel : (bytes.drop maxBlock).length < fuel := by
        rw [List.length_drop]
        omega
      have hrest := ih hfuel
      rw [List.length_drop] at hrest
      omega

theorem enclose_eq (bytes : List UInt8) :
    enclose bytes = [0x28, 0xB5, 0x2F, 0xFD, 0x00, 0x58] ++ blocks (bytes.length + 1) bytes :=
  rfl

theorem length_enclose (bytes : List UInt8) : 6 + bytes.length < (enclose bytes).length := by
  have hblocks : bytes.length < (blocks (bytes.length + 1) bytes).length :=
    length_blocks (Nat.lt_succ_self _)
  rw [enclose_eq, List.length_append]
  exact Nat.add_lt_add_left hblocks 6

/-- A frame is read from its first byte to its last. -/
theorem readFrame_enclose (bytes : List UInt8) :
    readFrame ⟨(enclose bytes).toArray⟩ 0 = .ok (⟨bytes.toArray⟩, (enclose bytes).length) := by
  have hhead := enclose_eq bytes
  have hdescriptor : byteAt ⟨(enclose bytes).toArray⟩ 4 = 0 := by
    rw [byteAt_toArray, hhead]
    rfl
  have hwindow : byteAt ⟨(enclose bytes).toArray⟩ 5 = 88 := by
    rw [byteAt_toArray, hhead]
    rfl
  have hlength := length_enclose bytes
  have hblocks : readBlocks ⟨(enclose bytes).toArray⟩ maxBlock (enclose bytes).length 6
      { out := ByteArray.empty } =
        .ok ({ out := ⟨bytes.toArray⟩ }, (enclose bytes).length) := by
    have hfuel : bytes.length < (enclose bytes).length := by omega
    have hread := readBlocks_blocks (Nat.lt_succ_self bytes.length) hfuel
      [0x28, 0xB5, 0x2F, 0xFD, 0x00, 0x58] { out := ByteArray.empty }
    rw [← hhead, ByteArray.empty_append] at hread
    exact hread
  have hroom : ¬(enclose bytes).length < 5 := by omega
  have hroom' : ¬(enclose bytes).length < 6 := by omega
  have hdictionary : ([0, 1, 2, 4] : List Nat).getD 0 0 = 0 := rfl
  have hnumber : ∀ pos, littleEndian ⟨(enclose bytes).toArray⟩ pos 0 = 0 := fun _ => rfl
  have hlimit : min (2 ^ 21) maxBlock = maxBlock := by decide
  have hwindow' : ¬maxWindow < 2 ^ 21 := by decide
  unfold readFrame
  simp only [size_toArray, hdescriptor, hwindow, Nat.zero_add, if_neg hroom, Nat.zero_div,
    Nat.zero_mod, Nat.zero_ne_one, if_false, Nat.reduceDiv, Nat.reduceMod, Nat.reduceAdd,
    hdictionary, Nat.add_zero, if_neg hroom', hnumber, ne_eq, not_true_eq_false, Nat.mul_zero,
    if_neg hwindow', hlimit, hblocks]
  rfl

/-- What was enclosed is what comes out. -/
theorem expand_enclose (bytes : List UInt8) : expand (enclose bytes) = .ok bytes := by
  have hlength := length_enclose bytes
  have hsize : ByteArray.size ⟨(enclose bytes).toArray⟩ = (enclose bytes).length := rfl
  obtain ⟨fuel, hfuel⟩ : ∃ n, (enclose bytes).length = n + 1 :=
    ⟨(enclose bytes).length - 1, by omega⟩
  have hstarts : startsLike ⟨(enclose bytes).toArray⟩ 0 magic = true := by
    have hcount : min 4 (ByteArray.size ⟨(enclose bytes).toArray⟩ - 0) = 4 := by
      rw [hsize]
      omega
    have hfour : (enclose bytes).take 4 = [0x28, 0xB5, 0x2F, 0xFD] := rfl
    simp only [startsLike, hcount, littleEndian_toArray, List.drop_zero, hfour]
    decide
  have hdone : ∀ n out, readFrames ⟨(enclose bytes).toArray⟩ n (enclose bytes).length out =
      .ok out := by
    intro n out
    cases n with
    | zero => rfl
    | succ n => rw [readFrames, hsize, if_pos (Nat.le_refl _)]
  have hframes : readFrames ⟨(enclose bytes).toArray⟩ (fuel + 1) 0 .empty =
      .ok ⟨bytes.toArray⟩ := by
    rw [readFrames, hsize, if_neg (by omega), if_pos hstarts, readFrame_enclose]
    exact hdone fuel _
  simp only [expand, hsize, hfuel, hframes]
  rfl

end Zstd

end BlockLedger
