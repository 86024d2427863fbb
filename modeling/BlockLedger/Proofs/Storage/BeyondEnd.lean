import BlockLedger.Proofs.Segment.Arithmetic
import BlockLedger.Proofs.Storage.Serving

/-
# Requests beyond the end of a fork

Whether a range of blocks lies within a fork is decided by exact numbers.  A range that does not is
answered with the number of its last block, and this number is calculated in words of 32 bits.  If
the last block has a number, the answer tells it.  If the range goes on where numbers end, then a
program that looks out for sums that leave their words crashes, and one that does not names a block
from the beginning of the fork.
-/

namespace BlockLedger

/-- The sum of two block numbers, `none` if the program crashes. -/
def Build.sumBlocks (build : Build) (x y : BlockNumber) : Option BlockNumber :=
  if x.toNat + y.toNat < 2 ^ 32 then some (x + y)
  else
    match build with
    | .checked => none
    | .unchecked => some (x + y)

/-- The blocks that have to be within the fork: the first of them, and how many there are. -/
def Operation.range? {P : Type} : Operation P → Option (BlockNumber × Nat)
  | .read block count => some (block, count)
  | .submit handle block => some (block, handle.blocks.toNat)
  | .write block pages => some (block, pages.length)
  | _ => none

namespace Device

variable {P : Type}

/-! ## Answering with sums of words -/

/-- Looks for blocks beyond the end of a fork as a program does that calculates with words, `none`
if it crashes. -/
def checkRangeIn (build : Build) (key : Key) (length : Nat) (block : BlockNumber) (count : Nat) :
    Option (Except CallError Unit) :=
  if length < block.toNat + count then
    (build.sumBlocks block (UInt32.ofNat (count - 1))).map fun last =>
      .error (.beyondEnd key last (UInt32.ofNat length))
  else some (.ok ())

/-- Carries out a request as a program does that calculates with words, `none` if it crashes. -/
def performIn (build : Build) (blank : P) (d : Device P) (q : Request P) :
    Option (Except CallError (List P × Device P)) :=
  match q.operation.range?, d.fork? q.key with
  | some (block, count), some pages =>
    (checkRangeIn build q.key pages.size block count).map fun
      | .ok () => d.perform blank q
      | .error e => .error e
  | _, _ => some (d.perform blank q)

/-- The range is not within the fork, and the number of its last block leaves its word when it is
calculated.  What there is of the count in a word is added to the first block. -/
def Overflows (length : Nat) (block : BlockNumber) (count : Nat) : Prop :=
  length < block.toNat + count ∧ 2 ^ 32 ≤ block.toNat + (count - 1) % 2 ^ 32

instance (length : Nat) (block : BlockNumber) (count : Nat) :
    Decidable (Overflows length block count) :=
  inferInstanceAs (Decidable (_ ∧ _))

/-- The answer refuses the request, names the last block asked for, and tells the length of the fork,
which this block is beyond. -/
def Names (key : Key) (last length : Nat)
    (answer : Option (Except CallError (List P × Device P))) : Prop :=
  ∃ named told : BlockNumber, answer = some (.error (.beyondEnd key named told)) ∧
    named.toNat = last ∧ told.toNat = length ∧ told ≤ named

/-! ## What is answered -/

variable {block : BlockNumber} {count : Nat}

/-- What is left in a word of the number of the last block. -/
theorem add_ofNat_eq (block : BlockNumber) (count : Nat) :
    block + UInt32.ofNat (count - 1) = UInt32.ofNat (block.toNat + max count 1 - 1) := by
  have hlast : block.toNat + max count 1 - 1 = block.toNat + (count - 1) := by omega
  rw [hlast, UInt32.ofNat_add, UInt32.ofNat_toNat]

theorem checkRange_beyond (key : Key) {length : Nat} (h : length < block.toNat + count) :
    checkRange key length block count =
      .error (.beyondEnd key (UInt32.ofNat (block.toNat + max count 1 - 1))
        (UInt32.ofNat length)) := by
  rw [checkRange, if_pos h, add_ofNat_eq]

theorem checkRangeIn_eq (build : Build) (key : Key) (length : Nat) (block : BlockNumber)
    (count : Nat) :
    checkRangeIn build key length block count =
      if build = .checked ∧ Overflows length block count then none
      else some (checkRange key length block count) := by
  have hword : (UInt32.ofNat (count - 1)).toNat = (count - 1) % 2 ^ 32 := UInt32.toNat_ofNat'
  simp only [checkRangeIn, checkRange, Build.sumBlocks, hword]
  by_cases hbeyond : length < block.toNat + count
  · by_cases hfits : block.toNat + (count - 1) % 2 ^ 32 < 2 ^ 32
    · have hnot : ¬Overflows length block count := fun hover => absurd hover.2 (Nat.not_le.2 hfits)
      simp [hbeyond, hfits, hnot]
    · have hover : Overflows length block count := ⟨hbeyond, Nat.le_of_not_lt hfits⟩
      cases build <;> simp [hbeyond, hfits, hover]
  · have hnot : ¬Overflows length block count := fun hover => hbeyond hover.1
    simp [hbeyond, hnot]

variable (blank : P) {d : Device P} {q : Request P} {pages : Array P}

/-- Whichever way blocks beyond the end of a fork are asked for, the request is refused. -/
theorem perform_beyond (hrange : q.operation.range? = some (block, count))
    (hfork : d.fork? q.key = some pages) (hbeyond : pages.size < block.toNat + count) :
    d.perform blank q = .error (.beyondEnd q.key (UInt32.ofNat (block.toNat + max count 1 - 1))
      (UInt32.ofNat pages.size)) := by
  cases hop : q.operation with
  | read | submit | write =>
    rw [hop] at hrange
    cases hrange
    simp only [perform, hop, hfork, operate, checkRange_beyond q.key hbeyond]
    rfl
  | attach | create | append | lengthen | truncate | sync =>
    rw [hop] at hrange
    cases hrange

/-- Every program does the same with a request, unless it looks out for sums that leave their words
and the number of the last block is such a sum. -/
theorem performIn_eq (build : Build) (hrange : q.operation.range? = some (block, count))
    (hfork : d.fork? q.key = some pages) :
    performIn build blank d q =
      if build = .checked ∧ Overflows pages.size block count then none
      else some (d.perform blank q) := by
  simp only [performIn, hrange, hfork, checkRangeIn_eq]
  split
  · rfl
  · by_cases hbeyond : pages.size < block.toNat + count
    · simp only [checkRange_beyond q.key hbeyond, perform_beyond blank hrange hfork hbeyond,
        Option.map_some]
    · simp only [checkRange, if_neg hbeyond, Option.map_some]

/-- Only a block that has a number can be named. -/
theorem Names.last_lt {key : Key} {last length : Nat}
    {answer : Option (Except CallError (List P × Device P))} (h : Names key last length answer) :
    last < 2 ^ 32 := by
  obtain ⟨named, -, -, rfl, -, -⟩ := h
  exact named.toNat_lt

/-- A fork whose blocks are all before one that has a number has a length in words. -/
theorem names_of_lt {key : Key} {last length : Nat} (hlast : last < 2 ^ 32) (hle : length ≤ last) :
    Names (P := P) key last length
      (some (.error (.beyondEnd key (UInt32.ofNat last) (UInt32.ofNat length)))) := by
  have hnamed : (UInt32.ofNat last).toNat = last := by
    rw [UInt32.toNat_ofNat', Nat.mod_eq_of_lt hlast]
  have htold : (UInt32.ofNat length).toNat = length := by
    rw [UInt32.toNat_ofNat', Nat.mod_eq_of_lt (Nat.lt_of_le_of_lt hle hlast)]
  refine ⟨_, _, rfl, hnamed, htold, ?_⟩
  rw [UInt32.le_iff_toNat_le, hnamed, htold]
  exact hle

/-- A read or a write beyond the end of its fork is answered with the last block that it asks for just
if this block has a number.  Where it has none, a program that looks out for this crashes if it
notices, and all others name the block that is left of it in a word. -/
theorem names_last_block_iff (hrange : q.operation.range? = some (block, count))
    (hfork : d.fork? q.key = some pages) (hbeyond : pages.size < block.toNat + count) :
    let last := block.toNat + max count 1 - 1
    (∀ build, Names q.key last pages.size (performIn build blank d q) ↔ last < 2 ^ 32) ∧
    (∀ build, performIn build blank d q =
      if build = .checked ∧ 2 ^ 32 ≤ block.toNat + (count - 1) % 2 ^ 32 then none
      else some (d.perform blank q)) ∧
    d.perform blank q =
      .error (.beyondEnd q.key (UInt32.ofNat last) (UInt32.ofNat pages.size)) := by
  intro last
  have hperform : d.perform blank q =
      .error (.beyondEnd q.key (UInt32.ofNat last) (UInt32.ofNat pages.size)) :=
    perform_beyond blank hrange hfork hbeyond
  have hbuild : ∀ build, performIn build blank d q =
      if build = .checked ∧ 2 ^ 32 ≤ block.toNat + (count - 1) % 2 ^ 32 then none
      else some (d.perform blank q) := by
    intro build
    simp only [performIn_eq blank build hrange hfork, Overflows, hbeyond, true_and]
  refine ⟨fun build => ⟨Names.last_lt, fun hlast => ?_⟩, hbuild, hperform⟩
  -- nothing is cut off a count that leads to a block with a number
  have hfits : ¬2 ^ 32 ≤ block.toNat + (count - 1) % 2 ^ 32 := by
    have hle : (count - 1) % 2 ^ 32 ≤ count - 1 := Nat.mod_le ..
    omega
  rw [hbuild, if_neg fun hboth => hfits hboth.2, hperform]
  exact names_of_lt hlast (by omega)

/-- A device with a fork of one page. -/
def onePage : Device Nat := ({} : Device Nat).put ⟨⟨1663, 5, 16500⟩, .main⟩ #[7]

theorem fork?_onePage : onePage.fork? ⟨⟨1663, 5, 16500⟩, .main⟩ = some #[7] := by
  rw [onePage, fork?_put, if_pos rfl]

/-- The last block that has a number is named. -/
theorem names_last_numbered :
    let q : Request Nat := ⟨⟨⟨1663, 5, 16500⟩, false⟩, .main, .read 4294967294 2⟩
    q.operation.range? = some (4294967294, 2) ∧ onePage.fork? q.key = some #[7] ∧
      #[7].size < (4294967294 : BlockNumber).toNat + 2 ∧
      ∀ build, Names q.key 4294967295 1 (performIn build 0 onePage q) := by
  intro q
  have hbeyond : #[7].size < (4294967294 : BlockNumber).toNat + 2 := by decide
  refine ⟨rfl, fork?_onePage, hbeyond, fun build => ?_⟩
  exact ((names_last_block_iff 0 (q := q) rfl fork?_onePage hbeyond).1 build).2 (by decide)

/-- Two blocks are asked for of which the second has no number.  Whichever way that is done, a program
that looks out for this crashes, and all others name the first block of the fork, which is not beyond
its end. -/
theorem names_first_for_last :
    let key : Key := ⟨⟨1663, 5, 16500⟩, .main⟩
    let requests : List (Request Nat) :=
      [.read 4294967295 2, .submit ⟨0, 2⟩ 4294967295, .write 4294967295 [1, 1]].map
        (⟨⟨key.locator, false⟩, key.fork, ·⟩)
    onePage.fork? key = some #[7] ∧
      ∀ q ∈ requests, q.key = key ∧ q.operation.range? = some (4294967295, 2) ∧
        performIn .checked 0 onePage q = none ∧
        performIn .unchecked 0 onePage q = some (.error (.beyondEnd key 0 1)) ∧
        ∀ build, ¬Names key (4294967295 + max 2 1 - 1) 1 (performIn build 0 onePage q) := by
  intro key requests
  have hrequests : ∀ q ∈ requests, q.key = key ∧ q.operation.range? = some (4294967295, 2) := by
    decide
  refine ⟨fork?_onePage, fun q hq => ?_⟩
  obtain ⟨hkey, hrange⟩ := hrequests q hq
  have hfork : onePage.fork? q.key = some #[7] := hkey ▸ fork?_onePage
  have hperform := perform_beyond 0 hrange hfork (by decide)
  refine ⟨hkey, hrange, ?_, ?_, fun build hnames => absurd hnames.last_lt (by decide)⟩
  · rw [performIn_eq 0 .checked hrange hfork, if_pos (by decide)]
  · rw [performIn_eq 0 .unchecked hrange hfork, if_neg (by decide), hperform, hkey]
    rfl

end Device

end BlockLedger
