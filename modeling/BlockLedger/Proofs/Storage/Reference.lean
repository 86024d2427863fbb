import BlockLedger.Proofs.Storage.Serving

/-
# The pages of a device and the requests that made them

All that a device holds can be told from the requests that were ever made of it.  A fork exists if it
was created, its length is what growing and cutting have left of it, and a block has the page that
was last put there since the block last came into being, or the blank one.  Whether a request can be
carried out, and what a read finds, is told in the same way, with no word about arrays of pages.
-/

namespace BlockLedger

/-! ## What an operation asks for and does -/

namespace Operation

variable {P : Type}

/-- How long the fork has to be: up to the end of the range that is accessed. -/
def reach : Operation P → Nat
  | .read block count => block.toNat + count
  | .submit handle block => block.toNat + handle.blocks.toNat
  | .write block pages => block.toNat + pages.length
  | _ => 0

/-- The length that a fork gets. -/
def resize (length : Nat) : Operation P → Nat
  | .append block _ => max length (block.toNat + 1)
  | .lengthen block count => max length (block.toNat + count.toNat)
  | .truncate n => min length n.toNat
  | _ => length

/-- The page that is put at a block, if one is. -/
def page? (i : Nat) : Operation P → Option P
  | .write block pages => if block.toNat ≤ i then pages[i - block.toNat]? else none
  | .append block page => if block.toNat = i then some page else none
  | _ => none

/-- Whether the fork is created. -/
def creates : Operation P → Bool
  | .create .. => true
  | _ => false

/-- Whether the fork has to exist. -/
def needsFork : Operation P → Bool
  | .attach | .create .. => false
  | _ => true

/-- The length of the fork that an operation is carried out on, if there is one then. -/
def newLength (operation : Operation P) : Option Nat → Option Nat
  | none => if operation.creates then some 0 else none
  | some n => some (operation.resize n)

variable {operation : Operation P}

theorem reach_of_not_needsFork (h : operation.needsFork = false) : operation.reach = 0 := by
  cases operation with
  | attach | create => rfl
  | _ => cases h

/-- What can be out of reach leaves the length of the fork as it is. -/
theorem resize_of_reach (h : 0 < operation.reach) (n : Nat) : operation.resize n = n := by
  cases operation with
  | read | submit | write => rfl
  | _ => cases h

theorem newLength_eq_self (hcreates : operation.creates = false)
    (hresize : ∀ n, operation.resize n = n) (length : Option Nat) :
    operation.newLength length = length := by
  cases length with
  | none => rw [newLength, hcreates, if_neg Bool.false_ne_true]
  | some n => rw [newLength, hresize]

end Operation

/-! ## Forks as they are told from the requests, the last one first -/

namespace Annals

variable {P : Type}

/-- A fork exists if it was created. -/
def created (key : Key) (past : List (Request P)) : Bool :=
  past.any fun q => q.key = key && q.operation.creates

theorem created_cons (key : Key) (q : Request P) (past : List (Request P)) :
    created key (q :: past) = (q.key = key && q.operation.creates || created key past) := rfl

/-- What was created stays. -/
theorem created_cons_of_created {key : Key} {past : List (Request P)}
    (h : created key past = true) (q : Request P) : created key (q :: past) = true := by
  rw [created_cons, h, Bool.or_true]

/-- The length of a fork.  As long as it does not exist, nothing lengthens it. -/
def length (key : Key) : List (Request P) → Nat
  | [] => 0
  | q :: past =>
    if q.key = key ∧ created key past then q.operation.resize (length key past)
    else length key past

theorem length_cons_of_created {q : Request P} {past : List (Request P)}
    (h : created q.key past = true) :
    length q.key (q :: past) = q.operation.resize (length q.key past) :=
  if_pos ⟨rfl, h⟩

/-- A request can be carried out if its fork exists and is long enough. -/
def admits (past : List (Request P)) (q : Request P) : Bool :=
  !q.operation.needsFork || created q.key past && q.operation.reach ≤ length q.key past

/-- The page that a request puts at a block of a fork, if it does. -/
def putAt (key : Key) (i : Nat) (past : List (Request P)) (q : Request P) : Option P :=
  if q.key = key ∧ admits past q then q.operation.page? i else none

/-- The page last put at a block since the block last came into being.  What was put there before is
looked for only as long as the block was within the fork. -/
def lastPut (key : Key) (i : Nat) : List (Request P) → Option P
  | [] => none
  | q :: past =>
    (putAt key i past q).or (if i < length key past then lastPut key i past else none)

/-- The page was put there by some request, and at each request since then the block was within the
fork and no page was put at it. -/
theorem lastPut_eq_some_iff {key : Key} {i : Nat} {past : List (Request P)} {p : P} :
    lastPut key i past = some p ↔
      ∃ since q older, past = since ++ q :: older ∧ putAt key i older q = some p ∧
        ∀ later r between, since = later ++ r :: between →
          putAt key i (between ++ q :: older) r = none ∧
            i < length key (between ++ q :: older) := by
  induction past with
  | nil => simp [lastPut]
  | cons r past ih =>
    constructor
    · intro h
      cases hput : putAt key i past r with
      | some p' =>
        rw [lastPut, hput] at h
        cases h
        exact ⟨[], r, past, rfl, hput, by simp⟩
      | none =>
        rw [lastPut, hput, Option.none_or] at h
        split at h
        · rename_i hi
          -- the request that has put the page lies further back, and this one comes since then
          obtain ⟨since, q, older, rfl, hq, hsince⟩ := ih.1 h
          refine ⟨r :: since, q, older, rfl, hq, fun later r' between heq => ?_⟩
          cases later with
          | nil =>
            cases heq
            exact ⟨hput, hi⟩
          | cons _ later =>
            cases heq
            exact hsince later r' between rfl
        · cases h
    · rintro ⟨since, q, older, heq, hq, hsince⟩
      cases since with
      | nil =>
        cases heq
        rw [lastPut, hq, Option.some_or]
      | cons _ since =>
        simp only [List.cons_append, List.cons.injEq] at heq
        obtain ⟨rfl, rfl⟩ := heq
        obtain ⟨hput, hi⟩ := hsince [] r since rfl
        rw [lastPut, hput, Option.none_or, if_pos hi]
        exact ih.2 ⟨since, q, older, rfl, hq, fun later r' between heq =>
          hsince (r :: later) r' between (by rw [heq]; rfl)⟩

end Annals

namespace Device

variable {P : Type}

/-! ## Operations on pages -/

theorem size_overwrite (pages : Array P) (block : Nat) (put : List P) :
    (overwrite pages block put).size = pages.size := by
  induction put generalizing pages block with
  | nil => rfl
  | cons p put ih => simp only [overwrite, ih, Array.size_setIfInBounds]

theorem getElem?_overwrite {pages : Array P} {block : Nat} {put : List P}
    (h : block + put.length ≤ pages.size) (i : Nat) :
    (overwrite pages block put)[i]? =
      (if block ≤ i then put[i - block]? else none).or pages[i]? := by
  induction put generalizing pages block with
  | nil => simp [overwrite]
  | cons p put ih =>
    simp only [List.length_cons] at h
    have hrest : block + 1 + put.length ≤ (pages.setIfInBounds block p).size := by
      rw [Array.size_setIfInBounds]
      omega
    rw [overwrite, ih hrest, Array.getElem?_setIfInBounds]
    obtain hlt | rfl | hgt := Nat.lt_trichotomy i block
    · simp [show ¬block + 1 ≤ i by omega, show ¬block ≤ i by omega, show block ≠ i by omega]
    · simp [show ¬i + 1 ≤ i by omega, show i < pages.size by omega]
    · have hindex : i - block = i - (block + 1) + 1 := by omega
      simp [hindex, show block + 1 ≤ i by omega, show block ≤ i by omega, show block ≠ i by omega]

theorem size_lengthenTo (blank : P) (pages : Array P) (n : Nat) :
    (lengthenTo blank pages n).size = max pages.size n := by
  simp only [lengthenTo, Array.size_append, Array.size_replicate]
  omega

theorem getElem?_lengthenTo (blank : P) (pages : Array P) {n i : Nat} (h : i < max pages.size n) :
    (lengthenTo blank pages n)[i]? = some (pages[i]?.getD blank) := by
  rw [lengthenTo, Array.getElem?_append]
  split
  · rename_i hi
    rw [Array.getElem?_eq_getElem hi, Option.getD_some]
  · rename_i hi
    have hin : i - pages.size < n - pages.size := by omega
    rw [Array.getElem?_replicate, if_pos hin, Array.getElem?_eq_none (by omega), Option.getD_none]

theorem checkRange_of_le {key : Key} {length count : Nat} {block : BlockNumber}
    (h : block.toNat + count ≤ length) : checkRange key length block count = .ok () :=
  if_neg (by omega)

theorem checkRange_of_lt (key : Key) {length count : Nat} {block : BlockNumber}
    (h : length < block.toNat + count) : ∃ e, checkRange key length block count = .error e :=
  ⟨_, if_pos h⟩

/-- An operation alters the pages of a fork: they become as many as it says, and each is the one that
it puts there, or else the one from before, or else blank. -/
structure Altered (blank : P) (operation : Operation P) (pages pages' : Array P) : Prop where
  size : pages'.size = operation.resize pages.size
  page : ∀ i < pages'.size, pages'[i]? = some (((operation.page? i).or pages[i]?).getD blank)

theorem Altered.unchanged (blank : P) {operation : Operation P} {pages : Array P}
    (hresize : operation.resize pages.size = pages.size) (hput : ∀ i, operation.page? i = none) :
    Altered blank operation pages pages := by
  refine ⟨hresize.symm, fun i hi => ?_⟩
  rw [hput, Option.none_or, Array.getElem?_eq_getElem hi, Option.getD_some]

/-- An operation within reach of the fork alters its pages. -/
theorem operate_ok (blank : P) (key : Key) {pages : Array P} {operation : Operation P}
    (h : operation.reach ≤ pages.size) :
    ∃ out pages', operate blank key pages operation = .ok (out, pages') ∧
      Altered blank operation pages pages' := by
  cases operation with
  | attach | create | sync => exact ⟨_, _, rfl, .unchanged blank rfl fun _ => rfl⟩
  | read | submit =>
    simp only [operate, checkRange_of_le h]
    exact ⟨_, _, rfl, .unchanged blank rfl fun _ => rfl⟩
  | write block put =>
    simp only [operate, checkRange_of_le h]
    refine ⟨_, _, rfl, size_overwrite .., fun i hi => ?_⟩
    rw [size_overwrite] at hi
    rw [getElem?_overwrite h, Operation.page?, Array.getElem?_eq_getElem hi]
    cases (if block.toNat ≤ i then put[i - block.toNat]? else none) <;> rfl
  | append block page =>
    refine ⟨_, _, rfl, ?_, fun i hi => ?_⟩
    · rw [Array.size_setIfInBounds, size_lengthenTo, Operation.resize]
    · rw [Array.size_setIfInBounds] at hi
      rw [Array.getElem?_setIfInBounds, Operation.page?]
      split
      · rw [if_pos (by omega), Option.some_or, Option.getD_some]
      · rw [size_lengthenTo] at hi
        exact getElem?_lengthenTo blank pages hi
  | lengthen block count =>
    refine ⟨_, _, rfl, size_lengthenTo .., fun i hi => ?_⟩
    rw [size_lengthenTo] at hi
    exact getElem?_lengthenTo blank pages hi
  | truncate n =>
    have hsize : (pages.take n.toNat).size = min pages.size n.toNat := by simp [Nat.min_comm]
    refine ⟨_, _, rfl, hsize, fun i hi => ?_⟩
    rw [hsize] at hi
    have hin : i < pages.size := by omega
    rw [Array.take_eq_extract, Array.getElem?_extract, if_pos (by omega), Nat.zero_add,
      Array.getElem?_eq_getElem hin]
    rfl

/-- An operation out of reach of the fork fails. -/
theorem operate_error (blank : P) (key : Key) {pages : Array P} {operation : Operation P}
    (h : pages.size < operation.reach) : ∃ e, operate blank key pages operation = .error e := by
  cases operation with
  | read | submit | write =>
    obtain ⟨e, he⟩ := checkRange_of_lt key h
    exact ⟨e, by simp only [operate, he]; rfl⟩
  | attach | create | append | lengthen | truncate | sync => exact absurd h (Nat.not_lt_zero _)

/-- What is read within reach of the fork are its pages, one after the other. -/
theorem operate_read (blank : P) (key : Key) {pages : Array P} {block : BlockNumber} {count : Nat}
    (h : block.toNat + count ≤ pages.size) :
    operate blank key pages (.read block count) =
      .ok ((List.range' block.toNat count).map fun i => pages[i]?.getD blank, pages) := by
  have hout : (pages.extract block.toNat (block.toNat + count)).toList =
      (List.range' block.toNat count).map fun i => pages[i]?.getD blank := by
    apply List.ext_getElem
    · simp only [Array.length_toList, Array.size_extract, List.length_map, List.length_range']
      omega
    · intro i hi hi'
      have hin : block.toNat + i < pages.size := by
        simp only [List.length_map, List.length_range'] at hi'
        omega
      simp [hin]
  simp only [operate, checkRange_of_le h, ← hout]
  rfl

/-! ## Requests -/

section Requests

variable (blank : P) {q : Request P} {pages : Array P}

/-- Where there is no fork, nothing can be done that needs one. -/
theorem respond_none (q : Request P) :
    respond blank q none =
      (if q.operation.needsFork then .error (.missing q.key) else .ok [],
        if q.operation.creates then some #[] else none) := by
  simp only [respond]
  cases q.operation <;> rfl

theorem respond_some (q : Request P) (pages : Array P) :
    respond blank q (some pages) =
      if q.operation.needsFork then
        match operate blank q.key pages q.operation with
        | .ok (out, pages) => (.ok out, some pages)
        | .error e => (.error e, none)
      else (.ok [], none) := by
  simp only [respond]
  cases q.operation <;> rfl

theorem operate_of_not_needsFork (key : Key) {operation : Operation P}
    (h : operation.needsFork = false) : operate blank key pages operation = .ok ([], pages) := by
  cases operation with
  | attach | create => rfl
  | _ => cases h

/-- A request within reach of the fork is carried out. -/
theorem respond_ok (h : q.operation.reach ≤ pages.size) :
    ∃ out, (respond blank q (some pages)).1 = .ok out ∧
      Altered blank q.operation pages ((respond blank q (some pages)).2.getD pages) := by
  obtain ⟨out, pages', hoperate, haltered⟩ := operate_ok blank q.key h
  rw [respond_some]
  split
  · rw [hoperate]
    exact ⟨out, rfl, haltered⟩
  · rename_i hneeds
    rw [operate_of_not_needsFork blank q.key (eq_false_of_ne_true hneeds)] at hoperate
    cases hoperate
    exact ⟨[], rfl, haltered⟩

/-- A request out of reach of the fork fails and replaces nothing. -/
theorem respond_error (h : pages.size < q.operation.reach) :
    ∃ e, respond blank q (some pages) = (.error e, none) := by
  obtain ⟨e, he⟩ := operate_error blank q.key h
  have hneeds : q.operation.needsFork = true := by
    cases hneeds : q.operation.needsFork with
    | true => rfl
    | false => simp [Operation.reach_of_not_needsFork hneeds] at h
  exact ⟨e, by rw [respond_some, if_pos hneeds, he]⟩

end Requests

/-- What becomes of the forks is told by what came of the request. -/
theorem fork?_serve (blank : P) (d : Device P) (q : Request P) :
    (d.serve blank q).2.fork? q.key =
      (respond blank q (d.fork? q.key)).2.or (d.fork? q.key) := by
  rw [serve_eq]
  split
  · rename_i hnone
    rw [hnone, Option.none_or]
  · rename_i pages hsome
    rw [hsome, fork?_put, if_pos rfl, Option.some_or]

/-! ## Lengths of forks -/

/-- An operation on a fork can be carried out. -/
def Admits (d : Device P) (key : Key) (operation : Operation P) : Prop :=
  operation.needsFork = true → ∃ n, d.length? key = some n ∧ operation.reach ≤ n

/-- A request that can be carried out is, and only the length of its own fork may change. -/
theorem serve_length (blank : P) {d : Device P} (q : Request P) (h : d.Admits q.key q.operation) :
    (∃ pages, (d.serve blank q).1 = .ok pages) ∧
      (d.serve blank q).2.length? q.key = q.operation.newLength (d.length? q.key) := by
  simp only [length?, fork?_serve]
  rw [serve_eq]
  cases hfork : d.fork? q.key with
  | none =>
    cases hneeds : q.operation.needsFork with
    | true =>
      obtain ⟨n, hn, -⟩ := h hneeds
      rw [length?, hfork] at hn
      cases hn
    | false =>
      rw [respond_none, hneeds]
      cases hcreates : q.operation.creates <;> simp [Operation.newLength, hcreates]
  | some pages =>
    have hreach : q.operation.reach ≤ pages.size := by
      cases hneeds : q.operation.needsFork with
      | true =>
        obtain ⟨n, hn, hreach⟩ := h hneeds
        rw [length?, hfork, Option.map_some] at hn
        exact (Option.some.inj hn).symm ▸ hreach
      | false => rw [Operation.reach_of_not_needsFork hneeds]; exact Nat.zero_le _
    obtain ⟨out, hout, haltered⟩ := respond_ok blank hreach
    refine ⟨⟨out, hout⟩, ?_⟩
    rw [Option.or_some, Option.map_some, haltered.size]
    rfl

theorem length?_serve_of_ne (blank : P) {d : Device P} {q : Request P} {key : Key}
    (h : key ≠ q.key) : (d.serve blank q).2.length? key = d.length? key := by
  rw [length?, fork?_serve_of_ne h, length?]

end Device

/-! ## The pages told from the requests -/

namespace Annals

variable {P : Type} {blank : P} {key : Key} {past : List (Request P)} {fork : Option (Array P)}

/-- A fork is what its requests have made of it. -/
structure Tells (blank : P) (key : Key) (past : List (Request P)) (fork : Option (Array P)) :
    Prop where
  created : fork.isSome = created key past
  length : (fork.getD #[]).size = length key past
  page : ∀ i < Annals.length key past, (fork.getD #[])[i]? = some ((lastPut key i past).getD blank)

namespace Tells

theorem nil (blank : P) (key : Key) : Tells blank key [] none :=
  ⟨rfl, rfl, fun _ hi => absurd hi (Nat.not_lt_zero _)⟩

/-- Without a fork, only what needs none can be carried out. -/
theorem admits_of_none {q : Request P} (h : Tells blank q.key past none) :
    admits past q = !q.operation.needsFork := by
  simp [admits, ← h.created]

/-- With a fork, all can be carried out that is within its reach. -/
theorem admits_of_some {q : Request P} {pages : Array P} (h : Tells blank q.key past (some pages)) :
    admits past q = decide (q.operation.reach ≤ pages.size) := by
  have hlength : pages.size = Annals.length q.key past := h.length
  cases hneeds : q.operation.needsFork with
  | true => simp [admits, hneeds, ← h.created, hlength]
  | false => simp [admits, hneeds, Operation.reach_of_not_needsFork hneeds]

/-- The page that a block had before is looked for among the requests if there was such a block. -/
theorem before (h : Tells blank key past fork) (put : Option P) (i : Nat) :
    (put.or (fork.getD #[])[i]?).getD blank =
      (put.or (if i < Annals.length key past then lastPut key i past else none)).getD blank := by
  split
  · rename_i hi
    rw [h.page i hi]
    cases put <;> rfl
  · rename_i hi
    rw [Array.getElem?_eq_none (by rw [h.length]; omega)]

/-- What is asked of another fork is of no account. -/
theorem elsewhere (h : Tells blank key past fork) {q : Request P} (hq : q.key ≠ key) :
    Tells blank key (q :: past) fork := by
  have hlength : Annals.length key (q :: past) = Annals.length key past := by
    simp [Annals.length, hq]
  refine ⟨?_, ?_, fun i hi => ?_⟩
  · simp [h.created, Annals.created_cons, hq]
  · rw [hlength, h.length]
  · rw [hlength] at hi
    simpa [lastPut, putAt, hq, hi] using h.page i hi

/-- A request for a fork that does not exist makes an empty one, if any. -/
theorem step_none {q : Request P} (h : Tells blank q.key past none) :
    Tells blank q.key (q :: past) (if q.operation.creates then some #[] else none) := by
  have hcreated : Annals.created q.key past = false := h.created.symm
  have hlength : Annals.length q.key (q :: past) = 0 := by
    simp [Annals.length, hcreated, ← h.length]
  refine ⟨?_, ?_, fun i hi => ?_⟩
  · cases hcreates : q.operation.creates <;> simp [Annals.created_cons, hcreates, hcreated]
  · rw [hlength]
    split <;> rfl
  · rw [hlength] at hi
    exact absurd hi (Nat.not_lt_zero _)

/-- A request that is carried out on a fork. -/
theorem step_altered {q : Request P} {pages pages' : Array P}
    (h : Tells blank q.key past (some pages)) (hreach : q.operation.reach ≤ pages.size)
    (haltered : Device.Altered blank q.operation pages pages') :
    Tells blank q.key (q :: past) (some pages') := by
  have hcreated : Annals.created q.key past = true := h.created.symm
  have hlength : pages'.size = Annals.length q.key (q :: past) := by
    rw [length_cons_of_created hcreated, ← h.length]
    exact haltered.size
  refine ⟨(created_cons_of_created hcreated q).symm, hlength, fun i hi => ?_⟩
  have hadmits : admits past q = true := by simpa [h.admits_of_some] using hreach
  have hpage := haltered.page i (hlength ▸ hi)
  simp only [Option.getD_some, hpage, lastPut, putAt, hadmits, and_self, if_true]
  exact congrArg some (h.before (q.operation.page? i) i)

/-- A request out of reach of the fork. -/
theorem step_refused {q : Request P} {pages : Array P} (h : Tells blank q.key past (some pages))
    (hreach : pages.size < q.operation.reach) : Tells blank q.key (q :: past) (some pages) := by
  have hcreated : Annals.created q.key past = true := h.created.symm
  have hlength : Annals.length q.key (q :: past) = Annals.length q.key past := by
    rw [length_cons_of_created hcreated, Operation.resize_of_reach (by omega)]
  refine ⟨(created_cons_of_created hcreated q).symm, hlength ▸ h.length, fun i hi => ?_⟩
  rw [hlength] at hi
  have hadmits : admits past q = false := by simpa [h.admits_of_some] using hreach
  simpa [lastPut, putAt, hadmits, hi] using h.page i hi

/-- What a request makes of its fork is told with the request as the last one. -/
theorem step {q : Request P} (h : Tells blank q.key past fork) :
    Tells blank q.key (q :: past) ((Device.respond blank q fork).2.or fork) := by
  cases fork with
  | none =>
    rw [Device.respond_none, Option.or_none]
    exact h.step_none
  | some pages =>
    rw [Option.or_some]
    obtain hreach | hreach := Nat.lt_or_ge pages.size q.operation.reach
    · obtain ⟨e, he⟩ := Device.respond_error blank hreach
      rw [he]
      exact h.step_refused hreach
    · obtain ⟨out, -, haltered⟩ := Device.respond_ok blank hreach
      exact h.step_altered hreach haltered

/-- A request is carried out just if what is told admits it. -/
theorem answers_iff {q : Request P} (h : Tells blank q.key past fork) :
    (∃ out, (Device.respond blank q fork).1 = .ok out) ↔ admits past q = true := by
  cases fork with
  | none =>
    rw [Device.respond_none, h.admits_of_none]
    cases q.operation.needsFork <;> simp
  | some pages =>
    rw [h.admits_of_some, decide_eq_true_iff]
    constructor
    · rintro ⟨out, hout⟩
      refine Nat.le_of_not_lt fun hreach => ?_
      obtain ⟨e, he⟩ := Device.respond_error blank hreach
      rw [he] at hout
      cases hout
    · intro hreach
      obtain ⟨out, hout, -⟩ := Device.respond_ok blank hreach
      exact ⟨out, hout⟩

/-- A read finds what was last put into its blocks. -/
theorem read {q : Request P} {block : BlockNumber} {count : Nat}
    (h : Tells blank q.key past fork) (hop : q.operation = .read block count)
    (hadmits : admits past q = true) :
    (Device.respond blank q fork).1 =
      .ok ((List.range' block.toNat count).map fun i => (lastPut q.key i past).getD blank) := by
  cases fork with
  | none =>
    rw [h.admits_of_none, hop] at hadmits
    cases hadmits
  | some pages =>
    have hreach : block.toNat + count ≤ pages.size := by
      rw [h.admits_of_some, hop] at hadmits
      exact of_decide_eq_true hadmits
    simp only [Device.respond, hop, Device.operate_read blank q.key hreach]
    refine congrArg Except.ok (List.map_congr_left fun i hi => ?_)
    rw [List.mem_range'_1] at hi
    have hlength : pages.size = Annals.length q.key past := h.length
    have hpage := h.page i (by omega)
    rw [Option.getD_some] at hpage
    rw [hpage, Option.getD_some]

end Tells

end Annals

/-! ## A device among its requests -/

namespace Device

variable {P : Type}

/-- The device that some requests have been made of, the last one first. -/
def after (blank : P) : List (Request P) → Device P
  | [] => {}
  | q :: past => ((after blank past).serve blank q).2

theorem after_tells (blank : P) (past : List (Request P)) (key : Key) :
    Annals.Tells blank key past ((after blank past).fork? key) := by
  induction past with
  | nil =>
    have hnone : (after blank []).fork? key = none := by simp [after, fork?]
    rw [hnone]
    exact .nil blank key
  | cons q past ih =>
    -- only a request for the fork itself has a say in what it is
    by_cases hkey : q.key = key
    · subst hkey
      rw [after, fork?_serve]
      exact ih.step
    · rw [after, fork?_serve_of_ne (Ne.symm hkey)]
      exact ih.elsewhere hkey

/-- What a device makes of a request can be told from the requests before it. -/
structure Heeds (blank : P) (past : List (Request P)) (d : Device P) (q : Request P) : Prop where
  /-- It is carried out just if its fork exists and is long enough. -/
  carried_out_iff : (∃ out, (d.serve blank q).1 = .ok out) ↔ Annals.admits past q = true
  /-- A read finds in each block what was last put there. -/
  read : ∀ block count, q.operation = .read block count → Annals.admits past q = true →
    (d.serve blank q).1 =
      .ok ((List.range' block.toNat count).map fun i => (Annals.lastPut q.key i past).getD blank)
  /-- Nothing is changed if it fails. -/
  refused : ∀ e, (d.serve blank q).1 = .error e → (d.serve blank q).2 = d
  /-- No other fork is touched. -/
  elsewhere : ∀ key, key ≠ q.key → (d.serve blank q).2.fork? key = d.fork? key
  /-- A fork that exists is not created anew. -/
  created_once : q.operation.creates = true → (d.fork? q.key).isSome = true →
    (d.serve blank q).2.fork? q.key = d.fork? q.key

theorem serve_refused {blank : P} {d : Device P} {q : Request P} {e : CallError}
    (h : (d.serve blank q).1 = .error e) : (d.serve blank q).2 = d := by
  simp only [serve] at h ⊢
  split at h
  · cases h
  · rfl

/-- A device is known by the requests that were made of it, and so is what it makes of the next. -/
theorem serves_annals (blank : P) (past : List (Request P)) (q : Request P) :
    (∀ key, Annals.Tells blank key past ((after blank past).fork? key)) ∧
      Heeds blank past (after blank past) q := by
  have htells := after_tells blank past
  refine ⟨htells, ?_, ?_, fun e => serve_refused, fun key => fork?_serve_of_ne, ?_⟩
  · rw [serve_eq]
    exact (htells q.key).answers_iff
  · intro block count hop hadmits
    rw [serve_eq]
    exact (htells q.key).read hop hadmits
  · intro hcreates hexists
    obtain ⟨pages, hpages⟩ := Option.isSome_iff_exists.1 hexists
    rw [fork?_serve, hpages, respond_some]
    cases hop : q.operation with
    | create => rfl
    | _ => simp [hop, Operation.creates] at hcreates

/-- What a fork was asked for, the last request first: it is cut to one block and grown again, and in
between a write beyond its end fails. -/
def regrown : List (Request Nat) :=
  [.lengthen 0 3, .create ⟨0, 0, 0⟩ false, .write 0 [1, 1], .truncate 1, .write 0 [5, 8],
    .append 1 7, .create ⟨0, 0, 0⟩ false].map (⟨⟨⟨1663, 5, 16384⟩, false⟩, .main, ·⟩)

/-- The first block has kept its page, and nothing is left of the one that was cut off. -/
theorem serves_annals_regrown :
    ((after 0 regrown).serve 0 ⟨⟨⟨1663, 5, 16384⟩, false⟩, .main, .read 0 3⟩).1 =
      .ok [5, 0, 0] :=
  (serves_annals 0 regrown ⟨⟨⟨1663, 5, 16384⟩, false⟩, .main, .read 0 3⟩).2.read 0 3 rfl (by decide)

end Device

end BlockLedger
