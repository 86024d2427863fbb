import BlockLedger.Proofs.Store.Lookup
import Mathlib.Algebra.GroupWithZero.Nat

/-
# Paths of a store

Whatever happens to a store is a row of changes of single entries.  Four kinds of change leave a
mark: a charge that is posted, a run that is counted late, a step of a closing snapshot, and the
turn to the next bucket.  The rest is silent: creating an entry, and finding out whose it is.  A
path is such a row, told by its marks.

What is posted to an entry is either still there or in a copy that was taken of it: this holds of
every path, so no matter in which order backends and closing snapshots come between each other.
-/

namespace BlockLedger

/-- What leaves a mark in a store. -/
inductive Mark where
  | posted (p : Posting)
  /-- A run is counted apart from the access that ended it. -/
  | ended (r : EndedRun)
  /-- A closing snapshot comes to an entry; `copy` is what it takes along. -/
  | taken (key : Key) (copy : Option Entry)
  /-- A bucket is closed. -/
  | turned (bucket : Nat)
  deriving DecidableEq

namespace Mark

/-- The posting that left a mark. -/
def posting? : Mark → Option Posting
  | posted p => some p
  | _ => none

/-- The copy that was taken when a mark was left. -/
def copy? : Mark → Option Entry
  | taken _ copy => copy
  | _ => none

/-- The bucket that was closed when a mark was left. -/
def turn? : Mark → Option Nat
  | turned bucket => some bucket
  | _ => none

/-- The key that a mark is about. -/
def key? : Mark → Option Key
  | posted p => some p.key
  | ended r => some r.key
  | taken key _ => some key
  | turned _ => none

end Mark

/-- The postings among the marks of a list. -/
def postings (ds : List Mark) : List Posting := ds.filterMap Mark.posting?

/-- The copies that were taken, by the marks of a list. -/
def copies (ds : List Mark) : List Entry := ds.filterMap Mark.copy?

/-- The buckets that were closed, by the marks of a list. -/
def turns (ds : List Mark) : List Nat := ds.filterMap Mark.turn?

@[simp] theorem postings_nil : postings [] = [] := rfl

@[simp] theorem copies_nil : copies [] = [] := rfl

@[simp] theorem postings_singleton (d : Mark) : postings [d] = d.posting?.toList := by
  cases d <;> rfl

@[simp] theorem copies_singleton (d : Mark) : copies [d] = d.copy?.toList := by
  rcases d with _ | _ | ⟨_, _ | _⟩ | _ <;> rfl

@[simp] theorem postings_append (ds es : List Mark) :
    postings (ds ++ es) = postings ds ++ postings es :=
  List.filterMap_append

@[simp] theorem copies_append (ds es : List Mark) : copies (ds ++ es) = copies ds ++ copies es :=
  List.filterMap_append

@[simp] theorem turns_append (ds es : List Mark) : turns (ds ++ es) = turns ds ++ turns es :=
  List.filterMap_append

theorem postings_flatMap {α : Type} (l : List α) (f : α → List Mark) :
    postings (l.flatMap f) = l.flatMap fun x => postings (f x) :=
  List.filterMap_flatMap

theorem copies_flatMap {α : Type} (l : List α) (f : α → List Mark) :
    copies (l.flatMap f) = l.flatMap fun x => copies (f x) :=
  List.filterMap_flatMap

theorem turns_flatMap {α : Type} (l : List α) (f : α → List Mark) :
    turns (l.flatMap f) = l.flatMap fun x => turns (f x) :=
  List.filterMap_flatMap

@[simp] theorem postings_posted (ps : List Posting) : postings (ps.map .posted) = ps := by
  simp [postings, Function.comp_def, Mark.posting?]

@[simp] theorem copies_posted (ps : List Posting) : copies (ps.map .posted) = [] := by
  simp [copies, Mark.copy?]

@[simp] theorem turns_posted (ps : List Posting) : turns (ps.map .posted) = [] := by
  simp [turns, Mark.turn?]

@[simp] theorem postings_ended (rs : List EndedRun) : postings (rs.map .ended) = [] := by
  simp [postings, Mark.posting?]

@[simp] theorem copies_ended (rs : List EndedRun) : copies (rs.map .ended) = [] := by
  simp [copies, Mark.copy?]

@[simp] theorem turns_ended (rs : List EndedRun) : turns (rs.map .ended) = [] := by
  simp [turns, Mark.turn?]

namespace Store

/-- The changes of a store, each with the mark that it leaves. -/
inductive Step (s : Store) : Option Mark → Store → Prop
  | ensure (k : Key) : Step s none (s.ensure k).1
  | identify (k : Key) (i : Identity) : Step s none (s.identify k i).1
  | post (p : Posting) (present : (s.find? p.key).isSome) :
      Step s (some (.posted p)) (s.modify p.key (p.charge.apply p.now))
  | endRun (r : EndedRun) (present : (s.find? r.key).isSome) :
      Step s (some (.ended r)) (s.endRun r)
  | take (k : Key) : Step s (some (.taken k (s.take k).1)) (s.take k).2
  | turn : Step s (some (.turned s.bucket)) s.nextBucket.2

/-- A row of changes, told by their marks. -/
inductive Path (s : Store) : List Mark → Store → Prop
  | refl : Path s [] s
  | silent {ds : List Mark} {t u : Store} : Path s ds t → Step t none u → Path s ds u
  | mark {ds : List Mark} {d : Mark} {t u : Store} :
      Path s ds t → Step t (some d) u → Path s (ds ++ [d]) u

variable {s t u : Store} {d : Option Mark} {ds es : List Mark}

theorem Step.path_silent (h : Step s none t) : s.Path [] t := .silent .refl h

theorem Step.path {d : Mark} (h : Step s (some d) t) : s.Path [d] t := .mark .refl h

theorem Path.trans (h : s.Path ds t) (h' : t.Path es u) : s.Path (ds ++ es) u := by
  induction h' with
  | refl => simpa using h
  | silent _ hstep ih => exact .silent ih hstep
  | mark _ hstep ih =>
    rw [← List.append_assoc]
    exact .mark ih hstep

/-! ## What a change does to one key -/

/-- What is found under a key before and after a change. -/
inductive Touch (k : Key) : Option Mark → Option Entry → Option Entry → Prop
  | other {d : Option Mark} (o : Option Entry) (h : d.bind Mark.key? ≠ some k) : Touch k d o o
  | create : Touch k none none (some (.new k))
  | identify (e : Entry) (i : Identity) : Touch k none (some e) (some (e.identify i))
  | post (p : Posting) (h : p.key = k) (e : Entry) :
      Touch k (some (.posted p)) (some e) (some (p.charge.apply p.now e))
  | endRun (r : EndedRun) (h : r.key = k) (e : Entry) :
      Touch k (some (.ended r)) (some e)
        (some (e.withTraffic r.direction fun t => t.endRun r.blocks))
  | take (o : Option Entry) :
      Touch k (some (.taken k (o.filter Entry.active))) o (o.map Entry.closed)

theorem Step.touch (h : Step s d t) (k : Key) : Touch k d (s.find? k) (t.find? k) := by
  cases h with
  | ensure k' =>
    rw [find?_ensure]
    split
    · subst k'
      cases s.find? k with
      | none => exact .create
      | some e => exact .other _ (by simp)
    · exact .other _ (by simp)
  | identify k' i =>
    rw [find?_identify]
    split
    · subst k'
      cases s.find? k with
      | none => exact .other _ (by simp)
      | some e => exact .identify e i
    · exact .other _ (by simp)
  | post p present =>
    rw [find?_modify]
    split
    · obtain ⟨e, he⟩ := Option.isSome_iff_exists.mp present
      rw [he, ← ‹p.key = k›, he]
      exact .post p rfl e
    · exact .other _ (by simpa [Mark.key?])
  | endRun r present =>
    rw [Store.endRun, find?_modify]
    split
    · obtain ⟨e, he⟩ := Option.isSome_iff_exists.mp present
      rw [he, ← ‹r.key = k›, he]
      exact .endRun r rfl e
    · exact .other _ (by simpa [Mark.key?])
  | take k' =>
    rw [find?_take, take_fst]
    split
    · subst k'
      exact .take _
    · exact .other _ (by simpa [Mark.key?])
  | turn => exact .other _ (by simp [Mark.key?])

/-! ## What every path keeps -/

theorem Touch.isSome {k : Key} {o o' : Option Entry} (h : Touch k d o o') (ho : o.isSome) :
    o'.isSome := by
  cases h with
  | other => exact ho
  | take => simpa using ho
  | create | identify | post | endRun => rfl

/-- No entry is ever removed. -/
theorem Path.isSome (h : s.Path ds t) {k : Key} (hk : (s.find? k).isSome) :
    (t.find? k).isSome := by
  induction h with
  | refl => exact hk
  | silent _ hstep ih | mark _ hstep ih => exact (hstep.touch k).isSome ih

/-- Every entry lies under its own key. -/
def Keyed (s : Store) : Prop := ∀ k e, s.find? k = some e → e.key = k

theorem Step.keyed (h : Step s d t) (hs : s.Keyed) : t.Keyed := by
  intro k
  have hk := hs k
  have htouch := h.touch k
  generalize s.find? k = o, t.find? k = o' at hk htouch
  cases htouch with
  | other o h => exact hk
  | create => simp
  | identify e i => simpa using hk
  | post p h e => simpa using hk
  | endRun r h e => simpa using hk
  | take o =>
    intro e he
    obtain ⟨e', rfl, rfl⟩ := Option.map_eq_some_iff.mp he
    simpa using hk

theorem Path.keyed (h : s.Path ds t) (hs : s.Keyed) : t.Keyed := by
  induction h with
  | refl => exact hs
  | silent _ hstep ih | mark _ hstep ih => exact hstep.keyed ih

/-- The buckets that are closed on the way have the numbers from the first one on. -/
theorem Path.bucket (h : s.Path ds t) : t.bucket = s.bucket + (turns ds).length := by
  induction h with
  | refl => rfl
  | silent _ hstep ih =>
    cases hstep with
    | ensure k => simpa using ih
    | identify k i => simpa using ih
  | mark _ hstep ih =>
    rw [turns_append, List.length_append, ← Nat.add_assoc, ← ih]
    cases hstep with
    | turn => rfl
    | post p _ => exact bucket_modify ..
    | endRun r _ => exact bucket_modify ..
    | take k => exact bucket_take ..

/-! ## Conservation -/

/-- A copy is one of the entry that the snapshot has come to. -/
theorem Step.copy_key {d : Mark} (h : Step s (some d) t) (hs : s.Keyed) {e : Entry}
    (he : d.copy? = some e) : d.key? = some e.key := by
  cases h with
  | take k =>
    rw [Mark.copy?, take_fst, Option.filter_eq_some_iff] at he
    rw [Mark.key?, hs k e he.1]
  | post | endRun | turn => cases he

end Store

/-- A number that entries add up.  Charges and runs that are counted late raise it by amounts that
are known from them alone. -/
structure Tally where
  value : Entry → Nat
  posted : Posting → Nat
  ended : EndedRun → Nat
  value_new (k : Key) : value (.new k) = 0
  value_reset (e : Entry) : value e.reset = 0
  value_identify (e : Entry) (i : Identity) : value (e.identify i) = value e
  value_apply (p : Posting) (e : Entry) : value (p.charge.apply p.now e) = value e + posted p
  value_endRun (r : EndedRun) (e : Entry) :
    value (e.withTraffic r.direction fun t => t.endRun r.blocks) = value e + ended r

namespace Tally

variable (n : Tally) (k : Key)

/-- What a mark raises a number by. -/
def amount : Mark → Nat
  | .posted p => n.posted p
  | .ended r => n.ended r
  | .taken _ _ | .turned _ => 0

/-- What is found under a key comes to. -/
def found (o : Option Entry) : Nat := (o.map n.value).getD 0

/-- What the copies of a key come to. -/
def copied (es : List Entry) : Nat := ((es.filter fun e => e.key = k).map n.value).sum

/-- What the marks about a key come to. -/
def marked (ds : List Mark) : Nat := ((ds.filter fun d => d.key? = some k).map n.amount).sum

@[simp] theorem copied_append (es es' : List Entry) :
    n.copied k (es ++ es') = n.copied k es + n.copied k es' := by
  simp [copied]

@[simp] theorem marked_append (ds es : List Mark) :
    n.marked k (ds ++ es) = n.marked k ds + n.marked k es := by
  simp [marked]

theorem marked_singleton (d : Mark) :
    n.marked k [d] = if d.key? = some k then n.amount d else 0 := by
  by_cases h : d.key? = some k <;> simp [marked, h]

/-- Figures without activity are not taken along, and not cleared either. -/
theorem found_closed {e : Entry} (hk : e.key = k) :
    n.copied k ((some e).filter Entry.active).toList + n.found (some e.closed) = n.value e := by
  cases ha : e.active with
  | false => simp [copied, found, Option.filter, ha, Entry.closed_of_inactive ha]
  | true => simp [copied, found, Option.filter, ha, hk, Entry.closed_of_active ha, n.value_reset]

end Tally

namespace Store

variable {s t : Store} {ds : List Mark}

theorem Touch.tally_silent {k : Key} {o o' : Option Entry} (h : Touch k none o o') (n : Tally) :
    n.found o' = n.found o := by
  cases h with
  | other => rfl
  | create => exact n.value_new k
  | identify e i => exact n.value_identify e i

theorem Touch.tally {k : Key} {d : Mark} {o o' : Option Entry} (h : Touch k (some d) o o')
    (hkey : ∀ e, o = some e → e.key = k) (hcopy : ∀ e, d.copy? = some e → d.key? = some e.key)
    (n : Tally) :
    n.copied k (copies [d]) + n.found o' = n.found o + n.marked k [d] := by
  cases h with
  | other o h =>
    have hd : d.key? ≠ some k := by simpa using h
    have hcopied : n.copied k (copies [d]) = 0 := by
      rw [copies_singleton]
      cases hc : d.copy? with
      | none => rfl
      | some e =>
        -- a copy that is taken of another entry bears the other key
        have he : e.key ≠ k := fun he => hd (he ▸ hcopy e hc)
        simp [Tally.copied, he]
    rw [hcopied, n.marked_singleton, if_neg hd, Nat.zero_add, Nat.add_zero]
  | post p h e =>
    have hk : (Mark.posted p).key? = some k := congrArg some h
    rw [n.marked_singleton, if_pos hk]
    exact (Nat.zero_add _).trans (n.value_apply p e)
  | endRun r h e =>
    have hk : (Mark.ended r).key? = some k := congrArg some h
    rw [n.marked_singleton, if_pos hk]
    exact (Nat.zero_add _).trans (n.value_endRun r e)
  | take o =>
    have hk : (Mark.taken k (o.filter Entry.active)).key? = some k := rfl
    rw [n.marked_singleton, if_pos hk, copies_singleton]
    cases o with
    | none => rfl
    | some e => exact n.found_closed k (hkey e rfl)

/-- What the marks of a path come to is in the copies that were taken or still in the store. -/
theorem Path.tally (h : s.Path ds t) (hs : s.Keyed) (n : Tally) (k : Key) :
    n.copied k (copies ds) + n.found (t.find? k) = n.found (s.find? k) + n.marked k ds := by
  induction h with
  | refl => exact Nat.zero_add _
  | silent _ hstep ih => rw [(hstep.touch k).tally_silent n, ih]
  | mark hpath hstep ih =>
    have hkeyed := hpath.keyed hs
    have hmark := (hstep.touch k).tally (hkeyed k) (fun _ => hstep.copy_key hkeyed) n
    rw [copies_append, n.copied_append, n.marked_append]
    omega

/-! ## Fields -/

end Store

/-- What is charged to a field. -/
def Tally.ofField (f : Field) : Tally where
  value e := e.value f
  posted p := p.charge.amount f
  ended _ := 0
  value_new k := Entry.value_new k f
  value_reset e := Entry.value_reset e f
  value_identify e i := Entry.value_identify e i f
  value_apply p e := Entry.value_apply p.charge p.now e f
  value_endRun r e := Entry.value_endRun e r.direction r.blocks f

namespace Store

variable {s t : Store} {ds : List Mark}

/-- What a store holds in a field of the entry of a key. -/
def value (s : Store) (k : Key) (f : Field) : Nat := ((s.find? k).map fun e => e.value f).getD 0

/-- What postings come to in a field of a key. -/
def charged (k : Key) (f : Field) (ps : List Posting) : Nat :=
  ((ps.filter fun p => p.key = k).map fun p => p.charge.amount f).sum

/-- What copies hold in a field of a key. -/
def held (k : Key) (f : Field) (es : List Entry) : Nat :=
  ((es.filter fun e => e.key = k).map fun e => e.value f).sum

theorem marked_ofField (k : Key) (f : Field) (ds : List Mark) :
    (Tally.ofField f).marked k ds = charged k f (postings ds) := by
  induction ds with
  | nil => rfl
  | cons d rest ih =>
    rw [← List.singleton_append, Tally.marked_append, ih, postings_append, Tally.marked_singleton]
    cases d with
    | posted p =>
      by_cases hp : p.key = k <;>
        simp [charged, Mark.key?, Mark.posting?, Tally.amount, Tally.ofField, hp]
    | ended r => simp [Mark.posting?, Tally.amount, Tally.ofField]
    | taken k' copy => simp [Mark.posting?, Tally.amount]
    | turned b => simp [Mark.posting?, Tally.amount]

/-- What was posted is in the copies that were taken or still in the store. -/
theorem Path.value (h : s.Path ds t) (hs : s.Keyed) (k : Key) (f : Field) :
    held k f (copies ds) + t.value k f = s.value k f + charged k f (postings ds) := by
  rw [← marked_ofField]
  exact h.tally hs (.ofField f) k

end Store

end BlockLedger
