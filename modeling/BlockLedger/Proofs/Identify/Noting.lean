import BlockLedger.Identify.Bulk
import Mathlib.Data.List.Basic

/-
# The tuples that are noted

Of the tuples of a class table those are noted that describe a relation whose main fork waits for an
identity.  A relation that has been noted on one page does not wait on the next, but on one page it
may be noted more than once, and then the first tuple counts.  Where more than 256 tuples of a page
could be noted, the others are not.
-/

namespace BlockLedger

/-- The relation that a tuple describes. -/
def ClassTuple.relation (t : ClassTuple) (database tablespace : Oid) : Locator :=
  (t.key database tablespace).locator

theorem ClassTuple.key_eq (t : ClassTuple) (database tablespace : Oid) :
    t.key database tablespace = ⟨t.relation database tablespace, .main⟩ := rfl

/-- The main fork of a relation has an entry and waits for an identity. -/
def Store.waits (s : Store) (r : Locator) : Bool := s.unresolved ⟨r, .main⟩

namespace Bulk

variable (database tablespace : Oid)

/-- A tuple describes one of the relations that wait. -/
def eligible (waits : Locator → Bool) (t : ClassTuple) : Bool :=
  t.trackable && waits (t.relation database tablespace)

/-- The tuples that are noted on a page. -/
def notedOn (waits : Locator → Bool) (tuples : List ClassTuple) : List ClassTuple :=
  (tuples.filter (eligible database tablespace waits)).take maxCandidates

/-- One of the tuples describes the relation. -/
def describes (ts : List ClassTuple) (r : Locator) : Bool :=
  ts.any fun t => t.relation database tablespace == r

/-- The tuples that are noted on the pages of a class table. -/
def noted (waits : Locator → Bool) : List (List ClassTuple) → List ClassTuple
  | [] => []
  | tuples :: rest =>
    let ts := notedOn database tablespace waits tuples
    ts ++ noted (fun r => waits r && !describes database tablespace ts r) rest

/-- No more tuples of a page could be noted than there is room for. -/
def Roomy (tuples : List ClassTuple) : Prop :=
  (tuples.filter ClassTuple.trackable).length ≤ maxCandidates

variable {database tablespace} {waits : Locator → Bool} {tuples : List ClassTuple}
  {table : List (List ClassTuple)} {t : ClassTuple} {r : Locator}

theorem candidates_eq (s : Store) (database tablespace : Oid) (room : Nat)
    (tuples : List ClassTuple) :
    candidates s database tablespace room tuples =
      ((tuples.filter (eligible database tablespace s.waits)).take room).map fun t =>
        (t.key database tablespace, t) := by
  induction tuples generalizing room with
  | nil => cases room <;> rfl
  | cons t rest ih =>
    cases room with
    | zero => rfl
    | succ room =>
      rw [candidates]
      show (if eligible database tablespace s.waits t then _ else _) = _
      cases ht : eligible database tablespace s.waits t with
      | true =>
        rw [List.filter_cons_of_pos ht, List.take_succ_cons, List.map_cons, ← ih]
        rfl
      | false =>
        rw [List.filter_cons_of_neg (Bool.eq_false_iff.1 ht), ← ih]
        rfl

theorem describes_iff {ts : List ClassTuple} :
    describes database tablespace ts r = true ↔ ∃ t ∈ ts, t.relation database tablespace = r := by
  simp [describes]

theorem eligible_iff :
    eligible database tablespace waits t = true ↔
      t.trackable = true ∧ waits (t.relation database tablespace) = true :=
  Bool.and_eq_true_iff

theorem notedOn_of_roomy (h : Roomy tuples) :
    notedOn database tablespace waits tuples =
      tuples.filter (eligible database tablespace waits) := by
  refine List.take_of_length_le (Nat.le_trans ?_ h)
  have hsub : (tuples.filter (eligible database tablespace waits)).Sublist
      (tuples.filter ClassTuple.trackable) :=
    List.monotone_filter_right tuples fun t ht => (eligible_iff.1 ht).1
  exact hsub.length_le

theorem mem_notedOn (h : t ∈ notedOn database tablespace waits tuples) :
    t ∈ tuples ∧ eligible database tablespace waits t = true :=
  List.mem_filter.1 (List.mem_of_mem_take h)

/-- The tuples of all pages are noted in their order. -/
theorem noted_sublist : (noted database tablespace waits table).Sublist table.flatten := by
  induction table generalizing waits with
  | nil => exact .slnil
  | cons tuples rest ih =>
    rw [noted, List.flatten_cons]
    exact ((List.take_sublist ..).trans List.filter_sublist).append ih

theorem eligible_of_mem_noted (h : t ∈ noted database tablespace waits table) :
    eligible database tablespace waits t = true := by
  induction table generalizing waits with
  | nil => cases h
  | cons tuples rest ih =>
    rw [noted, List.mem_append] at h
    obtain h | h := h
    · exact (mem_notedOn h).2
    · obtain ⟨htrackable, hwaits⟩ := eligible_iff.1 (ih h)
      exact eligible_iff.2 ⟨htrackable, (Bool.and_eq_true_iff.1 hwaits).1⟩

/-- On a page with room for all of its tuples each relation that waits is noted, unless it has been
noted before. -/
theorem describes_noted (hpage : tuples ∈ table) (hroomy : Roomy tuples) (ht : t ∈ tuples)
    (heligible : eligible database tablespace waits t = true) :
    describes database tablespace (noted database tablespace waits table)
      (t.relation database tablespace) = true := by
  induction table generalizing waits with
  | nil => cases hpage
  | cons first rest ih =>
    rw [noted, describes, List.any_append, Bool.or_eq_true_iff]
    obtain rfl | hpage := List.mem_cons.1 hpage
    · refine .inl (describes_iff.2 ⟨t, ?_, rfl⟩)
      rw [notedOn_of_roomy hroomy]
      exact List.mem_filter.2 ⟨ht, heligible⟩
    · cases hbefore : describes database tablespace (notedOn database tablespace waits first)
        (t.relation database tablespace) with
      | true => exact .inl hbefore
      | false =>
        obtain ⟨htrackable, hwaits⟩ := eligible_iff.1 heligible
        exact .inr (ih hpage (eligible_iff.2 ⟨htrackable, by rw [hwaits, hbefore]; rfl⟩))

/-- If all pages have room for their tuples, a relation that waits is noted first where it is
described first. -/
theorem find?_noted (hroomy : ∀ tuples ∈ table, Roomy tuples) (hr : waits r = true) :
    (noted database tablespace waits table).find? (fun t => t.relation database tablespace == r) =
      table.flatten.find? fun t => t.trackable && t.relation database tablespace == r := by
  induction table generalizing waits with
  | nil => rfl
  | cons tuples rest ih =>
    have hpage : (notedOn database tablespace waits tuples).find?
        (fun t => t.relation database tablespace == r) =
          tuples.find? fun t => t.trackable && t.relation database tablespace == r := by
      rw [notedOn_of_roomy (hroomy tuples List.mem_cons_self), List.find?_filter]
      congr 1
      funext t
      by_cases h : t.relation database tablespace = r
      · simp [eligible, h, hr]
      · simp [h]
    rw [noted, List.flatten_cons, List.find?_append, List.find?_append, hpage]
    cases hfirst : tuples.find? fun t => t.trackable && t.relation database tablespace == r with
    | some t => rfl
    | none =>
      -- the relation has not been noted on this page, and still waits
      rw [hfirst, List.find?_eq_none] at hpage
      refine congrArg _ (ih (fun ts hts => hroomy ts (List.mem_cons_of_mem _ hts)) ?_)
      rw [hr, Bool.true_and, Bool.not_eq_true', Bool.eq_false_iff, ne_eq, describes_iff]
      rintro ⟨t, ht, hrel⟩
      exact hpage t ht (beq_iff_eq.2 hrel)

end Bulk

end BlockLedger
