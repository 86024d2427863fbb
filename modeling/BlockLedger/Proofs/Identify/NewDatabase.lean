import BlockLedger.Proofs.Cluster.Moves
import BlockLedger.Proofs.Identify.Noting
import BlockLedger.Proofs.Store.Filling
import BlockLedger.Proofs.Store.Order
import Mathlib.Tactic.Set

/-
# Identities for a new database, exactly

The tuples that are noted on a page are applied when the page has been let go, and all pages one
after the other.  In the store this comes to one walk over all tuples that are noted: of each
relation that waits the first tuple counts, and all forks that wait are told the same.  Nothing else
changes, and what is counted is the relations that have been found.

A page that cannot be read ends the walk.  What has been found on the pages before it stays.  No
page is read twice, so that one answer for each page is all there is to a class table.
-/

namespace BlockLedger

/-- The class table of a database can be read, page by page. -/
structure ClassPages.Reads (pages : ClassPages) (database tablespace : Oid)
    (table : List (List ClassTuple)) : Prop where
  count : pages.pageCount database tablespace = .ok table.length
  page : ∀ i (h : i < table.length), pages.page database tablespace i = .ok table[i]

/-- The class tables up to a page. -/
def ClassPages.upTo (pages : ClassPages) (count : Nat) : ClassPages :=
  { pages with pageCount := fun _ _ => .ok count }

namespace Bulk

/-- A tuple, and the name of its schema. -/
abbrev NamedTuple := ClassTuple × String

section Naming

variable {C : Type} [Catalog C]

/-- The name that the catalog has for a schema now, empty if there is none or if it fails. -/
def nameIn (catalog : C) (schema : Oid) : String :=
  match (Catalog.schema catalog schema).1 with
  | .ok name => name.getD ""
  | .error _ => ""

/-- The catalog after it has been asked for the schemas of tuples. -/
def asked (catalog : C) (ts : List ClassTuple) : C :=
  ts.foldl (fun catalog t => (Catalog.schema catalog t.schema).2) catalog

/-- Tuples with the names of their schemas, which are asked for one after the other. -/
def named (catalog : C) : List ClassTuple → List NamedTuple
  | [] => []
  | t :: rest => (t, nameIn catalog t.schema) :: named (Catalog.schema catalog t.schema).2 rest

theorem named_append (catalog : C) (ts us : List ClassTuple) :
    named catalog (ts ++ us) = named catalog ts ++ named (asked catalog ts) us := by
  induction ts generalizing catalog with
  | nil => rfl
  | cons t rest ih => exact congrArg _ (ih _)

theorem asked_append (catalog : C) (ts us : List ClassTuple) :
    asked catalog (ts ++ us) = asked (asked catalog ts) us :=
  List.foldl_append

theorem map_fst_named (catalog : C) (ts : List ClassTuple) :
    (named catalog ts).map Prod.fst = ts := by
  induction ts generalizing catalog with
  | nil => rfl
  | cons t rest ih => exact congrArg _ (ih _)

theorem schemaName_eq (schema : Oid) (l : Ledger) (catalog : C) :
    ∃ journal, schemaName schema l catalog =
      (nameIn catalog schema, { l with journal }, (Catalog.schema catalog schema).2) := by
  unfold schemaName nameIn
  rcases Catalog.schema catalog schema with ⟨_ | name, catalog'⟩
  · exact ⟨_, rfl⟩
  · exact ⟨l.journal, rfl⟩

end Naming

/-! ## The walk over the tuples -/

variable (database tablespace : Oid)

/-- Resolves the relations of tuples one after the other, and counts those that were resolved. -/
def resolveAll (s : Store) : List NamedTuple → Nat × Store
  | [] => (0, s)
  | (t, name) :: rest =>
    let (applied, s) := s.resolve (t.key database tablespace) (identityOf t name)
    let (n, s) := resolveAll s rest
    (if applied then n + 1 else n, s)

/-- The first tuple that describes a relation. -/
def first? (r : Locator) (xs : List NamedTuple) : Option NamedTuple :=
  xs.find? fun x => x.1.relation database tablespace == r

/-- What is found out about a relation from tuples: nothing, unless it waits. -/
def found? (waits : Locator → Bool) (r : Locator) (xs : List NamedTuple) : Option Identity :=
  if waits r then (first? database tablespace r xs).map fun x => identityOf x.1 x.2 else none

variable {database tablespace} {s : Store} {t : ClassTuple} {name : String} {r : Locator}
  {xs ys : List NamedTuple} {k : Key}

@[simp] theorem identityOf_valid (t : ClassTuple) (name : String) :
    (identityOf t name).valid = true := rfl

theorem resolveAll_of_settled (h : s.waits (t.relation database tablespace) = false) :
    resolveAll database tablespace s ((t, name) :: xs) = resolveAll database tablespace s xs := by
  rw [resolveAll, ClassTuple.key_eq, s.resolve_of_settled _ _ h]
  rfl

theorem resolveAll_of_waits (h : s.waits (t.relation database tablespace) = true) :
    resolveAll database tablespace s ((t, name) :: xs) =
      let s' := (s.resolve ⟨t.relation database tablespace, .main⟩ (identityOf t name)).2
      ((resolveAll database tablespace s' xs).1 + 1, (resolveAll database tablespace s' xs).2) := by
  have happlied :
      (s.resolve ⟨t.relation database tablespace, .main⟩ (identityOf t name)).1 = true := by
    rw [s.resolve_fst]
    exact Bool.and_eq_true_iff.2 ⟨h, rfl⟩
  rw [resolveAll, ClassTuple.key_eq]
  simp only [happlied, if_true]

theorem resolveAll_append (s : Store) (xs ys : List NamedTuple) :
    resolveAll database tablespace s (xs ++ ys) =
      ((resolveAll database tablespace s xs).1 +
          (resolveAll database tablespace (resolveAll database tablespace s xs).2 ys).1,
        (resolveAll database tablespace (resolveAll database tablespace s xs).2 ys).2) := by
  induction xs generalizing s with
  | nil => simp [resolveAll]
  | cons x rest ih =>
    obtain ⟨t, name⟩ := x
    simp only [List.cons_append, resolveAll, ih]
    split
    · rw [Nat.add_right_comm]
    · rfl

theorem isSome_first? :
    (first? database tablespace r xs).isSome =
      describes database tablespace (xs.map Prod.fst) r := by
  rw [first?, List.isSome_find?, describes, List.any_map]
  rfl

/-- A relation that has been found does not wait any longer, and no other one is concerned. -/
theorem waits_resolve {i : Identity} (h : s.waits r = true) (hi : i.valid = true) (r' : Locator) :
    (s.resolve ⟨r, .main⟩ i).2.waits r' = (s.waits r' && !(r == r')) := by
  have hknown : (s.resolve ⟨r, .main⟩ i).2.known ⟨r', .main⟩ =
      if r' = r then (s.known ⟨r', .main⟩).map fun j => j.fill (some i)
      else s.known ⟨r', .main⟩ := s.known_resolve i _ h hi _
  by_cases hr : r' = r
  · subst hr
    obtain ⟨j, hj, hunknown⟩ := (s.unresolved_iff _).1 h
    rw [if_pos rfl, hj, Option.map_some, Identity.fill_of_unknown hunknown] at hknown
    rw [beq_self_eq_true, Bool.not_true, Bool.and_false]
    exact Store.not_unresolved_of_known hknown hi
  · rw [if_neg hr] at hknown
    rw [beq_false_of_ne (Ne.symm hr), Bool.not_false, Bool.and_true]
    exact Store.unresolved_congr hknown

/-- What a store is after a walk: of each relation that waited the first tuple has been told to all
of its forks. -/
theorem find?_resolveAll (s : Store) (xs : List NamedTuple) (k : Key) :
    (resolveAll database tablespace s xs).2.find? k = (s.find? k).map fun e =>
      e.fill (found? database tablespace s.waits k.locator xs) := by
  induction xs generalizing s with
  | nil => simp [resolveAll, found?, first?]
  | cons x rest ih =>
    obtain ⟨t, name⟩ := x
    have hfirst : first? database tablespace k.locator ((t, name) :: rest) =
        if t.relation database tablespace = k.locator then some (t, name)
        else first? database tablespace k.locator rest := by
      rw [first?, List.find?_cons]
      split <;> simp_all [first?]
    cases hwaits : s.waits (t.relation database tablespace) with
    | false =>
      rw [resolveAll_of_settled hwaits, ih, found?, found?, hfirst]
      by_cases hr : t.relation database tablespace = k.locator
      · simp [← hr, hwaits]
      · simp [hr]
    | true =>
      rw [resolveAll_of_waits hwaits, ih, s.find?_resolve _ _ hwaits rfl, found?, found?,
        waits_resolve hwaits rfl, hfirst]
      by_cases hr : k.locator = t.relation database tablespace
      · simp [hr, hwaits, Function.comp_def, Entry.identify_eq_fill _ (identityOf_valid t name)]
      · simp [hr, Ne.symm hr]

theorem found?_valid {waits : Locator → Bool} {i : Identity}
    (h : found? database tablespace waits r xs = some i) : i.valid = true := by
  unfold found? at h
  split at h
  · obtain ⟨x, -, rfl⟩ := Option.map_eq_some_iff.1 h
    rfl
  · cases h

theorem isSome_found? {waits : Locator → Bool} :
    (found? database tablespace waits r xs).isSome =
      (waits r && describes database tablespace (xs.map Prod.fst) r) := by
  rw [← isSome_first?, found?]
  cases waits r <;> simp

/-- An entry changes just if it has been waiting and something has been found for it. -/
theorem find?_resolveAll_ne :
    (resolveAll database tablespace s xs).2.find? k ≠ s.find? k ↔
      s.unresolved k = true ∧ (found? database tablespace s.waits k.locator xs).isSome = true := by
  rw [find?_resolveAll, Store.unresolved]
  cases s.find? k with
  | none => simp
  | some e =>
    cases hfound : found? database tablespace s.waits k.locator xs with
    | none => simp
    | some i =>
      have hi := found?_valid hfound
      cases he : e.identity.valid with
      | true => simp [Entry.fill, Identity.fill_of_valid he, he]
      | false =>
        simp only [Option.map_some, ne_eq, Option.some.injEq, Option.isSome_some, he,
          Bool.not_false, and_true, iff_true, Entry.fill, Identity.fill_of_unknown he]
        intro h
        rw [← h] at he
        exact Bool.noConfusion (he.symm.trans hi)

theorem waits_resolveAll (s : Store) (xs : List NamedTuple) (r : Locator) :
    (resolveAll database tablespace s xs).2.waits r =
      (s.waits r && !describes database tablespace (xs.map Prod.fst) r) := by
  have hfound : (found? database tablespace s.waits r xs).isSome =
      (s.waits r && describes database tablespace (xs.map Prod.fst) r) := isSome_found?
  rw [Store.waits, Store.waits, Store.unresolved, Store.unresolved, find?_resolveAll]
  cases he : s.find? ⟨r, .main⟩ with
  | none => rfl
  | some e =>
    have hwaits : s.waits r = !e.identity.valid := by
      rw [Store.waits, Store.unresolved, he]
    rw [hwaits] at hfound
    simp only [Option.map_some, Entry.fill, Identity.valid_fill fun i => found?_valid, hfound]
    cases e.identity.valid <;> simp

theorem bucket_resolveAll (s : Store) (xs : List NamedTuple) :
    (resolveAll database tablespace s xs).2.bucket = s.bucket := by
  induction xs generalizing s with
  | nil => rfl
  | cons x rest ih => exact (ih _).trans (s.bucket_resolve ..)

theorem known_resolveAll (s : Store) (xs : List NamedTuple) (k : Key) :
    (resolveAll database tablespace s xs).2.known k = (s.known k).map fun j =>
      j.fill (found? database tablespace s.waits k.locator xs) := by
  rw [Store.known, find?_resolveAll, Store.known, Option.map_map, Option.map_map]
  rfl

theorem first?_map_fst : (first? database tablespace r xs).map Prod.fst =
    (xs.map Prod.fst).find? fun t => t.relation database tablespace == r := by
  rw [first?, List.find?_map]
  rfl

/-- The main forks whose entries have changed between two stores. -/
def changedMains (s s' : Store) : List Key :=
  s.keys.filter fun k => k.fork = .main ∧ s'.find? k ≠ s.find? k

theorem mem_changedMains {s s' : Store} :
    k ∈ changedMains s s' ↔ k ∈ s.keys ∧ k.fork = .main ∧ s'.find? k ≠ s.find? k := by
  rw [changedMains, List.mem_filter, decide_eq_true_eq]

theorem changedMains_nodup (s s' : Store) : (changedMains s s').Nodup := s.keys_nodup.filter _

/-- A relation that is resolved is one more that has changed, if nothing happens to it later on. -/
theorem changedMains_resolve {i : Identity} (h : s.waits r = true) (hi : i.valid = true)
    {s' : Store}
    (hlater : s'.find? ⟨r, .main⟩ = (s.resolve ⟨r, .main⟩ i).2.find? ⟨r, .main⟩) :
    (changedMains s s').length = (changedMains (s.resolve ⟨r, .main⟩ i).2 s').length + 1 := by
  set s₁ := (s.resolve ⟨r, .main⟩ i).2 with hs₁
  have hkeys : s₁.keys = s.keys := Store.keys_congr fun k => s.isSome_resolve i _ k
  have hself : s₁.find? ⟨r, .main⟩ ≠ s.find? ⟨r, .main⟩ := by
    intro heq
    have hsettled := waits_resolve h hi r
    rw [← hs₁, beq_self_eq_true, Bool.not_true, Bool.and_false, Store.waits, Store.unresolved,
      heq] at hsettled
    exact Bool.noConfusion (h.symm.trans hsettled)
  have hother : ∀ k : Key, k.fork = .main → k ≠ ⟨r, .main⟩ → s₁.find? k = s.find? k := by
    rintro ⟨r', fork⟩ rfl hne
    rw [hs₁, s.find?_resolve i _ h hi, if_neg]
    rintro rfl
    exact hne rfl
  have hpresent : (⟨r, .main⟩ : Key) ∈ s.keys := by
    obtain ⟨j, hj, -⟩ := (s.unresolved_iff _).1 h
    rw [s.mem_keys, ← s.isSome_known, hj]
    rfl
  have hperm : (changedMains s s').Perm (⟨r, .main⟩ :: changedMains s₁ s') := by
    have hnew : (⟨r, .main⟩ : Key) ∉ changedMains s₁ s' :=
      fun hmem => (mem_changedMains.1 hmem).2.2 hlater
    rw [List.perm_ext_iff_of_nodup (changedMains_nodup s s')
      (List.nodup_cons.2 ⟨hnew, changedMains_nodup s₁ s'⟩)]
    intro k
    rw [List.mem_cons, mem_changedMains, mem_changedMains, hkeys]
    by_cases hk : k = ⟨r, .main⟩
    · subst hk
      exact ⟨fun _ => .inl rfl, fun _ => ⟨hpresent, rfl, hlater ▸ hself⟩⟩
    · constructor
      · rintro ⟨hmem, hmain, hne⟩
        exact .inr ⟨hmem, hmain, hother k hmain hk ▸ hne⟩
      · rintro (rfl | ⟨hmem, hmain, hne⟩)
        · exact absurd rfl hk
        · exact ⟨hmem, hmain, hother k hmain hk ▸ hne⟩
  exact hperm.length_eq

/-- What is counted are the main forks that have changed. -/
theorem resolveAll_fst (s : Store) (xs : List NamedTuple) :
    (resolveAll database tablespace s xs).1 =
      (changedMains s (resolveAll database tablespace s xs).2).length := by
  induction xs generalizing s with
  | nil => simp [resolveAll, changedMains]
  | cons x rest ih =>
    obtain ⟨t, name⟩ := x
    cases hwaits : s.waits (t.relation database tablespace) with
    | false =>
      rw [resolveAll_of_settled hwaits]
      exact ih s
    | true =>
      rw [resolveAll_of_waits hwaits]
      dsimp only
      rw [ih, changedMains_resolve hwaits (identityOf_valid t name)]
      -- the relation does not wait any longer, and the walk goes on without it
      refine Decidable.byContradiction fun hchanged => ?_
      have hwaits' := (find?_resolveAll_ne.1 hchanged).1
      have hsettled := waits_resolve hwaits (identityOf_valid t name)
        (t.relation database tablespace)
      rw [beq_self_eq_true, Bool.not_true, Bool.and_false] at hsettled
      exact Bool.noConfusion (hwaits'.symm.trans hsettled)

/-! ## Pages -/

section Pages

variable {C : Type} [Catalog C]

variable (database tablespace) in
/-- To apply what has been noted is to walk over it. -/
theorem applyAll_eq (ts : List ClassTuple) (l : Ledger) (catalog : C) :
    ∃ journal, applyAll (ts.map fun t => (t.key database tablespace, t)) l catalog =
      let walk := resolveAll database tablespace l.store (named catalog ts)
      (walk.1, { l with store := walk.2, journal }, asked catalog ts) := by
  induction ts generalizing l catalog with
  | nil => exact ⟨l.journal, rfl⟩
  | cons t rest ih =>
    obtain ⟨journal, hname⟩ := schemaName_eq t.schema l catalog
    obtain ⟨journal', hrest⟩ := ih { l with
      store := (l.store.resolve (t.key database tablespace)
        (identityOf t (nameIn catalog t.schema))).2
      journal } (Catalog.schema catalog t.schema).2
    refine ⟨journal', ?_⟩
    simp only [List.map_cons, applyAll, hname, hrest, named, resolveAll, asked, List.foldl_cons]

variable (database tablespace) in
/-- A page is applied when it has been let go. -/
theorem applyPage_eq (tuples : List ClassTuple) (l : Ledger) (catalog : C) :
    ∃ journal,
      applyAll (candidates l.store database tablespace maxCandidates tuples) l catalog =
        let ts := notedOn database tablespace l.store.waits tuples
        let walk := resolveAll database tablespace l.store (named catalog ts)
        (walk.1, { l with store := walk.2, journal }, asked catalog ts) := by
  rw [candidates_eq]
  exact applyAll_eq database tablespace _ l catalog

/-- The walk over all tuples that are noted on the pages of a table. -/
def walk (database tablespace : Oid) (table : List (List ClassTuple)) (s : Store) (catalog : C) :
    Nat × Store :=
  resolveAll database tablespace s
    (named catalog (noted database tablespace s.waits table))

theorem scan_of_readable (pages : ClassPages) (table : List (List ClassTuple)) (page : Nat)
    (hpages : ∀ i (h : i < table.length),
      pages.page database tablespace (page + i) = .ok table[i]) (l : Ledger) (catalog : C) :
    ∃ journal, scan pages database tablespace table.length page l catalog =
      (.ok (walk database tablespace table l.store catalog).1,
        { l with store := (walk database tablespace table l.store catalog).2, journal },
        asked catalog (noted database tablespace l.store.waits table)) := by
  induction table generalizing page l catalog with
  | nil => exact ⟨l.journal, rfl⟩
  | cons tuples rest ih =>
    have hfirst : pages.page database tablespace page = .ok tuples := hpages 0 (Nat.succ_pos _)
    have hrest : ∀ i (h : i < rest.length),
        pages.page database tablespace (page + 1 + i) = .ok rest[i] := by
      intro i hi
      rw [Nat.add_right_comm, Nat.add_assoc]
      exact hpages (i + 1) (Nat.succ_lt_succ hi)
    obtain ⟨journal, hpage⟩ := applyPage_eq database tablespace tuples l catalog
    let ts := notedOn database tablespace l.store.waits tuples
    let s := (resolveAll database tablespace l.store (named catalog ts)).2
    obtain ⟨journal', hscan⟩ := ih (page + 1) hrest { l with store := s, journal }
      (asked catalog ts)
    have hwaits : s.waits = fun r => l.store.waits r && !describes database tablespace ts r := by
      funext r
      rw [waits_resolveAll, map_fst_named]
    refine ⟨journal', ?_⟩
    rw [List.length_cons, scan, hfirst]
    dsimp only
    rw [hpage]
    dsimp only
    rw [hscan]
    simp only [walk, hwaits, noted, named_append, resolveAll_append, asked_append, ts, s]

theorem readable_of_scan {pages : ClassPages} {count page n : Nat} {l l' : Ledger}
    {catalog catalog' : C}
    (h : scan pages database tablespace count page l catalog = (.ok n, l', catalog')) :
    ∃ table : List (List ClassTuple), table.length = count ∧
      ∀ i (h : i < table.length), pages.page database tablespace (page + i) = .ok table[i] := by
  induction count generalizing page n l l' catalog catalog' with
  | zero => exact ⟨[], rfl, fun i h => absurd h (Nat.not_lt_zero i)⟩
  | succ count ih =>
    rw [scan] at h
    cases hpage : pages.page database tablespace page with
    | error e => simp [hpage] at h
    | ok tuples =>
      rw [hpage] at h
      dsimp only at h
      split at h <;> rename_i hscan
      · obtain ⟨table, rfl, hrest⟩ := ih hscan
        refine ⟨tuples :: table, rfl, ?_⟩
        rintro (_ | i) hi
        · exact hpage
        · have := hrest i (Nat.lt_of_succ_lt_succ hi)
          rwa [Nat.add_right_comm, Nat.add_assoc] at this
      · cases h

/-- A page that cannot be read leaves what the pages before it have given. -/
theorem scan_error {pages : ClassPages} {count page : Nat} {l l' : Ledger}
    {catalog catalog' : C} {e : CatalogError}
    (h : scan pages database tablespace count page l catalog = (.error e, l', catalog')) :
    ∃ i < count, pages.page database tablespace (page + i) = .error e ∧
      ∃ n, scan pages database tablespace i page l catalog = (.ok n, l', catalog') := by
  induction count generalizing page l catalog with
  | zero => cases h
  | succ count ih =>
    rw [scan] at h
    cases hpage : pages.page database tablespace page with
    | error e' =>
      rw [hpage] at h
      cases h
      exact ⟨0, Nat.succ_pos count, hpage, 0, rfl⟩
    | ok tuples =>
      rw [hpage] at h
      dsimp only at h
      split at h <;> rename_i hscan
      · cases h
      · cases h
        obtain ⟨i, hi, herror, n, hbefore⟩ := ih hscan
        refine ⟨i + 1, Nat.succ_lt_succ hi, ?_, ?_⟩
        · rwa [Nat.add_right_comm, Nat.add_assoc] at herror
        · rw [scan, hpage]
          dsimp only
          rw [hbefore]
          exact ⟨_, rfl⟩

theorem scan_upTo (pages : ClassPages) (i count page : Nat) (l : Ledger) (catalog : C) :
    scan (pages.upTo i) database tablespace count page l catalog =
      scan pages database tablespace count page l catalog := by
  induction count generalizing page l catalog with
  | zero => rfl
  | succ count ih =>
    rw [scan, scan]
    simp only [ih]
    rfl

/-! ## The whole database -/

/-- The store `s'` is the store `s` after the entries of a database have been given the identities
that its class table has for them, `n` of them to main forks. -/
structure Resolved (database tablespace : Oid) (table : List (List ClassTuple)) (catalog : C)
    (n : Nat) (s s' : Store) : Prop where
  bucket : s'.bucket = s.bucket
  /-- No entry is created. -/
  absent : ∀ k, s.find? k = none → s'.find? k = none
  /-- Of an entry nothing changes but its identity, which becomes known, and only in the
  database. -/
  entry : ∀ k e, s.find? k = some e → ∃ i, s'.find? k = some { e with identity := i } ∧
    (i ≠ e.identity →
      k.locator.database = database ∧ e.identity.valid = false ∧ i.valid = true)
  count : n = (changedMains s s').length
  /-- Relations on pages with room for all of their tuples are known. -/
  covered : ∀ tuples ∈ table, Roomy tuples → ∀ t ∈ tuples, t.trackable = true →
    ∀ i, s'.known (t.key database tablespace) = some i → i.valid = true
  /-- If the main fork of a relation has become known, it is the first tuple noted for it, one of
  those in the table that name it, that has been told to this fork, and to all others that waited.
  It is the first one of the table, if all pages have room. -/
  first : ∀ r, s.waits r = true → s'.waits r = false →
    ∃ t name, first? database tablespace r
        (named catalog (noted database tablespace s.waits table)) = some (t, name) ∧
      (t ∈ table.flatten ∧ t.trackable = true ∧ t.relation database tablespace = r) ∧
      ((∀ tuples ∈ table, Roomy tuples) → table.flatten.find? (fun t =>
        t.trackable && t.relation database tablespace == r) = some t) ∧
      ∀ fork, s.unresolved ⟨r, fork⟩ = true → s'.known ⟨r, fork⟩ = some (identityOf t name)
  /-- Forks become known with the main forks of their relations only. -/
  together : ∀ k, s'.find? k ≠ s.find? k → s.waits k.locator = true ∧ s'.waits k.locator = false

section Walk

variable {table : List (List ClassTuple)} {catalog : C}

theorem waits_walk (r : Locator) :
    (walk database tablespace table s catalog).2.waits r =
      (s.waits r &&
        !describes database tablespace (noted database tablespace s.waits table) r) := by
  rw [walk, waits_resolveAll, map_fst_named]

variable (database tablespace s table catalog) in
theorem isSome_found?_noted (r : Locator) :
    (found? database tablespace s.waits r
        (named catalog (noted database tablespace s.waits table))).isSome =
      (s.waits r && describes database tablespace (noted database tablespace s.waits table) r) := by
  rw [isSome_found?, map_fst_named]

/-- Entries of the database may become known. -/
theorem fill_found?_noted {e : Entry}
    (h : e.identity.fill (found? database tablespace s.waits r
      (named catalog (noted database tablespace s.waits table))) ≠ e.identity) :
    r.database = database ∧ e.identity.valid = false ∧
      (e.identity.fill (found? database tablespace s.waits r
        (named catalog (noted database tablespace s.waits table)))).valid = true := by
  cases hvalid : e.identity.valid with
  | true => exact absurd (Identity.fill_of_valid hvalid _) h
  | false =>
    cases hi : found? database tablespace s.waits r
        (named catalog (noted database tablespace s.waits table)) with
    | none =>
      rw [hi, Identity.fill_none] at h
      exact absurd rfl h
    | some i =>
      have hsome := isSome_found?_noted database tablespace s table catalog r
      rw [hi, Option.isSome_some, eq_comm, Bool.and_eq_true_iff, describes_iff] at hsome
      obtain ⟨-, t, -, hrelation⟩ := hsome
      rw [Identity.fill_of_unknown hvalid]
      exact ⟨hrelation ▸ rfl, rfl, found?_valid hi⟩

/-- A relation on a page with room for all of its tuples does not wait any longer. -/
theorem settled_of_roomy {tuples : List ClassTuple} (hpage : tuples ∈ table)
    (hroomy : Roomy tuples) (ht : t ∈ tuples) (htrackable : t.trackable = true) :
    (walk database tablespace table s catalog).2.waits (t.relation database tablespace) =
      false := by
  rw [waits_walk]
  cases hs : s.waits (t.relation database tablespace) with
  | false => rfl
  | true =>
    have heligible : eligible database tablespace s.waits t = true :=
      eligible_iff.2 ⟨htrackable, hs⟩
    rw [describes_noted hpage hroomy ht heligible]
    rfl

/-- The first tuple that is noted for a relation is one of the table, and the first one if nothing
is left out on any page. -/
theorem first?_noted {name : String} (hs : s.waits r = true)
    (h : first? database tablespace r
      (named catalog (noted database tablespace s.waits table)) = some (t, name)) :
    (t ∈ table.flatten ∧ t.trackable = true ∧ t.relation database tablespace = r) ∧
      ((∀ tuples ∈ table, Roomy tuples) → table.flatten.find? (fun t =>
        t.trackable && t.relation database tablespace == r) = some t) := by
  have hnoted : t ∈ noted database tablespace s.waits table := by
    rw [← map_fst_named catalog (noted ..)]
    exact List.mem_map_of_mem (List.mem_of_find?_eq_some h)
  have hdescribes : (t.relation database tablespace == r) = true := List.find?_some
    (p := fun x : NamedTuple => x.1.relation database tablespace == r) h
  refine ⟨⟨noted_sublist.subset hnoted, ?_, beq_iff_eq.1 hdescribes⟩, fun hroomy => ?_⟩
  · exact (eligible_iff.1 (eligible_of_mem_noted hnoted)).1
  · rw [← find?_noted hroomy hs, ← map_fst_named catalog (noted ..), ← first?_map_fst, h]
    rfl

variable (database tablespace s table catalog) in
theorem walk_resolved :
    Resolved database tablespace table catalog (walk database tablespace table s catalog).1 s
      (walk database tablespace table s catalog).2 := by
  constructor
  case bucket => exact bucket_resolveAll s _
  case count => exact resolveAll_fst s _
  case absent =>
    intro k hk
    rw [walk, find?_resolveAll, hk, Option.map_none]
  case entry =>
    intro k e he
    exact ⟨_, by rw [walk, find?_resolveAll, he, Option.map_some]; rfl, fill_found?_noted⟩
  case covered =>
    intro tuples hpage hroomy t ht htrackable i hi
    have hsettled : (walk database tablespace table s catalog).2.waits
        (t.relation database tablespace) = false :=
      settled_of_roomy hpage hroomy ht htrackable
    by_contra hunknown
    have hunresolved := (Store.unresolved_iff _ _).2 ⟨i, hi, Bool.eq_false_iff.2 hunknown⟩
    exact Bool.noConfusion (hunresolved.symm.trans hsettled)
  case first =>
    intro r hs hs'
    rw [waits_walk, hs, Bool.true_and, Bool.not_eq_false'] at hs'
    have hsome : (first? database tablespace r
        (named catalog (noted database tablespace s.waits table))).isSome = true := by
      rw [isSome_first?, map_fst_named, hs']
    obtain ⟨⟨t, name⟩, hfirst⟩ := Option.isSome_iff_exists.1 hsome
    obtain ⟨htable, hroomy⟩ := first?_noted hs hfirst
    refine ⟨t, name, hfirst, htable, hroomy, fun fork hunresolved => ?_⟩
    obtain ⟨j, hj, hunknown⟩ := (s.unresolved_iff _).1 hunresolved
    rw [walk, known_resolveAll, hj, found?, if_pos hs, hfirst]
    exact congrArg some (Identity.fill_of_unknown hunknown _)
  case together =>
    intro k hchanged
    have hsome := (find?_resolveAll_ne.1 hchanged).2
    rw [isSome_found?_noted, Bool.and_eq_true_iff] at hsome
    rw [waits_walk, hsome.1, hsome.2]
    exact ⟨rfl, rfl⟩

end Walk

theorem resolveDatabase_of_count {pages : ClassPages} {count : Nat}
    (h : pages.pageCount database tablespace = .ok count) (l : Ledger) (catalog : C) :
    resolveDatabase pages database tablespace l catalog =
      match scan pages database tablespace count 0 l catalog with
      | (.ok n, l', catalog') =>
        (.ok n, if count = 0 then l' else l'.report (.databaseScanned database count n), catalog')
      | (.error e, l', catalog') => (.error e, l', catalog') := by
  rw [resolveDatabase, h]
  cases count <;> rfl

/-- Bulk resolution is exact.  If the class table can be read, all that happens in the store is that
the relations that are noted become known.  If it cannot be read beyond some page, the store is what
the pages before that one make of it. -/
theorem resolveDatabase_exact (pages : ClassPages) (database tablespace : Oid) (l : Ledger)
    (catalog : C) :
    match resolveDatabase pages database tablespace l catalog with
    | (.ok n, l', _) =>
      ∃ table, pages.Reads database tablespace table ∧
        Resolved database tablespace table catalog n l.store l'.store ∧
        ∃ journal, l' = { l with store := l'.store, journal }
    | (.error e, l', catalog') =>
      (pages.pageCount database tablespace = .error e ∧ l' = l ∧ catalog' = catalog) ∨
        ∃ count i, pages.pageCount database tablespace = .ok count ∧ i < count ∧
          pages.page database tablespace i = .error e ∧
          ∃ n journal, resolveDatabase (pages.upTo i) database tablespace l catalog =
            (.ok n, { l' with journal }, catalog') := by
  cases hcount : pages.pageCount database tablespace with
  | error e =>
    rw [resolveDatabase, hcount]
    exact .inl ⟨rfl, rfl, rfl⟩
  | ok count =>
    rw [resolveDatabase_of_count hcount]
    rcases hscan : scan pages database tablespace count 0 l catalog with ⟨e | n, l', catalog'⟩
    · obtain ⟨i, hi, herror, n, hbefore⟩ := scan_error hscan
      rw [Nat.zero_add] at herror
      refine .inr ⟨count, i, rfl, hi, herror, n, ?_⟩
      have hcount : (pages.upTo i).pageCount database tablespace = .ok i := rfl
      rw [resolveDatabase_of_count hcount, scan_upTo, hbefore]
      dsimp only
      split
      · exact ⟨l'.journal, rfl⟩
      · exact ⟨_, rfl⟩
    · obtain ⟨table, rfl, htable⟩ := readable_of_scan hscan
      obtain ⟨journal, hwalk⟩ := scan_of_readable pages table 0 htable l catalog
      rw [hscan] at hwalk
      cases hwalk
      have hreads : pages.Reads database tablespace table :=
        ⟨hcount, fun i h => by rw [← htable i h, Nat.zero_add]⟩
      have hresolved := walk_resolved database tablespace l.store table catalog
      dsimp only
      split
      · exact ⟨table, hreads, hresolved, journal, rfl⟩
      · exact ⟨table, hreads, hresolved, _, rfl⟩

end Pages

end Bulk

end BlockLedger
