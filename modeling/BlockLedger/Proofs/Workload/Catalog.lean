import BlockLedger.Workload.Plan

/-
# What the catalog of the workload knows

The catalog is filled with one number after the other, and a number that is listed again is what it
was listed as last.  The scratch tables come after the shared ones, and each of them has two numbers,
the second one at a fixed distance from the first.  So the numbers are told apart only up to some
size of the workload.  The shared tables reach the first scratch table after 13600 of them, and the
second number of a scratch table is the first one of the backend 1000 places further on, if there is
one.
-/

namespace BlockLedger

namespace Plan

/-- All numbers of shared and scratch tables are numbers of 32 bits. -/
def Fits (p : Plan) : Prop :=
  firstTable.toNat + p.tables.toNat ≤ 2 ^ 32 ∧
    firstScratch.toNat + relocationOffset.toNat + p.backends.toNat ≤ 2 ^ 32

instance (p : Plan) : Decidable p.Fits := inferInstanceAs (Decidable (_ ∧ _))

/-! ## Rows by their numbers -/

/-- The row of a shared table. -/
def tableRow (i : UInt32) : CatalogRow := row (firstTable + i) ("table_" ++ toString i) publicSchema

/-- The row of a scratch table. -/
def scratchRow (b : UInt32) : CatalogRow :=
  row (firstScratch + b) ("backend_" ++ toString b) scratchSchema

/-- The row that `n` rows in a row, the first of them for the number `first`, have for a number. -/
def rowAmong (first : Oid) (n : Nat) (r : UInt32 → CatalogRow) (number : Oid) :
    Option CatalogRow :=
  if first.toNat ≤ number.toNat ∧ number.toNat < first.toNat + n then
    some (r (UInt32.ofNat (number.toNat - first.toNat)))
  else none

/-- The row that is listed last under a number. -/
def listed (p : Plan) (number : Oid) : Option CatalogRow :=
  (rowAmong firstScratch p.backends.toNat scratchRow number).or
    ((rowAmong (firstScratch + relocationOffset) p.backends.toNat scratchRow number).or
      (rowAmong firstTable p.tables.toNat tableRow number))

theorem addTable_eq (c : ListedCatalog) (i : UInt32) :
    addTable c i = c.addRelation 0 (firstTable + i) (tableRow i) := rfl

theorem addScratch_eq (c : ListedCatalog) (b : UInt32) :
    addScratch c b =
      (c.addRelation 0 (firstScratch + b) (scratchRow b)).addRelation 0
        (firstScratch + relocationOffset + b) (scratchRow b) := by
  have hcomm : firstScratch + b + relocationOffset = firstScratch + relocationOffset + b := by
    ac_rfl
  rw [← hcomm]
  rfl

theorem toNat_add_ofNat {first : Oid} {n : Nat} (h : first.toNat + n < 2 ^ 32) :
    (first + UInt32.ofNat n).toNat = first.toNat + n := by
  rw [UInt32.toNat_add, UInt32.toNat_ofNat']
  omega

theorem toNat_secondScratch :
    (firstScratch + relocationOffset).toNat = firstScratch.toNat + relocationOffset.toNat := by
  decide

theorem add_ofNat_eq_iff {first number : Oid} {n : Nat} (h : first.toNat + n < 2 ^ 32) :
    first + UInt32.ofNat n = number ↔ number.toNat = first.toNat + n := by
  rw [← UInt32.toNat_inj, toNat_add_ofNat h, eq_comm]

theorem rowAmong_of_mem {first number : Oid} {n : Nat} (h : first.toNat ≤ number.toNat)
    (hlast : number.toNat < first.toNat + n) (r : UInt32 → CatalogRow) :
    rowAmong first n r number = some (r (UInt32.ofNat (number.toNat - first.toNat))) :=
  if_pos ⟨h, hlast⟩

theorem rowAmong_of_le {first number : Oid} {n : Nat} (h : first.toNat + n ≤ number.toNat)
    (r : UInt32 → CatalogRow) : rowAmong first n r number = none :=
  if_neg (by omega)

theorem rowAmong_zero (first : Oid) (r : UInt32 → CatalogRow) (number : Oid) :
    rowAmong first 0 r number = none := if_neg (by omega)

/-- One more row is the one for the number after the last. -/
theorem rowAmong_succ {first : Oid} {n : Nat} (h : first.toNat + n < 2 ^ 32)
    (r : UInt32 → CatalogRow) (number : Oid) :
    rowAmong first (n + 1) r number =
      if first + UInt32.ofNat n = number then some (r (UInt32.ofNat n))
      else rowAmong first n r number := by
  simp only [rowAmong, add_ofNat_eq_iff h]
  by_cases hlast : number.toNat = first.toNat + n
  · rw [if_pos hlast, if_pos (by omega), hlast, Nat.add_sub_cancel_left]
  · have hbefore : first.toNat ≤ number.toNat ∧ number.toNat < first.toNat + (n + 1) ↔
        first.toNat ≤ number.toNat ∧ number.toNat < first.toNat + n := by omega
    simp only [if_neg hlast, hbefore]

/-! ## The catalog as it is filled -/

section Filling

variable (c : ListedCatalog) (number : Oid)

theorem getElem?_addRelation (n : Oid) (r : CatalogRow) :
    (c.addRelation 0 n r).relations[((0 : Oid), number)]? =
      if n = number then some r else c.relations[((0 : Oid), number)]? := by
  simp [ListedCatalog.addRelation, Std.HashMap.getElem?_insert]

theorem getElem?_addTables {n : Nat} (h : firstTable.toNat + n ≤ 2 ^ 32) :
    (((List.range n).map UInt32.ofNat).foldl addTable c).relations[((0 : Oid), number)]? =
      (rowAmong firstTable n tableRow number).or c.relations[((0 : Oid), number)]? := by
  induction n with
  | zero =>
    rw [rowAmong_zero]
    rfl
  | succ n ih =>
    rw [List.range_succ, List.map_append, List.foldl_append, List.map_singleton,
      List.foldl_cons, List.foldl_nil, addTable_eq, getElem?_addRelation, ih (by omega),
      rowAmong_succ (by omega)]
    split <;> rfl

/-- Where the two numbers of scratch tables meet, the one listed last is a first number. -/
theorem getElem?_addScratches {n : Nat}
    (h : firstScratch.toNat + relocationOffset.toNat + n ≤ 2 ^ 32) :
    (((List.range n).map UInt32.ofNat).foldl addScratch c).relations[((0 : Oid), number)]? =
      (rowAmong firstScratch n scratchRow number).or
        ((rowAmong (firstScratch + relocationOffset) n scratchRow number).or
          c.relations[((0 : Oid), number)]?) := by
  induction n with
  | zero =>
    rw [rowAmong_zero, rowAmong_zero]
    rfl
  | succ n ih =>
    have hfirst : firstScratch.toNat + n < 2 ^ 32 := by omega
    have hsecond : (firstScratch + relocationOffset).toNat + n < 2 ^ 32 := by
      rw [toNat_secondScratch]
      omega
    rw [List.range_succ, List.map_append, List.foldl_append, List.map_singleton,
      List.foldl_cons, List.foldl_nil, addScratch_eq, getElem?_addRelation, getElem?_addRelation,
      ih (by omega), rowAmong_succ hfirst, rowAmong_succ hsecond]
    by_cases hlast : firstScratch + relocationOffset + UInt32.ofNat n = number
    · -- the second number of the last backend is beyond all first numbers
      have hnumber := (add_ofNat_eq_iff hsecond).1 hlast
      have hbeyond : firstScratch.toNat + n < number.toNat := by
        rw [hnumber, toNat_secondScratch]
        have hoffset : 0 < relocationOffset.toNat := by decide
        omega
      have hne : firstScratch + UInt32.ofNat n ≠ number := fun heq => by
        rw [add_ofNat_eq_iff hfirst] at heq
        omega
      rw [if_pos hlast, if_neg hne, rowAmong_of_le (Nat.le_of_lt hbeyond), if_pos hlast]
      rfl
    · rw [if_neg hlast, if_neg hlast]
      split <;> rfl

theorem schemas_foldl (is : List UInt32) :
    (is.foldl addTable c).schemas = c.schemas ∧ (is.foldl addScratch c).schemas = c.schemas := by
  induction is generalizing c with
  | nil => exact ⟨rfl, rfl⟩
  | cons i is ih => exact ⟨(ih (addTable c i)).1, (ih (addScratch c i)).2⟩

theorem failing_foldl (is : List UInt32) :
    (is.foldl addTable c).failing = c.failing ∧ (is.foldl addScratch c).failing = c.failing := by
  induction is generalizing c with
  | nil => exact ⟨rfl, rfl⟩
  | cons i is ih => exact ⟨(ih (addTable c i)).1, (ih (addScratch c i)).2⟩

end Filling

variable {p : Plan}

theorem getElem?_catalog (h : p.Fits) (number : Oid) :
    p.catalog.relations[((0 : Oid), number)]? = p.listed number := by
  simp only [catalog, below]
  rw [getElem?_addScratches _ _ h.2, getElem?_addTables _ _ h.1]
  simp [listed, ListedCatalog.addSchema, ListedCatalog.empty]

theorem schemas_catalog (p : Plan) :
    p.catalog.schemas[publicSchema]? = some "public" ∧
      p.catalog.schemas[scratchSchema]? = some "scratch" := by
  simp only [catalog, schemas_foldl]
  constructor <;>
    simp only [ListedCatalog.addSchema, ListedCatalog.empty, Std.HashMap.getElem?_insert] <;> decide

theorem failing_catalog (p : Plan) : p.catalog.failing = false := by
  simp only [catalog, failing_foldl]
  rfl

/-! ## Numbers and what they are listed as -/

theorem toNat_add {first i : Oid} (h : first.toNat + i.toNat < 2 ^ 32) :
    (first + i).toNat = first.toNat + i.toNat := by
  have hsum := toNat_add_ofNat h
  rwa [UInt32.ofNat_toNat] at hsum

theorem rowAmong_add {first i : Oid} {n : Nat} (hfits : first.toNat + n ≤ 2 ^ 32)
    (hi : i.toNat < n) (r : UInt32 → CatalogRow) : rowAmong first n r (first + i) = some (r i) := by
  have hnumber : (first + i).toNat = first.toNat + i.toNat := toNat_add (by omega)
  rw [rowAmong_of_mem (by omega) (by omega), hnumber, Nat.add_sub_cancel_left, UInt32.ofNat_toNat]

/-- No row is there for a number that is none of those in a row. -/
theorem rowAmong_eq_none {first number n : Oid} (hfits : first.toNat + n.toNat ≤ 2 ^ 32)
    (h : ∀ i < n, number ≠ first + i) (r : UInt32 → CatalogRow) :
    rowAmong first n.toNat r number = none := by
  refine if_neg fun hmem => ?_
  have hi : (UInt32.ofNat (number.toNat - first.toNat)).toNat = number.toNat - first.toNat := by
    rw [UInt32.toNat_ofNat']
    have := number.toNat_lt
    omega
  refine h (UInt32.ofNat (number.toNat - first.toNat)) (UInt32.lt_iff_toNat_lt.2 (by omega)) ?_
  rw [eq_comm, add_ofNat_eq_iff (by omega)]
  omega

section Listed

variable {b i : UInt32}

theorem listed_firstNumber (h : p.Fits) (hb : b < p.backends) :
    p.listed (firstScratch + b) = some (scratchRow b) := by
  have hbound : b.toNat < p.backends.toNat := hb
  have hfits := h.2
  rw [listed, rowAmong_add (by omega) hbound, Option.some_or]

/-- The second number of a scratch table is listed as that, unless it is the first one of another
backend. -/
theorem listed_secondNumber (h : p.Fits) (hb : b < p.backends) :
    p.listed (firstScratch + b + relocationOffset) =
      if b.toNat + relocationOffset.toNat < p.backends.toNat then
        some (scratchRow (b + relocationOffset))
      else some (scratchRow b) := by
  have hbound : b.toNat < p.backends.toNat := hb
  have hfits := h.2
  have hoffset : (b + relocationOffset).toNat = b.toNat + relocationOffset.toNat := by
    rw [UInt32.add_comm, toNat_add (by omega), Nat.add_comm]
  split
  · rename_i hmeet
    rw [UInt32.add_assoc, listed, rowAmong_add (by omega) (by omega), Option.some_or]
  · rename_i hmiss
    have hnone : rowAmong firstScratch p.backends.toNat scratchRow
        (firstScratch + b + relocationOffset) = none := by
      rw [UInt32.add_assoc]
      exact rowAmong_of_le (by rw [toNat_add (by omega)]; omega) _
    have hcomm : firstScratch + b + relocationOffset = firstScratch + relocationOffset + b := by
      ac_rfl
    rw [listed, hnone, Option.none_or, hcomm,
      rowAmong_add (by rw [toNat_secondScratch]; omega) hbound, Option.some_or]

/-- Whether a number is one of a scratch table. -/
def Scratch (p : Plan) (number : Oid) : Prop :=
  ∃ b < p.backends, number = firstScratch + b ∨ number = firstScratch + b + relocationOffset

/-- The numbers of scratch tables begin where they are said to. -/
theorem not_scratch_of_lt (h : p.Fits) {number : Oid} (hlt : number.toNat < firstScratch.toNat) :
    ¬p.Scratch number := by
  have hfits := h.2
  rintro ⟨b, hb, rfl | rfl⟩
  · have hbound : b.toNat < p.backends.toNat := hb
    rw [toNat_add (by omega)] at hlt
    omega
  · have hbound : b.toNat < p.backends.toNat := hb
    have hfirst : (firstScratch + b).toNat = firstScratch.toNat + b.toNat := toNat_add (by omega)
    rw [toNat_add (by omega), hfirst] at hlt
    omega

theorem listed_table (h : p.Fits) (hi : i < p.tables) (hfree : ¬p.Scratch (firstTable + i)) :
    p.listed (firstTable + i) = some (tableRow i) := by
  have hbound : i.toNat < p.tables.toNat := hi
  have hfirst : rowAmong firstScratch p.backends.toNat scratchRow (firstTable + i) = none := by
    refine rowAmong_eq_none ?_ (fun b hb heq => hfree ⟨b, hb, .inl heq⟩) _
    have hfits := h.2
    omega
  have hsecond : rowAmong (firstScratch + relocationOffset) p.backends.toNat scratchRow
      (firstTable + i) = none := by
    refine rowAmong_eq_none ?_ (fun b hb heq => hfree ⟨b, hb, .inr ?_⟩) _
    · rw [toNat_secondScratch]
      exact h.2
    · rw [heq]
      ac_rfl
  rw [listed, hfirst, hsecond, Option.none_or, Option.none_or, rowAmong_add h.1 hbound]

/-- A number of a scratch table is listed as that of some backend. -/
theorem listed_scratch (h : p.Fits) {number : Oid} (hscratch : p.Scratch number) :
    ∃ b, p.listed number = some (scratchRow b) := by
  obtain ⟨b, hb, rfl | rfl⟩ := hscratch
  · exact ⟨b, listed_firstNumber h hb⟩
  · rw [listed_secondNumber h hb]
    split
    · exact ⟨_, rfl⟩
    · exact ⟨_, rfl⟩

end Listed

/-! ## Identities -/

/-- The catalog knows a number in the default tablespace as one of a relation. -/
def Identifies (p : Plan) (number oid : Oid) (name schema : String) : Prop :=
  ∃ i, (Catalog.relation p.catalog 0 number).1 = .ok (some i) ∧
    i.oid = oid ∧ i.name = name ∧ i.schema = schema

/-- A number is known as one of the scratch table of a backend. -/
def IdentifiesScratch (p : Plan) (b number : Oid) : Prop :=
  p.Identifies number (firstScratch + b) ("backend_" ++ toString b) "scratch"

/-- The number of a shared table is known as that. -/
def IdentifiesTable (p : Plan) (i : UInt32) : Prop :=
  p.Identifies (firstTable + i) (firstTable + i) ("table_" ++ toString i) "public"

theorem relation_catalog (h : p.Fits) (number : Oid) :
    (Catalog.relation p.catalog 0 number).1 =
      .ok ((p.listed number).map p.catalog.identityOf) := by
  simp only [Catalog.relation, failing_catalog, getElem?_catalog h]
  rfl

theorem identifies_iff (h : p.Fits) {number : Oid} {r : CatalogRow}
    (hlisted : p.listed number = some r) (oid : Oid) (name schema : String) :
    p.Identifies number oid name schema ↔
      r.oid = oid ∧ r.name = name ∧ p.catalog.schemas.getD r.schema "" = schema := by
  have hrelation : (Catalog.relation p.catalog 0 number).1 =
      .ok (some (p.catalog.identityOf r)) := by
    rw [relation_catalog h, hlisted, Option.map_some]
  constructor
  · rintro ⟨i, hi, hidentity⟩
    rw [hrelation] at hi
    obtain rfl := Option.some.inj (Except.ok.inj hi)
    exact hidentity
  · exact fun hidentity => ⟨_, hrelation, hidentity⟩

/-- What is listed as one backend's is known as that backend's, and as nobody else's. -/
theorem identifiesScratch_iff (h : p.Fits) {number b c : Oid}
    (hlisted : p.listed number = some (scratchRow b)) : p.IdentifiesScratch c number ↔ b = c := by
  have hschema : p.catalog.schemas.getD scratchSchema "" = "scratch" := by
    rw [Std.HashMap.getD_eq_getD_getElem?, (schemas_catalog p).2, Option.getD_some]
  rw [IdentifiesScratch, identifies_iff h hlisted]
  constructor
  · exact fun hidentity => (UInt32.add_right_inj _).mp hidentity.1
  · rintro rfl
    exact ⟨rfl, rfl, hschema⟩

/-- A shared table is known as that unless its number is one of a scratch table. -/
theorem identifiesTable_iff (h : p.Fits) {i : UInt32} (hi : i < p.tables) :
    p.IdentifiesTable i ↔ ¬p.Scratch (firstTable + i) := by
  obtain ⟨hpublic, hscratch⟩ := schemas_catalog p
  constructor
  · intro hidentifies hmeet
    obtain ⟨b, hb⟩ := listed_scratch h hmeet
    have hschema := ((identifies_iff h hb _ _ _).1 hidentifies).2.2
    rw [scratchRow, row, Std.HashMap.getD_eq_getD_getElem?, hscratch, Option.getD_some] at hschema
    exact absurd hschema (by decide)
  · intro hfree
    refine (identifies_iff h (listed_table h hi hfree) _ _ _).2 ⟨rfl, rfl, ?_⟩
    rw [tableRow, row, Std.HashMap.getD_eq_getD_getElem?, hpublic, Option.getD_some]

theorem identifiesScratch_firstNumber (h : p.Fits) {b : UInt32} (hb : b < p.backends) :
    p.IdentifiesScratch b (firstScratch + b) :=
  (identifiesScratch_iff h (listed_firstNumber h hb)).2 rfl

theorem identifiesScratch_secondNumber_iff (h : p.Fits) {b : UInt32} (hb : b < p.backends) :
    p.IdentifiesScratch b (firstScratch + b + relocationOffset) ↔
      p.backends.toNat ≤ b.toNat + relocationOffset.toNat := by
  have hlisted := listed_secondNumber h hb
  split at hlisted
  · rename_i hmeet
    rw [identifiesScratch_iff h hlisted]
    have hne : b + relocationOffset ≠ b := by
      rw [ne_eq, UInt32.add_eq_left]
      decide
    exact iff_of_false hne (Nat.not_le.2 hmeet)
  · rename_i hmiss
    rw [identifiesScratch_iff h hlisted]
    exact iff_of_true rfl (Nat.le_of_not_lt hmiss)

/-- The first number of every scratch table is known, the second one unless it is the first one of
another backend, and a shared table unless its number is one of a scratch table.  So the catalog
knows the whole workload just if there are at most 13600 tables and 1000 backends. -/
theorem identifies_workload_iff (p : Plan) (hbackends : 1 ≤ p.backends) (h : p.Fits) :
    (∀ b < p.backends, p.IdentifiesScratch b (firstScratch + b) ∧
      (p.IdentifiesScratch b (firstScratch + b + relocationOffset) ↔
        p.backends.toNat ≤ b.toNat + relocationOffset.toNat)) ∧
    (∀ i < p.tables, p.IdentifiesTable i ↔ ¬p.Scratch (firstTable + i)) ∧
    ((∀ b < p.backends, p.IdentifiesScratch b (firstScratch + b) ∧
        p.IdentifiesScratch b (firstScratch + b + relocationOffset)) ∧
      (∀ i < p.tables, p.IdentifiesTable i) ↔ p.tables ≤ 13600 ∧ p.backends ≤ 1000) := by
  refine ⟨fun b hb => ⟨identifiesScratch_firstNumber h hb, identifiesScratch_secondNumber_iff h hb⟩,
    fun i hi => identifiesTable_iff h hi, ?_⟩
  have hzero : (0 : UInt32) < p.backends := UInt32.lt_iff_toNat_lt.2 hbackends
  constructor
  · rintro ⟨hscratch, htable⟩
    constructor
    · -- otherwise table 13600 has the number of the first scratch table
      refine UInt32.not_lt.1 fun hmore => ?_
      have hfree := (identifiesTable_iff h hmore).1 (htable 13600 hmore)
      exact hfree ⟨0, hzero, .inl rfl⟩
    · have hsecond := (identifiesScratch_secondNumber_iff h hzero).1 (hscratch 0 hzero).2
      exact UInt32.le_iff_toNat_le.2 hsecond
  · rintro ⟨hfew, hapart⟩
    have hfew : p.tables.toNat ≤ 13600 := hfew
    have hapart : p.backends.toNat ≤ 1000 := hapart
    refine ⟨fun b hb => ⟨identifiesScratch_firstNumber h hb,
      (identifiesScratch_secondNumber_iff h hb).2 (Nat.le_trans hapart (Nat.le_add_left ..))⟩,
      fun i hi => (identifiesTable_iff h hi).2 ?_⟩
    have hi : i.toNat < p.tables.toNat := hi
    have hfits := h.1
    refine not_scratch_of_lt h ?_
    rw [toNat_add (by omega)]
    have hroom : firstTable.toNat + 13600 = firstScratch.toNat := by decide
    omega

/-- In the greatest workload that is known as a whole, so is the last scratch table. -/
theorem identifies_workload_at_most :
    let p : Plan := { backends := 1000, tables := 13600 }
    1 ≤ p.backends ∧ p.Fits ∧ p.IdentifiesScratch 999 31999 ∧ p.IdentifiesTable 13599 := by
  intro p
  have hbackends : 1 ≤ p.backends := by decide
  have hfits : p.Fits := by decide
  obtain ⟨-, -, hall⟩ := identifies_workload_iff p hbackends hfits
  obtain ⟨hscratch, htable⟩ := hall.2 (by decide)
  exact ⟨hbackends, hfits, (hscratch 999 (by decide)).2, htable 13599 (by decide)⟩

/-- With one backend more, the second number of the first scratch table is known as the first one of
the last. -/
theorem mistakes_second_number :
    let p : Plan := { backends := 1001, tables := 1 }
    1 ≤ p.backends ∧ 1 ≤ p.tables ∧ p.Fits ∧
      ¬p.IdentifiesScratch 0 (firstScratch + 0 + relocationOffset) ∧
      p.IdentifiesScratch 1000 (firstScratch + 0 + relocationOffset) := by
  intro p
  have hfits : p.Fits := by decide
  have hsecond : ¬p.IdentifiesScratch 0 (firstScratch + 0 + relocationOffset) := by
    rw [identifiesScratch_secondNumber_iff hfits (by decide)]
    decide
  exact ⟨by decide, by decide, hfits, hsecond, identifiesScratch_firstNumber hfits (by decide)⟩

end Plan

end BlockLedger
