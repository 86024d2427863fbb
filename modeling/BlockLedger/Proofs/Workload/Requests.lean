import BlockLedger.Proofs.Workload.Statement
import BlockLedger.Workload

/-
# No statement asks for what is not there

A client draws what it asks for, and takes each range from what it knows of the length of the fork.
For a shared table that is the length that all of them have.  The lengths of its own two relations
it changes itself: the scratch table is built anew under its other number, and the temporary table
grows block by block and is emptied when it is full.  After every statement the scratch table is
again as long as the ranges drawn in it suppose, and the temporary table as long as is noted, so no
later statement can fail.
-/

namespace BlockLedger

namespace Client

/-! ## What is a client's own -/

/-- The two numbers that the scratch table of a client alternates between. -/
def scratchNumbers (id : UInt32) : List Oid :=
  [Plan.firstScratch + id, Plan.firstScratch + id + Plan.relocationOffset]

/-- The scratch table of a client under one of its numbers. -/
def scratchAt (number : Oid) : Relation := { locator := Plan.locator number }

/-- The temporary table of a client. -/
def temporaryOf (id : UInt32) : Relation :=
  { locator := Plan.locator (Plan.firstTemporary + id), temporary := true }

/-- The locator is one of those that a client has to itself. -/
def Owns (id : UInt32) (l : Locator) : Prop :=
  ∃ number ∈ (Plan.firstTemporary + id) :: scratchNumbers id, l = Plan.locator number

instance (id : UInt32) (l : Locator) : Decidable (Owns id l) :=
  inferInstanceAs (Decidable (∃ number ∈ _, _))

theorem owns_scratchAt {id : UInt32} {number : Oid} (h : number ∈ scratchNumbers id) :
    Owns id (scratchAt number).locator :=
  ⟨number, List.mem_cons_of_mem _ h, rfl⟩

theorem owns_temporaryOf (id : UInt32) : Owns id (temporaryOf id).locator :=
  ⟨_, List.mem_cons_self, rfl⟩

theorem main_scratchAt_inj {m n : Oid} : (scratchAt m).main = (scratchAt n).main ↔ m = n := by
  simp [scratchAt, Relation.main, Plan.locator]

theorem firstTemporary_add_notMem (id : UInt32) :
    Plan.firstTemporary + id ∉ scratchNumbers id := by
  intro hmem
  have hsecond : Plan.firstScratch + id + Plan.relocationOffset =
      Plan.firstScratch + Plan.relocationOffset + id := by
    rw [UInt32.add_assoc, UInt32.add_comm id, ← UInt32.add_assoc]
  rw [scratchNumbers, hsecond, List.mem_pair, UInt32.add_left_inj, UInt32.add_left_inj] at hmem
  exact absurd hmem (by decide)

theorem main_temporaryOf_ne {id : UInt32} {number : Oid} (h : number ∈ scratchNumbers id) :
    (temporaryOf id).main ≠ (scratchAt number).main := by
  intro heq
  have hnumber : Plan.firstTemporary + id = number := main_scratchAt_inj.1 heq
  exact firstTemporary_add_notMem id (hnumber ▸ h)

/-- Of the two numbers of a scratch table the other one is taken. -/
theorem otherNumber_cases (id : UInt32) (number : Oid) :
    number = Plan.firstScratch + id ∧
        otherNumber id number = Plan.firstScratch + id + Plan.relocationOffset ∨
      number ≠ Plan.firstScratch + id ∧ otherNumber id number = Plan.firstScratch + id := by
  by_cases hbase : number = Plan.firstScratch + id
  · exact .inl ⟨hbase, if_pos hbase⟩
  · exact .inr ⟨hbase, if_neg hbase⟩

theorem otherNumber_mem (id : UInt32) (number : Oid) :
    otherNumber id number ∈ scratchNumbers id := by
  obtain ⟨-, hother⟩ | ⟨-, hother⟩ := otherNumber_cases id number
  · rw [hother]
    exact List.mem_cons_of_mem _ List.mem_cons_self
  · rw [hother]
    exact List.mem_cons_self

theorem otherNumber_ne (id : UInt32) (number : Oid) : otherNumber id number ≠ number := by
  obtain ⟨hnumber, hother⟩ | ⟨hnumber, hother⟩ := otherNumber_cases id number
  · rw [hnumber] at hother ⊢
    rw [hother, ne_eq, UInt32.add_eq_left]
    decide
  · rw [hother]
    exact hnumber.symm

end Client

namespace Scene

open Client

/-- The shared tables are there, in their full length, and are not the client's own. -/
structure Supplied (s : Scene) : Prop where
  tables_ne : s.client.tables ≠ []
  blocks_pos : 0 < s.client.tableBlocks
  long : ∀ table ∈ s.client.tables, s.Reaches table s.client.tableBlocks.toNat
  foreign : ∀ table ∈ s.client.tables, ¬ Owns s.client.id table.locator

/-- The scratch table has one of its two numbers and is as long as a client supposes. -/
structure ScratchReady (s : Scene) : Prop where
  number : ∃ number ∈ scratchNumbers s.client.id, s.client.scratch = scratchAt number
  long : s.Reaches s.client.scratch Plan.scratchBlocks.toNat

/-- The temporary table, once it is there, is as long as is noted. -/
structure TemporaryNoted (s : Scene) : Prop where
  table : ∀ table ∈ s.client.temporary, table = temporaryOf s.client.id
  length : s.device.length? (temporaryOf s.client.id).main =
    s.client.temporary.map fun _ => s.client.temporaryBlocks.toNat
  none : s.client.temporary = none → s.client.temporaryBlocks = 0
  le : s.client.temporaryBlocks ≤ Plan.temporaryBlocks

/-- A client's own relations are as it supposes. -/
structure InOrder (s : Scene) : Prop where
  scratch : s.ScratchReady
  temporary : s.TemporaryNoted

/-- Nothing of others has changed, nor whose the rest is. -/
structure Kept (s t : Scene) : Prop where
  id : t.client.id = s.client.id
  tables : t.client.tables = s.client.tables
  tableBlocks : t.client.tableBlocks = s.client.tableBlocks
  length : ∀ key : Key, ¬ Owns s.client.id key.locator →
    t.device.length? key = s.device.length? key

variable {s t u : Scene}

theorem Kept.trans (h : s.Kept t) (h' : t.Kept u) : s.Kept u := by
  refine ⟨h'.id.trans h.id, h'.tables.trans h.tables, h'.tableBlocks.trans h.tableBlocks, ?_⟩
  intro key hkey
  rw [h'.length key (by rwa [h.id]), h.length key hkey]

theorem Alike.kept {forks : List Key} (h : s.Alike forks t)
    (hforks : ∀ key ∈ forks, Owns s.client.id key.locator) : s.Kept t := by
  refine ⟨?_, ?_, ?_, fun key hkey => h.length key fun hmem => hkey (hforks key hmem)⟩
  all_goals rw [h.client]

/-- A request to a relation of the client's own. -/
theorem Alike.kept_of_owns {relation : Relation} (h : s.Alike [relation.main] t)
    (howns : Owns s.client.id relation.locator) : s.Kept t :=
  h.kept (List.forall_mem_singleton.2 howns)

theorem Supplied.kept (h : s.Supplied) (hkept : s.Kept t) : t.Supplied := by
  refine ⟨hkept.tables ▸ h.tables_ne, hkept.tableBlocks ▸ h.blocks_pos, ?_, ?_⟩
  · rw [hkept.tables, hkept.tableBlocks]
    intro table htable
    rw [Reaches, hkept.length _ (h.foreign table htable)]
    exact h.long table htable
  · rw [hkept.tables, hkept.id]
    exact h.foreign

theorem Supplied.alike (h : s.Supplied) (halike : s.Alike [] t) : t.Supplied :=
  h.kept (halike.kept nofun)

theorem ScratchReady.congr (h : s.ScratchReady) (hid : t.client.id = s.client.id)
    (hscratch : t.client.scratch = s.client.scratch)
    (hlength : t.device.length? s.client.scratch.main = s.device.length? s.client.scratch.main) :
    t.ScratchReady := by
  refine ⟨?_, ?_⟩
  · rw [hid, hscratch]
    exact h.number
  · rw [Reaches, hscratch, hlength]
    exact h.long

theorem ScratchReady.main_ne (h : s.ScratchReady) :
    s.client.scratch.main ≠ (temporaryOf s.client.id).main := by
  obtain ⟨number, hnumber, hscratch⟩ := h.number
  rw [hscratch]
  exact (main_temporaryOf_ne hnumber).symm

theorem TemporaryNoted.congr (h : s.TemporaryNoted) (hid : t.client.id = s.client.id)
    (htemporary : t.client.temporary = s.client.temporary)
    (hblocks : t.client.temporaryBlocks = s.client.temporaryBlocks)
    (hlength : t.device.length? (temporaryOf s.client.id).main =
      s.device.length? (temporaryOf s.client.id).main) : t.TemporaryNoted := by
  refine ⟨?_, ?_, ?_, ?_⟩
  · rw [hid, htemporary]
    exact h.table
  · rw [hid, hlength, htemporary, hblocks]
    exact h.length
  · rw [htemporary, hblocks]
    exact h.none
  · rw [hblocks]
    exact h.le

/-- A request to the temporary table changes its length, which is noted. -/
theorem InOrder.resize (h : s.InOrder)
    (htemporary : s.client.temporary = some (temporaryOf s.client.id))
    {operation : Operation Unit} (hcalled : s.Called (temporaryOf s.client.id) operation t)
    {n : UInt32} (hn : operation.resize s.client.temporaryBlocks.toNat = n.toNat)
    (hle : n ≤ Plan.temporaryBlocks) :
    s.Kept { t with client := { t.client with temporaryBlocks := n } } ∧
      InOrder { t with client := { t.client with temporaryBlocks := n } } := by
  have hid : t.client.id = s.client.id := hcalled.alike.id_eq
  have hsome : t.client.temporary = some (temporaryOf s.client.id) := by
    rw [hcalled.alike.client]
    exact htemporary
  refine ⟨(hcalled.alike.kept_of_owns (owns_temporaryOf _)).trans ⟨rfl, rfl, rfl, fun _ _ => rfl⟩,
    ?_, ?_⟩
  · refine h.scratch.congr hid (by rw [hcalled.alike.client]) (hcalled.alike.length _ ?_)
    exact List.mem_singleton.not.2 h.scratch.main_ne
  · refine ⟨?_, ?_, ?_, hle⟩
    · rw [hid, hsome]
      rintro table ⟨⟩
      rfl
    · rw [hid, hsome]
      refine hcalled.length.trans ?_
      rw [h.temporary.length, htemporary]
      exact congrArg some hn
    · rw [hsome]
      exact nofun

/-- What is done elsewhere does not touch a client's relations. -/
theorem InOrder.alike (h : s.InOrder) (halike : s.Alike [] t) : t.InOrder := by
  have hid : t.client.id = s.client.id := halike.id_eq
  refine ⟨h.scratch.congr hid ?_ (halike.length _ nofun),
    h.temporary.congr hid ?_ ?_ (halike.length _ nofun)⟩
  all_goals rw [halike.client]

end Scene

namespace Client

open Scene

variable {s : Scene}

/-! ## Statements on shared tables -/

theorem drawTable_yields (h : s.Supplied) :
    s.Yields drawTable fun table t => table ∈ s.client.tables ∧ s.Alike [] t := by
  refine self_bind_yields ((draw_yields s _).bind ?_)
  rintro i t ⟨hi, halike⟩
  have hpos : 0 < s.client.tables.length := List.length_pos_iff.2 h.tables_ne
  have hindex : i.toNat < s.client.tables.length := by
    rw [UInt32.toNat_ofNat'] at hi
    have := Nat.mod_le s.client.tables.length (2 ^ 32)
    omega
  rw [List.getElem?_eq_getElem hindex]
  exact .pure ⟨List.getElem_mem _, halike⟩

/-- A drawn table is as long as the client supposes all of them to be. -/
theorem drawTable_reaches (h : s.Supplied) :
    s.Yields drawTable fun table t =>
      t.Reaches table t.client.tableBlocks.toNat ∧ s.Alike [] t := by
  refine (drawTable_yields h).mono fun table t ⟨htable, halike⟩ => ⟨?_, halike⟩
  have hblocks : t.client.tableBlocks = s.client.tableBlocks := by rw [halike.client]
  rw [hblocks]
  exact (h.long table htable).alike halike nofun

/-- A range that is drawn with room for its length before a limit lies within the limit. -/
theorem range_le {limit count block : UInt32} (hpos : 0 < count.toNat)
    (hle : count.toNat ≤ limit.toNat)
    (hblock : block.toNat < max (limit - count + 1).toNat 1) :
    block.toNat + count.toNat ≤ limit.toNat := by
  have hword : limit.toNat < 2 ^ 32 := limit.toNat_lt
  have hroom : (limit - count + 1).toNat = limit.toNat - count.toNat + 1 := by
    rw [UInt32.toNat_add, UInt32.toNat_sub_of_le _ _ (UInt32.le_iff_toNat_le.2 hle),
      UInt32.toNat_one, Nat.mod_eq_of_lt (by omega)]
  omega

theorem one_add_toNat {n : UInt32} {m : Nat} (hm : m < 2 ^ 32) (hn : n.toNat < m) :
    (1 + n).toNat = 1 + n.toNat := by
  rw [UInt32.toNat_add, UInt32.toNat_one, Nat.mod_eq_of_lt (by omega)]

theorem readEach_yields {table : Relation} {n : Nat} (hn : n < 2 ^ 32) (count : Nat) :
    ∀ {s : Scene} {block : BlockNumber}, s.Reaches table n → block.toNat + count ≤ n →
      s.Yields (readEach table count block) fun _ t => s.Alike [] t := by
  induction count with
  | zero => exact fun _ _ => .pure (.refl _)
  | succ count ih =>
    intro s block htable hle
    have hreach : block.toNat + 1 ≤ n := by omega
    refine (access_yields (.read block 1) htable hreach rfl fun _ => rfl).bind ?_
    intro _ t halike
    have hnext : (block + 1).toNat = block.toNat + 1 := by
      rw [UInt32.toNat_add, UInt32.toNat_one, Nat.mod_eq_of_lt (by omega)]
    refine (ih (htable.alike halike nofun) (by omega)).mono ?_
    exact fun _ _ => halike.trans

theorem scan_yields (h : s.Supplied) : s.Yields scan fun _ t => s.Alike [] t := by
  refine (drawTable_reaches h).bind ?_
  rintro table t ⟨htable, ht⟩
  refine self_bind_yields ((draw_yields t _).bind ?_)
  rintro start u ⟨hstart, hu⟩
  refine (draw_yields u _).bind ?_
  rintro extent v ⟨-, hv⟩
  have hpos : 0 < t.client.tableBlocks.toNat := (h.alike ht).blocks_pos
  -- even an end that has wrapped around is no greater than the length of the table
  have hstop : (min (start + 1 + extent) t.client.tableBlocks).toNat ≤
      t.client.tableBlocks.toNat := by
    rw [UInt32.toNat_min]
    exact Nat.min_le_right _ _
  refine (readEach_yields t.client.tableBlocks.toNat_lt _
    (htable.alike (hu.trans hv) nofun) (by omega)).mono ?_
  exact fun _ _ => (ht.trans (hu.trans hv)).trans

theorem lookUpEach_yields (count : Nat) :
    ∀ {s : Scene}, s.Supplied → s.Yields (lookUpEach count) fun _ t => s.Alike [] t := by
  induction count with
  | zero => exact fun _ => .pure (.refl _)
  | succ count ih =>
    intro s h
    refine (drawTable_reaches h).bind ?_
    rintro table t ⟨htable, ht⟩
    refine self_bind_yields ((draw_yields t _).bind ?_)
    rintro block u ⟨hblock, hu⟩
    have hpos : 0 < t.client.tableBlocks.toNat := (h.alike ht).blocks_pos
    have hreach : block.toNat + 1 ≤ t.client.tableBlocks.toNat := by omega
    refine (access_yields (.read block 1) (htable.alike hu nofun) hreach
      rfl fun _ => rfl).bind ?_
    intro _ v hv
    have halike := ht.trans (hu.trans hv)
    exact (ih (h.alike halike)).mono fun _ _ => halike.trans

theorem lookUp_yields (h : s.Supplied) : s.Yields lookUp fun _ t => s.Alike [] t := by
  refine (draw_yields s _).bind ?_
  rintro n t ⟨-, ht⟩
  exact (lookUpEach_yields _ (h.alike ht)).mono fun _ _ => ht.trans

theorem readAhead_yields (h : s.Supplied) : s.Yields readAhead fun _ t => s.Alike [] t := by
  refine (drawTable_reaches h).bind ?_
  rintro table t ⟨htable, ht⟩
  refine self_bind_yields ((draw_yields t _).bind ?_)
  rintro n u ⟨hn, hu⟩
  refine (draw_yields u _).bind ?_
  rintro block v ⟨hblock, hv⟩
  refine self_bind_yields ((modifyClient_yields v _).bind ?_)
  rintro _ w rfl
  have hpos : 0 < t.client.tableBlocks.toNat := (h.alike ht).blocks_pos
  have hcount : (min (1 + n) t.client.tableBlocks).toNat =
      min (1 + n.toNat) t.client.tableBlocks.toNat := by
    rw [UInt32.toNat_min, one_add_toNat (by decide) hn]
  have hreach : block.toNat + (min (1 + n) t.client.tableBlocks).toNat ≤
      t.client.tableBlocks.toNat := range_le (by omega) (by omega) hblock
  have halike : t.Alike []
      { v with client := { v.client with nextRead := v.client.nextRead + 1 } } :=
    hu.trans (hv.trans ⟨rfl, fun _ _ => rfl⟩)
  refine (access_yields (.submit ⟨v.client.nextRead, _⟩ block) (htable.alike halike nofun) hreach
    rfl fun _ => rfl).bind ?_
  intro _ x hx
  exact (complete_yields x _).mono fun _ _ => (ht.trans (halike.trans hx)).trans

/-! ## Statements on the client's own tables -/

theorem update_yields (h : s.InOrder) : s.Yields update fun _ t => s.Alike [] t := by
  refine (draw_yields s _).bind ?_
  rintro n t ⟨hn, ht⟩
  refine (draw_yields t _).bind ?_
  rintro block u ⟨hblock, hu⟩
  refine self_bind_yields ?_
  have hsu := ht.trans hu
  have hscratch := (h.alike hsu).scratch.long
  have hreach : (Operation.write block (List.replicate (1 + n).toNat ())).reach ≤
      Plan.scratchBlocks.toNat := by
    have hcount : (1 + n).toNat = 1 + n.toNat := one_add_toNat (by decide) hn
    have hfew : n.toNat < 8 := hn
    have hfits : (1 + n).toNat ≤ 64 := by omega
    show block.toNat + (List.replicate (1 + n).toNat ()).length ≤ _
    rw [List.length_replicate]
    exact range_le (by omega) hfits hblock
  refine (access_yields _ hscratch hreach rfl fun _ => rfl).bind ?_
  intro _ v hv
  refine (draw_yields v _).bind ?_
  rintro m w ⟨-, hw⟩
  have hsw := hsu.trans (hv.trans hw)
  split
  · refine (access_yields .sync (hscratch.alike (hv.trans hw) nofun) (Nat.zero_le _)
      rfl fun _ => rfl).mono ?_
    exact fun _ _ => hsw.trans
  · exact .pure hsw

/-- The temporary table is there from now on. -/
theorem temporaryTable_yields (h : s.InOrder) :
    s.Yields temporaryTable fun table t =>
      table = temporaryOf s.client.id ∧ t.client.temporary = some table ∧ s.Kept t ∧ t.InOrder := by
  refine self_bind_yields ?_
  cases htemporary : s.client.temporary with
  | some table =>
    exact .pure ⟨h.temporary.table table htemporary, htemporary, ⟨rfl, rfl, rfl, fun _ _ => rfl⟩, h⟩
  | none =>
    refine (create_yields s (temporaryOf s.client.id) noStorage).bind ?_
    rintro _ t ⟨halike, hcreated⟩
    refine (modifyClient_yields t _).bind ?_
    rintro _ u rfl
    have hid : t.client.id = s.client.id := halike.id_eq
    have hblocks : t.client.temporaryBlocks = 0 := by
      rw [halike.client]
      exact h.temporary.none htemporary
    rw [h.temporary.length, htemporary] at hcreated
    refine .pure ⟨rfl, rfl, ?_, ?_, ?_⟩
    · exact (halike.kept_of_owns (owns_temporaryOf _)).trans ⟨rfl, rfl, rfl, fun _ _ => rfl⟩
    · refine h.scratch.congr hid (by rw [halike.client]) (halike.length _ ?_)
      exact List.mem_singleton.not.2 h.scratch.main_ne
    · refine ⟨?_, ?_, nofun, ?_⟩
      · rintro table ⟨⟩
        rw [hid, temporaryOf]
      · rw [hid]
        exact hcreated.trans (by simp [hblocks])
      · rw [hblocks]
        decide

theorem callTemporary_yields (h : s.InOrder)
    (htemporary : s.client.temporary = some (temporaryOf s.client.id))
    (operation : Operation Unit) (hreach : operation.reach = 0) :
    s.Yields (call (temporaryOf s.client.id) operation) fun _ t =>
      s.Called (temporaryOf s.client.id) operation t := by
  refine call_yields _ _ fun _ => ⟨s.client.temporaryBlocks.toNat, ?_, ?_⟩
  · rw [h.temporary.length, htemporary]
    rfl
  · rw [hreach]
    exact Nat.zero_le _

/-- A block is added to a temporary table that is not full. -/
theorem append_yields (h : s.InOrder)
    (htemporary : s.client.temporary = some (temporaryOf s.client.id))
    (hlt : s.client.temporaryBlocks < Plan.temporaryBlocks) :
    s.Yields
      (do
        call (temporaryOf s.client.id) (.append (← self).temporaryBlocks ())
        modifyClient fun c => { c with temporaryBlocks := c.temporaryBlocks + 1 })
      fun _ t => s.Kept t ∧ t.InOrder := by
  refine self_bind_yields ((callTemporary_yields h htemporary (.append _ ()) rfl).bind ?_)
  intro _ t hcalled
  refine (modifyClient_yields t _).mono ?_
  rintro _ u rfl
  have hblocks : t.client.temporaryBlocks = s.client.temporaryBlocks := by
    rw [hcalled.alike.client]
  have hltNat : s.client.temporaryBlocks.toNat < 32 := hlt
  have hsucc : (t.client.temporaryBlocks + 1).toNat = s.client.temporaryBlocks.toNat + 1 := by
    rw [hblocks, UInt32.toNat_add, UInt32.toNat_one, Nat.mod_eq_of_lt (by omega)]
  refine h.resize htemporary hcalled (.trans (Nat.max_eq_right (Nat.le_succ _)) hsucc.symm) ?_
  exact UInt32.le_iff_toNat_le.2 (hsucc.trans_le hlt)

theorem writeTemporary_yields (h : s.InOrder) :
    s.Yields writeTemporary fun _ t => s.Kept t ∧ t.InOrder := by
  refine (temporaryTable_yields h).bind ?_
  rintro _ t ⟨rfl, htemporary, hkept, ht⟩
  rw [← hkept.id] at htemporary ⊢
  refine self_bind_yields ?_
  split
  · -- the table is full, and is emptied first
    refine (callTemporary_yields ht htemporary (.truncate 0) rfl).bind ?_
    intro _ u hcalled
    refine (modifyClient_yields u _).bind ?_
    rintro _ v rfl
    obtain ⟨hkept', hu⟩ := ht.resize htemporary hcalled (Nat.min_zero _) UInt32.zero_le
    have htemporary' : u.client.temporary = some (temporaryOf u.client.id) := by
      rw [hcalled.alike.client]
      exact htemporary
    rw [← hkept'.id]
    refine (append_yields hu htemporary' (show 0 < Plan.temporaryBlocks by decide)).mono ?_
    exact fun _ _ ⟨hkept'', hv⟩ => ⟨hkept.trans (hkept'.trans hkept''), hv⟩
  · rename_i hnot
    refine (append_yields ht htemporary (UInt32.not_le.1 hnot)).mono ?_
    exact fun _ _ ⟨hkept', hu⟩ => ⟨hkept.trans hkept', hu⟩

theorem relocate_yields (h : s.InOrder) : s.Yields relocate fun _ t => s.Kept t ∧ t.InOrder := by
  obtain ⟨number, hnumber, hscratch⟩ := h.scratch.number
  refine self_bind_yields ?_
  dsimp only
  have hmem := otherNumber_mem s.client.id s.client.scratch.locator.number
  have hne : (scratchAt (otherNumber s.client.id s.client.scratch.locator.number)).main ≠
      s.client.scratch.main := by
    rw [hscratch]
    exact fun heq => otherNumber_ne s.client.id number (main_scratchAt_inj.1 heq)
  generalize otherNumber s.client.id s.client.scratch.locator.number = other at hmem hne ⊢
  refine (create_yields s (scratchAt other) _).bind ?_
  rintro _ t ⟨ht, hcreated⟩
  refine (lengthen_yields ⟨_, hcreated, Nat.zero_le _⟩ _).bind ?_
  rintro _ u ⟨hu, hlong⟩
  have hold : u.Reaches s.client.scratch 0 :=
    (h.scratch.long.alike (ht.trans hu) (List.mem_singleton.not.2 hne.symm)).mono (Nat.zero_le _)
  refine (call_yields _ (.truncate 0) fun _ => hold).bind ?_
  intro _ v hcalled
  have hstill := hlong.alike hcalled.alike (List.mem_singleton.not.2 hne)
  refine (access_yields .sync hstill (Nat.zero_le _) rfl fun _ => rfl).bind ?_
  intro _ w hw
  have hready := hstill.alike hw nofun
  refine (modifyClient_yields w _).mono ?_
  rintro _ x rfl
  -- what is left is another scratch table, and nothing else has changed
  have halike : s.Alike [(scratchAt other).main, s.client.scratch.main] w :=
    ((ht.trans hu).mono (by simp)).trans
      ((hcalled.alike.mono (by simp)).trans (hw.mono (List.nil_subset _)))
  have hid : w.client.id = s.client.id := halike.id_eq
  refine ⟨(halike.kept ?_).trans ⟨rfl, rfl, rfl, fun _ _ => rfl⟩,
    ⟨⟨other, ?_, rfl⟩, hready⟩,
    h.temporary.congr hid ?_ ?_ (halike.length _ ?_)⟩
  · rintro key hkey
    obtain rfl | rfl : key = (scratchAt other).main ∨ key = s.client.scratch.main := by
      simpa using hkey
    · exact owns_scratchAt hmem
    · rw [hscratch]
      exact owns_scratchAt hnumber
  · rw [hid]
    exact hmem
  · rw [halike.client]
  · rw [halike.client]
  · simpa using ⟨main_temporaryOf_ne hmem, h.scratch.main_ne.symm⟩

/-! ## Any statement -/

/-- A statement that changes nothing leaves everything in order. -/
theorem inOrder_of_alike {act : Statement Unit} (h : s.InOrder)
    (hact : s.Yields act fun _ t => s.Alike [] t) :
    s.Yields act fun _ t => s.Kept t ∧ t.InOrder :=
  hact.mono fun _ _ halike => ⟨halike.kept nofun, h.alike halike⟩

/-- No statement fails, and each leaves the client's relations in order. -/
theorem statement_yields (hsupplied : s.Supplied) (h : s.InOrder) :
    s.Yields statement fun _ t => s.Kept t ∧ t.InOrder := by
  refine (draw_yields s _).bind ?_
  rintro n t ⟨-, ht⟩
  have hsupplied' := hsupplied.alike ht
  have h' := h.alike ht
  suffices hchosen : t.Yields _ fun _ u => t.Kept u ∧ u.InOrder from
    hchosen.mono fun _ _ ⟨hkept, hu⟩ => ⟨(ht.kept nofun).trans hkept, hu⟩
  split
  · exact inOrder_of_alike h' (scan_yields hsupplied')
  split
  · exact inOrder_of_alike h' (lookUp_yields hsupplied')
  split
  · exact inOrder_of_alike h' (update_yields h')
  split
  · exact inOrder_of_alike h' (readAhead_yields hsupplied')
  split
  · exact writeTemporary_yields h'
  · exact relocate_yields h'

end Client

end BlockLedger
