import BlockLedger.Proofs.Workload.Requests

/-
# The statements of a client

A client does one statement after the other, each in a transaction of its own.  In between others
may be at the ledger, and the settings may be changed; only the device is the client's alone.  It
begins with its scratch table and without a temporary one, its relations are in order then, and so
they stay.
-/

namespace BlockLedger

namespace Workload

/-- Has a client do statements, one after the other.  Before each the ledger has been changed by
others: how each statement ended, and the client and the workload after it. -/
def labour (w : Workload) (c : Client) :
    List (Ledger → Ledger) → List (Except StatementError Unit × Client × Workload)
  | [] => []
  | change :: rest =>
    let step := { w with ledger := change w.ledger }.perform c Client.statement .data true
    step :: labour step.2.2 step.2.1 rest

/-- What is done in a transaction succeeds if it succeeds, and when the transaction is over, the
lengths of forks and what the client knows are as they were left. -/
theorem perform_yields {w : Workload} {c : Client} {act : Statement Unit} {work : Work}
    {mayFail : Bool} {post : Scene → Prop}
    (h : (w.sceneOf { c with backend := c.backend.withSession Session.enter }).Yields act
      fun _ s => post s) :
    ∃ c' w', w.perform c act work mayFail = (.ok (), c', w') ∧
      ∃ s, post s ∧ s.Alike [] (w'.sceneOf c') := by
  obtain ⟨_, s, hact, hpost⟩ := h
  rcases hfinish : s.client.backend.finish work s.ledger w.catalog with ⟨_, b, l, catalog⟩
  refine ⟨{ s.client with backend := b.withSession Session.leave },
    { w with ledger := l, device := s.device, catalog }, ?_, s, hpost, rfl, fun _ _ => rfl⟩
  simp only [perform, hact, hfinish, Except.isOk, Except.toBool, Bool.true_or, if_true]

end Workload

namespace Client

open Scene

variable {s : Scene}

theorem createScratch_yields (h : s.TemporaryNoted)
    (hscratch : ∃ number ∈ scratchNumbers s.client.id, s.client.scratch = scratchAt number) :
    s.Yields createScratch fun _ t => s.Kept t ∧ t.InOrder := by
  obtain ⟨number, hnumber, hscratch⟩ := hscratch
  refine self_bind_yields ((create_yields s s.client.scratch noStorage).bind ?_)
  rintro _ t ⟨ht, hcreated⟩
  refine (lengthen_yields ⟨_, hcreated, Nat.zero_le _⟩ _).mono ?_
  rintro _ u ⟨hu, hlong⟩
  have halike := ht.trans hu
  have hid : u.client.id = s.client.id := halike.id_eq
  have hsame : u.client.scratch = s.client.scratch := by rw [halike.client]
  refine ⟨halike.kept_of_owns ?_, ⟨⟨number, ?_, ?_⟩, ?_⟩,
    h.congr hid ?_ ?_ (halike.length _ ?_)⟩
  · rw [hscratch]
    exact owns_scratchAt hnumber
  · rw [hid]
    exact hnumber
  · rw [hsame, hscratch]
  · rw [hsame]
    exact hlong
  · rw [halike.client]
  · rw [halike.client]
  · rw [List.mem_singleton, hscratch]
    exact main_temporaryOf_ne hnumber

end Client

namespace Workload

open Client

/-- One statement: it succeeds whatever has become of the ledger, and everything is in order
again. -/
theorem perform_statement {w : Workload} {c : Client} (l : Ledger)
    (hsupplied : (w.sceneOf c).Supplied) (h : (w.sceneOf c).InOrder) :
    ∃ c' w', { w with ledger := l }.perform c statement .data true = (.ok (), c', w') ∧
      (w.sceneOf c).Kept (w'.sceneOf c') ∧ (w'.sceneOf c').InOrder := by
  have hchange : (w.sceneOf c).Alike [] ({ w with ledger := l }.sceneOf
      { c with backend := c.backend.withSession Session.enter }) := ⟨rfl, fun _ _ => rfl⟩
  obtain ⟨c', w', hperform, s, ⟨hkept, hs⟩, halike⟩ :=
    perform_yields (statement_yields (hsupplied.alike hchange) (h.alike hchange))
  exact ⟨c', w', hperform, (hchange.kept nofun).trans (hkept.trans (halike.kept nofun)),
    hs.alike halike⟩

/-- Any number of statements. -/
theorem labour_inOrder (changes : List (Ledger → Ledger)) :
    ∀ {w : Workload} {c : Client}, (w.sceneOf c).Supplied → (w.sceneOf c).InOrder →
      ∀ step ∈ w.labour c changes, step.1 = .ok () ∧ step.2.1.id = c.id ∧
        (step.2.2.sceneOf step.2.1).InOrder := by
  induction changes with
  | nil => exact fun _ _ _ hstep => absurd hstep List.not_mem_nil
  | cons change rest ih =>
    intro w c hsupplied h
    obtain ⟨c', w', hperform, hkept, h'⟩ := perform_statement (change w.ledger) hsupplied h
    have hid : c'.id = c.id := hkept.id
    simp only [labour, hperform, List.forall_mem_cons]
    refine ⟨⟨trivial, hid, h'⟩, fun step hstep => ?_⟩
    rw [← hid]
    exact ih (hsupplied.kept hkept) h' step hstep

/-- A client whose shared tables are there, as long as it supposes, can start, and whatever it draws
then and however often, no statement of it fails.  Its scratch table always has the blocks that it
writes to, and its temporary table the length that it has noted. -/
theorem labour_succeeds {w : Workload} {id tableBlocks : UInt32} {tables : List Relation}
    (generator : Generator) (concurrency : Nat) (hne : tables ≠ []) (hpos : 0 < tableBlocks)
    (hlong : ∀ table ∈ tables,
      ∃ n, w.device.length? table.main = some n ∧ tableBlocks.toNat ≤ n)
    (hforeign : ∀ table ∈ tables, ¬ Owns id table.locator)
    (hnew : w.device.length? (temporaryOf id).main = none) :
    ∃ c w', w.perform { new id tables tableBlocks concurrency with generator } createScratch
        creation false = (.ok (), c, w') ∧
      c.id = id ∧ (w'.sceneOf c).InOrder ∧
      ∀ changes, ∀ step ∈ w'.labour c changes,
        step.1 = .ok () ∧ step.2.1.id = id ∧ (step.2.2.sceneOf step.2.1).InOrder := by
  let c₀ : Client := { new id tables tableBlocks concurrency with generator }
  let s := w.sceneOf { c₀ with backend := c₀.backend.withSession Session.enter }
  have hsupplied : s.Supplied := ⟨hne, hpos, hlong, hforeign⟩
  have hnoted : s.TemporaryNoted := ⟨nofun, hnew, fun _ => rfl, UInt32.zero_le⟩
  have hscratch : ∃ number ∈ scratchNumbers id, s.client.scratch = scratchAt number :=
    ⟨_, List.mem_cons_self, rfl⟩
  obtain ⟨c, w', hperform, t, ⟨hkept, ht⟩, halike⟩ :=
    perform_yields (createScratch_yields hnoted hscratch)
  have hkept' : s.Kept (w'.sceneOf c) := hkept.trans (halike.kept nofun)
  have hid : c.id = id := hkept'.id
  refine ⟨c, w', hperform, hid, ht.alike halike, fun changes step hstep => ?_⟩
  rw [← hid]
  exact labour_inOrder changes (hsupplied.kept hkept') (ht.alike halike) step hstep

/-- A workload with one table of four blocks. -/
def oneTable : Workload where
  ledger := {}
  device := ({} : Device Unit).put (scratchAt Plan.firstTable).main (Array.replicate 4 ())
  catalog := .empty

/-- A thousand statements of the first client on one table of four blocks. -/
theorem labour_succeeds_on_one_table :
    let table := scratchAt Plan.firstTable
    oneTable.device.length? table.main = some 4 ∧
      oneTable.device.length? (temporaryOf 0).main = none ∧
      ∃ c w', oneTable.perform (new 0 [table] 4 1) createScratch creation false = (.ok (), c, w') ∧
        ∀ step ∈ w'.labour c (List.replicate 1000 fun l => l), step.1 = .ok () := by
  intro table
  have hlength : oneTable.device.length? table.main = some 4 := by
    simp [oneTable, table, Device.length?, Device.fork?_put]
  have hnew : oneTable.device.length? (temporaryOf 0).main = none := by
    have hne : (scratchAt Plan.firstTable).main ≠ (temporaryOf 0).main := by decide
    rw [oneTable, Device.length?, Device.fork?_put, if_neg hne]
    simp [Device.fork?]
  have hforeign : ¬ Owns 0 table.locator := by decide
  obtain ⟨c, w', hperform, -, -, hlabour⟩ :=
    labour_succeeds (new 0 [table] 4 1).generator 1 (List.cons_ne_nil table [])
      (show (0 : UInt32) < 4 by decide)
      (List.forall_mem_singleton.2 ⟨4, hlength, Nat.le_refl 4⟩)
      (List.forall_mem_singleton.2 hforeign) hnew
  exact ⟨hlength, hnew, c, w', hperform, fun step hstep => (hlabour _ step hstep).1⟩

end Workload

end BlockLedger
