import BlockLedger.Proofs.Cluster.Moves

/-
# Calls and what they are charged

A request that has come back successful is due to be counted by every counting link that it has
passed.  What is due is told here from the request and the site alone, and every call along a chain
posts exactly that.

The completion of an asynchronous read counts under the key that was staged at its submission, and
creates no entry.  It need not, since the entry of a staged key exists: it was created when the key
was staged, and entries are never removed.
-/

namespace BlockLedger

/-- Every key that a backend has staged has an entry. -/
def Backend.Covered (b : Backend) (l : Ledger) : Prop :=
  ∀ (n : Nat) (staged : Staged) (k : Key), b.slots.staged[n]? = some staged →
    staged.key = some k → (l.store.find? k).isSome

theorem Backend.Covered.moves {b : Backend} {l l' : Ledger} {ds : List Mark} (h : b.Covered l)
    (hl : l.Moves ds l') : b.Covered l' :=
  fun n staged k hn hk => hl.path.isSome (h n staged k hn hk)

theorem Backend.Covered.getD {b : Backend} {l : Ledger} (h : b.Covered l) {n : Nat} {k : Key}
    (hk : (b.slots.staged.getD n {}).key = some k) : (l.store.find? k).isSome := by
  rw [Std.HashMap.getD_eq_getD_getElem?] at hk
  cases hget : b.slots.staged[n]? with
  | none => simp [hget] at hk
  | some staged =>
    rw [hget] at hk
    exact h n staged k hget hk

theorem Backend.Covered.get? {b : Backend} {l : Ledger} (h : b.Covered l) {id : Nat}
    {staged : Staged} (hget : b.slots.get? id = some staged) {k : Key}
    (hk : staged.key = some k) : (l.store.find? k).isSome := by
  unfold Slots.get? at hget
  split at hget
  · cases hget
  · obtain rfl := Option.some.inj hget
    exact h.getD hk

namespace Site

variable {P : Type}

/-- A site goes on, with some marks in its store. -/
structure Moves (s : Site P) (ds : List Mark) (t : Site P) : Prop where
  ledger : s.ledger.Moves ds t.ledger
  covered : s.backend.Covered s.ledger → t.backend.Covered t.ledger

namespace Moves

variable {s t u : Site P} {ds es : List Mark}

theorem refl (s : Site P) : s.Moves [] s := ⟨.refl _, fun h => h⟩

theorem trans (h : s.Moves ds t) (h' : t.Moves es u) : s.Moves (ds ++ es) u :=
  ⟨h.ledger.trans h'.ledger, fun hs => h'.covered (h.covered hs)⟩

theorem trans_silent (h : s.Moves [] t) (h' : t.Moves es u) : s.Moves es u := h.trans h'

theorem of_slots (hl : s.ledger.Moves ds t.ledger) (hslots : t.backend.slots = s.backend.slots) :
    s.Moves ds t := by
  refine ⟨hl, fun hs n staged k hn hk => ?_⟩
  rw [hslots] at hn
  exact hl.path.isSome (hs n staged k hn hk)

end Moves

variable (s : Site P)

/-! ## Entries -/

/-- A key that has no entry yet is pending from now on, if it is wanted. -/
theorem register_eq (key : Key) :
    s.register key =
      { backend :=
          { s.backend with
            pending :=
              if (s.ledger.store.find? key).isSome then s.backend.pending
              else Pending.add s.backend.session s.backend.pending key }
        ledger := { s.ledger with store := (s.ledger.store.ensure key).1 }
        device := s.device } := by
  have hnew := s.ledger.store.ensure_snd key
  unfold register Backend.register
  rcases hensure : s.ledger.store.ensure key with ⟨store, new⟩
  obtain rfl : new = (s.ledger.store.find? key).isNone := by rw [← hnew, hensure]
  cases s.ledger.store.find? key <;> rfl

theorem register_moves (key : Key) : s.Moves [] (s.register key) := by
  rw [register_eq]
  exact .of_slots (.of_path (Store.Step.ensure key).path_silent) rfl

/-- All that a backend keeps of a new entry is that it needs an identity. -/
theorem backend_register (key : Key) :
    ∃ pending, (s.register key).backend = { s.backend with pending } := by
  rw [register_eq]
  exact ⟨_, rfl⟩

theorem find?_register (key : Key) : ((s.register key).ledger.store.find? key).isSome := by
  rw [register_eq, Store.find?_ensure, if_pos rfl]
  rfl

theorem update_moves (p : Posting) :
    s.Moves [.posted p] (s.update p.key (p.charge.apply p.now)) := by
  have hpost : (s.register p.key).Moves [.posted p] (s.update p.key (p.charge.apply p.now)) :=
    .of_slots (.of_path (Store.Step.post p (s.find?_register p.key)).path) rfl
  exact (s.register_moves p.key).trans_silent hpost

theorem introduce_moves (relation : Relation) (fork : Fork) :
    s.Moves [] (s.introduce relation fork) := by
  unfold introduce
  split
  · exact s.register_moves _
  · exact .refl s

/-! ## What is due -/

/-- What a request is charged that has been carried out. -/
def charge? (s : Site P) (q : Request P) : Option Charge :=
  match q.operation with
  | .attach | .create .. | .submit .. => none
  | .read block n =>
    let count := UInt32.ofNat n
    some (.access .read count.toNat s.ledger.clock.lag
      (s.backend.runs.check q.key block count .read).1)
  | .write block pages =>
    let count := UInt32.ofNat pages.length
    some (.access .write count.toNat s.ledger.clock.lag
      (s.backend.runs.check q.key block count .write).1)
  | .append .. => some (.extension 1)
  | .lengthen _ n => some (.extension n.toNat)
  | .truncate _ => some .truncation
  | .sync => some .sync

/-- What is due for a request that has been carried out: its charge, if it is tracked. -/
def due? (s : Site P) (q : Request P) : Option Posting :=
  match s.trackingKey q.relation q.fork with
  | none => none
  | some key => (s.charge? q).map fun charge => ⟨key, charge, s.ledger.clock.now⟩

theorem classify_moves (real key : Key) (block count : BlockNumber) (d : Direction) :
    s.Moves [] (s.classify real key block count d).2 :=
  .of_slots (.refl _) rfl

theorem account_moves (q : Request P) (block count : BlockNumber) (d : Direction)
    (h : s.charge? q = some (.access d count.toNat s.ledger.clock.lag
      (s.backend.runs.check q.key block count d).1)) :
    s.Moves ((s.due? q).toList.map .posted) (s.account q block count d) := by
  unfold account due?
  cases s.trackingKey q.relation q.fork with
  | none => exact .refl s
  | some key =>
    dsimp only
    rw [h]
    exact (s.classify_moves q.key key block count d).trans_silent
      (update_moves _ ⟨key, .access d count.toNat _ _, s.ledger.clock.now⟩)

theorem bump_moves (q : Request P) (f : Entry → Entry) (c : Charge) (h : s.charge? q = some c)
    (hf : ∀ e, c.apply s.ledger.clock.now e = (f e).touch s.ledger.clock.now) :
    s.Moves ((s.due? q).toList.map .posted) (s.bump q f) := by
  unfold bump due?
  cases s.trackingKey q.relation q.fork with
  | none => exact .refl s
  | some key =>
    have hpost := s.update_moves ⟨key, c, s.ledger.clock.now⟩
    rw [funext hf] at hpost
    dsimp only
    rw [h]
    exact hpost

theorem relocate_moves (q : Request P) (old : Locator) (redo : Bool) :
    s.Moves []
      (if relocates q old then
        { s with ledger := (s.ledger.relocate ⟨old, q.relation.locator, q.fork, redo⟩).1 }
      else s) := by
  split
  · refine .of_slots ?_ rfl
    unfold Ledger.relocate
    dsimp only
    split
    · exact (Ledger.Moves.refl _).withRing _
    · exact ((Ledger.Moves.refl _).withRing _).report _
  · exact .refl s

/-- A request that has been carried out is charged what is due. -/
theorem count_moves (q : Request P) :
    s.Moves ((s.due? q).toList.map .posted) (s.count q) := by
  obtain ⟨relation, fork, operation⟩ := q
  have hnone : ∀ o, s.charge? ⟨relation, fork, o⟩ = none → s.due? ⟨relation, fork, o⟩ = none := by
    intro o h
    unfold due?
    split
    · rfl
    · rw [h]
      rfl
  cases operation with
  | attach =>
    rw [hnone _ rfl]
    exact s.introduce_moves relation .main
  | create old redo =>
    rw [hnone _ rfl]
    exact (s.relocate_moves _ old redo).trans_silent (introduce_moves _ relation fork)
  | read block n => exact s.account_moves _ block (UInt32.ofNat n) .read rfl
  | submit handle block =>
    rw [hnone _ rfl]
    exact .refl s
  | write block pages => exact s.account_moves _ block (UInt32.ofNat pages.length) .write rfl
  | append block page => exact s.bump_moves _ _ (.extension 1) rfl fun _ => rfl
  | lengthen block n => exact s.bump_moves _ _ (.extension n.toNat) rfl fun _ => rfl
  | truncate n => exact s.bump_moves _ _ .truncation rfl fun _ => rfl
  | sync => exact s.bump_moves _ _ .sync rfl fun _ => rfl

/-! ## Asynchronous reads -/

/-- A key may be staged once it has an entry. -/
theorem stageSlot_moves (id : Nat) (f : Staged → Staged)
    (h : ∀ old k, (f old).key = some k → old.key = some k ∨ (s.ledger.store.find? k).isSome) :
    s.Moves [] { s with backend := { s.backend with slots := s.backend.slots.stage id f } } := by
  refine ⟨.refl _, fun hs n staged k hn hk => ?_⟩
  simp only [Slots.stage, Std.HashMap.getElem?_insert, beq_iff_eq] at hn
  split at hn
  · -- the key was staged there before, or it has an entry by now
    obtain rfl := Option.some.inj hn
    rcases h _ k hk with hold | hk
    · exact hs.getD hold
    · exact hk
  · exact hs n staged k hn hk

theorem stage_moves (q : Request P) (handle : Handle) (block : BlockNumber) :
    s.Moves [] (s.stage q handle block) := by
  unfold stage
  cases s.trackingKey q.relation q.fork with
  | none => exact s.stageSlot_moves handle.id _ fun _ _ hk => .inl hk
  | some key =>
    have hclassify := (s.register key).classify_moves q.key key block handle.blocks .read
    refine (s.register_moves key).trans_silent (hclassify.trans_silent ?_)
    refine stageSlot_moves _ handle.id _ fun _ k hk => .inr ?_
    obtain rfl := Option.some.inj hk
    exact s.find?_register key

theorem prepare_moves (q : Request P) : s.Moves [] (s.prepare q) := by
  unfold prepare
  split
  · exact s.stage_moves q _ _
  · exact .refl s

/-- What is due for the completion of a read that went well. -/
def credit? (s : Site P) (handle : Handle) : Option Posting :=
  match s.backend.slots.get? handle.id with
  | some { tracked := true, key := some key, access, started } =>
    some
      { key
        charge := .access .read handle.blocks.toNat
          (if started then s.ledger.clock.lag else 0) access
        now := s.ledger.clock.now }
  | _ => none

/-- The run that is counted when a read has failed: the one that its submission ended. -/
def lateRun? (s : Site P) (handle : Handle) : Option EndedRun :=
  match s.backend.slots.get? handle.id with
  | some { tracked := true, key := some key, access, .. } => some ⟨key, .read, access.ended⟩
  | _ => none

/-- What comes of the completion of a read. -/
def settlement (s : Site P) (handle : Handle) (result : Completion) : List Mark :=
  if result.isOk then (s.credit? handle).toList.map .posted
  else (s.lateRun? handle).toList.map .ended

theorem backend_settle (handle : Handle) (result : Completion) :
    (s.settle handle result).backend = s.backend := by
  unfold settle
  split <;> rfl

theorem settlement_settle (handle : Handle) (result : Completion) :
    (s.settle handle result).settlement handle result = s.settlement handle result := by
  have hclock : (s.settle handle result).ledger.clock = s.ledger.clock := by
    unfold settle
    split <;> rfl
  simp only [settlement, credit?, lateRun?, s.backend_settle, hclock]

variable {s}

theorem settle_moves (hs : s.backend.Covered s.ledger) (handle : Handle) (result : Completion) :
    s.Moves (s.settlement handle result) (s.settle handle result) := by
  unfold settlement credit? lateRun? settle
  rcases hget : s.backend.slots.get? handle.id with _ | ⟨started, access, _ | key, _ | _⟩
  · simpa using Moves.refl s
  · simpa using Moves.refl s
  · simpa using Moves.refl s
  · simpa using Moves.refl s
  · have hkey := hs.get? hget rfl
    refine .of_slots ?_ rfl
    cases result.isOk with
    | true => exact .of_path (Store.Step.post ⟨key, _, _⟩ hkey).path
    | false => exact .of_path (Store.Step.endRun ⟨key, _, _⟩ hkey).path

end Site

namespace Chain

variable {P : Type}

/-- What is due for a request that is sent along a chain: once for every counting link that it
passes, if it comes back successful. -/
def dues (blank : P) : List Link → Request P → Site P → List Posting
  | [], _, _ => []
  | .device :: _, _, _ => []
  | .passing _ :: rest, q, s => dues blank rest q s
  | .counting :: rest, q, s =>
    dues blank rest q (s.prepare q) ++
      match call blank rest q (s.prepare q) with
      | (.ok _, t) => (t.due? q).toList
      | (.error _, _) => []

/-- A request that fails is charged nothing. -/
theorem dues_of_error {blank : P} {chain : List Link} {q : Request P} {s t : Site P}
    {e : CallError} (h : call blank chain q s = (.error e, t)) : dues blank chain q s = [] := by
  induction chain generalizing s t e with
  | nil => rfl
  | cons link rest ih =>
    cases link with
    | device => rfl
    | passing name => exact ih h
    | counting =>
      unfold call at h
      unfold dues
      rcases hrest : call blank rest q (s.prepare q) with ⟨e' | pages, t'⟩ <;> rw [hrest] at h
      · rw [ih hrest]
        rfl
      · cases h

/-- A call posts what is due. -/
theorem call_moves (blank : P) (chain : List Link) (q : Request P) (s : Site P) :
    s.Moves ((dues blank chain q s).map .posted) (call blank chain q s).2 := by
  induction chain generalizing s with
  | nil => exact .refl s
  | cons link rest ih =>
    cases link with
    | device =>
      unfold call
      split <;> exact .of_slots (.refl _) rfl
    | passing name => exact ih s
    | counting =>
      -- what is due further on comes first; this link counts only what has come back to it
      have hrest := (s.prepare_moves q).trans_silent (ih (s.prepare q))
      unfold call dues
      rcases hcall : call blank rest q (s.prepare q) with ⟨_ | pages, t⟩ <;> rw [hcall] at hrest
      · simpa using hrest
      · rw [List.map_append]
        exact hrest.trans (t.count_moves q)

/-- The links of a chain that count. -/
def counters (chain : List Link) : List Link := chain.filter fun link => link = .counting

/-- What comes of the completion of a read along a chain: the same for every link that counts. -/
def settlements (chain : List Link) (handle : Handle) (result : Completion) (s : Site P) :
    List Mark :=
  (counters chain).flatMap fun _ => s.settlement handle result

/-- A completion comes back as it is. -/
theorem result_complete (chain : List Link) (handle : Handle) (result : Completion) (s : Site P) :
    (complete chain handle result s).1 = result := by
  induction chain generalizing s with
  | nil => rfl
  | cons link rest ih => cases link <;> exact ih _

/-- The completion of a read is no business of the backend alone. -/
theorem backend_complete (chain : List Link) (handle : Handle) (result : Completion)
    (s : Site P) : (complete chain handle result s).2.backend = s.backend := by
  induction chain generalizing s with
  | nil => rfl
  | cons link rest ih =>
    cases link with
    | device | passing name => exact ih s
    | counting => exact (ih _).trans (s.backend_settle handle result)

theorem complete_moves (chain : List Link) (handle : Handle) (result : Completion) {s : Site P}
    (hs : s.backend.Covered s.ledger) :
    s.Moves (settlements chain handle result s) (complete chain handle result s).2 := by
  induction chain generalizing s with
  | nil => exact .refl s
  | cons link rest ih =>
    cases link with
    | device | passing name => exact ih hs
    | counting =>
      have hsettle := Site.settle_moves hs handle result
      have hrest := ih (hsettle.covered hs)
      -- to the next counting link everything looks as it did to this one
      unfold settlements at hrest
      rw [s.settlement_settle] at hrest
      exact hsettle.trans hrest

end Chain

theorem Cluster.result_complete {P C S : Type} (s : Cluster P C S) (i : Nat) (handle : Handle)
    (result : Completion) : (s.complete i handle result).1 = result := by
  simp only [complete]
  cases s.members[i]? with
  | none => rfl
  | some m => exact Chain.result_complete m.chain handle result (s.siteOf m)

end BlockLedger
