import BlockLedger.Proofs.Store.Known

/-
# Identities offered at the same time

Several callers may have found out the identity of one relation at the same time, and not the same
one.  Each of them takes the lock of one entry after the other: it offers its identity to the entry
of its own key and then, only if that entry took it on, to the entries of the other forks.  Between
any two of these moves the others may make theirs, entries may be created and charged, and closing
snapshots may come to them.

Nobody waits for anybody, no key takes an identity on twice, and a caller that is left alone does
what `Store.resolve` does in one go.
-/

namespace BlockLedger

/-- An identity that was found out for a key. -/
structure Offer where
  key : Key
  identity : Identity
  valid : identity.valid = true

/-- How far a caller has come with its offer. -/
inductive Stage where
  /-- It has not reached the entry of its own key. -/
  | waiting
  /-- That entry took its identity on; these forks are still to be told. -/
  | spreading (ahead : List Fork)
  /-- It has returned whether that entry took its identity on. -/
  | done (applied : Bool)
  deriving DecidableEq, Repr

namespace Stage

/-- Whether the entry of the own key took the identity on. -/
def applied : Stage → Bool
  | waiting => false
  | spreading _ => true
  | done applied => applied

/-- The forks that are still to be told. -/
def ahead : Stage → List Fork
  | spreading ahead => ahead
  | _ => []

/-- How many moves are left at most. -/
def left : Stage → Nat
  | waiting => Fork.all.length + 1
  | spreading ahead => ahead.length + 1
  | done _ => 0

end Stage

/-- A caller with its offer. -/
structure Contender where
  offer : Offer
  stage : Stage := .waiting

namespace Contender

/-- The forks other than the own one. -/
def others (c : Contender) : List Fork := Fork.all.filter fun f => f != c.offer.key.fork

/-- The next move: where the caller stands afterwards, the key that took its identity on if one
did, and the store. -/
def move (c : Contender) (s : Store) : Contender × Option Key × Store :=
  match c.stage with
  | .waiting =>
    match s.identify c.offer.key c.offer.identity with
    | (s, true) => ({ c with stage := .spreading c.others }, some c.offer.key, s)
    | (s, false) => ({ c with stage := .done false }, none, s)
  | .spreading (f :: rest) =>
    match s.identify (c.offer.key.withFork f) c.offer.identity with
    | (s, accepted) =>
      ({ c with stage := .spreading rest },
        if accepted then some (c.offer.key.withFork f) else none, s)
  | .spreading [] => ({ c with stage := .done true }, none, s)
  | .done _ => (c, none, s)

end Contender

/-- What can happen next. -/
inductive Move where
  /-- A caller makes its next move. -/
  | advance (n : Nat)
  | create (key : Key)
  | post (p : Posting)
  | endRun (r : EndedRun)
  /-- A closing snapshot comes to an entry. -/
  | visit (key : Key)
  /-- A closing snapshot turns to the next bucket. -/
  | turn
  deriving DecidableEq

/-- A store and those who have found something out about its keys. -/
structure Contest where
  store : Store
  contenders : List Contender

namespace Contest

/-- A contest in which nobody has made a move. -/
def start (store : Store) (offers : List Offer) : Contest :=
  ⟨store, offers.map fun offer => { offer }⟩

/-- One move: the key that took an identity on if one did, and the contest afterwards. -/
def step (c : Contest) : Move → Option Key × Contest
  | .advance n =>
    match c.contenders[n]? with
    | none => (none, c)
    | some contender =>
      match contender.move c.store with
      | (contender, applied, store) => (applied, ⟨store, c.contenders.set n contender⟩)
  | .create key => (none, { c with store := (c.store.ensure key).1 })
  | .post p => (none, { c with store := c.store.modify p.key (p.charge.apply p.now) })
  | .endRun r => (none, { c with store := c.store.endRun r })
  | .visit key => (none, { c with store := (c.store.take key).2 })
  | .turn => (none, { c with store := c.store.nextBucket.2 })

/-- One move after the other. -/
def run (c : Contest) (moves : List Move) : Contest := moves.foldl (fun c m => (c.step m).2) c

/-- The keys whose entries took an identity on in the course of a run, one after the other. -/
def applications : Contest → List Move → List Key
  | _, [] => []
  | c, m :: rest => (c.step m).1.toList ++ (c.step m).2.applications rest

variable (c : Contest)

theorem run_cons (m : Move) (rest : List Move) : c.run (m :: rest) = (c.step m).2.run rest := rfl

end Contest

/-! ## One move of a caller -/

namespace Contender

variable (c : Contender) (s : Store)

theorem move_of_waiting (h : c.stage = .waiting) :
    c.move s =
      if s.unresolved c.offer.key then
        ({ c with stage := .spreading c.others }, some c.offer.key,
          (s.identify c.offer.key c.offer.identity).1)
      else
        ({ c with stage := .done false }, none,
          (s.identify c.offer.key c.offer.identity).1) := by
  have haccepted := s.identify_snd c.offer.key c.offer.identity
  rw [c.offer.valid, Bool.and_true] at haccepted
  simp only [move, h, ← haccepted]
  rcases s.identify c.offer.key c.offer.identity with ⟨t, _ | _⟩ <;> rfl

theorem move_of_spreading {f : Fork} {rest : List Fork} (h : c.stage = .spreading (f :: rest)) :
    c.move s =
      ({ c with stage := .spreading rest },
        if (s.identify (c.offer.key.withFork f) c.offer.identity).2 then
          some (c.offer.key.withFork f)
        else none,
        (s.identify (c.offer.key.withFork f) c.offer.identity).1) := by
  simp only [move, h]

theorem move_of_spread (h : c.stage = .spreading []) :
    c.move s = ({ c with stage := .done true }, none, s) := by
  simp only [move, h]

theorem move_of_done {applied : Bool} (h : c.stage = .done applied) : c.move s = (c, none, s) := by
  simp only [move, h]

/-- A caller keeps its offer, and does nothing to the store but make it to a fork of its relation. -/
theorem move_effect :
    (c.move s).1.offer = c.offer ∧
      ((c.move s).2.2 = s ∨ ∃ k, k.locator = c.offer.key.locator ∧
        (c.move s).2.2 = (s.identify k c.offer.identity).1) := by
  cases h : c.stage with
  | waiting =>
    rw [c.move_of_waiting s h]
    split <;> exact ⟨rfl, .inr ⟨_, rfl, rfl⟩⟩
  | spreading ahead =>
    cases ahead with
    | nil =>
      rw [c.move_of_spread s h]
      exact ⟨rfl, .inl rfl⟩
    | cons f rest =>
      rw [c.move_of_spreading s h]
      exact ⟨rfl, .inr ⟨c.offer.key.withFork f, rfl, rfl⟩⟩
  | done applied =>
    rw [c.move_of_done s h]
    exact ⟨rfl, .inl rfl⟩

@[simp] theorem move_offer : (c.move s).1.offer = c.offer := (c.move_effect s).1

theorem move_path : s.Path [] (c.move s).2.2 := by
  obtain ⟨-, h | ⟨k, -, h⟩⟩ := c.move_effect s <;> rw [h]
  · exact .refl
  · exact (Store.Step.identify k _).path_silent

/-- Nobody meddles with another relation. -/
theorem move_known {k : Key} (hk : c.offer.key.locator ≠ k.locator) :
    (c.move s).2.2.known k = s.known k := by
  obtain ⟨-, h | ⟨k', hk', h⟩⟩ := c.move_effect s <;> rw [h]
  refine Store.known_identify_of_ne ?_
  rintro rfl
  exact hk hk'.symm

/-- Nobody creates an entry. -/
theorem isSome_known_move (k : Key) : ((c.move s).2.2.known k).isSome = (s.known k).isSome := by
  obtain ⟨-, h | ⟨k', -, h⟩⟩ := c.move_effect s <;> rw [h]
  rw [s.known_identify]
  split
  · subst k'
    simp
  · rfl

/-- What takes an identity on had none before and has one now. -/
theorem move_applied {k : Key} (h : (c.move s).2.1 = some k) :
    s.unresolved k = true ∧ (c.move s).2.2.known k = some c.offer.identity := by
  cases hstage : c.stage with
  | waiting =>
    rw [c.move_of_waiting s hstage] at h ⊢
    split at h
    · rename_i hunresolved
      obtain rfl := Option.some.inj h
      rw [if_pos hunresolved]
      exact ⟨hunresolved, Store.known_identify_self hunresolved c.offer.valid⟩
    · cases h
  | spreading ahead =>
    cases ahead with
    | nil =>
      rw [c.move_of_spread s hstage] at h
      cases h
    | cons f rest =>
      rw [c.move_of_spreading s hstage] at h ⊢
      dsimp only at h ⊢
      split at h
      · rename_i haccepted
        obtain rfl := Option.some.inj h
        rw [s.identify_snd, c.offer.valid, Bool.and_true] at haccepted
        exact ⟨haccepted, Store.known_identify_self haccepted c.offer.valid⟩
      · cases h
  | done applied =>
    rw [c.move_of_done s hstage] at h
    cases h

end Contender

namespace Contest

variable (c : Contest)

/-! ## One move -/

theorem step_advance {n : Nat} {r : Contender} (h : c.contenders[n]? = some r) :
    c.step (.advance n) =
      ((r.move c.store).2.1, ⟨(r.move c.store).2.2, c.contenders.set n (r.move c.store).1⟩) := by
  simp only [step, h]

theorem step_idle {n : Nat} (h : c.contenders[n]? = none) : c.step (.advance n) = (none, c) := by
  simp only [step, h]

theorem step_path (m : Move) : ∃ ds, c.store.Path ds (c.step m).2.store := by
  have hmodify : ∀ k f, c.store.find? k = none → c.store.modify k f = c.store := by
    intro k f h
    simp [Store.modify, h]
  cases m with
  | advance n =>
    cases hn : c.contenders[n]? with
    | none =>
      rw [c.step_idle hn]
      exact ⟨_, .refl⟩
    | some r =>
      rw [c.step_advance hn]
      exact ⟨_, r.move_path c.store⟩
  | create k => exact ⟨_, (Store.Step.ensure k).path_silent⟩
  | post p =>
    cases hfind : c.store.find? p.key with
    | none => exact ⟨[], by simpa [step, hmodify _ _ hfind] using Store.Path.refl⟩
    | some e => exact ⟨_, (Store.Step.post p (by rw [hfind]; rfl)).path⟩
  | endRun r =>
    cases hfind : c.store.find? r.key with
    | none => exact ⟨[], by simpa [step, Store.endRun, hmodify _ _ hfind] using Store.Path.refl⟩
    | some e => exact ⟨_, (Store.Step.endRun r (by rw [hfind]; rfl)).path⟩
  | visit k => exact ⟨_, (Store.Step.take k).path⟩
  | turn => exact ⟨_, Store.Step.turn.path⟩

theorem run_path (moves : List Move) : ∃ ds, c.store.Path ds (c.run moves).store := by
  induction moves generalizing c with
  | nil => exact ⟨_, .refl⟩
  | cons m rest ih =>
    obtain ⟨ds, hstep⟩ := c.step_path m
    obtain ⟨es, hrest⟩ := ih (c.step m).2
    exact ⟨ds ++ es, hstep.trans hrest⟩

/-- What takes an identity on had none before and has one now. -/
theorem step_applied {m : Move} {k : Key} (h : (c.step m).1 = some k) :
    c.store.unresolved k = true ∧
      ∃ i, (c.step m).2.store.known k = some i ∧ i.valid = true := by
  cases m with
  | advance n =>
    cases hn : c.contenders[n]? with
    | none =>
      rw [c.step_idle hn] at h
      cases h
    | some r =>
      rw [c.step_advance hn] at h ⊢
      obtain ⟨hbefore, hafter⟩ := r.move_applied c.store h
      exact ⟨hbefore, _, hafter, r.offer.valid⟩
  | create | post | endRun | visit | turn => cases h

/-- Only the creation of an entry makes one. -/
theorem step_created {m : Move} {k : Key} (h : ((c.step m).2.store.known k).isSome) :
    (c.store.known k).isSome ∨ m = .create k := by
  cases m with
  | advance n =>
    left
    cases hn : c.contenders[n]? with
    | none => rwa [c.step_idle hn] at h
    | some r =>
      rw [c.step_advance hn] at h
      rwa [← r.isSome_known_move]
  | create k' =>
    by_cases hk : k' = k
    · exact .inr (by rw [hk])
    · left
      simpa [step, Store.known_ensure, hk] using h
  | post p =>
    left
    rwa [step, c.store.known_modify _ _ fun _ => Charge.apply_identity ..] at h
  | endRun r =>
    left
    simpa [step] using h
  | visit k' =>
    left
    simpa [step] using h
  | turn => exact .inl h

theorem run_created {moves : List Move} {k : Key} (h : ((c.run moves).store.known k).isSome) :
    (c.store.known k).isSome ∨ .create k ∈ moves := by
  induction moves generalizing c with
  | nil => exact .inl h
  | cons m rest ih =>
    rcases ih (c.step m).2 h with hstep | hrest
    · rcases c.step_created hstep with hbefore | rfl
      · exact .inl hbefore
      · exact .inr (List.mem_cons_self ..)
    · exact .inr (List.mem_cons_of_mem _ hrest)

theorem step_offers (m : Move) :
    (c.step m).2.contenders.map Contender.offer = c.contenders.map Contender.offer := by
  cases m with
  | advance n =>
    cases hn : c.contenders[n]? with
    | none => rw [c.step_idle hn]
    | some r =>
      rw [c.step_advance hn, List.map_set, r.move_offer]
      refine List.ext_getElem? fun m => ?_
      rw [List.getElem?_set]
      split
      · subst m
        obtain ⟨hlength, rfl⟩ := List.getElem?_eq_some_iff.mp hn
        simp [hlength]
      · rfl
  | create | post | endRun | visit | turn => rfl

theorem run_offers (moves : List Move) :
    (c.run moves).contenders.map Contender.offer = c.contenders.map Contender.offer := by
  induction moves generalizing c with
  | nil => rfl
  | cons m rest ih => rw [run_cons, ih, c.step_offers]

theorem start_offers (store : Store) (offers : List Offer) :
    (start store offers).contenders.map Contender.offer = offers := by
  simp [start, Function.comp_def]

/-! ## Every key once -/

theorem not_mem_applications {k : Key} {i : Identity} (hk : c.store.known k = some i)
    (hi : i.valid = true) (moves : List Move) : k ∉ c.applications moves := by
  induction moves generalizing c with
  | nil => exact List.not_mem_nil
  | cons m rest ih =>
    obtain ⟨ds, hpath⟩ := c.step_path m
    have hrest := ih (c.step m).2 (hpath.known hk hi)
    rw [applications, List.mem_append, Option.mem_toList]
    rintro (happlied | hmem)
    · have hunresolved := (c.step_applied happlied).1
      rw [Store.not_unresolved_of_known hk hi] at hunresolved
      cases hunresolved
    · exact hrest hmem

theorem applications_nodup (moves : List Move) : (c.applications moves).Nodup := by
  induction moves generalizing c with
  | nil => exact List.nodup_nil
  | cons m rest ih =>
    have hrest := ih (c.step m).2
    rw [applications]
    cases happlied : (c.step m).1 with
    | none => exact hrest
    | some k =>
      obtain ⟨-, i, hk, hi⟩ := c.step_applied happlied
      exact List.nodup_cons.mpr ⟨(c.step m).2.not_mem_applications hk hi rest, hrest⟩

/-! ## Moves of one caller -/

variable {c}

/-- Every move of a caller brings it nearer to its end, whatever the others do. -/
theorem left_move (r : Contender) (s : Store) : (r.move s).1.stage.left ≤ r.stage.left - 1 := by
  have hothers : r.others.length + 1 ≤ Fork.all.length := by
    unfold Contender.others
    cases r.offer.key.fork <;> decide
  cases hstage : r.stage with
  | waiting =>
    rw [r.move_of_waiting s hstage]
    split
    · simpa [Stage.left] using hothers
    · exact Nat.zero_le _
  | spreading ahead =>
    cases ahead with
    | nil =>
      rw [r.move_of_spread s hstage]
      exact Nat.zero_le _
    | cons f rest =>
      rw [r.move_of_spreading s hstage]
      simp [Stage.left]
  | done applied =>
    rw [r.move_of_done s hstage, hstage]
    exact Nat.zero_le _

theorem left_run {n : Nat} {r : Contender} (hn : c.contenders[n]? = some r) (moves : List Move) :
    ∃ r', (c.run moves).contenders[n]? = some r' ∧
      r'.stage.left ≤ r.stage.left - moves.count (.advance n) := by
  induction moves generalizing c r with
  | nil => exact ⟨r, hn, Nat.le_refl _⟩
  | cons m rest ih =>
    have hstep : ∃ r', (c.step m).2.contenders[n]? = some r' ∧
        r'.stage.left ≤ r.stage.left - [m].count (.advance n) := by
      cases m with
      | advance n' =>
        by_cases hsame : n' = n
        · subst n'
          rw [c.step_advance hn]
          refine ⟨_, List.getElem?_set_self (List.getElem?_eq_some_iff.mp hn).1, ?_⟩
          simpa using left_move r c.store
        · refine ⟨r, ?_, by simp [hsame]⟩
          cases hn' : c.contenders[n']? with
          | none => rwa [c.step_idle hn']
          | some r' =>
            rw [c.step_advance hn']
            exact (List.getElem?_set_ne hsame).trans hn
      | create | post | endRun | visit | turn => exact ⟨r, hn, by simp⟩
    obtain ⟨r', hr', hleft⟩ := hstep
    obtain ⟨r'', hr'', hleft'⟩ := ih hr'
    refine ⟨r'', hr'', ?_⟩
    rw [← List.singleton_append, List.count_append]
    omega

/-- Nobody has to wait for anybody: a few moves of its own bring every caller to its end. -/
theorem done_of_moves {store : Store} {offers : List Offer} {moves : List Move}
    (h : ∀ n < offers.length, Fork.all.length + 1 ≤ moves.count (.advance n)) :
    ∀ r ∈ ((start store offers).run moves).contenders, ∃ applied, r.stage = .done applied := by
  intro r hr
  obtain ⟨n, hn⟩ := List.mem_iff_getElem?.mp hr
  have hlength : n < offers.length := by
    have hsize := (List.getElem?_eq_some_iff.mp hn).1
    rwa [← List.length_map Contender.offer, run_offers, start_offers] at hsize
  have hstart : (start store offers).contenders[n]? = some { offer := offers[n] } := by
    simp [start, hlength]
  obtain ⟨r', hr', hleft⟩ := left_run hstart moves
  obtain rfl : r = r' := Option.some.inj (hn.symm.trans hr')
  have hzero : r.stage.left = 0 := by
    have hmoves := h n hlength
    have hwaiting : (Stage.waiting).left = Fork.all.length + 1 := rfl
    dsimp only at hleft
    omega
  cases hstage : r.stage with
  | waiting => simp [hstage, Stage.left] at hzero
  | spreading ahead => simp [hstage, Stage.left] at hzero
  | done applied => exact ⟨applied, rfl⟩

theorem run_spreading (s : Store) (o : Offer) (ahead : List Fork) :
    run ⟨s, [⟨o, .spreading ahead⟩]⟩ (List.replicate (ahead.length + 1) (.advance 0)) =
      ⟨(s.identifyAll o.identity (ahead.map o.key.withFork)).2, [⟨o, .done true⟩]⟩ := by
  induction ahead generalizing s with
  | nil => rfl
  | cons f rest ih => exact ih _

theorem run_done (s : Store) (o : Offer) (applied : Bool) (n : Nat) :
    run ⟨s, [⟨o, .done applied⟩]⟩ (List.replicate n (.advance 0)) =
      ⟨s, [⟨o, .done applied⟩]⟩ := by
  induction n with
  | zero => rfl
  | succ n ih => exact ih

/-- The moves of a caller, one right after the other, are what it does in one go. -/
theorem run_alone (s : Store) (o : Offer) :
    (start s [o]).run (List.replicate (Fork.all.length + 1) (.advance 0)) =
      ⟨(s.resolve o.key o.identity).2, [⟨o, .done (s.resolve o.key o.identity).1⟩]⟩ := by
  have hlength : (Contender.others { offer := o }).length + 1 = Fork.all.length := by
    unfold Contender.others
    cases o.key.fork <;> decide
  rw [List.replicate_succ, run_cons, step_advance (r := { offer := o }) _ rfl]
  unfold Store.resolve
  rcases hidentify : s.identify o.key o.identity with ⟨t, _ | _⟩
  · have hmove : Contender.move { offer := o } s =
        ({ offer := o, stage := .done false }, none, t) := by
      simp only [Contender.move, hidentify]
    rw [start, hmove]
    exact run_done t o false _
  · have hmove : Contender.move { offer := o } s =
        ({ offer := o, stage := .spreading (Contender.others { offer := o }) }, some o.key, t) := by
      simp only [Contender.move, hidentify]
    rw [start, hmove, ← hlength]
    exact run_spreading t o _

/-- A closing snapshot is the turn to the next bucket and a move for every key. -/
theorem run_closing (contenders : List Contender) (s : Store) :
    run ⟨s, contenders⟩ (.turn :: s.keys.map .visit) = ⟨s.close.2.2, contenders⟩ := by
  have hvisits : ∀ (ks : List Key) (t : Store),
      run ⟨t, contenders⟩ (ks.map .visit) = ⟨(t.takeAll ks).2, contenders⟩ := by
    intro ks
    induction ks with
    | nil => exact fun _ => rfl
    | cons k rest ih => exact fun t => ih _
  exact hvisits _ _

end Contest

end BlockLedger
