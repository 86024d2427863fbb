import BlockLedger.Proofs.Store.Contest

/-
# The first writer wins

If all who contend for a relation begin with the same fork, the first one to reach its entry is the
only one who goes on to the other forks.  So until somebody has made a move the relation is
unclaimed; from then on it belongs to that one, whose identity the forks get one after the other
while everybody else comes too late.
-/

namespace BlockLedger

namespace Contest

variable (c : Contest)

/-! ## The race for one relation -/

/-- What the moves of others leave as it is: the contenders for a relation, and what is known of
its forks. -/
structure Aside (k : Key) (c d : Contest) : Prop where
  contenders : ∀ (n : Nat) (r : Contender), r.offer.key.locator = k.locator →
    (d.contenders[n]? = some r ↔ c.contenders[n]? = some r)
  known : ∀ f j, c.store.known (k.withFork f) = some j → d.store.known (k.withFork f) = some j

/-- Whether a move is one of a contender for a relation. -/
def Concerns (c : Contest) (k : Key) : Move → Prop
  | .advance n => ∃ r, c.contenders[n]? = some r ∧ r.offer.key.locator = k.locator
  | _ => False

theorem step_aside {k : Key} {m : Move} (h : ¬c.Concerns k m) : Aside k c (c.step m).2 := by
  cases m with
  | advance n =>
    cases hn : c.contenders[n]? with
    | none =>
      rw [c.step_idle hn]
      exact ⟨fun _ _ _ => Iff.rfl, fun _ _ h => h⟩
    | some r =>
      have hother : r.offer.key.locator ≠ k.locator := fun hr => h ⟨r, hn, hr⟩
      rw [c.step_advance hn]
      refine ⟨fun m r' hr' => ?_, fun f j hj => ?_⟩
      · rw [List.getElem?_set]
        split
        · subst m
          have hmoved : (r.move c.store).1 ≠ r' := by
            rintro rfl
            rw [r.move_offer] at hr'
            exact hother hr'
          have hsame : r ≠ r' := by
            rintro rfl
            exact hother hr'
          simp [hn, hmoved, hsame]
        · exact Iff.rfl
      · have hknown := r.move_known c.store (k := k.withFork f) hother
        exact hknown.trans hj
  | create k' =>
    refine ⟨fun _ _ _ => Iff.rfl, fun f j hj => ?_⟩
    simp only [step, Store.known_ensure]
    split
    · subst k'
      rw [hj, Option.getD_some]
    · exact hj
  | post p =>
    refine ⟨fun _ _ _ => Iff.rfl, fun f j hj => ?_⟩
    rwa [step, c.store.known_modify _ _ fun _ => Charge.apply_identity ..]
  | endRun r => exact ⟨fun _ _ _ => Iff.rfl, fun f j hj => by simpa [step] using hj⟩
  | visit k' => exact ⟨fun _ _ _ => Iff.rfl, fun f j hj => by simpa [step] using hj⟩
  | turn => exact ⟨fun _ _ _ => Iff.rfl, fun f j hj => hj⟩

/-- All who contend for a relation begin with the same fork. -/
def Agreed (k : Key) (offers : List Offer) : Prop :=
  ∀ o ∈ offers, o.key.locator = k.locator → o.key = k

/-- Nobody who contends for a relation has made a move, and its forks are as they were. -/
structure Unclaimed (k : Key) (first : Store) (c : Contest) : Prop where
  waiting : ∀ (n : Nat) (r : Contender), c.contenders[n]? = some r →
    r.offer.key.locator = k.locator → r.stage = .waiting
  forks : ∀ f, first.unresolved (k.withFork f) = true → c.store.unresolved (k.withFork f) = true

/-- One of those who contend for a relation came first: nobody else will get beyond the entry of
its key, and the forks are told one after the other. -/
structure Claimed (k : Key) (first : Store) (n : Nat) (r : Contender) (c : Contest) : Prop where
  contender : c.contenders[n]? = some r
  key : r.offer.key = k
  applied : r.stage.applied = true
  primary : c.store.known k = some r.offer.identity
  forks : ∀ f, first.unresolved (k.withFork f) = true →
    c.store.known (k.withFork f) = some r.offer.identity ∨
      f ∈ r.stage.ahead ∧ c.store.unresolved (k.withFork f) = true
  others : ∀ (m : Nat) (r' : Contender), m ≠ n → c.contenders[m]? = some r' →
    r'.offer.key.locator = k.locator → r'.stage.applied = false

variable {c} {k : Key} {first : Store} {d : Contest}

theorem Aside.unresolved (h : Aside k c d) {f : Fork}
    (hf : c.store.unresolved (k.withFork f) = true) : d.store.unresolved (k.withFork f) = true := by
  obtain ⟨j, hj, hunknown⟩ := (Store.unresolved_iff _ _).mp hf
  exact (Store.unresolved_iff _ _).mpr ⟨j, h.known f j hj, hunknown⟩

theorem Unclaimed.aside (hc : Unclaimed k first c) (h : Aside k c d) : Unclaimed k first d where
  waiting n r hn hr := hc.waiting n r ((h.contenders n r hr).mp hn) hr
  forks f hf := h.unresolved (hc.forks f hf)

theorem Claimed.aside {n : Nat} {r : Contender} (hc : Claimed k first n r c) (h : Aside k c d) :
    Claimed k first n r d where
  contender := (h.contenders n r (by rw [hc.key])).mpr hc.contender
  key := hc.key
  applied := hc.applied
  primary := h.known k.fork _ hc.primary
  forks f hf := (hc.forks f hf).imp (h.known f _) fun ⟨hmem, hu⟩ => ⟨hmem, h.unresolved hu⟩
  others m r' hm hr' hlocator :=
    hc.others m r' hm ((h.contenders m r' hlocator).mp hr') hlocator

theorem Agreed.key (hagreed : Agreed k (c.contenders.map Contender.offer)) {n : Nat} {r : Contender}
    (hn : c.contenders[n]? = some r) (hr : r.offer.key.locator = k.locator) : r.offer.key = k :=
  hagreed r.offer (List.mem_map_of_mem (List.mem_of_getElem? hn)) hr

theorem mem_others (r : Contender) {f : Fork} (h : f ≠ r.offer.key.fork) : f ∈ r.others := by
  simp [Contender.others, Fork.mem_all, h]

/-- The first one to make a move gets the relation. -/
theorem Unclaimed.step (hc : Unclaimed k first c)
    (hagreed : Agreed k (c.contenders.map Contender.offer)) (hk : first.unresolved k = true)
    (m : Move) :
    Unclaimed k first (c.step m).2 ∨ ∃ n r, Claimed k first n r (c.step m).2 := by
  by_cases hconcerns : c.Concerns k m
  · right
    cases m with
    | advance n =>
      obtain ⟨r, hn, hr⟩ := hconcerns
      have hkey : r.offer.key = k := hagreed.key hn hr
      have hunresolved : c.store.unresolved k = true := hc.forks k.fork hk
      have hmove := r.move_of_waiting c.store (hc.waiting n r hn hr)
      rw [hkey, if_pos hunresolved] at hmove
      have hprimary : (c.store.identify k r.offer.identity).1.known k = some r.offer.identity :=
        Store.known_identify_self hunresolved r.offer.valid
      have hlength : n < c.contenders.length := (List.getElem?_eq_some_iff.mp hn).1
      rw [c.step_advance hn, hmove]
      refine ⟨n, { r with stage := .spreading r.others },
        List.getElem?_set_self hlength, hkey, rfl, hprimary, fun f hf => ?_, ?_⟩
      · by_cases hfork : k.withFork f = k
        · left
          rw [hfork]
          exact hprimary
        · right
          refine ⟨mem_others r ?_, ?_⟩
          · rintro rfl
            exact hfork (by rw [hkey]; rfl)
          · rw [Store.unresolved_congr (Store.known_identify_of_ne (Ne.symm hfork))]
            exact hc.forks f hf
      · intro m r' hm hr' hlocator
        rw [List.getElem?_set_ne hm.symm] at hr'
        rw [hc.waiting m r' hr' hlocator]
        rfl
    | create | post | endRun | visit | turn => exact hconcerns.elim
  · exact .inl (hc.aside (c.step_aside hconcerns))

namespace Claimed

variable {n : Nat} {r : Contender}

/-- How the one who came first may go on. -/
theorem goesOn (hc : Claimed k first n r c) {r' : Contender} {t : Store}
    (hpath : c.store.Path [] t) (hoffer : r'.offer = r.offer) (happlied : r'.stage.applied = true)
    (hforks : ∀ f, first.unresolved (k.withFork f) = true →
      t.known (k.withFork f) = some r'.offer.identity ∨
        f ∈ r'.stage.ahead ∧ t.unresolved (k.withFork f) = true) :
    Claimed k first n r' ⟨t, c.contenders.set n r'⟩ where
  contender := List.getElem?_set_self (List.getElem?_eq_some_iff.mp hc.contender).1
  key := by rw [hoffer, hc.key]
  applied := happlied
  primary := by
    rw [hoffer]
    exact hpath.known hc.primary r.offer.valid
  forks := hforks
  others m r'' hm hr'' hlocator := by
    rw [List.getElem?_set_ne hm.symm] at hr''
    exact hc.others m r'' hm hr'' hlocator

/-- The first one tells the other forks, one after the other. -/
theorem own (hc : Claimed k first n r c) :
    ∃ r', Claimed k first n r' (c.step (.advance n)).2 ∧ r'.offer = r.offer := by
  have happlied := hc.applied
  have hforks := hc.forks
  rw [c.step_advance hc.contender]
  cases hstage : r.stage with
  | waiting =>
    rw [hstage] at happlied
    cases happlied
  | done applied =>
    rw [r.move_of_done c.store hstage]
    exact ⟨r, hc.goesOn .refl rfl happlied hforks, rfl⟩
  | spreading ahead =>
    refine ⟨(r.move c.store).1, ?_, r.move_offer c.store⟩
    cases ahead with
    | nil =>
      rw [r.move_of_spread c.store hstage]
      refine hc.goesOn .refl rfl rfl fun f hf => .inl ?_
      rcases hforks f hf with hknown | ⟨hmem, -⟩
      · exact hknown
      · rw [hstage] at hmem
        cases hmem
    | cons f rest =>
      have hpath := r.move_path c.store
      rw [r.move_of_spreading c.store hstage, hc.key] at hpath ⊢
      refine hc.goesOn hpath rfl rfl fun f' hf' => ?_
      rcases hforks f' hf' with hknown | ⟨hmem, hunresolved⟩
      · exact .inl (hpath.known hknown r.offer.valid)
      · by_cases hfork : k.withFork f = k.withFork f'
        · left
          rw [hfork]
          exact Store.known_identify_self hunresolved r.offer.valid
        · right
          rw [hstage] at hmem
          refine ⟨(List.mem_cons.mp hmem).resolve_left fun h => hfork (by rw [h]), ?_⟩
          dsimp only
          rw [Store.unresolved_congr (Store.known_identify_of_ne hfork)]
          exact hunresolved

/-- Another one who has got nowhere changes nothing. -/
theorem tolerates (hc : Claimed k first n r c) {n' : Nat} (hn' : n' ≠ n) {r' : Contender}
    {t : Store} (hknown : ∀ k', t.known k' = c.store.known k')
    (happlied : r'.stage.applied = false) :
    Claimed k first n r ⟨t, c.contenders.set n' r'⟩ where
  contender := by
    rw [List.getElem?_set_ne hn']
    exact hc.contender
  key := hc.key
  applied := hc.applied
  primary := by rw [hknown, hc.primary]
  forks f hf := by
    rw [hknown, Store.unresolved_congr (hknown _)]
    exact hc.forks f hf
  others m r'' hm hr'' hlocator := by
    rw [List.getElem?_set] at hr''
    split at hr''
    · split at hr''
      · obtain rfl := Option.some.inj hr''
        exact happlied
      · cases hr''
    · exact hc.others m r'' hm hr'' hlocator

/-- Whoever else contends for the relation comes too late. -/
theorem late (hc : Claimed k first n r c) {n' : Nat} (hne : n' ≠ n) {r' : Contender}
    (hn' : c.contenders[n']? = some r') (hkey : r'.offer.key = k) :
    Claimed k first n r (c.step (.advance n')).2 := by
  have happlied := hc.others n' r' hne hn' (by rw [hkey])
  rw [c.step_advance hn']
  cases hstage : r'.stage with
  | waiting =>
    have hresolved := Store.not_unresolved_of_known hc.primary r.offer.valid
    have hmove := r'.move_of_waiting c.store hstage
    rw [hkey, hresolved, if_neg Bool.false_ne_true] at hmove
    rw [hmove]
    refine hc.tolerates hne (fun k' => ?_) rfl
    by_cases hk' : k = k'
    · subst k'
      have hpath := (Store.Step.identify (s := c.store) k r'.offer.identity).path_silent
      rw [hc.primary]
      exact hpath.known hc.primary r.offer.valid
    · exact Store.known_identify_of_ne hk'
  | spreading ahead =>
    rw [hstage] at happlied
    cases happlied
  | done applied =>
    rw [r'.move_of_done c.store hstage]
    exact hc.tolerates hne (fun _ => rfl) happlied

theorem step (hc : Claimed k first n r c) (hagreed : Agreed k (c.contenders.map Contender.offer))
    (m : Move) : ∃ r', Claimed k first n r' (c.step m).2 ∧ r'.offer = r.offer := by
  by_cases hconcerns : c.Concerns k m
  · cases m with
    | advance n' =>
      obtain ⟨r', hn', hr'⟩ := hconcerns
      by_cases hsame : n' = n
      · subst n'
        exact hc.own
      · exact ⟨r, hc.late hsame hn' (hagreed.key hn' hr'), rfl⟩
    | create | post | endRun | visit | turn => exact hconcerns.elim
  · exact ⟨r, hc.aside (c.step_aside hconcerns), rfl⟩

end Claimed

/-! ## The whole run -/

/-- As long as a run goes on, a relation is unclaimed or belongs to one of its contenders. -/
theorem run_race (hc : Unclaimed k first c ∨ ∃ n r, Claimed k first n r c)
    (hagreed : Agreed k (c.contenders.map Contender.offer)) (hk : first.unresolved k = true)
    (moves : List Move) :
    Unclaimed k first (c.run moves) ∨ ∃ n r, Claimed k first n r (c.run moves) := by
  induction moves generalizing c with
  | nil => exact hc
  | cons m rest ih =>
    refine ih ?_ (by rwa [c.step_offers])
    rcases hc with hunclaimed | ⟨n, r, hclaimed⟩
    · exact hunclaimed.step hagreed hk m
    · obtain ⟨r', hr', -⟩ := hclaimed.step hagreed m
      exact .inr ⟨n, r', hr'⟩

theorem start_unclaimed (store : Store) (offers : List Offer) (k : Key) :
    Unclaimed k store (start store offers) where
  waiting n r hn _ := by
    obtain ⟨o, -, rfl⟩ := List.mem_map.mp (List.mem_of_getElem? hn)
    rfl
  forks f hf := hf

/-- Once all who contend for a relation are done, one of them is the first. -/
theorem Claimed.decided {n : Nat} {r : Contender} (hc : Claimed k first n r c)
    (hdone : ∀ r' ∈ c.contenders, r'.offer.key = k → ∃ applied, r'.stage = .done applied) :
    c.contenders[n]? = some ⟨r.offer, .done true⟩ ∧
      (∀ (m : Nat) (r' : Contender), m ≠ n → c.contenders[m]? = some r' → r'.offer.key = k →
        r'.stage = .done false) ∧
      ∀ f, first.unresolved (k.withFork f) = true →
        c.store.known (k.withFork f) = some r.offer.identity := by
  have hstage : r.stage = .done true := by
    obtain ⟨applied, hr⟩ := hdone r (List.mem_of_getElem? hc.contender) hc.key
    have happlied := hc.applied
    rw [hr] at happlied ⊢
    rw [← happlied]
    rfl
  refine ⟨?_, fun m r' hm hr' hkey => ?_, fun f hf => ?_⟩
  · rw [hc.contender, ← hstage]
  · obtain ⟨applied, hstage'⟩ := hdone r' (List.mem_of_getElem? hr') hkey
    have happlied := hc.others m r' hm hr' (by rw [hkey])
    rw [hstage'] at happlied ⊢
    rw [← happlied]
    rfl
  · rcases hc.forks f hf with hknown | ⟨hahead, -⟩
    · exact hknown
    · rw [hstage] at hahead
      cases hahead

/-! ## All callers -/

/-- What is known of a key stays known; every key takes an identity on at most once; and if all
who contend for a relation begin with the same fork, whose entry had no identity, then once they
are done exactly one of them has got its identity through, to all forks that had none.  The entries
are those that were there and those that were created. -/
theorem first_writer_wins (store : Store) (offers : List Offer) (moves : List Move) :
    let last := (start store offers).run moves
    (∀ k i, last.store.known k = some i → i.valid = true →
      ∀ later, (last.run later).store.known k = some i) ∧
    ((start store offers).applications moves).Nodup ∧
    (∀ k, store.unresolved k = true → Agreed k offers → (∃ o ∈ offers, o.key = k) →
      (∀ r ∈ last.contenders, r.offer.key = k → ∃ applied, r.stage = .done applied) →
      ∃ (n : Nat) (o : Offer), offers[n]? = some o ∧ o.key = k ∧
        last.contenders[n]? = some ⟨o, .done true⟩ ∧
        (∀ (m : Nat) (r : Contender), m ≠ n → last.contenders[m]? = some r → r.offer.key = k →
          r.stage = .done false) ∧
        ∀ f, store.unresolved (k.withFork f) = true →
          last.store.known (k.withFork f) = some o.identity) ∧
    ∀ k, (last.store.find? k).isSome → (store.find? k).isSome ∨ .create k ∈ moves := by
  intro last
  have hoffers : last.contenders.map Contender.offer = offers := by
    rw [(start store offers).run_offers, start_offers]
  refine ⟨?_, applications_nodup _ moves, ?_, ?_⟩
  · intro k i hk hi later
    obtain ⟨ds, hpath⟩ := last.run_path later
    exact hpath.known hk hi
  · rintro k hk hagreed ⟨o, ho, hkey⟩ hdone
    have hrace := run_race (.inl (start_unclaimed store offers k))
      (by rwa [start_offers]) hk moves
    rcases hrace with hunclaimed | ⟨n, r, hclaimed⟩
    · -- somebody contends for the relation, and cannot be done without having made a move
      rw [← hoffers] at ho
      obtain ⟨r, hr, rfl⟩ := List.mem_map.mp ho
      obtain ⟨n, hn⟩ := List.mem_iff_getElem?.mp hr
      obtain ⟨applied, hstage⟩ := hdone r hr hkey
      have hwaiting := hunclaimed.waiting n r hn (by rw [hkey])
      rw [hstage] at hwaiting
      cases hwaiting
    · obtain ⟨hwinner, hothers, hforks⟩ := hclaimed.decided hdone
      refine ⟨n, r.offer, ?_, hclaimed.key, hwinner, hothers, hforks⟩
      rw [← hoffers, List.getElem?_map, hclaimed.contender]
      rfl
  · intro k hk
    rw [← Store.isSome_known] at hk ⊢
    exact (start store offers).run_created hk

/-- Two callers who have found out different things about a relation. -/
def rivals : List Offer :=
  [⟨⟨⟨1663, 5, 16500⟩, .main⟩, { oid := 20001, kind := some .table, valid := true }, rfl⟩,
    ⟨⟨⟨1663, 5, 16500⟩, .main⟩, { oid := 20002, kind := some .index, valid := true }, rfl⟩]

/-- They come between each other, and a closing snapshot between them. -/
def crossing : List Move :=
  [.advance 1, .turn, .advance 0, .advance 1, .visit ⟨⟨1663, 5, 16500⟩, .main⟩, .advance 0,
    .advance 1, .create ⟨⟨1663, 5, 16500⟩, .init⟩, .advance 0, .advance 1, .advance 0, .advance 1,
    .advance 0]

/-- One of them gets its identity through to both forks, and there it stays. -/
theorem first_writer_wins_crossing :
    let k : Key := ⟨⟨1663, 5, 16500⟩, .main⟩
    let store := ((({} : Store).ensure k).1.ensure (k.withFork .freeSpace)).1
    ∃ o ∈ rivals, ∀ later,
      ((((start store rivals).run crossing).run later).store.known k = some o.identity) ∧
      ((((start store rivals).run crossing).run later).store.known (k.withFork .freeSpace) =
        some o.identity) := by
  intro k store
  have hunresolved : store.unresolved k = true ∧
      store.unresolved (k.withFork .freeSpace) = true := by
    have hempty : ∀ k, ({} : Store).known k = none := fun k => by simp [Store.known, Store.find?]
    simp [Store.unresolved_iff, store, Store.known_ensure, hempty, k, Key.withFork, Entry.new,
      Key.isTemporaries]
  obtain ⟨hstays, -, hwins, -⟩ := first_writer_wins store rivals crossing
  obtain ⟨n, o, ho, -, -, -, hforks⟩ := hwins k hunresolved.1 (by simp [Agreed, rivals, k])
    ⟨_, List.mem_cons_self .., rfl⟩ fun r hr _ => done_of_moves (by decide) r hr
  refine ⟨o, List.mem_of_getElem? ho, fun later => ⟨?_, ?_⟩⟩
  · exact hstays _ _ (hforks k.fork hunresolved.1) o.valid later
  · exact hstays _ _ (hforks .freeSpace hunresolved.2) o.valid later

end Contest

end BlockLedger
