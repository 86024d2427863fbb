import BlockLedger.Proofs.Cluster.Backlogs

/-
# No key is forgotten

As long as an entry has no identity, the member that has created it remembers its key, provided that
the key is its business: the key is on its list, or it lies ahead on its round, and it does so once.
A key is let go of only when its entry has an identity, which it then keeps, be it that the member
has found it out itself, or that somebody else has been faster, or that it came with another fork.
Nothing else is ever noted down.

Catalogs may fail, may not know a relation, and may say something else every time.  All that is
asked of them is that they mark as valid what they return.
-/

namespace BlockLedger

/-! ## What a backlog remembers -/

namespace Backlog

/-- The keys in a backlog are remembered once, belong there, and have been made there, and among them
are all keys made there that belong there and whose entries have no identity. -/
structure Remembers (d : Backlog) (made : Key → Prop) (s : Store) : Prop where
  nodup : d.due.Nodup
  due : ∀ k ∈ d.due, d.wants k = true ∧ made k
  unresolved : ∀ k, made k → d.owns k = true → s.unresolved k = true → k ∈ d.due

namespace Remembers

variable {d : Backlog} {made : Key → Prop} {s t : Store}

/-- Keys that are done with may leave a backlog. -/
theorem settle (h : d.Remembers made s)
    (hold : ∀ k, made k → t.unresolved k = true → s.unresolved k = true) {due : List Key}
    (order : due.Sublist d.due) (kept : ∀ k ∈ d.due, t.unresolved k = true → k ∈ due) :
    { d with due }.Remembers made t where
  nodup := order.nodup h.nodup
  due k hk := h.due k (order.subset hk)
  unresolved k hmade howns hu := kept k (h.unresolved k hmade howns (hold k hmade hu)) hu

/-- Keys may join a backlog when their entries are created. -/
theorem enrol (h : d.Remembers made s)
    (hold : ∀ k, made k → t.unresolved k = true → s.unresolved k = true) {ks : List Key}
    (nodup : ks.Nodup) (fresh : ∀ k ∈ ks, ¬made k)
    (apart : ∀ k ∈ ks, t.unresolved k = true → k.isTemporaries = false) :
    { d with due := d.due ++ ks.filter d.wants }.Remembers (fun k => made k ∨ k ∈ ks) t where
  nodup := by
    refine List.nodup_append.mpr ⟨h.nodup, nodup.filter _, ?_⟩
    rintro k hk _ hks rfl
    exact fresh k (List.mem_filter.mp hks).1 (h.due k hk).2
  due k hk := by
    rcases List.mem_append.mp hk with hk | hk
    · exact ⟨(h.due k hk).1, .inl (h.due k hk).2⟩
    · obtain ⟨hks, hwants⟩ := List.mem_filter.mp hk
      exact ⟨hwants, .inr hks⟩
  unresolved k hmade howns hu := by
    rcases hmade with hmade | hks
    · exact List.mem_append_left _ (h.unresolved k hmade howns (hold k hmade hu))
    · refine List.mem_append_right _ (List.mem_filter.mpr ⟨hks, ?_⟩)
      rw [wants, apart k hks hu]
      exact howns

end Remembers

end Backlog

namespace Rounds

variable {P C S : Type}

/-! ## Who has created which entries -/

section Creation

variable [Catalog C] [Sink S]

/-- In a step, a member creates the entry of a key. -/
def Creates (blank : P) (s : Rounds P C S) (d : Doing P C) (i : Nat) (k : Key) : Prop :=
  d.caller? = some i ∧ s.has k = false ∧ (s.step blank d).has k = true

/-- In one of a number of steps, a member has created the entry of a key. -/
def CreatedBy (blank : P) (s : Rounds P C S) (doings : List (Doing P C)) (i : Nat) (k : Key) :
    Prop :=
  ∃ before d after, doings = before ++ d :: after ∧ (s.run blank before).Creates blank d i k

variable {blank : P} {s : Rounds P C S} {i : Nat} {k : Key}

theorem not_createdBy_nil : ¬s.CreatedBy blank [] i k := by
  rintro ⟨before, d, after, h, -⟩
  simp at h

theorem createdBy_concat {doings : List (Doing P C)} {d : Doing P C} :
    s.CreatedBy blank (doings ++ [d]) i k ↔
      s.CreatedBy blank doings i k ∨ (s.run blank doings).Creates blank d i k := by
  constructor
  · rintro ⟨before, e, after, h, hcreates⟩
    rcases List.eq_nil_or_concat after with rfl | ⟨after, f, rfl⟩
    · obtain ⟨rfl, heq⟩ := List.append_inj' h rfl
      obtain rfl := List.singleton_inj.mp heq
      exact .inr hcreates
    · refine .inl ⟨before, e, after, ?_, hcreates⟩
      rw [List.concat_eq_append, ← List.cons_append, ← List.append_assoc] at h
      exact (List.append_inj' h rfl).1
  · rintro (⟨before, e, after, rfl, hcreates⟩ | hcreates)
    · exact ⟨before, e, after ++ [d], by simp, hcreates⟩
    · exact ⟨doings, d, [], rfl, hcreates⟩

end Creation

/-! ## What the backlogs remember -/

/-- Nothing is forgotten, if the members have made what it is said that they have. -/
structure Remembers (s : Rounds P C S) (made : Nat → Key → Prop) : Prop where
  backlogs : ∀ i d, s.backlog? i = some d → d.Remembers (made i) s.store
  present : ∀ i k, made i k → (s.backlog? i).isSome = true ∧ s.has k = true
  maker : ∀ k, s.has k = true → ∃! i, made i k

section Remembers

variable {s t : Rounds P C S} {made : Nat → Key → Prop} {ds : List Mark}

/-- What has no identity after a step, and has been made before, has had none before. -/
theorem Remembers.unresolved (hs : s.Remembers made) (hpath : s.store.Path ds t.store) {i : Nat}
    {k : Key} (hmade : made i k) (hu : t.store.unresolved k = true) :
    s.store.unresolved k = true := by
  rcases hpath.unresolved hu with hu | ⟨hnone, -⟩
  · exact hu
  · cases hnone.symm.trans (hs.present i k hmade).2

/-- Nothing happens to a backlog. -/
theorem Remembers.elsewhere (hs : s.Remembers made) (hpath : s.store.Path ds t.store) {i : Nat}
    {d : Backlog} (hd : s.backlog? i = some d) : d.Remembers (made i) t.store :=
  (hs.backlogs i d hd).settle (fun _ => hs.unresolved hpath) (.refl _) fun _ hk _ => hk

/-- A step in which nothing is created. -/
theorem Remembers.same (hs : s.Remembers made) (entries : ∀ k, t.has k = s.has k)
    (members : ∀ i, (s.backlog? i).isSome = true → (t.backlog? i).isSome = true)
    (backlogs : ∀ i d, t.backlog? i = some d → d.Remembers (made i) t.store) :
    t.Remembers made where
  backlogs := backlogs
  present i k hmade := by
    obtain ⟨hi, hk⟩ := hs.present i k hmade
    exact ⟨members i hi, (entries k).trans hk⟩
  maker k hk := hs.maker k ((entries k).symm.trans hk)

/-- What has been made after a step: what has been made before it, and what the caller has created
in it. -/
def madeBy (made : Nat → Key → Prop) (s t : Rounds P C S) (caller : Option Nat) (i : Nat)
    (k : Key) : Prop :=
  made i k ∨ caller = some i ∧ s.has k = false ∧ t.has k = true

theorem madeBy_same {caller : Option Nat} (entries : ∀ k, t.has k = s.has k) :
    madeBy made s t caller = made := by
  funext i k
  refine propext (or_iff_left ?_)
  rintro ⟨-, hnone, hsome⟩
  rw [entries, hnone] at hsome
  cases hsome

theorem madeBy_enrolled {j : Nat} {ks : List Key} (absent : ∀ k ∈ ks, s.has k = false)
    (entries : ∀ k, t.has k = true ↔ s.has k = true ∨ k ∈ ks) (i : Nat) (k : Key) :
    madeBy made s t (some j) i k ↔ made i k ∨ i = j ∧ k ∈ ks := by
  refine or_congr_right ⟨?_, ?_⟩
  · rintro ⟨hij, hnone, hsome⟩
    rcases (entries k).mp hsome with hsome | hk
    · cases hnone.symm.trans hsome
    · exact ⟨(Option.some.inj hij).symm, hk⟩
  · rintro ⟨rfl, hk⟩
    exact ⟨rfl, absent k hk, (entries k).mpr (.inr hk)⟩

/-- A step in which entries are created. -/
theorem Remembers.enrolled (hs : s.Remembers made) (hpath : s.store.Path ds t.store) {j : Nat}
    {d : Backlog} {ks : List Key} (mine : s.backlog? j = some d) (nodup : ks.Nodup)
    (absent : ∀ k ∈ ks, s.has k = false)
    (backlogs : ∀ i, t.backlog? i =
      if i = j then some { d with due := d.due ++ ks.filter d.wants } else s.backlog? i)
    (entries : ∀ k, t.has k = true ↔ s.has k = true ∨ k ∈ ks) :
    t.Remembers (madeBy made s t (some j)) := by
  have hfresh : ∀ i, ∀ k ∈ ks, ¬made i k := fun i k hk hmade => by
    cases (absent k hk).symm.trans (hs.present i k hmade).2
  have hmade : ∀ i k, madeBy made s t (some j) i k ↔ made i k ∨ i = j ∧ k ∈ ks :=
    madeBy_enrolled absent entries
  refine ⟨fun i d' hd => ?_, fun i k h => ?_, fun k hk => ?_⟩
  · rw [backlogs] at hd
    split at hd
    · cases hd
      subst i
      have hmine : madeBy made s t (some j) j = fun k => made j k ∨ k ∈ ks := by
        funext k
        simp [hmade]
      rw [hmine]
      refine (hs.backlogs j d mine).enrol (fun k => hs.unresolved hpath) nodup (hfresh j)
        fun k hk hu => ?_
      rcases hpath.unresolved hu with hu | ⟨-, htemp⟩
      · cases (absent k hk).symm.trans (Store.isSome_of_unresolved hu)
      · exact htemp
    · rename_i hne
      have hother : madeBy made s t (some j) i = made i := by
        funext k
        simp [hmade, hne]
      rw [hother]
      exact hs.elsewhere hpath hd
  · rw [backlogs, entries]
    rcases (hmade i k).mp h with h | ⟨rfl, hk⟩
    · obtain ⟨hi, hk⟩ := hs.present i k h
      refine ⟨?_, .inl hk⟩
      split
      · rfl
      · exact hi
    · exact ⟨by simp, .inr hk⟩
  · simp only [hmade]
    rcases (entries k).mp hk with hk | hk
    · obtain ⟨i, hi, hunique⟩ := hs.maker k hk
      refine ⟨i, .inl hi, ?_⟩
      rintro i' (hi' | ⟨-, hks⟩)
      · exact hunique i' hi'
      · exact absurd hi (hfresh i k hks)
    · refine ⟨j, .inr ⟨rfl, hk⟩, ?_⟩
      rintro i' (hi' | ⟨rfl, -⟩)
      · exact absurd hi' (hfresh i' k hk)
      · rfl

/-- What one step preserves. -/
theorem Remembers.step (hs : s.Remembers made) {caller : Option Nat} (h : s.Proceeds t caller) :
    t.Remembers (madeBy made s t caller) := by
  obtain ⟨ds, hpath⟩ := h.path
  cases h.deals with
  | rests _ backlogs entries =>
    rw [madeBy_same entries]
    refine hs.same entries (fun i hi => backlogs i ▸ hi) fun i d hd => hs.elsewhere hpath ?_
    rw [← backlogs, hd]
  | joins j database new backlogs entries =>
    rw [madeBy_same entries]
    refine hs.same entries (fun i hi => ?_) fun i d hd => ?_
    · rw [backlogs]
      split
      · rfl
      · exact hi
    · rw [backlogs] at hd
      split at hd
      · cases hd
        subst i
        refine ⟨List.nodup_nil, fun _ hk => absurd hk List.not_mem_nil, fun k hmade _ _ => ?_⟩
        -- who comes now has not made anything
        have hthere := (hs.present j k hmade).1
        rw [new] at hthere
        cases hthere
      · exact hs.elsewhere hpath hd
  | settles j d due mine order kept backlogs entries =>
    rw [madeBy_same entries]
    refine hs.same entries (fun i hi => ?_) fun i d' hd => ?_
    · rw [backlogs]
      split
      · rfl
      · exact hi
    · rw [backlogs] at hd
      split at hd
      · cases hd
        subst i
        exact (hs.backlogs j d mine).settle (fun k => hs.unresolved hpath) order kept
      · exact hs.elsewhere hpath hd
  | enrols j d ks mine nodup absent backlogs entries =>
    exact hs.enrolled hpath mine nodup absent backlogs entries

/-- Keys join a backlog by calls of its member only, and otherwise they keep their order. -/
theorem Deals.order {caller : Option Nat} (h : s.Deals t caller) {i : Nat} (hi : caller ≠ some i)
    {d : Backlog} (hd : s.backlog? i = some d) :
    ∃ due, t.backlog? i = some { d with due } ∧ due.Sublist d.due := by
  cases h with
  | rests _ backlogs entries => exact ⟨d.due, (backlogs i).trans hd, .refl _⟩
  | joins j database new backlogs entries =>
    have hne : i ≠ j := by
      rintro rfl
      rw [new] at hd
      cases hd
    exact ⟨d.due, by rw [backlogs, if_neg hne, hd], .refl _⟩
  | settles j d' due mine order kept backlogs entries =>
    rw [backlogs]
    split
    · subst i
      obtain rfl := Option.some.inj (mine.symm.trans hd)
      exact ⟨due, rfl, order⟩
    · exact ⟨d.due, hd, .refl _⟩
  | enrols j d' ks mine nodup absent backlogs entries =>
    have hne : i ≠ j := by
      rintro rfl
      exact hi rfl
    exact ⟨d.due, by rw [backlogs, if_neg hne, hd], .refl _⟩

end Remembers

/-! ## Whole runs -/

section Runs

variable [Catalog C] [Sink S] [QuietSink S] {s : Rounds P C S}

theorem Sound.run (hs : s.Sound) (honest : Catalog.Honest C) (blank : P)
    {doings : List (Doing P C)} (hfixed : ∀ d ∈ doings, d.KeepsDatabases) :
    (s.run blank doings).Sound := by
  induction doings generalizing s with
  | nil => exact hs
  | cons d rest ih =>
    exact ih (hs.step honest blank d (hfixed d List.mem_cons_self)).sound
      fun e he => hfixed e (List.mem_cons_of_mem _ he)

/-- What a whole run preserves, if nothing has been made before. -/
theorem Sound.remembers (hs : s.Sound) (honest : Catalog.Honest C) (blank : P)
    (hnew : s.Remembers fun _ _ => False) {doings : List (Doing P C)}
    (hfixed : ∀ d ∈ doings, d.KeepsDatabases) :
    (s.run blank doings).Remembers (s.CreatedBy blank doings) := by
  induction doings using List.reverseRecOn with
  | nil =>
    have hnobody : s.CreatedBy blank [] = fun _ _ => False := by
      funext i k
      simp [not_createdBy_nil]
    rw [hnobody]
    exact hnew
  | append_singleton doings d ih =>
    have hbefore : ∀ e ∈ doings, e.KeepsDatabases :=
      fun e he => hfixed e (List.mem_append_left _ he)
    have hstep := (hs.run honest blank hbefore).step honest blank d (hfixed d (by simp))
    have hmade : s.CreatedBy blank (doings ++ [d]) =
        madeBy (s.CreatedBy blank doings) (s.run blank doings)
          ((s.run blank doings).step blank d) d.caller? := by
      funext i k
      exact propext createdBy_concat
    rw [run_concat, hmade]
    exact (ih hbefore).step hstep

/-- As long as a member makes no call, the keys in its backlog keep their order. -/
theorem Sound.order (hs : s.Sound) (honest : Catalog.Honest C) (blank : P) {i : Nat}
    {doings : List (Doing P C)}
    (hfixed : ∀ d ∈ doings, d.KeepsDatabases ∧ d.caller? ≠ some i) {d : Backlog}
    (hd : s.backlog? i = some d) :
    ∃ due, (s.run blank doings).backlog? i = some { d with due } ∧ due.Sublist d.due := by
  induction doings generalizing s d with
  | nil => exact ⟨d.due, hd, .refl _⟩
  | cons e rest ih =>
    obtain ⟨hkeeps, hcaller⟩ := hfixed e List.mem_cons_self
    have hstep := hs.step honest blank e hkeeps
    obtain ⟨due, hdue, hsub⟩ := hstep.deals.order hcaller hd
    obtain ⟨due', hdue', hsub'⟩ :=
      ih hstep.sound (fun x hx => hfixed x (List.mem_cons_of_mem _ hx)) hdue
    exact ⟨due', hdue', hsub'.trans hsub⟩

omit [Catalog C] [Sink S] [QuietSink S] in
theorem start_sound (settings : Settings) (clock : Clock) (catalog : C) (session : Session)
    (sink : S) :
    ({ interplay := .start settings clock catalog session sink } : Rounds P C S).Sound where
  covered i m hm := by cases hm
  strangers _ _ := rfl
  found _ _ _ h := by cases h

omit [Catalog C] [Sink S] [QuietSink S] in
theorem start_remembers (settings : Settings) (clock : Clock) (catalog : C) (session : Session)
    (sink : S) :
    ({ interplay := .start settings clock catalog session sink } : Rounds P C S).Remembers
      fun _ _ => False where
  backlogs i d hd := by cases hd
  present _ _ h := h.elim
  maker k hk := by
    simp only [has, store] at hk
    rw [Interplay.start_store] at hk
    cases hk

/-- Every entry has been created by one member.  A member has every key once, on its list or ahead
on its round, whose entry it has created and that is its business, as long as the entry has no
identity.  It has no other keys than those that it has created entries for and that are wanted
there, and none of them twice.  When it goes through its list, be it in one go or on a round, the
keys that stay keep their order, and it counts them. -/
theorem nothing_forgotten (honest : Catalog.Honest C) (blank : P) (settings : Settings)
    (clock : Clock) (catalog : C) (session : Session) (sink : S) (doings : List (Doing P C))
    (hfixed : ∀ d ∈ doings, d.KeepsDatabases) :
    let start : Rounds P C S := { interplay := .start settings clock catalog session sink }
    let now := start.run blank doings
    (∀ k e, now.store.find? k = some e → ∃! i, start.CreatedBy blank doings i k) ∧
    ∀ i m, now.member? i = some m →
      let due := m.backend.pending ++ (now.round i).keys
      (∀ k e, now.store.find? k = some e → e.identity.valid = false →
        start.CreatedBy blank doings i k → m.backend.session.owns k.locator.database = true →
        due.count k = 1) ∧
      due.Nodup ∧
      (∀ k ∈ due, k.isTemporaries = false ∧
        m.backend.session.owns k.locator.database = true ∧ start.CreatedBy blank doings i k) ∧
      (∀ (l : Ledger) (catalog : C), match m.backend.resolvePending l catalog with
        | (resolution, b, l', _) =>
          b.pending.Sublist m.backend.pending ∧
          (∀ k ∈ m.backend.pending, l'.store.unresolved k = true → k ∈ b.pending) ∧
          resolution.retained = b.pending.length) ∧
      ∀ more, (∀ d ∈ more, d.KeepsDatabases ∧ d.caller? ≠ some i) →
        ∃ m', (now.run blank more).member? i = some m' ∧
          (m'.backend.pending ++ ((now.run blank more).round i).keys).Sublist due := by
  intro start now
  have hstart : start.Sound := start_sound settings clock catalog session sink
  have hnow : now.Sound := hstart.run honest blank hfixed
  have hremembers : now.Remembers (start.CreatedBy blank doings) :=
    hstart.remembers honest blank (start_remembers settings clock catalog session sink) hfixed
  refine ⟨fun k e he => hremembers.maker k ?_, fun i m hm => ?_⟩
  · rw [has, he]
    rfl
  · intro due
    have hbacklog : now.backlog? i = some ⟨m.backend.session.database, due⟩ := by
      rw [backlog?, hm]
      rfl
    have hkeeps := hremembers.backlogs i _ hbacklog
    refine ⟨fun k e he hvalid hmade howns => ?_, hkeeps.nodup, fun k hk => ?_,
      fun l catalog => ?_, fun more hmore => ?_⟩
    · refine List.count_eq_one_of_mem hkeeps.nodup (hkeeps.unresolved k hmade howns ?_)
      simp [Store.unresolved, he, hvalid]
    · obtain ⟨hwants, hmade⟩ := hkeeps.due k hk
      obtain ⟨htemp, howns⟩ := Bool.and_eq_true_iff.mp hwants
      exact ⟨by simpa using htemp, howns, hmade⟩
    · obtain ⟨hsub, hkept⟩ := Pending.settleAll_kept honest m.backend.session m.backend.pending l
        catalog
      exact ⟨hsub, hkept, rfl⟩
    · obtain ⟨due', hdue', hsub⟩ := hnow.order honest blank hmore hbacklog
      obtain ⟨m', hm', heq⟩ := Option.map_eq_some_iff.mp hdue'
      have hlist : m'.backend.pending ++ ((now.run blank more).round i).keys = due' :=
        congrArg Backlog.due heq
      exact ⟨m', hm', hlist ▸ hsub⟩

end Runs

/-! ## A fork that the catalog does not know yet -/

/-- Whatever has been listed is valid. -/
theorem listed_honest : Catalog.Honest ListedCatalog := by
  intro catalog tablespace number i hi
  simp only [Catalog.relation] at hi
  split at hi
  · cases hi
  · obtain ⟨row, -, rfl⟩ := Option.map_eq_some_iff.mp (Except.ok.inj hi)
    rfl

/-- Nobody is there yet. -/
def nobody : Rounds Unit ListedCatalog History := { interplay := Interplay.silence }

/-- A backend joins. -/
def joining : Doing Unit ListedCatalog :=
  .turn (.act (.join { database := 5, inTransaction := true } 1 none [.counting, .device]))

/-- It creates a fork. -/
def creating : Doing Unit ListedCatalog :=
  .turn (.act (.call 0 ⟨⟨Interplay.grown.locator, false⟩, .main, .create ⟨0, 0, 0⟩ false⟩))

/-- It has created the entry of that fork in doing so, and the entry has no identity. -/
theorem creating_creates :
    (nobody.run () [joining]).Creates () creating 0 Interplay.grown ∧
      ∃ m e, (nobody.run () [joining, creating, .setOut 0]).member? 0 = some m ∧
        m.backend.session.owns Interplay.grown.locator.database = true ∧
        (nobody.run () [joining, creating, .setOut 0]).store.find? Interplay.grown = some e ∧
        e.identity.valid = false := by
  set site : Site Unit := .fresh {} { now := 1 } Interplay.asker 1 none
  have hfork := Site.fork?_fresh (P := Unit) {} { now := 1 } Interplay.asker 1 none Interplay.grown
  have hempty := Site.find?_fresh (P := Unit) {} { now := 1 } Interplay.asker 1 none Interplay.grown
  have hjoined : (nobody.run () [joining]).interplay.Alone site := .start_join () ..
  have hcreated : (nobody.run () [joining, creating]).interplay.Alone _ :=
    hjoined.call () (.creation Interplay.grown)
  have hbefore : (nobody.run () [joining]).store.find? Interplay.grown = none :=
    (congrArg (fun s => Store.find? s Interplay.grown) hjoined.store).trans hempty
  have hafter : (nobody.run () [joining, creating]).store.find? Interplay.grown =
      some (.new Interplay.grown) :=
    (congrArg (fun s => Store.find? s Interplay.grown) hcreated.store).trans
      (Chain.find?_creation () hfork hempty)
  have hmember : (nobody.run () [joining, creating]).member? 0 = some _ := hcreated.member
  have hsetOut : nobody.run () [joining, creating, .setOut 0] = _ :=
    (nobody.run () [joining, creating]).step_setOut () hmember rfl
  refine ⟨⟨rfl, ?_, ?_⟩, ?_⟩
  · rw [has, hbefore]
    rfl
  · exact congrArg Option.isSome hafter
  · rw [hsetOut]
    refine ⟨_, _, member?_onRound _ hmember .., ?_, hafter, rfl⟩
    rw [Chain.backend_creation () hfork hempty]
    decide

/-- When the backend sets out on its round, the key lies ahead of it. -/
theorem nothing_forgotten_creating :
    Catalog.Honest ListedCatalog ∧
      (∀ d ∈ [joining, creating, .setOut 0], d.KeepsDatabases) ∧
      ∃ m, (nobody.run () [joining, creating, .setOut 0]).member? 0 = some m ∧
        (m.backend.pending ++
          ((nobody.run () [joining, creating, .setOut 0]).round 0).keys).count Interplay.grown =
          1 := by
  have hfixed : ∀ d ∈ [joining, creating, .setOut 0], d.KeepsDatabases := by
    intro d hd i f h
    subst h
    simp [joining, creating] at hd
  obtain ⟨hcreates, m, e, hm, howns, he, hvalid⟩ := creating_creates
  have hmade : nobody.CreatedBy () [joining, creating, .setOut 0] 0 Interplay.grown :=
    ⟨[joining], creating, [.setOut 0], rfl, hcreates⟩
  obtain ⟨hcount, -⟩ := (nothing_forgotten listed_honest () {} { now := 1 } ListedCatalog.empty {}
    (default : History) [joining, creating, .setOut 0] hfixed).2 0 m hm
  exact ⟨listed_honest, hfixed, m, hm, hcount _ e he hvalid hmade howns⟩

end Rounds

end BlockLedger
