import BlockLedger.Proofs.Cluster.Provenance

/-
# Where the catalog is asked

A session may ask the catalog if it has a database, is in a transaction, and is not in a critical
section.  Whoever looks a relation up minds this: a backend that catches up on identities is turned
down where it may not ask, and the collector starts a transaction before it looks.

With the names of schemas it is different.  They are asked for when the class table of a new
database has been gone through, and then nobody looks at what the session is doing.  So there are
questions where none are allowed, but only there: whenever a backend that may not ask has found a
relation of a new database whose entry needs an identity.
-/

namespace BlockLedger

/-! ## Questions -/

/-- A question that is put to a catalog. -/
inductive Question where
  | relation (tablespace number : Oid)
  | schema (oid : Oid)
  deriving DecidableEq, Repr

/-- A catalog, and all that it has been asked. -/
structure NotedCatalog (C : Type) where
  catalog : C
  /-- The questions, oldest first. -/
  asked : List Question := []

variable {C S : Type} [Catalog C]

instance : Catalog (NotedCatalog C) where
  relation d tablespace number :=
    match Catalog.relation d.catalog tablespace number with
    | (answer, catalog) => (answer, ⟨catalog, d.asked ++ [.relation tablespace number]⟩)
  schema d oid :=
    match Catalog.schema d.catalog oid with
    | (name, catalog) => (name, ⟨catalog, d.asked ++ [.schema oid]⟩)

/-- A catalog that takes notes is in front of the one that answers. -/
def NotedCatalog.view (C : Type) [Catalog C] : CatalogView (NotedCatalog C) C where
  behind := catalog
  relation_behind _ _ _ := rfl
  schema_behind _ _ := rfl

/-- Between two states of a catalog a session has asked for relations only if it may, and it has
asked for schemas just if `names`. -/
def Session.Asks (session : Session) (names : Bool) (d d' : NotedCatalog C) : Prop :=
  ∃ qs, d'.asked = d.asked ++ qs ∧
    (∀ tablespace number, .relation tablespace number ∈ qs → session.mayAsk = true) ∧
    ((∃ oid, .schema oid ∈ qs) ↔ names = true)

namespace Session.Asks

variable {session : Session} {names names' : Bool} {d d' d'' : NotedCatalog C}

omit [Catalog C] in
theorem refl (session : Session) (d : NotedCatalog C) : session.Asks false d d :=
  ⟨[], by simp⟩

omit [Catalog C] in
theorem trans (h : session.Asks names d d') (h' : session.Asks names' d' d'') :
    session.Asks (names || names') d d'' := by
  obtain ⟨qs, hasked, hrelation, hschema⟩ := h
  obtain ⟨qs', hasked', hrelation', hschema'⟩ := h'
  refine ⟨qs ++ qs', by rw [hasked', hasked, List.append_assoc], ?_, ?_⟩
  · intro tablespace number h
    exact (List.mem_append.mp h).elim (hrelation _ _) (hrelation' _ _)
  · rw [Bool.or_eq_true, ← hschema, ← hschema', ← exists_or]
    exact exists_congr fun oid => List.mem_append

theorem relation (h : session.mayAsk = true) (d : NotedCatalog C) (tablespace number : Oid) :
    session.Asks false d (Catalog.relation d tablespace number).2 :=
  ⟨[.relation tablespace number], rfl, fun _ _ _ => h, by simp⟩

theorem schema (session : Session) (d : NotedCatalog C) (oid : Oid) :
    session.Asks true d (Catalog.schema d oid).2 :=
  ⟨[.schema oid], rfl, by simp, by simp⟩

omit [Catalog C] in
/-- A session that may not ask and has asked for no schema has asked for nothing. -/
theorem asked_eq (h : session.Asks false d d') (hmay : session.mayAsk = false) :
    d'.asked = d.asked := by
  obtain ⟨qs, hasked, hrelation, hschema⟩ := h
  have hnone : qs = [] := by
    refine List.eq_nil_iff_forall_not_mem.mpr fun q hq => ?_
    cases q with
    | relation tablespace number =>
      have := hrelation tablespace number hq
      rw [hmay] at this
      cases this
    | schema oid => cases hschema.mp ⟨oid, hq⟩
  rw [hasked, hnone, List.append_nil]

end Session.Asks

/-! ## Relations -/

variable (session : Session) (d : NotedCatalog C)

theorem Catalog.search_asks {session : Session} (h : session.mayAsk = true)
    (tablespace number : Oid) : session.Asks false d (search d tablespace number).2 := by
  have hfirst := Session.Asks.relation h d tablespace number
  unfold search
  split
  · rename_i heq
    rw [heq] at hfirst
    split
    · exact hfirst
    · exact hfirst.trans (.relation h _ 0 number)
  · exact hfirst

theorem Catalog.find_asks (key : Key) : session.Asks false d (find d session key).2 := by
  unfold find
  split
  · exact .refl session d
  · split
    · exact .refl session d
    · rename_i hrefusal
      -- nothing is in the way of this session
      have hsearch := search_asks d (mayAsk_of_refusal_eq_none hrefusal) key.locator.tablespace
        key.locator.number
      split <;> rename_i heq <;> rw [heq] at hsearch <;> exact hsearch

namespace Pending

theorem ask_asks (key : Key) (l : Ledger) : session.Asks false d (ask session key l d).2.2 := by
  have hfind := Catalog.find_asks session d key
  unfold ask
  split <;> rename_i heq <;> rw [heq] at hfind <;> exact hfind

theorem settle_asks (key : Key) (l : Ledger) :
    session.Asks false d (settle session key l d).2.2 := by
  unfold settle
  split
  · exact .refl session d
  · split
    · exact .refl session d
    · exact ask_asks session d key l

theorem settleAll_asks (ks : List Key) (l : Ledger) :
    session.Asks false d (settleAll session ks l d).2.2 := by
  induction ks generalizing l d with
  | nil => exact .refl session d
  | cons key rest ih => exact (settle_asks session d key l).trans (ih _ _)

end Pending

namespace Collector

theorem identityFor_asks (key : Key) (l : Ledger) :
    session.Asks false d (identityFor session key l d).2.2 := by
  have hfind := Catalog.find_asks session d key
  unfold identityFor
  split
  · exact .refl session d
  · split <;> rename_i heq <;> rw [heq] at hfind <;> exact hfind

theorem identifyCopies_asks (es : List Entry) (found : Found) (l : Ledger) :
    session.Asks false d (identifyCopies session es found l d).2.2 := by
  induction es generalizing found l d with
  | nil => exact .refl session d
  | cons e rest ih =>
    unfold identifyCopies
    split
    · exact ih d found l
    · split
      · exact ih d found l
      · have hfor := identityFor_asks session d e.key l
        split <;> rename_i heq <;> rw [heq] at hfor <;> exact hfor.trans (ih _ _ _)

variable [Sink S]

/-- The collector asks in a transaction that it has started for it. -/
theorem conclude_asks (bucket : Nat) (es : List Entry) (l : Ledger) (sink : S) :
    session.enter.Asks false d (conclude session bucket es l d sink).2.2.1 :=
  identifyCopies_asks session.enter d es {} l

theorem cycle_asks (l : Ledger) (sink : S) :
    session.enter.Asks false d (cycle session l d sink).2.2.1 := by
  rw [cycle_eq]
  exact conclude_asks ..

end Collector

/-! ## Schemas -/

namespace Bulk

/-- Whether one of a number of pages from page `page` on, as far as they can be read, describes a
relation whose entry needs an identity. -/
def findsFrom (pages : ClassPages) (database tablespace : Oid) (s : Store) : Nat → Nat → Bool
  | 0, _ => false
  | count + 1, page =>
    match pages.page database tablespace page with
    | .error _ => false
    | .ok tuples =>
      (tuples.any fun t => t.trackable && s.unresolved (t.key database tablespace)) ||
        findsFrom pages database tablespace s count (page + 1)

/-- Whether the class table of a database, as far as it can be read, describes a relation whose
entry needs an identity. -/
def finds (pages : ClassPages) (database tablespace : Oid) (s : Store) : Bool :=
  match pages.pageCount database tablespace with
  | .error _ => false
  | .ok count => findsFrom pages database tablespace s count 0

/-- As long as there is room, there is a candidate just if there is a tuple that can be one. -/
theorem isEmpty_candidates (s : Store) (database tablespace : Oid) {room : Nat} (h : room ≠ 0)
    (tuples : List ClassTuple) :
    (candidates s database tablespace room tuples).isEmpty =
      !tuples.any fun t => t.trackable && s.unresolved (t.key database tablespace) := by
  obtain ⟨room, rfl⟩ := Nat.exists_eq_succ_of_ne_zero h
  induction tuples with
  | nil => rfl
  | cons t rest ih =>
    unfold candidates
    dsimp only
    rw [List.any_cons]
    split
    · rename_i ht
      rw [ht]
      rfl
    · rename_i ht
      rw [Bool.eq_false_iff.mpr ht, ih, Bool.false_or]

theorem schemaName_asked (schema : Oid) (l : Ledger) :
    (schemaName schema l d).2.2.asked = d.asked ++ [.schema schema] := by
  have hschema : (Catalog.schema d schema).2.asked = d.asked ++ [.schema schema] := rfl
  unfold schemaName
  split <;> rename_i heq <;> rw [heq] at hschema <;> exact hschema

/-- For every candidate the schema is asked for. -/
theorem applyAll_asked (ts : List (Key × ClassTuple)) (l : Ledger) :
    (applyAll ts l d).2.2.asked = d.asked ++ ts.map fun t => .schema t.2.schema := by
  induction ts generalizing l d with
  | nil => exact (List.append_nil _).symm
  | cons t rest ih =>
    rw [List.map_cons, List.append_cons, ← schemaName_asked d t.2.schema l]
    exact ih _ _

theorem applyAll_asks (ts : List (Key × ClassTuple)) (l : Ledger) :
    session.Asks (!ts.isEmpty) d (applyAll ts l d).2.2 := by
  refine ⟨_, applyAll_asked d ts l, by simp, ?_⟩
  cases ts with
  | nil => simp
  | cons t rest => exact iff_of_true ⟨t.2.schema, List.mem_cons_self⟩ rfl

theorem scan_asks (pages : ClassPages) (database tablespace : Oid) (count page : Nat)
    (l : Ledger) :
    session.Asks (findsFrom pages database tablespace l.store count page) d
      (scan pages database tablespace count page l d).2.2 := by
  induction count generalizing page l d with
  | zero => exact .refl session d
  | succ count ih =>
    unfold scan findsFrom
    cases pages.page database tablespace page with
    | error e => exact .refl session d
    | ok tuples =>
      have hempty := isEmpty_candidates l.store database tablespace
        (show maxCandidates ≠ 0 by decide) tuples
      dsimp only
      generalize candidates l.store database tablespace maxCandidates tuples = ts at hempty ⊢
      cases hany : tuples.any fun t => t.trackable && l.store.unresolved (t.key database tablespace)
      · -- nothing has been found on the page, and nothing changes
        obtain rfl : ts = [] := List.isEmpty_iff.mp (by rw [hempty, hany]; rfl)
        have hrest := ih d (page + 1) l
        rw [Bool.false_or]
        dsimp only [applyAll]
        split <;> rename_i heq <;> rw [heq] at hrest <;> exact hrest
      · have happly := applyAll_asks session d ts l
        rw [hempty, hany] at happly
        rcases h : applyAll ts l d with ⟨n, l', d'⟩
        rw [h] at happly
        -- a schema has been asked for by now, whatever the other pages say
        have hrest : session.Asks true d _ := happly.trans (ih d' (page + 1) l')
        rw [Bool.true_or]
        dsimp only
        split <;> rename_i heq <;> rw [heq] at hrest <;> exact hrest

theorem resolveDatabase_asks (pages : ClassPages) (database tablespace : Oid) (l : Ledger) :
    session.Asks (finds pages database tablespace l.store) d
      (resolveDatabase pages database tablespace l d).2.2 := by
  unfold resolveDatabase finds
  rcases pages.pageCount database tablespace with _ | _ | count
  · exact .refl session d
  · exact .refl session d
  · have hscan := scan_asks session d pages database tablespace (count + 1) 0 l
    rcases h : scan pages database tablespace (count + 1) 0 l d with ⟨_ | n, l', d'⟩ <;>
      rw [h] at hscan <;> simp only [h] <;> exact hscan

/-- For a class table of one page, just the schemas of its candidates are asked for. -/
theorem resolveDatabase_asked {pages : ClassPages} {database tablespace : Oid}
    {tuples : List ClassTuple} (hcount : pages.pageCount database tablespace = .ok 1)
    (hpage : pages.page database tablespace 0 = .ok tuples) (l : Ledger) :
    (resolveDatabase pages database tablespace l d).2.2.asked =
      d.asked ++ (candidates l.store database tablespace maxCandidates tuples).map
        fun t => .schema t.2.schema := by
  rw [← applyAll_asked d _ l]
  simp only [resolveDatabase, hcount, scan, hpage]

end Bulk

/-! ## Backends -/

namespace Backend

/-- Whether a backend asks for schemas when it has finished a piece of work: it has created a
database, and finds something in its class table. -/
def names (b : Backend) (s : Store) : Work → Bool
  | .utility (some (database, tablespace)) true =>
    b.classes.any fun pages => Bulk.finds pages database tablespace s
  | _ => false

variable (b : Backend)

theorem resolvePending_asks (l : Ledger) :
    b.session.Asks false d (b.resolvePending l d).2.2.2 :=
  Pending.settleAll_asks b.session d b.pending l

theorem resolveCreated_asks (database tablespace : Oid) (l : Ledger) :
    b.session.Asks (b.classes.any fun pages => Bulk.finds pages database tablespace l.store) d
      (b.resolveCreated database tablespace l d).2 := by
  unfold resolveCreated
  cases b.classes with
  | none => exact .refl b.session d
  | some pages =>
    have hbulk := Bulk.resolveDatabase_asks b.session d pages database tablespace l
    dsimp only
    split <;> rename_i heq <;> rw [heq] at hbulk <;> exact hbulk

theorem finish_asks (work : Work) (l : Ledger) :
    b.session.Asks (b.names l.store work) d (b.finish work l d).2.2.2 := by
  rcases work with _ | ⟨_ | ⟨database, tablespace⟩, _ | _⟩
  case utility.some.true =>
    have hcreated := b.resolveCreated_asks d database tablespace l
    simp only [finish, names]
    rcases h : b.resolveCreated database tablespace l d with ⟨l', d'⟩
    rw [h] at hcreated
    rw [← Bool.or_false (b.classes.any _)]
    exact hcreated.trans (b.resolvePending_asks d' l')
  all_goals exact b.resolvePending_asks d l

/-- A backend that may not ask asks for schemas nevertheless when it has created a database. -/
theorem finish_asked {b : Backend} {pages : ClassPages} (hclasses : b.classes = some pages)
    (hmay : b.session.mayAsk = false) (database tablespace : Oid) (l : Ledger) :
    (b.finish (.utility (some (database, tablespace)) true) l d).2.2.2.asked =
      (Bulk.resolveDatabase pages database tablespace l d).2.2.asked := by
  have hcreated : (b.resolveCreated database tablespace l d).2 =
      (Bulk.resolveDatabase pages database tablespace l d).2.2 := by
    simp only [resolveCreated, hclasses]
    split <;> rename_i heq <;> rw [heq]
  rw [← hcreated]
  exact (b.resolvePending_asks _ _).asked_eq hmay

theorem shutdown_asks (l : Ledger) : b.session.Asks false d (b.shutdown l d).2.2.2 :=
  (b.flushRuns l).2.1.resolvePending_asks d (b.flushRuns l).2.2

end Backend

/-! ## Acts -/

/-- A question that has been put to the catalog, and the session that has put it. -/
structure Consultation where
  session : Option Session
  question : Question
  deriving DecidableEq, Repr

/-- Whether the catalog could be asked at that moment. -/
def Consultation.allowed (c : Consultation) : Bool := c.session.any Session.mayAsk

/-- Among what has been asked relations were only asked for where it was allowed, and schemas by
the sessions of a list. -/
structure Consulted (cs : List Consultation) (searching : List Session) : Prop where
  relation : ∀ session tablespace number, ⟨session, .relation tablespace number⟩ ∈ cs →
    Consultation.allowed ⟨session, .relation tablespace number⟩ = true
  schema : ∀ session, (∃ oid, ⟨session, .schema oid⟩ ∈ cs) ↔ ∃ x ∈ searching, session = some x

theorem Consulted.nil : Consulted [] [] := ⟨by simp, by simp⟩

theorem Consulted.append {cs cs' : List Consultation} {xs xs' : List Session}
    (h : Consulted cs xs) (h' : Consulted cs' xs') : Consulted (cs ++ cs') (xs ++ xs') := by
  refine ⟨fun session tablespace number hc => ?_, fun session => ?_⟩
  · exact (List.mem_append.mp hc).elim (h.relation _ _ _) (h'.relation _ _ _)
  · simp only [List.mem_append, exists_or, or_and_right, h.schema, h'.schema]

/-- All questions have been allowed just if those have been that were for schemas. -/
theorem Consulted.allowed_iff {cs : List Consultation} {xs : List Session} (h : Consulted cs xs) :
    (∀ c ∈ cs, c.allowed = true) ↔ ∀ x ∈ xs, x.mayAsk = true := by
  constructor
  · intro hall x hx
    obtain ⟨oid, hc⟩ := (h.schema (some x)).mpr ⟨x, hx, rfl⟩
    exact hall _ hc
  · rintro hall ⟨session, question⟩ hc
    cases question with
    | relation tablespace number => exact h.relation session tablespace number hc
    | schema oid =>
      -- whoever has asked for a schema is in the list
      obtain ⟨x, hx, rfl⟩ := (h.schema session).mp ⟨oid, hc⟩
      exact hall x hx

namespace Interplay

variable {P : Type}

/-- The interplay, with a catalog that takes notes from now on. -/
def noted (s : Interplay P C S) : Interplay P (NotedCatalog C) S :=
  { s with cluster := { s.cluster with catalog := { catalog := s.cluster.catalog } } }

/-- What a session is doing when it asks the catalog in an act: the collector has started a
transaction for it. -/
def speaker? (s : Interplay P C S) : Act P → Option Session
  | .finish i _ | .shutdown i => s.cluster.members[i]?.map fun m => m.backend.session
  | .cycle | .conclude => some s.cluster.session.enter
  | _ => none

/-- The session in which schemas are asked for in an act. -/
def searching? (s : Interplay P C S) : Act P → Option Session
  | .finish i work =>
    (s.cluster.members[i]?.filter fun m => m.backend.names s.store work).map fun m =>
      m.backend.session
  | _ => none

/-- Most acts leave the catalog alone. -/
theorem step_catalog [Sink S] (blank : P) (s : Interplay P C S) {a : Act P}
    (ha : a.resolves = false) : (s.step blank a).cluster.catalog = s.cluster.catalog := by
  cases a with
  | finish | shutdown | cycle | conclude => cases ha
  | join | session | reload | tick | peek => rfl
  | call i q =>
    simp only [step, Cluster.call]
    cases s.cluster.members[i]? <;> rfl
  | complete i handle result =>
    simp only [step, Cluster.complete]
    cases s.cluster.members[i]? <;> rfl
  | flush i =>
    simp only [step]
    cases s.cluster.members[i]? <;> rfl
  | close | openWalk =>
    simp only [step]
    cases s.walk <;> rfl
  | list | visit | endWalk =>
    simp only [step]
    cases s.walk with
    | none => rfl
    | some w =>
      dsimp only
      split <;> rfl

variable [Sink S] (blank : P) (s : Interplay P C S)

/-- The questions that are put to the catalog in an act, oldest first. -/
def consulted (a : Act P) : List Consultation :=
  (s.noted.step blank a).cluster.catalog.asked.map (Consultation.mk (s.speaker? a))

/-- Noting the questions changes nothing. -/
theorem step_noted (a : Act P) :
    (s.noted.step blank a).behind (NotedCatalog.view C) (.plain S) = s.step blank a :=
  behind_step (NotedCatalog.view C) (.plain S) blank s.noted a

omit [Catalog C] [Sink S] in
theorem consulted_of_asks {session : Session} {names : Bool} {d : NotedCatalog C}
    (h : session.Asks names s.noted.cluster.catalog d) :
    Consulted (d.asked.map (Consultation.mk (some session)))
      (if names then [session] else []) := by
  obtain ⟨qs, hasked, hrelation, hschema⟩ := h
  obtain rfl : d.asked = qs := hasked
  have hmem : ∀ x q, Consultation.mk x q ∈ d.asked.map (Consultation.mk (some session)) ↔
      x = some session ∧ q ∈ d.asked := by
    simp [and_comm, eq_comm]
  refine ⟨fun x tablespace number hc => ?_, fun x => ?_⟩
  · obtain ⟨rfl, hq⟩ := (hmem x _).mp hc
    exact hrelation tablespace number hq
  · simp only [hmem, exists_and_left, hschema]
    cases names <;> simp

theorem consulted_of_resolves_eq_false {a : Act P} (ha : a.resolves = false) :
    s.consulted blank a = [] := by
  rw [consulted, s.noted.step_catalog blank ha]
  rfl

/-- In an act relations are only asked for where it is allowed, and schemas just by a session that
has found something in the class table of a new database. -/
theorem consulted_step (a : Act P) : Consulted (s.consulted blank a) (s.searching? a).toList := by
  cases ha : a.resolves with
  | false =>
    have hasked : s.consulted blank a = [] := s.consulted_of_resolves_eq_false blank ha
    have hnobody : s.searching? a = none := by
      cases a with
      | finish => cases ha
      | _ => rfl
    rw [hasked, hnobody]
    exact .nil
  | true =>
    cases a with
    | finish i work =>
      simp only [consulted, step, Cluster.finish, speaker?, searching?]
      have hmembers : s.noted.cluster.members = s.cluster.members := rfl
      rw [hmembers]
      cases s.cluster.members[i]? with
      | none => exact .nil
      | some m =>
        -- what the class table is compared with is the store before the act
        have hsearching : (((some m).filter fun m => m.backend.names s.store work).map fun m =>
            m.backend.session).toList =
              if m.backend.names s.store work then [m.backend.session] else [] := by
          rw [Option.filter_some]
          split <;> rfl
        rw [hsearching]
        exact s.consulted_of_asks (m.backend.finish_asks _ work s.cluster.ledger)
    | shutdown i =>
      simp only [consulted, step, Cluster.shutdown, speaker?]
      have hmembers : s.noted.cluster.members = s.cluster.members := rfl
      rw [hmembers]
      cases s.cluster.members[i]? with
      | none => exact .nil
      | some m => exact s.consulted_of_asks (m.backend.shutdown_asks _ s.cluster.ledger)
    | cycle =>
      simp only [consulted, step, Cluster.cycle, speaker?]
      have hwalk : s.noted.walk = s.walk := rfl
      rw [hwalk]
      cases s.walk with
      | some w => exact .nil
      | none =>
        exact s.consulted_of_asks (Collector.cycle_asks _ _ s.cluster.ledger s.cluster.sink)
    | conclude =>
      simp only [consulted, step, speaker?]
      have hreturned : s.noted.returned = s.returned := rfl
      rw [hreturned]
      cases s.returned.getLast? with
      | none => exact .nil
      | some r =>
        exact s.consulted_of_asks
          (Collector.conclude_asks _ _ r.1 r.2 s.cluster.ledger s.cluster.sink)
    | _ => cases ha

/-! ## Turns -/

/-- The questions that are put to the catalog in one turn after the other. -/
def consultations (blank : P) (s : Interplay P C S) : List (Turn P C) → List Consultation
  | [] => []
  | t :: rest =>
    t.act?.toList.flatMap (s.consulted blank) ++ (s.turn blank t).consultations blank rest

theorem consultations_act (a : Act P) (rest : List (Turn P C)) :
    s.consultations blank (.act a :: rest) =
      s.consulted blank a ++ (s.step blank a).consultations blank rest := by
  simp [consultations, Turn.act?, turn]

/-- The sessions in which schemas are asked for in one turn after the other. -/
def searching (blank : P) (s : Interplay P C S) : List (Turn P C) → List Session
  | [] => []
  | t :: rest =>
    (t.act?.bind s.searching?).toList ++ (s.turn blank t).searching blank rest

theorem consulted_turns (turns : List (Turn P C)) :
    Consulted (s.consultations blank turns) (s.searching blank turns) := by
  induction turns generalizing s with
  | nil => exact .nil
  | cons t rest ih =>
    refine Consulted.append ?_ (ih (s.turn blank t))
    cases t with
    | act a => simpa [Turn.act?] using s.consulted_step blank a
    | catalog | classes => exact .nil

/-- The catalog is never asked for a relation where it may not be asked.  All questions whatsoever
are allowed just if no backend goes through the class table of a new database at such a moment and
finds a relation there whose entry needs an identity. -/
theorem asks_where_allowed (turns : List (Turn P C)) :
    (∀ c ∈ s.consultations blank turns, ∀ tablespace number,
      c.question = .relation tablespace number → c.allowed = true) ∧
    ((∀ c ∈ s.consultations blank turns, c.allowed = true) ↔
      ∀ session ∈ s.searching blank turns, session.mayAsk = true) := by
  have hturns := s.consulted_turns blank turns
  refine ⟨?_, hturns.allowed_iff⟩
  rintro ⟨session, _⟩ hc tablespace number rfl
  exact hturns.relation session tablespace number hc

/-! ## A database that is created outside of a transaction -/

/-- A relation of a new database. -/
def newcomer : ClassTuple := ⟨100, "t", 2200, 'r', 0, 100, false⟩

/-- A backend that is in no transaction creates the relation, and then it has finished creating the
database. -/
def creating : List (Turn Unit ListedCatalog) :=
  [.act (.join { database := 5 } 1 (some (.ofPages [(16500, [newcomer])] 0)) [.counting, .device]),
    .act (.call 0 ⟨⟨⟨1663, 16500, 100⟩, false⟩, .main, .create ⟨0, 0, 0⟩ false⟩),
    .act (.finish 0 (.utility (some (16500, 1663)) true))]

/-- What it asks the catalog for when it has finished is the schema of the relation. -/
theorem consulted_creating {s : Interplay Unit ListedCatalog History} {site : Site Unit}
    (h : s.Alone site) (hmay : site.backend.session.mayAsk = false)
    (hclasses : site.backend.classes = some (.ofPages [(16500, [newcomer])] 0))
    (hentry : site.ledger.store.find? (newcomer.key 16500 1663) =
      some (.new (newcomer.key 16500 1663))) :
    s.consulted () (.finish 0 (.utility (some (16500, 1663)) true)) =
      [⟨some site.backend.session, .schema 2200⟩] := by
  have hnoted : s.noted.Alone site := ⟨h.members, h.ledger, h.device⟩
  have hspeaker : s.speaker? (.finish 0 (.utility (some (16500, 1663)) true)) =
      some site.backend.session := by
    rw [speaker?, h.member]
    rfl
  -- the entry needs an identity, so the relation is a candidate
  have hcandidates : Bulk.candidates site.ledger.store 16500 1663 Bulk.maxCandidates [newcomer] =
      [(newcomer.key 16500 1663, newcomer)] := by
    have hunresolved : site.ledger.store.unresolved (newcomer.key 16500 1663) = true := by
      rw [Store.unresolved, hentry]
      rfl
    have htrackable : newcomer.trackable = true := by decide
    simp [Bulk.candidates, Bulk.maxCandidates, htrackable, hunresolved]
  rw [consulted, hspeaker, (hnoted.finish () rfl _).2, Backend.finish_asked _ hclasses hmay,
    Bulk.resolveDatabase_asked _ rfl rfl, hcandidates]
  rfl

/-- Nevertheless it asks the catalog for the schema of the relation. -/
theorem asks_outside_transaction :
    silence.consultations () creating = [⟨some { database := 5 }, .schema 2200⟩] ∧
      ¬∀ c ∈ silence.consultations () creating, c.allowed = true := by
  let k : Key := newcomer.key 16500 1663
  let joined : Site Unit := .fresh {} { now := 1 } { database := 5 } 1
    (some (.ofPages [(16500, [newcomer])] 0))
  have hfork : joined.device.fork? k = none := Site.fork?_fresh ..
  have hfind : joined.ledger.store.find? k = none := Site.find?_fresh ..
  have hjoined : (silence.step () (.join _ _ _ Chain.direct)).Alone joined := Alone.start_join ..
  have hbackend := Chain.backend_creation () hfork hfind
  have hconsulted := consulted_creating (hjoined.call () (.creation k)) (by rw [hbackend]; rfl)
    (by rw [hbackend]; rfl) (Chain.find?_creation () hfork hfind)
  have hasked : silence.consultations () creating = [⟨some { database := 5 }, .schema 2200⟩] := by
    rw [creating, consultations_act, consultations_act, consultations_act]
    rw [consulted_of_resolves_eq_false _ _ rfl, consulted_of_resolves_eq_false _ _ rfl]
    rw [hbackend] at hconsulted
    exact congrArg (· ++ []) hconsulted
  exact ⟨hasked, by simp [hasked, Consultation.allowed, Session.mayAsk]⟩

end Interplay

end BlockLedger
