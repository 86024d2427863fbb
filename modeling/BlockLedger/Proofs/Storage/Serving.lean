import BlockLedger.Storage.Device

/-
# What comes of a request

A device is asked, tells what came of it, and stands as it stood if it could not be done.  All that
counts for this are the pages of the fork that the request is for, and all that changes is this fork.
-/

namespace BlockLedger

namespace Device

variable {P : Type}

/-- Carries out a request if that is possible, and tells what came of it. -/
def serve (blank : P) (d : Device P) (q : Request P) :
    Except CallError (List P) × Device P :=
  match d.perform blank q with
  | .ok (pages, d) => (.ok pages, d)
  | .error e => (.error e, d)

@[simp] theorem fork?_put (d : Device P) (key k : Key) (pages : Array P) :
    (d.put key pages).fork? k = if key = k then some pages else d.fork? k := by
  simp [fork?, put, Std.HashMap.getElem?_insert]

/-- What comes of a request, told from the pages of its fork, and the pages that they are replaced
by, if they are. -/
def respond (blank : P) (q : Request P) (fork : Option (Array P)) :
    Except CallError (List P) × Option (Array P) :=
  match q.operation with
  | .attach => (.ok [], none)
  | .create .. => (.ok [], match fork with | none => some #[] | some _ => none)
  | operation =>
    match fork with
    | none => (.error (.missing q.key), none)
    | some pages =>
      match operate blank q.key pages operation with
      | .ok (out, pages) => (.ok out, some pages)
      | .error e => (.error e, none)

theorem serve_eq (blank : P) (d : Device P) (q : Request P) :
    d.serve blank q =
      ((respond blank q (d.fork? q.key)).1,
        match (respond blank q (d.fork? q.key)).2 with
        | none => d
        | some pages => d.put q.key pages) := by
  have hcontains : d.forks.contains q.key = (d.fork? q.key).isSome := by simp [fork?]
  simp only [serve, perform, respond, hcontains]
  cases q.operation with
  | attach => rfl
  | create old redo => cases d.fork? q.key <;> rfl
  | _ =>
    cases d.fork? q.key with
    | none => rfl
    | some pages =>
      dsimp only
      cases operate blank q.key pages _ <;> rfl

variable {blank : P} {d d' : Device P} {q : Request P}

/-- A request touches no other fork than its own. -/
theorem fork?_serve_of_ne {k : Key} (h : k ≠ q.key) : (d.serve blank q).2.fork? k = d.fork? k := by
  rw [serve_eq]
  split
  · rfl
  · rw [fork?_put, if_neg h.symm]

/-- What comes of a request goes by the pages of its fork alone. -/
theorem serve_congr (blank : P) (h : d.fork? q.key = d'.fork? q.key) :
    (d.serve blank q).1 = (d'.serve blank q).1 ∧
      (d.serve blank q).2.fork? q.key = (d'.serve blank q).2.fork? q.key := by
  rw [serve_eq, serve_eq, h]
  refine ⟨rfl, ?_⟩
  split
  · exact h
  · rw [fork?_put, fork?_put, if_pos rfl, if_pos rfl]

end Device

end BlockLedger
