import AdjacencyForest.Proofs.Loading

/-!
# Rules for the steps of a session

A step of a session that may fail keeps a property of sessions, if it does so whether it fails or not;
and where it succeeds, what it gives and the session that it reaches have another property in common.
Such statements follow a step's own structure.

Main statement: `Maintains.bind`, for one step after another.
-/

namespace AdjacencyForest.Session

variable {α β : Type} {kept before : Session → Prop} {step : SessionM α} {next : α → SessionM β}
  {middle : α → Session → Prop} {after : β → Session → Prop}

/-- From a session with both properties the step reaches one with the first, and with the last if the
step succeeds. -/
def Maintains (kept before : Session → Prop) (step : SessionM α) (after : α → Session → Prop) : Prop :=
  ∀ session, kept session → before session →
    kept (step.run.run session).2 ∧
      ∀ result, (step.run.run session).1 = .ok result → after result (step.run.run session).2

theorem Maintains.bind (first : Maintains kept before step middle)
    (later : ∀ result, Maintains kept (middle result) (next result) after) :
    Maintains kept before (step >>= next) after := by
  intro session sound start
  obtain ⟨soundMiddle, reached⟩ := first session sound start
  rw [run_bind]
  split
  next result reachedSession ran =>
    rw [ran] at soundMiddle reached
    exact later result reachedSession soundMiddle (reached result rfl)
  next fault reachedSession ran =>
    rw [ran] at soundMiddle
    exact ⟨soundMiddle, fun _ failed => by cases failed⟩

theorem Maintains.mono {before' : Session → Prop} {middle' : α → Session → Prop}
    (maintains : Maintains kept before step middle)
    (stronger : ∀ session, before' session → before session)
    (weaker : ∀ result session, middle result session → middle' result session) :
    Maintains kept before' step middle' := by
  intro session sound start
  obtain ⟨soundAfter, reached⟩ := maintains session sound (stronger session start)
  exact ⟨soundAfter, fun result done => weaker result _ (reached result done)⟩

theorem maintains_throw (fault : Fault) : Maintains kept before (throw fault : SessionM α) middle :=
  fun _ sound _ => ⟨sound, fun _ done => by cases done⟩

theorem maintains_throw_bind {fault : Fault} :
    Maintains kept before (throw fault >>= next) after :=
  (maintains_throw fault).bind fun _ _ _ (impossible : False) => impossible.elim

theorem maintains_done (result : α) : Maintains kept before (pure result) fun _ _ => True :=
  fun _ sound _ => ⟨sound, fun _ _ => trivial⟩

theorem Maintains.map (maintains : Maintains kept before step fun _ _ => True) (give : α → β) :
    Maintains kept before (do return give (← step)) fun _ _ => True :=
  maintains.bind fun _ => maintains_done _

theorem maintains_get :
    Maintains kept before get fun result session => result = session ∧ before session :=
  fun _ sound start => ⟨sound, fun _ done => by cases done; exact ⟨rfl, start⟩⟩

theorem maintains_modify {change : Session → Session} {after : Session → Prop}
    (changes : ∀ session, kept session → before session →
      kept (change session) ∧ after (change session)) :
    Maintains kept before (modify change) fun _ => after :=
  fun session sound start => ⟨(changes session sound start).1,
    fun _ _ => (changes session sound start).2⟩

theorem maintains_lift {step : Except Fault α} :
    Maintains kept before (liftM step : SessionM α) fun _ => before := by
  cases step with
  | error fault => exact maintains_throw fault
  | ok result => exact fun _ sound start => ⟨sound, fun _ _ => start⟩

theorem maintains_ready : Maintains kept before ready fun _ => before := by
  unfold ready
  refine maintains_get.bind fun current => ?_
  split
  · exact maintains_throw _
  · exact maintains_modify fun session sound start => ⟨sound, start.2⟩

end AdjacencyForest.Session
