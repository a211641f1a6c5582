import AdjacencyForest.Proofs.Steps
import AdjacencyForest.Session.State

/-!
# Runs of a session

What a run of a flush or of the steps of a query comes to, in each case that there is. A query is given
its verdict by the session and by the store; one of an expression is preceded by a flush.

Main statements: `run_flush_eq`; `run_prepare_of_base` and `run_prepare_of_expression`; `run_rows_eq` and
`run_count_eq`.
-/

namespace AdjacencyForest.Session

variable {session after prepared : Session} {query : TreeQuery} {fault : Fault}

/-! ## Flushes -/

theorem run_ready_eq (session : Session) : ready.run.run session =
    (if session.broken then .error .pendingRollback else .ok (), session) := by
  unfold ready
  rw [run_bind_of_ok (run_get _)]
  cases session.broken <;> rfl

theorem run_ready (sound : session.broken = false) :
    ready.run.run session = (.ok (), session) := by
  rw [run_ready_eq, sound]
  rfl

theorem run_ready_of_broken (broken : session.broken = true) :
    ready.run.run session = (.error .pendingRollback, session) := by
  rw [run_ready_eq, broken]
  rfl

theorem run_flush_eq (session : Session) : flush.run.run session =
    if session.isClean then (.ok (), session)
    else if session.broken then (.error .pendingRollback, session)
    else match session.written with
      | .ok after => (.ok (), after)
      | .error fault => (.error fault, session.failed) := by
  unfold flush
  rw [run_bind_of_ok (run_get _)]
  split
  · rfl
  cases broken : session.broken with
  | true => exact run_bind_of_error (run_ready_of_broken broken)
  | false =>
    rw [run_bind_of_ok (run_ready broken)]
    cases session.written <;> rfl

theorem run_flush (clean : session.isClean = true) :
    flush.run.run session = (.ok (), session) := by
  rw [run_flush_eq, if_pos clean]

theorem run_flush_of_written (work : session.isClean = false) (sound : session.broken = false)
    (wrote : session.written = .ok after) : flush.run.run session = (.ok (), after) := by
  rw [run_flush_eq, work, sound, wrote]
  rfl

/-! ## Queries -/

/-- A query is refused while a failed flush stands, or for values that the store does not take. -/
def verdict (session : Session) (query : TreeQuery) : Except Fault Unit :=
  if session.broken then .error .pendingRollback else TreeQuery.checkParameters query.parameters

theorem verdict_eq_ok : session.verdict query = .ok () ↔
    session.broken = false ∧ TreeQuery.checkParameters query.parameters = .ok () := by
  unfold verdict
  cases session.broken <;> simp

/-- The steps with which each query is prepared once its work is written. -/
theorem run_verdict (query : TreeQuery) (session : Session) :
    (do ready; liftM (TreeQuery.checkParameters query.parameters) : SessionM Unit).run.run session =
      (session.verdict query, session) := by
  unfold verdict
  cases broken : session.broken with
  | true => exact run_bind_of_error (run_ready_of_broken broken)
  | false =>
    rw [run_bind_of_ok (run_ready broken)]
    cases TreeQuery.checkParameters query.parameters <;> rfl

theorem run_prepare_of_unbound (unbound : query.bound = false) :
    (prepare query).run.run session = (.error .unboundQuery, session) := by
  unfold prepare
  rw [unbound]
  rfl

theorem run_prepare_of_base (bound : query.bound = true) (base : query.expression.isSome = false) :
    (prepare query).run.run session = (session.verdict query, session) := by
  unfold prepare
  simp only [bound, base, Bool.not_true, Bool.false_eq_true, if_false]
  exact run_verdict query session

theorem run_prepare_of_expression (bound : query.bound = true)
    (recursive : query.expression.isSome = true) :
    (prepare query).run.run session = match flush.run.run session with
      | (.ok _, flushed) => (flushed.verdict query, flushed)
      | (.error fault, after) => (.error fault, after) := by
  unfold prepare
  simp only [bound, recursive, Bool.not_true, Bool.false_eq_true, if_false, if_true]
  rw [run_bind]
  split
  next ran =>
    rw [ran]
    exact run_verdict query _
  next ran => rw [ran]

theorem verdict_of_prepare (ran : (prepare query).run.run session = (.ok (), prepared)) :
    prepared.verdict query = .ok () := by
  cases bound : query.bound with
  | false => cases (run_prepare_of_unbound bound).symm.trans ran
  | true =>
    cases recursive : query.expression.isSome with
    | false =>
      rw [run_prepare_of_base bound recursive] at ran
      obtain ⟨verdict, rfl⟩ := Prod.mk.inj ran
      exact verdict
    | true =>
      rw [run_prepare_of_expression bound recursive] at ran
      split at ran
      · obtain ⟨verdict, rfl⟩ := Prod.mk.inj ran
        exact verdict
      · cases ran

theorem accepted_of_prepare (ran : (prepare query).run.run session = (.ok (), prepared)) :
    TreeQuery.checkParameters query.parameters = .ok () :=
  (verdict_eq_ok.mp (verdict_of_prepare ran)).2

theorem run_rows_eq (query : TreeQuery) (session : Session) :
    (rows query).run.run session = match (prepare query).run.run session with
      | (.ok _, prepared) => ((query.rows? prepared.table).elim (.error .endlessWalk) .ok, prepared)
      | (.error fault, after) => (.error fault, after) := by
  unfold rows
  rw [run_bind]
  split
  next prepared ran =>
    rw [ran, run_bind_of_ok (run_get _)]
    dsimp only
    cases query.rows? prepared.table <;> rfl
  next ran => rw [ran]

theorem run_rows_of_prepare (ran : (prepare query).run.run session = (.ok (), prepared)) :
    (rows query).run.run session =
      ((query.rows? prepared.table).elim (.error .endlessWalk) .ok, prepared) := by
  rw [run_rows_eq, ran]

theorem run_count_eq (query : TreeQuery) (session : Session) :
    (count query).run.run session = match (prepare query).run.run session with
      | (.ok _, prepared) =>
        ((query.count? prepared.table).elim (.error .endlessWalk) .ok, prepared)
      | (.error fault, after) => (.error fault, after) := by
  unfold count
  rw [run_bind]
  split
  next prepared ran =>
    rw [ran, run_bind_of_ok (run_get _)]
    dsimp only
    cases query.count? prepared.table <;> rfl
  next ran => rw [ran]

end AdjacencyForest.Session
