import AdjacencyForest.Proofs.Steps
import AdjacencyForest.Service.Transaction

/-!
# Running a transaction

How work in a transaction ends. Work that commits nothing leaves the committed rows as they are,
whether it is done or fails half-way (`Drafts`). A transaction that is saved ends with other rows
committed, or it fails with those from before; only when the answer that is read after the commit
cannot be given does it fail with other rows (`Performs`). A roll-back changes nothing in this,
since what was not committed is given up anyway.

Main statements: `performs_saving`, from the one to the other; `performs_orRollback`.
-/

namespace AdjacencyForest.Service

variable {ε φ α β : Type}

namespace Work

/-- How work ends that commits nothing: with its rows in place of those before, or with an error and
whatever rows it had come to. -/
inductive Ends (committed : Table) : Except ε (Table × α) → Except ε α × Transaction → Prop where
  | ok (rows : Table) (result : α) :
    Ends committed (.ok (rows, result)) (.ok result, ⟨committed, rows⟩)
  | error (rows : Table) (e : ε) : Ends committed (.error e) (.error e, ⟨committed, rows⟩)

/-- Work that commits nothing, and what it makes of the rows. -/
def Drafts (work : Work ε α) (effect : Table → Except ε (Table × α)) : Prop :=
  ∀ transaction : Transaction,
    Ends transaction.committed (effect transaction.rows) (work.run.run transaction)

/-- How a transaction on a table ends: with another table that is committed, or with an error and
the committed table as it was, or with an error that came too late for that. -/
inductive Settles (late : ε → Prop) (table : Table) :
    Except ε (Table × α) → Except ε α × Transaction → Prop where
  | ok (after : Table) (result : α) :
    Settles late table (.ok (after, result)) (.ok result, .start after)
  | error (rows : Table) (e : ε) : Settles late table (.error e) (.error e, ⟨table, rows⟩)
  | late (after : Table) (e : ε) (tooLate : late e) :
    Settles late table (.error e) (.error e, .start after)

/-- The work of a request, the table and the answer that it is to give, and the errors that it may
meet after its commit. -/
def Performs (late : ε → Prop) (work : Work ε α) (table : Table) (edit : Except ε (Table × α)) :
    Prop :=
  Settles late table edit (work.run.run (.start table))

variable {work : Work ε α} {effect : Table → Except ε (Table × α)} {table : Table}
  {edit : Except ε (Table × α)} {late : ε → Prop}

theorem drafts_lift (step : Except ε α) :
    Drafts (liftM step : Work ε α) fun rows => step.map fun result => (rows, result) := by
  intro transaction
  cases step with
  | ok result => exact .ok transaction.rows result
  | error e => exact .error transaction.rows e

theorem drafts_pure (result : α) :
    Drafts (pure result : Work ε α) fun rows => .ok (rows, result) :=
  fun transaction => .ok transaction.rows result

theorem drafts_ask (question : Table → Except ε α) :
    Drafts (ask question) fun rows => (question rows).map fun result => (rows, result) :=
  fun transaction => drafts_lift (question transaction.rows) transaction

theorem drafts_write (statement : Table → Except ε (Table × α)) :
    Drafts (write statement) statement := by
  intro transaction
  unfold write
  rw [run_bind_of_ok (run_get transaction)]
  cases statement transaction.rows with
  | ok after => exact .ok after.1 after.2
  | error e => exact .error transaction.rows e

theorem Drafts.bind {next : α → Work ε β} {later : α → Table → Except ε (Table × β)}
    (drafts : Drafts work effect) (laterDrafts : ∀ result, Drafts (next result) (later result)) :
    Drafts (work >>= next) fun rows => effect rows >>= fun after => later after.2 after.1 := by
  intro transaction
  have first := drafts transaction
  dsimp only
  generalize effect transaction.rows = outcome at first
  generalize ended : work.run.run transaction = ending at first
  cases first with
  | error rows e =>
    rw [run_bind_of_error ended]
    exact .error rows e
  | ok rows result =>
    rw [run_bind_of_ok ended]
    exact laterDrafts result ⟨transaction.committed, rows⟩

theorem Drafts.congr {other : Table → Except ε (Table × α)} (drafts : Drafts work effect)
    (same : ∀ rows, effect rows = other rows) : Drafts work other :=
  funext same ▸ drafts

theorem drafts_lift_bind {step : Except ε β} {next : β → Work ε α}
    {later : β → Table → Except ε (Table × α)}
    (laterDrafts : ∀ given, Drafts (next given) (later given)) :
    Drafts ((liftM step : Work ε β) >>= next) fun rows =>
      step >>= fun given => later given rows := by
  refine ((drafts_lift step).bind laterDrafts).congr fun rows => ?_
  cases step <;> rfl

theorem drafts_ask_bind {question : Table → Except ε β} {next : β → Work ε α}
    {later : β → Table → Except ε (Table × α)}
    (laterDrafts : ∀ told, Drafts (next told) (later told)) :
    Drafts (ask question >>= next) fun rows =>
      question rows >>= fun told => later told rows := by
  refine ((drafts_ask question).bind laterDrafts).congr fun rows => ?_
  cases question rows <;> rfl

theorem drafts_askEach (items : List β) (question : Table → β → Except ε Unit) :
    Drafts (items.forM fun item => ask fun rows => question rows item) fun rows =>
      (items.forM (question rows)).map fun result => (rows, result) := by
  induction items with
  | nil => exact drafts_pure ()
  | cons item items ih =>
    refine (drafts_ask_bind fun _ => ih).congr fun rows => ?_
    change _ = (question rows item >>= fun _ => items.forM (question rows)).map _
    cases question rows item <;> rfl

theorem drafts_writingEach (items : List β) (statement : Table → β → Except Fault Table) :
    Drafts (writingEach items statement) fun rows =>
      ((items.foldlM statement rows).mapError .fault).map fun after => (after, ()) := by
  induction items with
  | nil => exact drafts_pure ()
  | cons item items ih =>
    refine ((drafts_write _).bind fun _ => ih).congr fun rows => ?_
    rw [List.foldlM_cons]
    cases statement rows item <;> rfl

/-! ## Whole transactions -/

theorem run_ask (question : Table → Except ε α) (transaction : Transaction) :
    (ask question).run.run transaction = (question transaction.rows, transaction) := by
  unfold ask
  rw [run_bind_of_ok (run_get transaction)]
  rfl

theorem performs_saving {answer : α → Table → Except ε β} {edit : Except ε (Table × β)}
    (drafts : Drafts work effect)
    (tooLate : ∀ after result, effect table = .ok (after, result) →
      ∀ e, answer result after = .error e → late e)
    (same : edit = effect table >>= fun after =>
      (answer after.2 after.1).map fun told => (after.1, told)) :
    Performs late (saving work answer) table edit := by
  have ended : Ends table (effect table) (work.run.run (.start table)) := drafts (.start table)
  unfold Performs saving
  generalize ending : work.run.run (.start table) = reached at ended
  generalize effect table = outcome at ended tooLate same
  subst same
  cases ended with
  | error rows e =>
    rw [run_bind_of_error ending]
    exact .error rows e
  | ok rows result =>
    -- The work is committed; only the answer can still fail, and nothing takes the commit back.
    have asked : (ask (answer result)).run.run (Transaction.commit ⟨table, rows⟩) =
        (answer result rows, .start rows) := run_ask _ _
    rw [run_bind_of_ok ending, run_bind_of_ok (run_modify _ _), asked]
    change Settles late table ((answer result rows).map fun told => (rows, told)) _
    cases answered : answer result rows with
    | ok told => exact .ok rows told
    | error e => exact .late rows e (tooLate rows result rfl e answered)

theorem performs_lift_bind {step : Except ε β} {next : β → Work ε α}
    {edit : β → Except ε (Table × α)}
    (later : ∀ given, step = .ok given → Performs late (next given) table (edit given)) :
    Performs late ((liftM step : Work ε β) >>= next) table (step >>= edit) := by
  cases step with
  | ok given => exact later given rfl
  | error e => exact .error table e

theorem performs_return {give : α → β} (performs : Performs late work table edit) :
    Performs late (work >>= fun result => pure (give result)) table
      (edit.map fun after => (after.1, give after.2)) := by
  unfold Performs at *
  generalize ended : work.run.run (.start table) = ending at performs
  cases performs with
  | ok after result =>
    rw [run_bind_of_ok ended]
    exact .ok after (give result)
  | error rows e =>
    rw [run_bind_of_error ended]
    exact .error rows e
  | late after e tooLate =>
    rw [run_bind_of_error ended]
    exact .late after e tooLate

theorem performs_throw (e : ε) : Performs late (throw e : Work ε α) table (.error e) :=
  .error table e

theorem performs_ask (question : Table → Except ε α) :
    Performs late (ask question) table ((question table).map fun told => (table, told)) := by
  unfold Performs
  rw [run_ask]
  change Settles late table _ (question table, .start table)
  cases question table with
  | ok told => exact .ok table told
  | error e => exact .error table e

theorem run_orRollback (work : Work ε α) (transaction : Transaction) :
    (orRollback work).run.run transaction = match work.run.run transaction with
      | (.ok result, after) => (.ok result, after)
      | (.error e, after) => (.error e, after.rollback) := by
  change (ExceptT.tryCatch work fun refusal => do
    modify Transaction.rollback
    throw refusal).run.run transaction = _
  unfold ExceptT.tryCatch ExceptT.run ExceptT.mk StateT.run
  simp only [bind, StateT.bind]
  cases work transaction with
  | mk result after => cases result <;> rfl

theorem run_adapt (refuse : ε → φ) (work : Work ε α) (transaction : Transaction) :
    (ExceptT.adapt refuse work).run.run transaction =
      ((work.run.run transaction).1.mapError refuse, (work.run.run transaction).2) := rfl

/-- After a failure the rows are those of the last commit again. -/
theorem rows_of_orRollback {e : ε} {transaction after : Transaction}
    (failed : (orRollback work).run.run transaction = (.error e, after)) :
    after.rows = after.committed := by
  rw [run_orRollback] at failed
  generalize work.run.run transaction = ending at failed
  obtain ⟨e | result, reached⟩ := ending
  · cases failed
    exact reached.rows_rollback
  · cases failed

theorem performs_orRollback (performs : Performs late work table edit) :
    Performs late (orRollback work) table edit := by
  unfold Performs at *
  rw [run_orRollback]
  generalize work.run.run (.start table) = ending at performs
  cases performs with
  | ok after result => exact .ok after result
  | error rows e => exact .error table e
  | late after e tooLate => exact .late after e tooLate

theorem performs_adapt {refuse : ε → φ} {refusedLate : φ → Prop}
    (carries : ∀ e, late e → refusedLate (refuse e)) (performs : Performs late work table edit) :
    Performs refusedLate (ExceptT.adapt refuse work) table (edit.mapError refuse) := by
  unfold Performs at *
  rw [run_adapt]
  generalize work.run.run (.start table) = ending at performs
  cases performs with
  | ok after result => exact .ok after result
  | error rows e => exact .error rows (refuse e)
  | late after e tooLate => exact .late after (refuse e) (carries e tooLate)

end Work

end AdjacencyForest.Service
