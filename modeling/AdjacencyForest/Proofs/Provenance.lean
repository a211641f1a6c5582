import AdjacencyForest.Proofs.FlushedNodes
import AdjacencyForest.Proofs.Transparency

/-!
# Where depth and path come from

A node shows no depth and no path until a query of an expression returns it. What it shows then is kept
until another such query returns it, until the node expires, or until a flush writes it; depth and path
come and go together. Only queries of expressions give them, and they give them to the nodes that they
return alone.

Main statements: `carries_next`, what one operation leaves a node to show; `shown_along_history`, what
nodes show after any history of operations.
-/

namespace AdjacencyForest

/-- The node shows neither depth nor path, or both as the row has them. -/
def Entity.ShowsFrom (entity : Entity) (source : Option TreeRow) : Prop :=
  entity.IsBare ∨ ∃ treeRow, source = some treeRow ∧
    entity.depth = treeRow.depth.toJson ∧ entity.path = treeRow.path.toJson

namespace Session

/-- The session takes work, but the next flush fails. -/
def flushFails (session : Session) : Bool :=
  !session.broken && !(flush.run.run session).1.isOk

/-- All nodes expire: the session goes back, makes its work permanent, is told so, or fails to write. -/
def expires (session : Session) : Operation → Bool
  | .rollback | .expireAll => true
  | .commit => !session.broken
  | .flush => session.flushFails
  | .ask _ query => query.bound && query.expression.isSome && session.flushFails
  | _ => false

/-- Of the rows that a query has, if it has some, those whose nodes are answered. -/
def Asked.taken : Asked → Except Fault (List TreeRow) → List TreeRow
  | .all, .ok rows => rows
  | .first, .ok rows => rows.take 1
  | _, _ => []

/-- The rows whose nodes a query answers; a count answers none. -/
def answered (session : Session) (asked : Asked) (query : TreeQuery) : List TreeRow :=
  asked.taken ((Session.rows query).run.run session).1

/-- The rows of an expression whose nodes the operation returns. -/
def returned (session : Session) : Operation → List TreeRow
  | .ask asked query => if query.expression.isSome then session.answered asked query else []
  | _ => []

/-- The row of each key that its node was returned for last, if it has not expired since: the first of
its rows. -/
def nextSource (session : Session) (operation : Operation) (source : Value → Option TreeRow)
    (key : Value) : Option TreeRow :=
  if session.expires operation then none
  else ((session.returned operation).find? fun treeRow => treeRow.row.key == key).or (source key)

/-- The sessions that a history of operations leads to, with the rows that their nodes were returned for
last. -/
inductive History (setting : Setting) : Session → (Value → Option TreeRow) → Prop where
  | start (table : Table) : History setting (start setting table) fun _ => none
  | next {session : Session} {source : Value → Option TreeRow}
    (history : History setting session source) (operation : Operation) :
    History setting (operation.perform.run.run session).2 (session.nextSource operation source)

/-- The nodes that are known show what comes from their rows. -/
structure Carries (source : Value → Option TreeRow) (session : Session) : Prop where
  indexed : session.IsIndexed
  shown : ∀ entity ∈ session.entities, entity.ShowsFrom (source entity.key)

variable {session after : Session} {source : Value → Option TreeRow} {entity : Entity}
  {rows : List TreeRow} {query : TreeQuery} {asked : Asked} {key : Json}

/-! ## Nodes that become known -/

/-- The node can be known: it has a row, and shows what comes from its source. -/
structure Suits (source : Value → Option TreeRow) (table : Table) (entity : Entity) : Prop where
  stored : table.contains entity.key = true
  shown : entity.ShowsFrom (source entity.key)

/-- Only its key and what it shows matter for a node to suit. -/
theorem Suits.congr {table : Table} {other : Entity} (suits : Suits source table entity)
    (key : other.key = entity.key) (depth : other.depth = entity.depth)
    (path : other.path = entity.path) : Suits source table other where
  stored := key ▸ suits.stored
  shown := by
    rw [key]
    refine suits.shown.imp (fun bare => ⟨depth.trans bare.depth, path.trans bare.path⟩) ?_
    exact fun ⟨treeRow, found, ownDepth, ownPath⟩ =>
      ⟨treeRow, found, depth.trans ownDepth, path.trans ownPath⟩

theorem suits_ofRow {table : Table} {row : Row} (member : row ∈ table) :
    Suits source table (.ofRow row) :=
  ⟨Table.contains_iff.mpr ⟨row, member, rfl⟩, .inl ⟨rfl, rfl⟩⟩

theorem Carries.suits (carries : session.Carries source) (member : entity ∈ session.entities) :
    Suits source session.table entity :=
  ⟨carries.indexed.stored entity member, carries.shown entity member⟩

theorem Carries.withEntity (carries : session.Carries source)
    (suits : Suits source session.table entity) : (session.withEntity entity).Carries source where
  indexed := carries.indexed.withEntity suits.stored
  shown other member := by
    rcases (mem_putEntity carries.indexed.distinct).mp member with rfl | ⟨member, -⟩
    · exact suits.shown
    · exact carries.shown other member

theorem Carries.sublist {entities : List Entity} (carries : session.Carries source)
    (part : entities.Sublist session.entities) :
    { session with entities := entities }.Carries source :=
  ⟨⟨carries.indexed.distinct.sublist (part.map Entity.key),
    fun entity member => carries.indexed.stored entity (part.subset member)⟩,
    fun entity member => carries.shown entity (part.subset member)⟩

theorem Carries.of_unknown (unknown : session.entities = []) : session.Carries source := by
  refine ⟨⟨?_, ?_⟩, ?_⟩ <;> simp [unknown]

/-- Only the rows and the nodes that are known matter. -/
theorem Carries.congr (carries : session.Carries source) (table : after.table = session.table)
    (entities : after.entities = session.entities) : after.Carries source := by
  refine ⟨⟨?_, ?_⟩, ?_⟩ <;> rw [entities]
  · exact carries.indexed.distinct
  · rw [table]
    exact carries.indexed.stored
  · exact carries.shown

/-- What is known by now of a node suits like the node itself. -/
theorem Carries.suits_known (carries : session.Carries source)
    (suits : Suits source session.table entity) :
    Suits source session.table ((session.entity? entity.key).getD entity) := by
  cases found : session.entity? entity.key with
  | none => exact suits
  | some known => exact carries.suits (List.mem_of_find?_eq_some found)

theorem Carries.learn (carries : session.Carries source)
    (members : ∀ treeRow ∈ rows, treeRow.row ∈ session.table) :
    (session.learn rows).Carries source := by
  induction rows generalizing session with
  | nil => exact carries
  | cons first rows ih =>
    rw [learn_cons]
    have member := members first List.mem_cons_self
    have later := fun treeRow member => members treeRow (List.mem_cons_of_mem first member)
    split
    · exact ih carries later
    · exact ih (carries.withEntity (suits_ofRow member)) later

/-! ## Steps with one node -/

theorem maintains_load {kept : Table → Prop} :
    Maintains (Carries source) (fun session => kept session.table) (load key)
      fun found session => kept session.table ∧
        ∀ entity, found = some entity → Suits source session.table entity := by
  unfold load
  refine maintains_get.bind fun current => ?_
  dsimp only
  split
  · exact fun session carries start =>
      ⟨carries, fun _ done => by cases done; exact ⟨start.2, fun _ none => by cases none⟩⟩
  split
  next entity found =>
    refine fun session carries start => ⟨carries, fun _ done => ?_⟩
    cases done
    refine ⟨start.2, fun entity' same => ?_⟩
    cases same
    exact carries.suits (List.mem_of_find?_eq_some (start.1 ▸ found))
  next =>
    refine maintains_ready.bind fun _ => maintains_lift.bind fun _ => ?_
    split
    · exact fun session carries start =>
        ⟨carries, fun _ done => by cases done; exact ⟨start.2, fun _ none => by cases none⟩⟩
    next row found =>
      rintro session carries ⟨rfl, start⟩
      have suits : Suits source current.table (.ofRow row) := suits_ofRow (Table.mem_of_find? found).1
      refine ⟨carries.withEntity suits, fun _ done => ?_⟩
      cases done
      refine ⟨start, fun entity same => ?_⟩
      cases same
      exact suits

theorem maintains_withNode {act : Entity → SessionM Unit}
    (acts : ∀ entity, Maintains (Carries source)
      (fun session => Suits source session.table entity) (act entity) fun _ _ => True) :
    Maintains (Carries source) (fun _ => True) (withNode key act) fun _ _ => True := by
  unfold withNode
  refine (@maintains_load _ _ fun _ => True).bind fun found => ?_
  cases found with
  | none => exact maintains_done _
  | some entity =>
    exact (acts entity).mono (fun session start => start.2 entity rfl) fun _ _ => id

theorem maintains_expunge :
    Maintains (Carries source) (fun _ => True) (expunge entity) fun _ _ => True := by
  unfold expunge
  refine maintains_ready.bind fun _ => maintains_get.bind fun current => ?_
  split
  · exact maintains_throw _
  · rintro session carries ⟨rfl, -⟩
    have others := carries.sublist (@List.filter_sublist _ (fun other => other.key != entity.key) _)
    exact ⟨others.congr rfl rfl, fun _ _ => trivial⟩

theorem maintains_note {note : Entity → Entity}
    (notes : ∀ table known, Suits source table known → Suits source table (note known)) :
    Maintains (Carries source) (fun session => Suits source session.table entity)
      (modify fun session => session.withEntity (note ((session.entity? entity.key).getD entity)))
      fun _ _ => True :=
  maintains_modify fun _ carries suits =>
    ⟨carries.withEntity (notes _ _ (carries.suits_known suits)), trivial⟩

theorem maintains_parentOf :
    Maintains (Carries source) (fun session => Suits source session.table entity)
      (parentOf entity) fun _ _ => True := by
  have noted : ∀ key : Value, Maintains (Carries source)
      (fun session => Suits source session.table entity)
      (do
        modify fun session => session.withEntity
          { (session.entity? entity.key).getD entity with parentKey := some key }
        return key : SessionM Value) fun _ _ => True := fun key =>
    (@maintains_note _ _ (fun known => { known with parentKey := some key }) fun _ _ suits =>
      suits.congr rfl rfl rfl).bind fun _ => maintains_done key
  unfold parentOf
  refine maintains_get.bind fun current => ?_
  dsimp only
  split
  · exact maintains_throw_bind
  split
  · exact maintains_done _
  split
  · exact ((noted _).mono (fun _ start => start.2) fun _ _ => id :
      Maintains _ (fun session => current = session ∧ _) _ _)
  · refine Maintains.bind ((@maintains_load _ _ fun table => Suits source table entity).mono
      (fun _ start => start.2) fun _ _ => id) fun found => ?_
    exact (noted _).mono (fun _ start => start.1) fun _ _ => id

theorem maintains_childrenOf :
    Maintains (Carries source) (fun session => Suits source session.table entity)
      (childrenOf entity) fun _ _ => True := by
  unfold childrenOf
  split
  · exact maintains_done _
  refine maintains_ready.bind fun _ => maintains_get.bind fun current => ?_
  dsimp only
  have learnt : Maintains (Carries source)
      (fun session => current = session ∧ Suits source session.table entity)
      (modify (Session.learn ((List.filter (fun (row : Row) => row.parent.equals entity.key)
        current.table).map TreeRow.ofRow)))
      fun _ session => Suits source session.table entity := by
    refine maintains_modify ?_
    rintro session carries ⟨rfl, suits⟩
    refine ⟨carries.learn fun treeRow member => ?_, (table_learn _ current).symm ▸ suits⟩
    obtain ⟨row, inside, rfl⟩ := List.mem_map.mp member
    exact List.mem_of_mem_filter inside
  have noted : ∀ keys : List Value, Maintains (Carries source)
      (fun session => Suits source session.table entity)
      (modify fun session => session.withEntity
        { (session.entity? entity.key).getD entity with childKeys := some keys })
      fun _ _ => True := fun keys =>
    @maintains_note _ _ (fun known => { known with childKeys := some keys }) fun _ _ suits =>
      suits.congr rfl rfl rfl
  exact learnt.bind fun _ => (noted _).bind fun _ => maintains_done _

/-! ## Flushes and queries -/

theorem Carries.flush (carries : session.Carries source) :
    (flush.run.run session).2.Carries source := by
  rcases run_flush_cases session with ⟨-, ran⟩ | ⟨after, wrote, ran⟩ | ⟨fault, ran | ran⟩ <;> rw [ran]
  · exact carries
  · obtain ⟨indexed, -, origin⟩ := clears_of_written carries.indexed wrote
    exact ⟨indexed, fun entity member =>
      (origin entity member).elim .inl fun old => carries.shown entity old.1⟩
  · exact carries
  · exact .of_unknown rfl

theorem run_flush_of_fails (fails : session.flushFails = true) :
    ∃ fault, flush.run.run session = (.error fault, session.failed) := by
  obtain ⟨sound, failed⟩ : session.broken = false ∧ (flush.run.run session).1.isOk = false := by
    simpa [flushFails] using fails
  rw [run_flush_eq, sound] at failed ⊢
  cases clean : session.isClean with
  | true =>
    rw [clean] at failed
    cases failed
  | false =>
    rw [clean] at failed
    cases wrote : session.written with
    | ok after =>
      rw [wrote] at failed
      cases failed
    | error fault => exact ⟨fault, rfl⟩

/-- Before a query is run the work is written, if it reads an expression, and nothing else is done. -/
theorem snd_run_prepare (query : TreeQuery) (session : Session) :
    ((prepare query).run.run session).2 =
      if query.bound && query.expression.isSome then (flush.run.run session).2 else session := by
  cases bound : query.bound with
  | false => rw [run_prepare_of_unbound bound, Bool.false_and, if_neg Bool.false_ne_true]
  | true =>
    cases recursive : query.expression.isSome with
    | false => rw [run_prepare_of_base bound recursive, Bool.and_false, if_neg Bool.false_ne_true]
    | true =>
      rw [run_prepare_of_expression bound recursive, Bool.and_self, if_pos rfl]
      split <;> next ran => rw [ran]

theorem snd_run_map {α β : Type} (step : SessionM α) (give : α → β) (session : Session) :
    ((do return give (← step) : SessionM β).run.run session).2 = (step.run.run session).2 := by
  rw [run_bind]
  split
  next ran =>
    rw [ran]
    rfl
  next ran => rw [ran]

theorem snd_run_rows (query : TreeQuery) (session : Session) :
    ((Session.rows query).run.run session).2 = ((prepare query).run.run session).2 := by
  rw [run_rows_eq]
  split <;> next ran => rw [ran]

theorem rows?_of_run_rows (ran : (Session.rows query).run.run session = (.ok rows, after)) :
    query.rows? after.table = some rows := by
  rw [run_rows_eq] at ran
  split at ran
  next prepared _ =>
    cases found : query.rows? prepared.table with
    | none =>
      rw [found] at ran
      cases ran
    | some rows =>
      rw [found] at ran
      cases ran
      exact found
  next => cases ran

theorem snd_run_count (query : TreeQuery) (session : Session) :
    ((count query).run.run session).2 = ((prepare query).run.run session).2 := by
  rw [run_count_eq]
  split <;> next ran => rw [ran]

/-- The session with the nodes of some rows of a query known. -/
def knowing (query : TreeQuery) (rows : List TreeRow) (session : Session) : Session :=
  if query.expression.isSome then session.overwrite rows else session.learn rows

theorem knowing_nil (query : TreeQuery) (session : Session) : session.knowing query [] = session := by
  unfold knowing
  split <;> rfl

theorem snd_run_take (query : TreeQuery) (rows : List TreeRow) (session : Session) :
    ((take query rows).run.run session).2 = session.knowing query rows := by
  unfold take knowing
  cases query.expression.isSome <;> rfl

/-- A query makes known what it answers, and but for the work that it writes first it does nothing
else. -/
theorem snd_run_answer (asked : Asked) (query : TreeQuery) (session : Session) :
    ((answer asked query).run.run session).2 =
      ((prepare query).run.run session).2.knowing query (session.answered asked query) := by
  obtain ⟨read, ran⟩ : ∃ read, (Session.rows query).run.run session =
      (read, ((prepare query).run.run session).2) := ⟨_, Prod.ext rfl (snd_run_rows query session)⟩
  rw [answered, ran]
  cases asked with
  | all =>
    refine (snd_run_map (all query) Answer.nodes session).trans ?_
    unfold all
    cases read with
    | error fault =>
      rw [run_bind_of_error ran]
      exact (knowing_nil query _).symm
    | ok rows =>
      rw [run_bind_of_ok ran, snd_run_take]
      rfl
  | first =>
    refine (snd_run_map (first query) Answer.node session).trans ?_
    unfold first
    cases read with
    | error fault =>
      rw [run_bind_of_error ran]
      exact (knowing_nil query _).symm
    | ok rows =>
      rw [run_bind_of_ok ran, snd_run_map (take query (rows.take 1)), snd_run_take]
      rfl
  | count =>
    refine (snd_run_map (count query) Answer.number session).trans ?_
    rw [snd_run_count]
    cases read <;> exact (knowing_nil query _).symm

theorem mem_of_answered {treeRow : TreeRow} (member : treeRow ∈ session.answered asked query) :
    treeRow.row ∈ ((prepare query).run.run session).2.table := by
  obtain ⟨read, ran⟩ : ∃ read, (Session.rows query).run.run session =
      (read, ((prepare query).run.run session).2) := ⟨_, Prod.ext rfl (snd_run_rows query session)⟩
  rw [answered, ran] at member
  cases read with
  | error fault => cases asked <;> exact absurd member List.not_mem_nil
  | ok rows =>
    have inside : treeRow ∈ rows := by
      cases asked with
      | all => exact member
      | first => exact List.mem_of_mem_take member
      | count => exact absurd member List.not_mem_nil
    exact mem_of_rows? (rows?_of_run_rows ran) treeRow inside

/-! ## Operations -/

theorem IsIndexed.learnRows (indexed : session.IsIndexed)
    (members : ∀ treeRow ∈ rows, treeRow.row ∈ session.table) :
    (session.learnRows rows).IsIndexed := by
  induction rows generalizing session with
  | nil => exact indexed
  | cons first rows ih =>
    have stored : session.table.contains first.row.key = true :=
      Table.contains_iff.mpr ⟨first.row, members first List.mem_cons_self, rfl⟩
    exact ih (indexed.withEntity stored) fun treeRow member =>
      members treeRow (List.mem_cons_of_mem _ member)

/-- Nodes that are put in place of what was known show the first of their rows. -/
theorem Carries.overwrite (carries : session.Carries source)
    (members : ∀ treeRow ∈ rows, treeRow.row ∈ session.table) :
    (session.overwrite rows).Carries fun key =>
      (rows.find? fun treeRow => treeRow.row.key == key).or (source key) := by
  have indexed : (session.overwrite rows).IsIndexed := carries.indexed.learnRows
    fun treeRow member => members treeRow (mem_of_mem_firstOfEachKey member)
  refine ⟨indexed, fun entity member => ?_⟩
  have known : (session.overwrite rows).entity? entity.key = some entity :=
    (find?_key_iff indexed.distinct).mpr ⟨member, rfl⟩
  rw [entity?_overwrite] at known
  cases found : rows.find? fun treeRow => treeRow.row.key == entity.key with
  | some first =>
    rw [found] at known
    obtain rfl := Option.some.inj known
    exact .inr ⟨first, rfl, rfl, rfl⟩
  | none =>
    rw [found] at known
    exact carries.shown entity (List.mem_of_find?_eq_some known)

theorem nextSource_eq {operation : Operation} (lasting : session.expires operation = false)
    (silent : session.returned operation = []) : session.nextSource operation source = source := by
  funext key
  simp [nextSource, lasting, silent]

theorem maintains_perform {operation : Operation} {before : Session → Prop}
    (maintains : Maintains (Carries source) before operation.perform fun _ _ => True)
    (start : before session) (carries : session.Carries source)
    (lasting : session.expires operation = false) (silent : session.returned operation = []) :
    (operation.perform.run.run session).2.Carries (session.nextSource operation source) := by
  rw [nextSource_eq lasting silent]
  exact (maintains session carries start).1

theorem carries_ask (carries : session.Carries source) (asked : Asked) (query : TreeQuery) :
    ((answer asked query).run.run session).2.Carries
      (session.nextSource (.ask asked query) source) := by
  have state := snd_run_answer asked query session
  have members : ∀ treeRow ∈ session.answered asked query,
      treeRow.row ∈ ((prepare query).run.run session).2.table := fun _ => mem_of_answered
  rw [snd_run_prepare] at state members
  rw [state]
  cases recursive : query.expression.isSome with
  | false =>
    rw [nextSource_eq (by simp [expires, recursive]) (by simp [returned, recursive])]
    simp only [recursive, Bool.and_false, Bool.false_eq_true, if_false, knowing] at members ⊢
    exact carries.learn members
  | true =>
    cases lasting : session.expires (.ask asked query) with
    | true =>
      obtain ⟨bound, fails⟩ : query.bound = true ∧ session.flushFails = true := by
        simpa [expires, recursive] using lasting
      obtain ⟨fault, failed⟩ := run_flush_of_fails fails
      have read : (Session.rows query).run.run session = (.error fault, session.failed) :=
        run_bind_of_error (run_prepare_of_error bound recursive failed)
      -- The flush before the query fails, so no row is read.
      have nothing : session.answered asked query = [] := by
        rw [answered, read]
        cases asked <;> rfl
      rw [nothing, knowing_nil, bound, failed]
      exact .of_unknown rfl
    | false =>
      have same : session.nextSource (.ask asked query) source = fun key =>
          ((session.answered asked query).find? fun treeRow => treeRow.row.key == key).or
            (source key) := by
        funext key
        simp [nextSource, lasting, returned, recursive]
      rw [recursive] at members
      rw [same, knowing, if_pos recursive]
      refine Carries.overwrite ?_ members
      split
      · exact carries.flush
      · exact carries

theorem Carries.commit (carries : session.Carries source) :
    (commit.run.run session).2.Carries (session.nextSource .commit source) := by
  cases broken : session.broken with
  | true =>
    rw [nextSource_eq (by simp [expires, broken]) rfl]
    unfold Session.commit
    rw [run_bind_of_error (run_ready_of_broken broken)]
    exact carries
  | false =>
    refine .of_unknown ?_
    unfold Session.commit
    rw [run_bind_of_ok (run_ready broken), run_bind]
    split
    · rfl
    next fault after ran =>
      have fails : session.flushFails = true := by simp [flushFails, broken, ran, Except.isOk, Except.toBool]
      obtain ⟨fault, failed⟩ := run_flush_of_fails fails
      rw [ran] at failed
      cases failed
      rfl

/-- What nodes show comes from their rows after each operation, whether it succeeds or fails. -/
theorem carries_next (carries : session.Carries source) (operation : Operation) :
    (operation.perform.run.run session).2.Carries (session.nextSource operation source) := by
  cases operation with
  | add node =>
    rw [nextSource_eq rfl rfl]
    exact carries.congr rfl rfl
  | change key column value =>
    refine maintains_perform (maintains_withNode fun entity => ?_) trivial carries rfl rfl
    exact maintains_modify fun session carries suits =>
      ⟨carries.withEntity (suits.congr rfl rfl rfl), trivial⟩
  | delete key =>
    refine maintains_perform (maintains_withNode fun entity => ?_) trivial carries rfl rfl
    exact maintains_modify fun session carries _ => ⟨carries.congr rfl rfl, trivial⟩
  | expunge key =>
    refine maintains_perform (maintains_withNode fun entity => ?_) trivial carries rfl rfl
    exact maintains_expunge.mono (fun _ _ => trivial) fun _ _ => id
  | changeDetached key column value =>
    rw [nextSource_eq rfl rfl]
    exact carries.congr rfl rfl
  | load key =>
    exact maintains_perform (maintains_withNode fun entity => maintains_done ()) trivial carries rfl
      rfl
  | ask asked query =>
    have state := snd_run_map (answer asked query) (fun _ => ()) session
    exact state ▸ carries_ask carries asked query
  | parent key =>
    exact maintains_perform (maintains_withNode fun entity => maintains_parentOf.map fun _ => ())
      trivial carries rfl rfl
  | children key =>
    exact maintains_perform (maintains_withNode fun entity => maintains_childrenOf.map fun _ => ())
      trivial carries rfl rfl
  | flush =>
    cases lasting : session.expires .flush with
    | true =>
      obtain ⟨fault, failed⟩ := run_flush_of_fails lasting
      have state : (Operation.flush.perform.run.run session).2 = session.failed :=
        congrArg Prod.snd failed
      exact .of_unknown (by rw [state]; rfl)
    | false =>
      rw [nextSource_eq lasting rfl]
      exact carries.flush
  | commit => exact carries.commit
  | rollback => exact .of_unknown rfl
  | expireAll => exact .of_unknown rfl

/-! ## What queries leave alone -/

theorem clears_learn (indexed : session.IsIndexed)
    (members : ∀ treeRow ∈ rows, treeRow.row ∈ session.table) :
    Clears (fun _ => False) session (session.learn rows) := by
  induction rows generalizing session with
  | nil => exact Clears.refl session
  | cons first rows ih =>
    rw [learn_cons]
    have later := fun treeRow member => members treeRow (List.mem_cons_of_mem first member)
    split
    · exact ih indexed later
    next fresh =>
      have apart : ∀ entity ∈ session.entities, entity.key ≠ first.row.key := fun entity member => by
        simpa using List.find?_eq_none.mp fresh entity member
      have known : ∀ other, other ∈ (session.withEntity (.ofRow first.row)).entities ↔
          other = .ofRow first.row ∨ (other ∈ session.entities ∧ other.key ≠ first.row.key) :=
        fun other => mem_putEntity indexed.distinct
      have stored : session.table.contains first.row.key = true :=
        Table.contains_iff.mpr ⟨first.row, members first List.mem_cons_self, rfl⟩
      refine (Clears.trans ⟨fun entity member _ => ?_, fun entity member => ?_⟩
        (ih (indexed.withEntity stored) later)).congr fun _ => or_self_iff
      · exact (known entity).mpr (.inr ⟨member, apart entity member⟩)
      · rcases (known entity).mp member with rfl | ⟨member, -⟩
        · exact .inl ⟨rfl, rfl⟩
        · exact .inr ⟨member, id⟩

theorem clears_of_flush (indexed : session.IsIndexed)
    (ran : flush.run.run session = (.ok (), after)) :
    after.IsIndexed ∧
      (∀ entity ∈ session.entities, ¬ session.Writes entity → entity ∈ after.entities) ∧
      ∀ entity ∈ after.entities,
        entity.IsBare ∨ (entity ∈ session.entities ∧ ¬ session.Writes entity) := by
  rcases run_flush_cases session with ⟨clean, done⟩ | ⟨flushed, wrote, done⟩ |
    ⟨fault, done | done⟩ <;> rw [done] at ran <;> cases ran
  · exact ⟨indexed, fun _ member _ => member,
      fun _ member => .inr ⟨member, idle_of_clean clean member⟩⟩
  · exact clears_of_written indexed wrote

theorem run_flush_of_answer {result : Answer} (recursive : query.expression.isSome = true)
    (ran : (answer asked query).run.run session = (.ok result, after)) :
    flush.run.run session = (.ok (), ((prepare query).run.run session).2) := by
  have state := snd_run_prepare query session
  cases bound : query.bound with
  | false =>
    have failed := (run_answer_of_unprepared (run_prepare_of_unbound bound) asked).symm.trans ran
    cases failed
  | true =>
    rw [bound, recursive] at state
    obtain ⟨fault | ⟨⟩, flushed⟩ : ∃ flushed, flush.run.run session =
        (flushed, (flush.run.run session).2) := ⟨_, rfl⟩
    · have failed := run_answer_of_error bound recursive flushed asked
      cases failed.symm.trans ran
    · rw [state]
      exact flushed

theorem History.carries {setting : Setting} (history : History setting session source) :
    session.Carries source := by
  induction history with
  | start table => exact .of_unknown rfl
  | next _ operation carries => exact carries_next carries operation

/-- A base query leaves the nodes that are known as they are. -/
theorem clears_of_base (indexed : session.IsIndexed) (base : query.expression = none)
    (asked : Asked) : Clears (fun _ => False) session ((answer asked query).run.run session).2 := by
  have members : ∀ treeRow ∈ session.answered asked query,
      treeRow.row ∈ ((prepare query).run.run session).2.table := fun _ => mem_of_answered
  rw [snd_run_answer]
  simp only [snd_run_prepare, knowing, base, Option.isSome_none, Bool.and_false, Bool.false_eq_true,
    if_false] at members ⊢
  exact clears_learn indexed members

/-- What an expression's query leaves of a node that it does not answer: the node as it was, unless the
flush before it wrote the node. -/
theorem outside_of_answer {result : Answer} (carries : session.Carries source)
    (recursive : query.expression.isSome = true)
    (ran : (answer asked query).run.run session = (.ok result, after))
    (member : entity ∈ session.entities)
    (outside : ∀ treeRow ∈ session.answered asked query, treeRow.row.key ≠ entity.key) :
    (¬ session.Writes entity → entity ∈ after.entities) ∧
      (session.Writes entity → ∀ other ∈ after.entities, other.key = entity.key → other.IsBare) := by
  obtain ⟨indexed, kept, origin⟩ :=
    clears_of_flush carries.indexed (run_flush_of_answer recursive ran)
  have state := snd_run_answer asked query session
  rw [ran, knowing, if_pos recursive] at state
  obtain rfl : after = _ := state
  have indexedAfter : (((prepare query).run.run session).2.overwrite
      (session.answered asked query)).IsIndexed :=
    indexed.learnRows fun _ inside => mem_of_answered (mem_of_mem_firstOfEachKey inside)
  -- Under the key of the node the query leaves known what the flush has left.
  have same : ∀ other : Entity, other.key = entity.key →
      (other ∈ (((prepare query).run.run session).2.overwrite (session.answered asked query)).entities ↔
        other ∈ ((prepare query).run.run session).2.entities) := by
    intro other sameKey
    have absent : (session.answered asked query).find?
        (fun treeRow => treeRow.row.key == entity.key) = none :=
      List.find?_eq_none.mpr fun treeRow inside => by simpa using outside treeRow inside
    have known := @entity?_overwrite ((prepare query).run.run session).2 entity.key
      (session.answered asked query)
    rw [absent, Option.map_none, Option.none_or] at known
    have inAfter := @find?_key_iff other _ entity.key indexedAfter.distinct
    have inFlushed := @find?_key_iff other _ entity.key indexed.distinct
    simp only [sameKey, and_true] at inAfter inFlushed
    rw [← inAfter, ← inFlushed]
    exact Eq.congr_left known
  refine ⟨fun idle => (same entity rfl).mpr (kept entity member idle),
    fun written other found sameKey => ?_⟩
  rcases origin other ((same other sameKey).mp found) with bare | ⟨old, idle⟩
  · exact bare
  · obtain rfl := List.inj_on_of_nodup_map carries.indexed.distinct old member sameKey
    exact absurd written idle

/-- A table of one root. -/
def rootTable : Table := [⟨.int 1, .null, .text "a", none⟩]

/-- The root as a query of the whole tree returns it. -/
def returnedRoot : Entity := .ofTreeRow ⟨⟨.int 1, .null, .text "a", none⟩, .int 0, .text "1"⟩

/-- The root was returned by a query of the whole tree, and has another label since then. -/
def relabelled : Session :=
  { Session.start { model := .standard } rootTable with
    entities := [returnedRoot.setValue .label (.str "b")] }

theorem history_relabelled : ∃ source, History { model := .standard } relabelled source := by
  obtain ⟨query, -, bound, recursive, accepted, found⟩ :
      ∃ query, Setting.tree { model := .standard } .null = .ok query ∧ query.bound = true ∧
        query.expression.isSome = true ∧ TreeQuery.checkParameters query.parameters = .ok () ∧
        query.rows? rootTable = some
          [⟨⟨.int 1, .null, .text "a", none⟩, .int 0, .text "1"⟩] :=
    ⟨_, rfl, rfl, rfl, rfl, rfl⟩
  have ran : ((Operation.ask .all query).perform.run.run
      (Session.start { model := .standard } rootTable)).2 =
        { Session.start { model := .standard } rootTable with entities := [returnedRoot] } := by
    refine (snd_run_map (answer .all query) (fun _ => ()) _).trans ?_
    rw [answer, run_bind_of_ok (run_all bound recursive rfl rfl accepted found (by decide))]
    rfl
  have asked := @History.next { model := .standard } _ _ (.start rootTable) (.ask .all query)
  rw [ran] at asked
  exact ⟨_, asked.next (.change (.int 1) .label (.str "b"))⟩

/-- `relabelled` after a flush. -/
def relabelledFlushed : Session :=
  { Session.start { model := .standard } rootTable with
    table := [⟨.int 1, .null, .text "b", none⟩]
    entities := [(returnedRoot.setValue .label (.str "b")).written (.int 1)] }

theorem run_flush_relabelled : flush.run.run relabelled = (.ok (), relabelledFlushed) := by
  have touched : relabelled.touchedEntities = relabelled.entities := by
    simp [touchedEntities, relabelled, Session.start, Entity.setValue]
  have wrote : relabelled.written = .ok relabelledFlushed := by
    have start : (if relabelled.model.navigable then relabelled.orphanChildren else relabelled) =
      relabelled := rfl
    unfold written
    rw [start]
    dsimp only
    rw [touched]
    rfl
  exact run_flush_of_written rfl rfl wrote

end Session
end AdjacencyForest
