import AdjacencyForest.Proofs.Fetching
import AdjacencyForest.Proofs.Flushing
import AdjacencyForest.Proofs.Rules
import AdjacencyForest.Proofs.SourceRows

/-!
# Histories of a session

What callers do with a session: they add nodes, change, delete and take out those that they have
loaded, ask queries and relatives, and flush, commit, roll back and expire. Values that they set are of
their columns' own types, and keys are not set. A step may fail, and the session goes on with what is
left then.

Main statements: `keeps_perform`, each operation keeps a session coherent; `Reachable.isCoherent`, so
all sessions are that are reached by any history.
-/

namespace AdjacencyForest

namespace Session

/-- How a query is asked. -/
inductive Asked where
  | all
  | first
  | count

inductive Answer where
  | nodes (entities : List Entity)
  | node (entity : Option Entity)
  | number (count : Nat)

def answer (asked : Asked) (query : TreeQuery) : SessionM Answer :=
  match asked with
  | .all => return .nodes (← all query)
  | .first => return .node (← first query)
  | .count => return .number (← count query)

/-- Does something with the node of a key, if there is one. -/
def withNode (key : Json) (act : Entity → SessionM Unit) : SessionM Unit := do
  match ← load key with
  | some entity => act entity
  | none => return

inductive Operation where
  | add (node : NodeFields)
  | change (key : Json) (column : Column) (value : Json)
  | delete (key : Json)
  | expunge (key : Json)
  | changeDetached (key : Value) (column : Column) (value : Json)
  | load (key : Json)
  | ask (asked : Asked) (query : TreeQuery)
  | parent (key : Json)
  | children (key : Json)
  | flush
  | commit
  | rollback
  | expireAll

namespace Operation

def perform : Operation → SessionM Unit
  | add node => Session.add node
  | change key column value => withNode key fun entity => Session.change entity column value
  | delete key => withNode key Session.delete
  | expunge key => withNode key Session.expunge
  | changeDetached key column value => Session.changeDetached key column value
  | load key => withNode key fun _ => return
  | ask asked query => do discard <| answer asked query
  | parent key => withNode key fun entity => do discard <| parentOf entity
  | children key => withNode key fun entity => do discard <| childrenOf entity
  | flush => Session.flush
  | commit => Session.commit
  | rollback => modify Session.rollback
  | expireAll => modify Session.expireAll

/-- What is set is of its column's own type, and no key is set. -/
def IsTyped (kind : KeyKind) : Operation → Prop
  | add node => node.IsTyped kind
  | change _ column value => column ≠ .key ∧ kind.Takes column value
  | _ => True

end Operation

/-- The sessions that a history of operations leads to, from a table with keys and labels. -/
inductive Reachable (setting : Setting) : Session → Prop where
  | start {table : Table} (keyed : table.IsKeyed setting.model.keyKind) (labels : table.HasLabels) :
    Reachable setting (start setting table)
  | next {session : Session} {operation : Operation} (reachable : Reachable setting session)
    (typed : operation.IsTyped setting.model.keyKind) :
    Reachable setting (operation.perform.run.run session).2

/-- The entities are tracked, and what is to be written is of its columns' own types. -/
structure IsCoherent (setting : Setting) (session : Session) : Prop where
  configured : session.setting = setting
  tracked : Tracked setting.model.keyKind session.table session.entities
  pending : ∀ node ∈ session.pending, node.IsTyped setting.model.keyKind
  committed : Tracked setting.model.keyKind session.committed []

/-! ## Steps that keep a session coherent -/

/-- From a coherent session with the first property the step reaches a coherent session, which has the
other property if the step succeeds. -/
def Keeps {α : Type} (setting : Setting) (before : Session → Prop) (step : SessionM α)
    (after : α → Session → Prop) : Prop :=
  ∀ session, session.IsCoherent setting → before session →
    (step.run.run session).2.IsCoherent setting ∧
      ∀ result, (step.run.run session).1 = .ok result → after result (step.run.run session).2

section Rules

variable {α β : Type} {setting : Setting} {before : Session → Prop} {step : SessionM α}
  {next : α → SessionM β} {middle : α → Session → Prop} {after : β → Session → Prop}
  {session : Session}

theorem Keeps.bind (first : Keeps setting before step middle)
    (later : ∀ result, Keeps setting (middle result) (next result) after) :
    Keeps setting before (step >>= next) after :=
  Maintains.bind first later

theorem Keeps.mono {before' : Session → Prop} {after' : α → Session → Prop}
    (keeps : Keeps setting before step middle) (stronger : ∀ session, before' session → before session)
    (weaker : ∀ result session, middle result session → after' result session) :
    Keeps setting before' step after' :=
  Maintains.mono keeps stronger weaker

theorem keeps_throw (fault : Fault) : Keeps setting before (throw fault : SessionM α) middle :=
  maintains_throw fault

theorem keeps_done (result : α) : Keeps setting before (pure result) fun _ _ => True :=
  maintains_done result

theorem Keeps.map (keeps : Keeps setting before step fun _ _ => True) (give : α → β) :
    Keeps setting before (do return give (← step)) fun _ _ => True :=
  Maintains.map keeps give

theorem keeps_get : Keeps setting before get fun result session => result = session ∧ before session :=
  maintains_get

theorem keeps_modify {change : Session → Session} {after : Session → Prop}
    (changes : ∀ session, session.IsCoherent setting → before session →
      (change session).IsCoherent setting ∧ after (change session)) :
    Keeps setting before (modify change) fun _ => after :=
  maintains_modify changes

/-! ## The steps of a session -/

variable {kind : KeyKind} {rows : List TreeRow} {entity : Entity} {query : TreeQuery} {key : Json}
  {kept : Table → Prop}

theorem IsCoherent.withEntity (coherent : session.IsCoherent setting)
    (tracks : entity.Tracks setting.model.keyKind session.table) :
    (session.withEntity entity).IsCoherent setting where
  configured := coherent.configured
  tracked := coherent.tracked.put tracks
  pending := coherent.pending
  committed := coherent.committed

theorem IsCoherent.tracks_ofRow {row : Row} (coherent : session.IsCoherent setting)
    (member : row ∈ session.table) :
    (Entity.ofRow row).Tracks setting.model.keyKind session.table :=
  Entity.tracks_ofRow coherent.tracked.keyed coherent.tracked.labels member

theorem keeps_ready : Keeps setting before ready fun _ => before := maintains_ready

theorem keeps_lift {step : Except Fault α} :
    Keeps setting before (liftM step : SessionM α) fun _ => before :=
  maintains_lift

theorem keeps_load : Keeps setting (fun session => kept session.table) (load key)
    fun found session => kept session.table ∧
      ∀ entity, found = some entity → entity.Tracks setting.model.keyKind session.table := by
  unfold load
  refine keeps_get.bind fun current => ?_
  dsimp only
  split
  · exact fun session coherent start =>
      ⟨coherent, fun _ done => by cases done; exact ⟨start.2, fun _ none => by cases none⟩⟩
  split
  next entity found =>
    refine fun session coherent start => ⟨coherent, fun _ done => ?_⟩
    cases done
    refine ⟨start.2, fun entity' same => ?_⟩
    cases same
    exact coherent.tracked.tracks entity (List.mem_of_find?_eq_some (start.1 ▸ found))
  next =>
    refine keeps_ready.bind fun _ => keeps_lift.bind fun _ => ?_
    split
    · exact fun session coherent start =>
        ⟨coherent, fun _ done => by cases done; exact ⟨start.2, fun _ none => by cases none⟩⟩
    next row found =>
      rintro session coherent ⟨rfl, start⟩
      have member := (Table.mem_of_find? found).1
      refine ⟨coherent.withEntity (coherent.tracks_ofRow member), fun _ done => ?_⟩
      cases done
      refine ⟨start, fun entity same => ?_⟩
      cases same
      exact coherent.tracks_ofRow member

theorem keeps_withNode {act : Entity → SessionM Unit}
    (acts : ∀ entity, Keeps setting
      (fun session => entity.Tracks setting.model.keyKind session.table) (act entity) fun _ _ => True) :
    Keeps setting (fun _ => True) (withNode key act) fun _ _ => True := by
  unfold withNode
  refine (@keeps_load _ _ fun _ => True).bind fun found => ?_
  cases found with
  | none => exact keeps_done _
  | some entity => exact (acts entity).mono (fun session start => start.2 entity rfl) fun _ _ => id

theorem IsCoherent.learn (coherent : session.IsCoherent setting)
    (members : ∀ treeRow ∈ rows, treeRow.row ∈ session.table) :
    (session.learn rows).IsCoherent setting := by
  induction rows generalizing session with
  | nil => exact coherent
  | cons first rows ih =>
    rw [learn_cons]
    have member := members first List.mem_cons_self
    have later := fun treeRow member => members treeRow (List.mem_cons_of_mem first member)
    split
    · exact ih coherent later
    · exact ih (coherent.withEntity (coherent.tracks_ofRow member)) later

theorem IsCoherent.learnRows (coherent : session.IsCoherent setting)
    (members : ∀ treeRow ∈ rows, treeRow.row ∈ session.table) :
    (session.learnRows rows).IsCoherent setting := by
  induction rows generalizing session with
  | nil => exact coherent
  | cons first rows ih =>
    have tracks := coherent.tracks_ofRow (members first List.mem_cons_self)
    exact ih (coherent.withEntity { tracks with }) fun treeRow member =>
      members treeRow (List.mem_cons_of_mem first member)

theorem IsCoherent.overwrite (coherent : session.IsCoherent setting)
    (members : ∀ treeRow ∈ rows, treeRow.row ∈ session.table) :
    (session.overwrite rows).IsCoherent setting :=
  coherent.learnRows fun treeRow member => members treeRow (mem_of_mem_firstOfEachKey member)

theorem IsCoherent.failed (coherent : session.IsCoherent setting) :
    session.failed.IsCoherent setting where
  configured := coherent.configured
  tracked := coherent.committed
  pending _ member := absurd member List.not_mem_nil
  committed := coherent.committed

theorem IsCoherent.settles (coherent : session.IsCoherent setting) {after : Session}
    (done : session.written = .ok after) : session.Settles after := by
  obtain rfl := coherent.configured
  exact settles_of_written coherent.tracked coherent.pending done

theorem IsCoherent.of_settles (coherent : session.IsCoherent setting) {after : Session}
    (settles : session.Settles after) : after.IsCoherent setting := by
  obtain rfl := coherent.configured
  refine ⟨?_, settles.tracked, ?_, ?_⟩
  · rw [settles.frame]
  · rw [settles.frame]
    exact fun _ member => absurd member List.not_mem_nil
  · rw [settles.frame]
    exact coherent.committed

theorem keeps_flush : Keeps setting before flush fun _ _ => True := by
  unfold flush
  refine keeps_get.bind fun current => ?_
  split
  · exact keeps_done _
  refine keeps_ready.bind fun _ => ?_
  split
  next after done =>
    rintro session coherent ⟨rfl, -⟩
    exact ⟨coherent.of_settles (coherent.settles done), fun _ _ => trivial⟩
  next fault _ =>
    rintro session coherent ⟨rfl, -⟩
    exact ⟨coherent.failed, fun _ done => by cases done⟩

theorem keeps_commit : Keeps setting before commit fun _ _ => True := by
  unfold commit
  refine keeps_ready.bind fun _ => keeps_flush.bind fun _ => keeps_modify ?_
  intro session coherent _
  have committed := coherent.tracked.sublist (List.nil_sublist _)
  exact ⟨⟨coherent.configured, committed, coherent.pending, committed⟩, trivial⟩

theorem keeps_throw_bind {fault : Fault} {later : α → SessionM β} :
    Keeps setting before (throw fault >>= later) after :=
  maintains_throw_bind

theorem keeps_prepare : Keeps setting before (prepare query) fun _ _ => True := by
  have checked : Keeps setting (fun _ => True)
      (do ready; liftM (TreeQuery.checkParameters query.parameters) : SessionM Unit)
      fun _ _ => True :=
    keeps_ready.bind fun _ => keeps_lift
  unfold prepare
  dsimp only
  split
  · exact keeps_throw_bind
  split
  · exact keeps_flush.bind fun _ => checked
  · exact checked.mono (fun _ _ => trivial) fun _ _ => id

theorem mem_of_rows? {table : Table} (found : query.rows? table = some rows) :
    ∀ treeRow ∈ rows, treeRow.row ∈ table := by
  obtain ⟨source, yielded, rfl⟩ := Option.map_eq_some_iff.mp found
  intro treeRow member
  have inside := (TreeQuery.arranged_perm _ _).subset member
  exact (TreeRow.yielded_of_sourceRows? yielded treeRow (TreeQuery.mem_matching.mp inside).1).member

theorem keeps_rows : Keeps setting before (Session.rows query)
    fun rows session => ∀ treeRow ∈ rows, treeRow.row ∈ session.table := by
  unfold Session.rows
  refine keeps_prepare.bind fun _ => keeps_get.bind fun current => ?_
  split
  next rows found =>
    rintro session coherent ⟨rfl, -⟩
    exact ⟨coherent, fun _ done => by cases done; exact mem_of_rows? found⟩
  · exact keeps_throw _

theorem keeps_take : Keeps setting (fun session => ∀ treeRow ∈ rows, treeRow.row ∈ session.table)
    (take query rows) fun _ _ => True := by
  have found : Keeps setting (fun _ => True) (get : SessionM Session) fun _ _ => True :=
    fun _ coherent _ => ⟨coherent, fun _ _ => trivial⟩
  unfold take
  dsimp only
  split
  · exact (keeps_modify fun session coherent members => ⟨coherent.overwrite members, trivial⟩).bind
      fun _ => found.map _
  · exact (keeps_modify fun session coherent members => ⟨coherent.learn members, trivial⟩).bind
      fun _ => found.map _

theorem keeps_answer {asked : Asked} : Keeps setting before (answer asked query)
    fun _ _ => True := by
  cases asked with
  | all => exact Keeps.map (keeps_rows.bind fun rows => keeps_take) _
  | first =>
    refine Keeps.map ?_ Answer.node
    exact keeps_rows.bind fun rows => (keeps_take.mono (fun _ members treeRow member =>
      members treeRow (List.mem_of_mem_take member)) fun _ _ => id).map List.head?
  | count =>
    refine Keeps.map ?_ Answer.number
    unfold count
    refine keeps_prepare.bind fun _ => keeps_get.bind fun current => ?_
    split
    · exact keeps_done _
    · exact keeps_throw _

theorem keeps_expunge : Keeps setting before (expunge entity) fun _ _ => True := by
  unfold expunge
  refine keeps_ready.bind fun _ => keeps_get.bind fun current => ?_
  split
  · exact keeps_throw _
  · rintro session coherent ⟨rfl, -⟩
    exact ⟨⟨coherent.configured, coherent.tracked.sublist List.filter_sublist, coherent.pending,
      coherent.committed⟩, fun _ _ => trivial⟩

/-- What is known by now of a tracked entity is tracked. -/
theorem IsCoherent.tracks_known (coherent : session.IsCoherent setting)
    (tracks : entity.Tracks setting.model.keyKind session.table) :
    ((session.entity? entity.key).getD entity).Tracks setting.model.keyKind session.table := by
  cases found : session.entity? entity.key with
  | none => exact tracks
  | some known => exact coherent.tracked.tracks known (List.mem_of_find?_eq_some found)

theorem keeps_note {note : Entity → Entity}
    (notes : ∀ table known, known.Tracks setting.model.keyKind table →
      (note known).Tracks setting.model.keyKind table) :
    Keeps setting (fun session => entity.Tracks setting.model.keyKind session.table)
      (modify fun session => session.withEntity (note ((session.entity? entity.key).getD entity)))
      fun _ _ => True :=
  keeps_modify fun _ coherent tracks =>
    ⟨coherent.withEntity (notes _ _ (coherent.tracks_known tracks)), trivial⟩

theorem keeps_parentOf :
    Keeps setting (fun session => entity.Tracks setting.model.keyKind session.table)
      (parentOf entity) fun _ _ => True := by
  have noted : ∀ key : Value, Keeps setting
      (fun session => entity.Tracks setting.model.keyKind session.table)
      (do
        modify fun session => session.withEntity
          { (session.entity? entity.key).getD entity with parentKey := some key }
        return key : SessionM Value) fun _ _ => True := fun key =>
    (@keeps_note _ _ (fun known => { known with parentKey := some key }) fun _ known tracks =>
      tracks.noted (some key) known.childKeys).bind fun _ => keeps_done key
  unfold parentOf
  refine keeps_get.bind fun current => ?_
  dsimp only
  split
  · exact keeps_throw_bind
  split
  · exact keeps_done _
  split
  · exact ((noted _).mono (fun _ start => start.2) fun _ _ => id :
      Keeps setting (fun session => current = session ∧ _) _ _)
  · refine Keeps.bind ((@keeps_load _ _ (entity.Tracks setting.model.keyKind)).mono
      (fun _ start => start.2) fun _ _ => id) fun found => ?_
    exact (noted _).mono (fun _ start => start.1) fun _ _ => id

theorem keeps_childrenOf :
    Keeps setting (fun session => entity.Tracks setting.model.keyKind session.table)
      (childrenOf entity) fun _ _ => True := by
  unfold childrenOf
  split
  · exact keeps_done _
  refine keeps_ready.bind fun _ => keeps_get.bind fun current => ?_
  dsimp only
  have learnt : Keeps setting
      (fun session => current = session ∧ entity.Tracks setting.model.keyKind session.table)
      (modify (learn ((List.filter (fun (row : Row) => row.parent.equals entity.key)
        current.table).map TreeRow.ofRow)))
      fun _ session => entity.Tracks setting.model.keyKind session.table := by
    refine keeps_modify ?_
    rintro session coherent ⟨rfl, tracks⟩
    refine ⟨coherent.learn fun treeRow member => ?_, (table_learn _ current).symm ▸ tracks⟩
    obtain ⟨row, inside, rfl⟩ := List.mem_map.mp member
    exact List.mem_of_mem_filter inside
  exact learnt.bind fun _ => (@keeps_note _ _ (fun known => { known with childKeys := _ })
    fun _ known tracks => tracks.noted known.parentKey _).bind fun _ => keeps_done _

/-! ## Operations -/

/-- Each operation keeps a session coherent, whether it succeeds or fails. -/
theorem keeps_perform {operation : Operation} (typed : operation.IsTyped setting.model.keyKind) :
    Keeps setting (fun _ => True) operation.perform fun _ _ => True := by
  cases operation with
  | add node =>
    refine keeps_modify fun session coherent _ => ⟨⟨coherent.configured, coherent.tracked,
      fun other member => ?_, coherent.committed⟩, trivial⟩
    rcases List.mem_append.mp member with member | member
    · exact coherent.pending other member
    · exact List.mem_singleton.mp member ▸ typed
  | change key column value =>
    exact keeps_withNode fun entity => keeps_modify fun session coherent tracks =>
      ⟨coherent.withEntity (tracks.setValue typed.1 typed.2), trivial⟩
  | delete key =>
    exact keeps_withNode fun entity => keeps_modify fun session coherent _ =>
      ⟨⟨coherent.configured, coherent.tracked, coherent.pending, coherent.committed⟩, trivial⟩
  | expunge key => exact keeps_withNode fun entity => keeps_expunge
  | changeDetached key column value =>
    exact keeps_modify fun session coherent _ =>
      ⟨⟨coherent.configured, coherent.tracked, coherent.pending, coherent.committed⟩, trivial⟩
  | load key => exact keeps_withNode fun entity => keeps_done ()
  | ask asked query => exact keeps_answer.map fun _ => ()
  | parent key => exact keeps_withNode fun entity => keeps_parentOf.map fun _ => ()
  | children key => exact keeps_withNode fun entity => keeps_childrenOf.map fun _ => ()
  | flush => exact keeps_flush
  | commit => exact keeps_commit
  | rollback =>
    exact keeps_modify fun session coherent _ => ⟨⟨coherent.configured, coherent.committed,
      fun _ member => absurd member List.not_mem_nil, coherent.committed⟩, trivial⟩
  | expireAll =>
    exact keeps_modify fun session coherent _ => ⟨⟨coherent.configured,
      coherent.tracked.sublist (List.nil_sublist _), coherent.pending, coherent.committed⟩, trivial⟩

theorem Reachable.isCoherent (reachable : Reachable setting session) :
    session.IsCoherent setting := by
  induction reachable with
  | start keyed labels =>
    have tracked : Tracked setting.model.keyKind _ [] :=
      ⟨keyed, labels, List.nodup_nil, fun _ member => absurd member List.not_mem_nil⟩
    exact ⟨rfl, tracked, fun _ member => absurd member List.not_mem_nil, tracked⟩
  | next reachable typed coherent => exact (keeps_perform typed _ coherent trivial).1

end Rules

end Session
end AdjacencyForest
