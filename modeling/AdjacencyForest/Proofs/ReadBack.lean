import AdjacencyForest.Proofs.Answerable
import AdjacencyForest.Proofs.Cycles
import AdjacencyForest.Proofs.Transparency

/-!
# Writes and what is read after them

A request that creates, changes or deletes a node writes the row of one key; every other row stays as it
is and where it is. Whoever asks for the node then is answered as the write was.

Main statements: `differAt_addNode`, `differAt_changeNode` and `differAt_answerDelete`, the row that is
written; `readsAs_of_find?`, what is read of a row; `serve_writes_one_row`, both for the three requests.
-/

namespace AdjacencyForest

namespace Table

variable {kind : KeyKind} {table before after : Table} {row : Row} {key : Value} {change : Row → Row}
  {old new : Option Row}

/-- The tables have the same rows in the same order but for the row of one key, which each of them has
or has not. -/
structure DifferAt (key : Value) (old new : Option Row) (before after : Table) : Prop where
  split : ∃ front back, before = front ++ old.toList ++ back ∧ after = front ++ new.toList ++ back ∧
    ∀ row ∈ front ++ back, row.key ≠ key
  oldKey : ∀ row ∈ old, row.key = key
  newKey : ∀ row ∈ new, row.key = key

theorem DifferAt.symm (differ : DifferAt key old new before after) :
    DifferAt key new old after before := by
  obtain ⟨⟨front, back, was, is, others⟩, oldKey, newKey⟩ := differ
  exact ⟨⟨front, back, is, was, others⟩, newKey, oldKey⟩

/-- A look-up of the key finds the row that is written. -/
theorem DifferAt.find?_eq (differ : DifferAt key old new before after) : after.find? key = new := by
  obtain ⟨front, back, -, rfl, others⟩ := differ.split
  have missing {rows : List Row} (part : ∀ row ∈ rows, row ∈ front ++ back) : find? rows key = none :=
    find?_eq_none_iff.mpr fun row member => others row (part row member)
  rw [find?, List.find?_append, List.find?_append]
  rw [show List.find? _ front = none from missing fun _ => List.mem_append_left back,
    show List.find? _ back = none from missing fun _ => List.mem_append_right front]
  cases written : new with
  | none => rfl
  | some row => simp [differ.newKey row written]

theorem insertByKey_split (row : Row) (table : Table) :
    ∃ front back, table = front ++ back ∧ insertByKey row table = front ++ row :: back := by
  induction table with
  | nil => exact ⟨[], [], rfl, rfl⟩
  | cons first rest ih =>
    unfold insertByKey
    split
    · exact ⟨[], first :: rest, rfl, rfl⟩
    · obtain ⟨front, back, rfl, done⟩ := ih
      exact ⟨first :: front, back, rfl, congrArg (List.cons first) done⟩

theorem differAt_insert (fresh : table.contains row.key = false) :
    DifferAt row.key none (some row) table (table.insert .integer row) := by
  obtain ⟨front, back, rfl, done⟩ := insertByKey_split row table
  refine ⟨⟨front, back, by simp, ?_, contains_eq_false_iff.mp fresh⟩, by simp, by simp⟩
  simpa [insert] using done

theorem IsKeyed.exists_split (keyed : table.IsKeyed kind) (member : row ∈ table) :
    ∃ front back, table = front ++ row :: back ∧ ∀ other ∈ front ++ back, other.key ≠ row.key := by
  obtain ⟨front, back, rfl⟩ := List.append_of_mem member
  refine ⟨front, back, rfl, fun other inside same => ?_⟩
  have distinct : (row.key :: (front ++ back).map Row.key).Nodup := by
    refine (List.Perm.nodup_iff ?_).mp keyed.distinct
    exact (List.perm_middle (a := row)).map Row.key
  exact (List.nodup_cons.mp distinct).1 (same ▸ List.mem_map_of_mem inside)

theorem differAt_modify (keyed : table.IsKeyed kind) (member : row ∈ table) :
    DifferAt row.key (some row) (some { change row with key := row.key }) table
      (table.modify row.key change) := by
  obtain ⟨front, back, split, others⟩ := keyed.exists_split member
  have same {rows : List Row} (part : ∀ other ∈ rows, other ∈ front ++ back) :
      modify row.key change rows = rows := by
    refine (List.map_congr_left fun other inside => ?_).trans (List.map_id rows)
    simp [others other (part other inside)]
  refine ⟨⟨front, back, by simpa using split, ?_, others⟩, by simp, by simp⟩
  have parts : modify row.key change table = modify row.key change front ++
      { change row with key := row.key } :: modify row.key change back := by
    simp [split, modify]
  rw [parts, same fun _ => List.mem_append_left back, same fun _ => List.mem_append_right front]
  simp

theorem differAt_deleteNode (keyed : table.IsKeyed kind) (member : row ∈ table)
    (childless : ∀ other ∈ table, other.parent ≠ row.key) :
    DifferAt row.key (some row) none table (TreeModel.deleteNode table row.key) := by
  obtain ⟨front, back, split, others⟩ := keyed.exists_split member
  refine ⟨⟨front, back, by simpa using split, ?_, others⟩, by simp, by simp⟩
  have erased : table.erase row.key = front ++ back := by
    have kept : ∀ other ∈ front ++ back, (other.key != row.key) = true := by simpa using others
    rw [List.forall_mem_append] at kept
    rw [erase, split, List.filter_append, List.filter_cons_of_neg (by simp),
      List.filter_eq_self.mpr kept.1, List.filter_eq_self.mpr kept.2]
  have unlinked : ∀ other ∈ front ++ back, other.parent.equals row.key = false := by
    intro other inside
    have found : other ∈ table := by
      rw [split]
      exact List.perm_middle.symm.subset (List.mem_cons_of_mem row inside)
    rw [← Bool.not_eq_true, KeyKind.equals_comm (keyed.key row member) (keyed.parent other found)]
    exact fun same => childless other found same.symm
  rw [TreeModel.deleteNode, erased, Option.toList_none, List.append_nil]
  refine (List.map_congr_left fun other inside => ?_).trans (List.map_id _)
  simp [unlinked other inside]

/-- All keys are integers of the store, and the greatest integer of the store is none of them. -/
def HasRoom (table : Table) : Prop :=
  ∀ row ∈ table, ∀ i, row.key = .int i → -0x8000000000000000 ≤ i ∧ i < 0x7fffffffffffffff

theorem exists_key_of_greatestKey? {i : Int} (greatest : table.greatestKey? = some i) :
    ∃ row ∈ table, row.key = .int i := by
  induction table using List.reverseRecOn generalizing i with
  | nil => cases greatest
  | append_singleton rows last ih =>
    rw [greatestKey?, List.foldl_append, List.foldl_cons, List.foldl_nil] at greatest
    have earlier (found : greatestKey? rows = some i) : ∃ row ∈ rows ++ [last], row.key = .int i := by
      obtain ⟨row, member, key⟩ := ih found
      exact ⟨row, List.mem_append_left _ member, key⟩
    split at greatest
    next j key =>
      have here (same : j = i) : ∃ row ∈ rows ++ [last], row.key = .int i :=
        ⟨last, by simp, same ▸ key⟩
      split at greatest
      next other found =>
        rcases max_choice j other with same | same <;> rw [same] at greatest
        · exact here (Option.some.inj greatest)
        · exact earlier (found.trans greatest)
      next => exact here (Option.some.inj greatest)
    next => exact earlier greatest

theorem exists_greatestKey?_ge (member : row ∈ table) {i : Int} (key : row.key = .int i) :
    ∃ j, table.greatestKey? = some j ∧ i ≤ j := by
  induction table using List.reverseRecOn with
  | nil => cases member
  | append_singleton rows last ih =>
    rw [greatestKey?, List.foldl_append, List.foldl_cons, List.foldl_nil]
    rcases List.mem_append.mp member with earlier | here
    · obtain ⟨j, found, le⟩ := ih earlier
      unfold greatestKey? at found
      rw [found]
      split
      next k _ => exact ⟨max k j, rfl, le.trans (Int.le_max_right k j)⟩
      next => exact ⟨j, rfl, le⟩
    · obtain rfl := List.mem_singleton.mp here
      rw [key]
      dsimp only
      split
      next j _ => exact ⟨max i j, rfl, Int.le_max_left i j⟩
      next => exact ⟨i, rfl, Int.le_refl i⟩

/-- Among one candidate more than there are rows one is free. -/
theorem exists_freeKey (table : Table) :
    ∃ i ∈ (List.range (table.length + 1)).map fun (n : Nat) => (n : Int) + 1,
      table.contains (.int i) = false := by
  by_contra taken
  have inside : (List.range (table.length + 1)).map (fun (n : Nat) => Value.int ((n : Int) + 1)) ⊆
      List.map Row.key table := by
    intro key listed
    obtain ⟨n, found, rfl⟩ := List.mem_map.mp listed
    have present : table.contains (.int ((n : Int) + 1)) = true := by
      by_contra absent
      exact taken ⟨_, List.mem_map_of_mem found, by simpa using absent⟩
    obtain ⟨row, member, key⟩ := contains_iff.mp present
    exact key ▸ List.mem_map_of_mem member
  have distinct : ((List.range (table.length + 1)).map
      fun (n : Nat) => Value.int ((n : Int) + 1)).Nodup :=
    List.nodup_range.map fun n m same => by simpa using same
  -- If all candidates were taken, the rows would have more keys than there are rows.
  have length := (distinct.subperm inside).length_le
  rw [List.length_map, List.length_map, List.length_range] at length
  exact absurd length (Nat.not_succ_le_self _)

theorem contains_leastFreeKey (table : Table) : table.contains (.int table.leastFreeKey) = false := by
  unfold leastFreeKey
  cases found : ((List.range (table.length + 1)).map fun (n : Nat) => (n : Int) + 1).find?
      fun i => !table.contains (.int i) with
  | none =>
    obtain ⟨i, listed, absent⟩ := table.exists_freeKey
    exact absurd (by rw [absent]; rfl) (List.find?_eq_none.mp found i listed)
  | some i => simpa [found] using List.find?_some found

theorem contains_nextKey (table : Table) : table.contains (.int table.nextKey) = false := by
  unfold nextKey
  split
  next none =>
    refine contains_eq_false_iff.mpr fun row member key => ?_
    obtain ⟨j, found, -⟩ := exists_greatestKey?_ge member key
    rw [none] at found
    cases found
  next greatest found =>
    split
    · refine contains_eq_false_iff.mpr fun row member key => ?_
      obtain ⟨j, same, le⟩ := exists_greatestKey?_ge member key
      obtain rfl := Option.some.inj (found.symm.trans same)
      omega
    · exact contains_leastFreeKey table

theorem HasRoom.fits_nextKey (room : table.HasRoom) : fitsInt64 table.nextKey = true := by
  unfold nextKey
  cases greatest : table.greatestKey? with
  | none => rfl
  | some i =>
    obtain ⟨row, member, key⟩ := exists_key_of_greatestKey? greatest
    obtain ⟨low, high⟩ := room row member i key
    simp only [high, if_true, fitsInt64_iff]
    omega

end Table

namespace Service

open Table TreeModel

variable {settings : Settings} {table after : Table} {request : Request} {row : Row} {draft : NodeDraft}
  {answer : Answer} {id : Int} {key : Value}

/-! ## Drafts -/

/-- The draft says what the fields of an object say; no parent and an empty payload stand for what they
leave out. -/
structure NodeDraft.Repeats (draft : NodeDraft) (fields : List (String × Json)) : Prop where
  label : Json.lookup? "label" fields = some (.str draft.label)
  parent : (Json.lookup? "parent_id" fields = none ∧ draft.parent = none) ∨
    ∃ given, Json.lookup? "parent_id" fields = some given ∧ orNull integer given = .ok draft.parent
  payload : (Json.lookup? "meta" fields = none ∧ draft.payload = .obj []) ∨
    (Json.lookup? "meta" fields = some draft.payload ∧ IsObjectOrNull draft.payload)

/-- The body of the request is an object, and the draft is what it says. -/
def Request.Describes (request : Request) (draft : NodeDraft) : Prop :=
  ∃ fields, request.body.data? = .ok (some (.obj fields)) ∧ draft.Repeats fields

theorem eq_of_objectOrNull {given payload : Json} (valid : objectOrNull given = .ok payload) :
    given = payload := by
  unfold objectOrNull at valid
  split at valid <;> cases valid <;> rfl

theorem NodeDraft.repeats_of_ofFields {fields : List (String × Json)}
    (valid : NodeDraft.ofFields fields = .ok draft) : draft.Repeats fields := by
  have label := NodeDraft.label_of_draft valid
  unfold NodeDraft.ofFields at valid
  obtain ⟨parts, joint, rfl⟩ := map_eq_ok.mp valid
  obtain ⟨-, rest⟩ := Check.both_eq_ok.mp joint
  obtain ⟨parent, payload⟩ := Check.both_eq_ok.mp rest
  refine ⟨label, optional_eq_ok.mp parent, (optional_eq_ok.mp payload).imp_right ?_⟩
  rintro ⟨given, found, checked⟩
  have same := eq_of_objectOrNull checked
  exact ⟨same ▸ found, objectOrNull_eq_ok checked⟩

theorem Request.Gives.describes (given : request.Gives draft) : request.Describes draft := by
  obtain ⟨data, body, valid⟩ := given
  have valid := mapError_eq_ok.mp valid
  cases data with
  | none => cases valid
  | some input =>
    cases input with
    | obj fields => exact ⟨fields, body, NodeDraft.repeats_of_ofFields valid⟩
    | _ => cases valid

/-- The row that a draft is stored as. -/
def NodeDraft.rowAt (draft : NodeDraft) (key : Value) : Row :=
  ⟨key, draft.parentValue, .text draft.label, some draft.payload⟩

/-- What a draft makes of a row: it replaces all but the key, and but a payload that is alike. -/
def NodeDraft.rewrites (draft : NodeDraft) (row : Row) : Row :=
  { draft.rowAt row.key with
    payload := if (row.payload.getD .null).alike draft.payload then row.payload
      else some draft.payload }

theorem rowOf_toFields (shaped : IsObjectOrNull draft.payload)
    (accepted : TreeQuery.checkParameters
      (boundData (standard.insertedColumns draft.toFields) draft.toFields) = .ok ()) :
    standard.rowOf key draft.toFields = draft.rowAt key := by
  have parent : (standard.rowOf key draft.toFields).parent = draft.parentValue :=
    NodeDraft.eq_parentValue (toJson_parent_rowOf (draft.hasParent .null) accepted)
  have payload : storedPayload draft.payload = draft.payload := shaped.storedPayload_eq
  unfold NodeDraft.rowAt
  rw [← parent, ← columnValue_label, ← payload]
  rfl

theorem rewritten_toFields (keyed : table.IsKeyed .integer) (member : row ∈ table)
    (shaped : IsObjectOrNull draft.payload)
    (accepted : TreeQuery.checkParameters (boundData (standard.changedColumns (.ofRow row)
      { draft.toFields with key := row.key.toJson })
      { draft.toFields with key := row.key.toJson }) = .ok ()) :
    { rewritten (.ofRow row) { draft.toFields with key := row.key.toJson } row with key := row.key } =
      draft.rewrites row := by
  have sameKey := sameKey_ofRow keyed member draft
  have parent : (rewritten (.ofRow row) { draft.toFields with key := row.key.toJson } row).parent =
      draft.parentValue :=
    NodeDraft.eq_parentValue (toJson_parent_rewritten sameKey (draft.hasParent row.key.toJson)
      (keyed.parent row member) accepted)
  rw [rewritten_eq sameKey] at parent ⊢
  rw [Row.mk.injEq]
  refine ⟨rfl, parent, ?_, ?_⟩ <;> dsimp only
  · split
    next alike => exact eq_text_of_alike alike
    next => exact columnValue_label draft.label
  · have payload : storedPayload draft.toFields.payload = draft.payload := shaped.storedPayload_eq
    rw [payload]
    rfl

/-! ## Reading -/

theorem viewRow_of_draft (key : row.key = .int id) (parent : row.parent = draft.parentValue)
    (label : row.label = .text draft.label) (payload : row.payload.getD .null = draft.payload)
    (shaped : IsObjectOrNull draft.payload) : viewRow row = .ok ⟨draft, id⟩ := by
  obtain ⟨text, asked, data⟩ := draft
  unfold viewRow rowFields
  rw [key, parent, label, payload]
  cases asked <;> rcases shaped with rfl | ⟨fields, rfl⟩ <;> rfl

/-- The draft with the payload that the row keeps when the draft rewrites it. -/
def NodeDraft.kept (draft : NodeDraft) (row : Row) : NodeDraft :=
  { draft with payload := (draft.rewrites row).payload.getD .null }

theorem viewRow_rowAt (shaped : IsObjectOrNull draft.payload) :
    viewRow (draft.rowAt (.int id)) = .ok ⟨draft, id⟩ :=
  viewRow_of_draft rfl rfl rfl rfl shaped

theorem viewRow_rewrites (key : row.key = .int id) (shaped : IsObjectOrNull draft.payload) :
    viewRow (draft.rewrites row) = .ok ⟨draft.kept row, id⟩ := by
  refine viewRow_of_draft key rfl rfl rfl ?_
  unfold NodeDraft.kept NodeDraft.rewrites
  dsimp only
  split
  next alike => exact (isObjectOrNull_congr alike).mpr shaped
  next => exact shaped

/-- Whoever asks for the node of the key is answered so. -/
def ReadsAs (settings : Settings) (table : Table) (id : Int) (told : Outcome Answer) : Prop :=
  ∀ request key, request.Asks .showNode key → request.body.isSendable = true → pathKey key = .ok id →
    serve settings table request = (table, told)

theorem readsAs_of_answerShow {told : Outcome Answer} (keyed : table.IsKeyed .integer)
    (shows : ∀ key, pathKey key = .ok id → answerShow table key = told) :
    ReadsAs settings table id told := by
  intro request key asked sendable address
  have performed : perform settings table request key .showNode = reading table told :=
    congrArg (reading table) (shows key address)
  rw [serve_eq_respond keyed, respond, outcome_of_asks sendable asked, performed]
  cases told <;> rfl

theorem readsAs_of_find? {view : NodeView} (keyed : table.IsKeyed .integer)
    (fits : fitsInt64 id = true) (found : table.find? (.int id) = some row)
    (shown : viewRow row = .ok view) : ReadsAs settings table id (.ok (.json view.toJson)) := by
  refine readsAs_of_answerShow keyed fun key address => ?_
  refine bind_eq_ok.mpr ⟨id, orInvalid_eq_ok.mpr address, bind_eq_ok.mpr
    ⟨row, nodeOfKey_eq_ok.mpr ⟨fits, found⟩, ?_⟩⟩
  rw [shown]
  rfl

theorem readsAs_of_missing (keyed : table.IsKeyed .integer) (fits : fitsInt64 id = true)
    (missing : table.find? (.int id) = none) :
    ReadsAs settings table id (.error (.status 404 "Node not found")) := by
  refine readsAs_of_answerShow keyed fun key address => ?_
  unfold answerShow
  rw [address]
  change (nodeOfKey table id >>= _) = _
  rw [nodeOfKey_of_missing fits missing]
  rfl

/-! ## Writing -/

theorem differAt_addNode (shaped : IsObjectOrNull draft.payload)
    (added : addNode table draft = .ok (after, answer)) :
    DifferAt (.int table.nextKey) none (some (draft.rowAt (.int table.nextKey))) table after ∧
      answer = .json (NodeView.toJson ⟨draft, table.nextKey⟩) := by
  obtain ⟨-, key, inserted, told⟩ := addNode_eq_ok.mp added
  obtain ⟨accepted, made, fresh, rfl⟩ := insertNode_eq_ok.mp inserted
  -- A draft has no key of its own, so the store gives it the next one.
  obtain rfl : Value.int table.nextKey = key := Except.ok.inj made
  rw [rowOf_toFields shaped accepted] at told ⊢
  have differ := @differAt_insert table (draft.rowAt (.int table.nextKey)) fresh
  refine ⟨differ, ?_⟩
  exact Except.ok.inj (told.symm.trans (answerRow_eq_ok differ.find?_eq (viewRow_rowAt shaped)))

theorem differAt_changeNode (keyed : table.IsKeyed .integer) (shaped : IsObjectOrNull draft.payload)
    (changed : changeNode settings table id draft = .ok (after, answer)) :
    ∃ row, nodeOfKey table id = .ok row ∧
      DifferAt (.int id) (some row) (some (draft.rewrites row)) table after ∧
      answer = .json (NodeView.toJson ⟨draft.kept row, id⟩) := by
  obtain ⟨row, key, node, -, -, updated, told⟩ := changeNode_eq_ok.mp changed
  obtain ⟨member, rowKey⟩ := (find?_iff keyed).mp (nodeOfKey_eq_ok.mp node).2
  obtain ⟨accepted, rfl, rfl⟩ := (updateNode_eq_ok (sameKey_ofRow keyed member draft)).mp updated
  have differ : DifferAt row.key (some row) (some (draft.rewrites row)) table _ :=
    rewritten_toFields keyed member shaped accepted ▸ differAt_modify keyed member
  rw [rowKey] at differ told
  refine ⟨row, node, rowKey ▸ differ, ?_⟩
  exact Except.ok.inj (told.symm.trans
    (answerRow_eq_ok differ.find?_eq (viewRow_rewrites rowKey shaped)))

theorem differAt_answerDelete {key : String} (keyed : table.IsKeyed .integer)
    (deleted : answerDelete table key = .ok (after, answer)) :
    ∃ id row, pathKey key = .ok id ∧ nodeOfKey table id = .ok row ∧
      DifferAt (.int id) (some row) none table after := by
  obtain ⟨id, row, address, node, childless, rfl⟩ := exists_node_of_answerDelete deleted
  obtain ⟨member, rowKey⟩ := (find?_iff keyed).mp (nodeOfKey_eq_ok.mp node).2
  refine ⟨id, row, address, node, ?_⟩
  rw [← rowKey]
  exact differAt_deleteNode keyed member childless

theorem perform_of_serve {action : Action} {key : String} (keyed : table.IsKeyed .integer)
    (done : serve settings table request = (after, .ok answer)) (asked : request.Asks action key) :
    perform settings table request key action = .ok (after, answer) := by
  rw [serve_eq_respond keyed] at done
  cases told : outcome settings table request with
  | error refusal =>
    rw [respond, told] at done
    cases done
  | ok result =>
    obtain ⟨written, given⟩ := result
    rw [respond, told] at done
    cases done
    exact perform_of_outcome told asked

/-- A node that is created, changed or deleted is the row of one key, which is written as the request
describes it; all other rows stay. What is read of the key then is what the request was answered, and a
deleted node is not found. Only a payload that is alike the stored one is not written. -/
theorem serve_writes_one_row (keyed : table.IsKeyed .integer) (room : table.HasRoom)
    (done : serve settings table request = (after, .ok answer)) :
    (∀ key, request.Asks .createNode key → ∃ draft id, request.Describes draft ∧
      table.contains (.int id) = false ∧
      DifferAt (.int id) none (some (draft.rowAt (.int id))) table after ∧
      answer = .json (NodeView.toJson ⟨draft, id⟩) ∧ ReadsAs settings after id (.ok answer)) ∧
    (∀ key, request.Asks .updateNode key → ∃ draft id row, request.Describes draft ∧
      pathKey key = .ok id ∧
      DifferAt (.int id) (some row) (some (draft.rewrites row)) table after ∧
      answer = .json (NodeView.toJson ⟨draft.kept row, id⟩) ∧ ReadsAs settings after id (.ok answer)) ∧
    (∀ key, request.Asks .deleteNode key → ∃ id row, pathKey key = .ok id ∧
      DifferAt (.int id) (some row) none table after ∧
      ReadsAs settings after id (.error (.status 404 "Node not found"))) := by
  have keyedAfter : after.IsKeyed .integer := by
    have step := (step_respond settings table request).isKeyed keyed
    rwa [← serve_eq_respond keyed, done] at step
  refine ⟨fun key asked => ?_, fun key asked => ?_, fun key asked => ?_⟩
  · obtain ⟨draft, given, added⟩ := gives_of_answerCreate (perform_of_serve keyed done asked)
    obtain ⟨differ, rfl⟩ := differAt_addNode given.payload added
    have fresh : table.contains (.int table.nextKey) = false :=
      contains_eq_false_iff.mpr (find?_eq_none_iff.mp differ.symm.find?_eq)
    exact ⟨draft, table.nextKey, given.describes, fresh, differ, rfl,
      readsAs_of_find? keyedAfter room.fits_nextKey differ.find?_eq (viewRow_rowAt given.payload)⟩
  · obtain ⟨id, draft, address, given, changed⟩ :=
      gives_of_answerUpdate (perform_of_serve keyed done asked)
    obtain ⟨row, node, differ, rfl⟩ := differAt_changeNode keyed given.payload changed
    have rowKey := differ.oldKey row rfl
    exact ⟨draft, id, row, given.describes, address, differ, rfl,
      readsAs_of_find? keyedAfter (nodeOfKey_eq_ok.mp node).1 differ.find?_eq
        (viewRow_rewrites rowKey given.payload)⟩
  · obtain ⟨id, row, address, node, differ⟩ :=
      differAt_answerDelete keyed (perform_of_serve keyed done asked)
    exact ⟨id, row, address, differ,
      readsAs_of_missing keyedAfter (nodeOfKey_eq_ok.mp node).1 differ.find?_eq⟩

/-- A change that gives a label alone. -/
def renameFirst : Request where
  method := "PUT"
  path := "/api/nodes/1"
  body := .json (.obj [("label", .str "b")])

/-- The node of `numberedTable` with another label and without its payload. -/
def renamedTable : Table := [⟨.int 1, .null, .text "b", some (.obj [])⟩]

theorem asks_renameFirst : renameFirst.Asks .updateNode "1" := by
  unfold Request.Asks
  decide +kernel

theorem asks_showFirst : showFirst.Asks .showNode "1" := by
  unfold Request.Asks
  decide +kernel

theorem hasRoom_numberedTable : Session.numberedTable.HasRoom := by
  intro row member i key
  obtain rfl := List.mem_singleton.mp member
  obtain rfl := Value.int.inj key
  decide

theorem serve_of_answerUpdate {key : String} (keyed : table.IsKeyed .integer)
    (asked : request.Asks .updateNode key) (sendable : request.body.isSendable = true)
    (updated : answerUpdate settings table request key = .ok (after, answer)) :
    serve settings table request = (after, .ok answer) := by
  have performed : perform settings table request key .updateNode = .ok (after, answer) := updated
  rw [serve_eq_respond keyed, respond, outcome_of_asks sendable asked, performed]

theorem serve_renameFirst : serve {} Session.numberedTable renameFirst =
    (renamedTable, .ok (.json (NodeView.toJson ⟨⟨"b", none, .obj []⟩, 1⟩))) := by
  refine serve_of_answerUpdate Session.isKeyed_numberedTable asks_renameFirst rfl ?_
  unfold answerUpdate
  rw [pathKey_one]
  rfl

/-- The payload that the change does not give is gone, and the next reader sees what was answered. -/
theorem reads_renameFirst :
    serve {} Session.numberedTable renameFirst =
        (renamedTable, .ok (.json (NodeView.toJson ⟨⟨"b", none, .obj []⟩, 1⟩))) ∧
      (∃ draft row, renameFirst.Describes draft ∧
        DifferAt (.int 1) (some row) (some (draft.rewrites row)) Session.numberedTable renamedTable) ∧
      serve {} renamedTable showFirst =
        (renamedTable, .ok (.json (NodeView.toJson ⟨⟨"b", none, .obj []⟩, 1⟩))) := by
  obtain ⟨-, updates, -⟩ := serve_writes_one_row Session.isKeyed_numberedTable hasRoom_numberedTable
    serve_renameFirst
  obtain ⟨draft, id, row, describes, address, differ, -, reads⟩ := updates "1" asks_renameFirst
  obtain rfl : 1 = id := Except.ok.inj (pathKey_one.symm.trans address)
  exact ⟨serve_renameFirst, ⟨draft, row, describes, differ⟩,
    reads showFirst "1" asks_showFirst rfl pathKey_one⟩

/-- A change that gives a truth value in place of the number one. -/
def assertFirst : Request where
  method := "PUT"
  path := "/api/nodes/1"
  body := .json (.obj [("label", .str "a"), ("meta", .obj [("one", .bool true)])])

theorem asks_assertFirst : assertFirst.Asks .updateNode "1" := by
  unfold Request.Asks
  decide +kernel

/-- A payload that is alike the stored one is accepted, and not written. -/
theorem serve_keeps_alike_payload :
    assertFirst.Asks .updateNode "1" ∧ pathKey "1" = .ok 1 ∧
      assertFirst.Gives ⟨"a", none, .obj [("one", .bool true)]⟩ ∧
      serve {} Session.numberedTable assertFirst = (Session.numberedTable,
        .ok (.json (NodeView.toJson ⟨⟨"a", none, .obj [("one", .int 1)]⟩, 1⟩))) ∧
      ∀ row ∈ Session.numberedTable, row.payload ≠ some (.obj [("one", .bool true)]) := by
  refine ⟨asks_assertFirst, pathKey_one, ⟨_, rfl, rfl⟩, ?_, by simp [Session.numberedTable]⟩
  refine serve_of_answerUpdate Session.isKeyed_numberedTable asks_assertFirst rfl ?_
  unfold answerUpdate
  rw [pathKey_one]
  rfl

end Service
end AdjacencyForest
