import AdjacencyForest.Proofs.Cycles

/-!
# Forests

A table is a forest if each parent is there and no row is on a cycle. All requests keep it one, but
for those that hang a node under zero: a parent of zero is taken for none when parents are looked
for, and is written all the same.

Main statements: `isForest_respond_iff`, a request keeps a forest unless it hangs a node under a zero
that is not there; `isForest_along_run_iff`, so does a run.
-/

open Relation

namespace AdjacencyForest

/-- Keys, every parent there, and nobody above itself. -/
structure Table.IsForest (table : Table) : Prop where
  keyed : table.IsKeyed .integer
  parents : ∀ row ∈ table, row.parent ≠ .null → table.contains row.parent = true
  acyclic : ∀ row, ¬ table.OnCycle row

namespace Service

open Table

variable {settings : Settings} {table after : Table} {request : Request} {row : Row}
  {draft : NodeDraft} {answer : Answer} {ids : List Int}

/-- The request is accepted, and gives a node the parent zero although no node has that key. -/
def HangsUnderZero (settings : Settings) (table : Table) (request : Request) : Prop :=
  table.contains (.int 0) = false ∧
    (∃ key, request.Asks .createNode key ∨ request.Asks .updateNode key) ∧
    (∃ draft, request.Gives draft ∧ draft.parent = some 0) ∧
    ∃ result, outcome settings table request = .ok result

theorem contains_of_agreesOutside {keys : List Value} {key : Value}
    (agrees : AgreesOutside keys table after) (present : table.contains key = true) :
    after.contains key = true := by
  obtain ⟨row, member, rfl⟩ := contains_iff.mp present
  obtain ⟨other, found, same⟩ := agrees.keeps row member
  exact contains_iff.mpr ⟨other, found, same⟩

theorem contains_parentValue (hasParent : HasParentFor table draft)
    (zero : draft.parent = some 0 → table.contains (.int 0) = true)
    (given : draft.parentValue ≠ .null) : table.contains draft.parentValue = true := by
  unfold NodeDraft.parentValue at given ⊢
  cases asked : draft.parent with
  | none => simp [asked] at given
  | some id =>
    rcases hasParent id asked with rfl | present
    · exact zero asked
    · exact present

theorem isForest_insert (forest : table.IsForest) (admitted : KeyKind.integer.Admits row.key)
    (typed : row.parent = .null ∨ KeyKind.integer.Admits row.parent)
    (parent : row.parent ≠ .null → table.contains row.parent = true)
    (fresh : table.contains row.key = false) : (table.insert .integer row).IsForest := by
  have agrees := agreesOutside_insert .integer row table
  -- No row waits for the new key, so the new row is the last of its branch.
  have childless : ∀ other ∈ table.insert .integer row, other.parent ≠ row.key := by
    intro other member same
    have present : table.contains other.parent = true := by
      have given : other.parent ≠ .null := same ▸ KeyKind.not_null_of_admits admitted
      rcases mem_insert.mp member with rfl | old
      · exact parent given
      · exact forest.parents other old given
    rw [same, fresh] at present
    exact Bool.false_ne_true present
  refine ⟨forest.keyed.insert admitted typed fresh, fun other member given => ?_,
    not_onCycle_of_isCycle forest.keyed forest.acyclic fun cycle cyclic => ?_⟩
  · apply contains_of_agreesOutside agrees
    rcases mem_insert.mp member with rfl | old
    · exact parent given
    · exact forest.parents other old given
  · refine cyclic.of_agreesOutside agrees fun key listed inside => ?_
    rw [List.mem_singleton.mp listed] at inside
    obtain ⟨_, -, last, found, -, same⟩ := TransGen.tail'_iff.mp (cyclic.transGen inside)
    exact childless last found same

theorem isForest_modify {change : Row → Row} (forest : table.IsForest) (member : row ∈ table)
    (parent : (change row).parent ≠ .null → table.contains (change row).parent = true)
    (keyed : (table.modify row.key change).IsKeyed .integer)
    (acyclic : ∀ other, ¬ (table.modify row.key change).OnCycle other) :
    (table.modify row.key change).IsForest := by
  refine ⟨keyed, fun other found given => ?_, acyclic⟩
  apply contains_of_agreesOutside (agreesOutside_modify row.key change table)
  rcases mem_modify.mp found with ⟨old, -⟩ | ⟨old, oldMember, same, rfl⟩
  · exact forest.parents other old given
  · obtain rfl := forest.keyed.eq_of_key oldMember member same
    exact parent given

theorem isForest_deleteNode (forest : table.IsForest)
    (childless : ∀ other ∈ table, other.parent ≠ row.key)
    (acyclic : ∀ other, ¬ (TreeModel.deleteNode table row.key).OnCycle other) :
    (TreeModel.deleteNode table row.key).IsForest := by
  refine ⟨TreeModel.isKeyed_deleteNode forest.keyed, fun other found given => ?_, acyclic⟩
  obtain ⟨old, member, -, rfl⟩ := TreeModel.mem_deleteNode.mp found
  split at given
  · exact absurd rfl given
  next stays =>
    obtain ⟨above, aboveMember, aboveKey⟩ := contains_iff.mp (forest.parents old member given)
    rw [if_neg stays]
    refine contains_iff.mpr ⟨_, TreeModel.mem_deleteNode.mpr ⟨above, aboveMember, ?_, rfl⟩, ?_⟩
    · exact fun same => childless old member (aboveKey.symm.trans same)
    · split
      · exact aboveKey
      · exact aboveKey

theorem isForest_import (forest : table.IsForest) (kept : KeepsOthers table ids after)
    (placed : ∀ row ∈ after, row.key ∈ ids.map Value.int → IsPlaced after row)
    (acyclic : ∀ other, ¬ after.OnCycle other) : after.IsForest := by
  obtain ⟨keyed, agrees⟩ := kept
  refine ⟨keyed, fun other member given => ?_, acyclic⟩
  by_cases listed : other.key ∈ ids.map Value.int
  · rcases placed other member listed with root | ⟨present, -⟩
    · exact absurd root given
    · exact present
  · exact contains_of_agreesOutside agrees
      (forest.parents other ((agrees.rows other listed).mp member) given)

theorem Step.acyclic (forest : table.IsForest) (step : Step settings table request after)
    (creates : ∀ key, ¬ request.Asks .createNode key) (other : Row) : ¬ after.OnCycle other :=
  not_onCycle_of_isCycle forest.keyed forest.acyclic
    (fun _ => step.isCycle forest.keyed creates) other

theorem not_asks_createNode {action : Action} {key : String} (asked : request.Asks action key)
    (different : action ≠ .createNode) (other : String) : ¬ request.Asks .createNode other := by
  intro creates
  rw [Request.Asks, asked] at creates
  cases creates
  exact different rfl

theorem Step.isForest (forest : table.IsForest) (step : Step settings table request after)
    (zero : (∃ key, request.Asks .createNode key ∨ request.Asks .updateNode key) →
      (∃ draft, request.Gives draft ∧ draft.parent = some 0) → table.contains (.int 0) = true) :
    after.IsForest := by
  have keyed := step.isKeyed forest.keyed
  have acyclic := step.acyclic forest
  cases step with
  | kept => exact forest
  | created asked given added =>
    obtain ⟨row, admitted, parent, fresh, rfl, hasParent⟩ := exists_insert_of_addNode added
    refine isForest_insert forest admitted (parent ▸ NodeDraft.admits_parentValue _) ?_ fresh
    rw [parent]
    exact contains_parentValue hasParent fun hangs => zero ⟨_, .inl asked⟩ ⟨_, given, hangs⟩
  | changed asked _ given changed =>
    obtain ⟨row, member, change, -, rfl, parent, hasParent, -⟩ :=
      exists_modify_of_changeNode forest.keyed changed
    refine isForest_modify forest member ?_ keyed (acyclic (not_asks_createNode asked (by decide)))
    rw [parent]
    exact contains_parentValue hasParent fun hangs => zero ⟨_, .inr asked⟩ ⟨_, given, hangs⟩
  | deleted asked deleted =>
    obtain ⟨row, -, childless, rfl⟩ := eq_deleteNode_of_answerDelete deleted
    exact isForest_deleteNode forest childless (acyclic (not_asks_createNode asked (by decide)))
  | imported asked imported =>
    obtain ⟨ids, kept, placed⟩ := importSheet_keeps forest.keyed imported
    exact isForest_import forest kept placed (acyclic (not_asks_createNode asked (by decide)))

/-! ## Nodes under zero -/

theorem not_isForest_insert (absent : table.contains (.int 0) = false)
    (parent : row.parent = .int 0) : ¬ (table.insert .integer row).IsForest := by
  intro forest
  have own : row ∈ table.insert .integer row := mem_insert.mpr (.inl rfl)
  have present := forest.parents row own (by simp [parent])
  obtain ⟨other, member, key⟩ := contains_iff.mp present
  -- The key zero can only have come with the new row, which is then its own parent.
  rcases mem_insert.mp member with rfl | old
  · exact forest.acyclic other (.single ⟨own, own, key⟩)
  · exact contains_eq_false_iff.mp absent other old (key.trans parent)

theorem not_isForest_modify {change : Row → Row} (absent : table.contains (.int 0) = false)
    (member : row ∈ table) (parent : (change row).parent = .int 0) :
    ¬ (table.modify row.key change).IsForest := by
  intro forest
  have changed : { change row with key := row.key } ∈ table.modify row.key change :=
    mem_modify.mpr (.inr ⟨row, member, rfl, rfl⟩)
  have present := forest.parents _ changed (by simp [parent])
  obtain ⟨other, found, key⟩ := contains_iff.mp present
  have inside : other.key ∈ List.map Row.key table := by
    have keys : List.map Row.key (table.modify row.key change) = List.map Row.key table :=
      map_key_modify
    rw [← keys]
    exact List.mem_map_of_mem found
  obtain ⟨old, oldMember, same⟩ := List.mem_map.mp inside
  exact contains_eq_false_iff.mp absent old oldMember ((same.trans key).trans parent)

theorem not_isForest_of_hangsUnderZero (keyed : table.IsKeyed .integer)
    (hangs : HangsUnderZero settings table request) :
    ¬ (respond settings table request).1.IsForest := by
  obtain ⟨absent, ⟨key, asked⟩, ⟨draft, given, zero⟩, ⟨after, answer⟩, done⟩ := hangs
  have parentZero : draft.parentValue = .int 0 := by rw [NodeDraft.parentValue, zero]
  rw [respond_fst_of_ok done]
  rcases asked with creates | updates
  · obtain ⟨other, otherGiven, added⟩ := gives_of_answerCreate (perform_of_outcome done creates)
    obtain rfl := given.unique otherGiven
    obtain ⟨row, -, parent, -, rfl, -⟩ := exists_insert_of_addNode added
    exact not_isForest_insert absent (parent.trans parentZero)
  · obtain ⟨id, other, -, otherGiven, changed⟩ :=
      gives_of_answerUpdate (perform_of_outcome done updates)
    obtain rfl := given.unique otherGiven
    obtain ⟨row, member, change, -, rfl, parent, -, -⟩ := exists_modify_of_changeNode keyed changed
    exact not_isForest_modify absent member (parent.trans parentZero)

theorem isForest_respond_iff (forest : table.IsForest) :
    (respond settings table request).1.IsForest ↔ ¬ HangsUnderZero settings table request := by
  constructor
  · exact fun kept hangs => not_isForest_of_hangsUnderZero forest.keyed hangs kept
  · intro sound
    cases done : outcome settings table request with
    | error refusal => rwa [respond_fst_of_error done]
    | ok result =>
      obtain ⟨after, answer⟩ := result
      rw [respond_fst_of_ok done]
      refine (step_of_outcome done).isForest forest fun asked given => ?_
      by_contra absent
      exact sound ⟨by simpa using absent, asked, given, _, done⟩

theorem tableAfter_take_succ {requests : List Request} {n : Nat}
    (found : requests[n]? = some request) :
    tableAfter settings table (requests.take (n + 1)) =
      (respond settings (tableAfter settings table (requests.take n)) request).1 := by
  unfold tableAfter
  rw [List.take_add_one, found, Option.toList_some, List.foldl_append]
  rfl

/-- The tables along a run are forests iff no request of it that is accepted hangs a node under a
zero that is not there. -/
theorem isForest_along_run_iff (forest : table.IsForest) (requests : List Request) :
    (∀ n, (tableAfter settings table (requests.take n)).IsForest) ↔
      ∀ n request, requests[n]? = some request →
        ¬ HangsUnderZero settings (tableAfter settings table (requests.take n)) request := by
  constructor
  · intro forests n request found
    rw [← isForest_respond_iff (forests n), ← tableAfter_take_succ found]
    exact forests (n + 1)
  · intro sound n
    induction n with
    | zero => exact forest
    | succ n ih =>
      cases found : requests[n]? with
      | some request =>
        rw [tableAfter_take_succ found]
        exact (isForest_respond_iff ih).mpr (sound n request found)
      | none =>
        rw [List.take_add_one, found, Option.toList_none, List.append_nil]
        exact ih

def loneRoot : Table := [⟨.int 1, .null, .text "root", none⟩]

def createUnderZero : Request where
  method := "POST"
  path := "/api/nodes"
  body := .json (.obj [("label", .str "stray"), ("parent_id", .int 0)])

theorem isForest_loneRoot : loneRoot.IsForest where
  keyed := {
    key := by simp [loneRoot, KeyKind.Admits]
    parent := by simp [loneRoot]
    distinct := by decide }
  parents := by simp [loneRoot]
  acyclic row around := by
    obtain ⟨next, ⟨member, nextMember, joined⟩, -⟩ := TransGen.head'_iff.mp around
    obtain rfl := List.mem_singleton.mp member
    obtain rfl := List.mem_singleton.mp nextMember
    cases joined

theorem hangsUnderZero_createUnderZero : HangsUnderZero {} loneRoot createUnderZero := by
  have asked : createUnderZero.Asks .createNode "" := by
    unfold Request.Asks
    decide +kernel
  have given : createUnderZero.Gives ⟨"stray", some 0, .obj []⟩ := ⟨_, rfl, rfl⟩
  refine ⟨by decide, ⟨"", .inl asked⟩, ⟨_, given, rfl⟩, ?_⟩
  rw [outcome_of_asks rfl asked]
  exact ⟨_, rfl⟩

theorem not_isForest_along_createUnderZero :
    ¬ ∀ n, (tableAfter {} loneRoot ([createUnderZero].take n)).IsForest := by
  rw [isForest_along_run_iff isForest_loneRoot]
  intro sound
  exact sound 0 createUnderZero rfl hangsUnderZero_createUnderZero

end Service
end AdjacencyForest
