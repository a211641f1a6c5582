import AdjacencyForest.Proofs.Walks

/-!
# Links and cycles

A table as its links, from the key of each row to its parent, whatever else the rows hold. A cycle is
a list of keys each of which links to the next one and the last to the first.

Main statements: `onCycle_iff_exists_isCycle`, the rows on cycles are those whose keys stand in one;
`IsCycle.of_agreesOutside`, a cycle without changed keys was there before; `IsCycle.below`, a cycle
through a changed key makes its parent one that was below it before.
-/

open Relation

namespace AdjacencyForest.Table

/-- A row of the one key has the other one as its parent. -/
def Link (table : Table) (child parent : Value) : Prop :=
  ∃ row ∈ table, row.key = child ∧ row.parent = parent

/-- The keys around a cycle of links. -/
def IsCycle (table : Table) (cycle : List Value) : Prop :=
  cycle ≠ [] ∧ (cycle ++ cycle.take 1).IsChain table.Link

/-- The tables have the same rows but for some keys, and no key is lost. -/
structure AgreesOutside (keys : List Value) (before after : Table) : Prop where
  rows : ∀ row : Row, row.key ∉ keys → (row ∈ after ↔ row ∈ before)
  keeps : ∀ row ∈ before, ∃ other ∈ after, other.key = row.key

variable {kind : KeyKind} {table before after : Table} {row other : Row}
  {child parent : Value} {keys more cycle : List Value}

theorem IsCycle.transGen (cyclic : table.IsCycle cycle) (member : child ∈ cycle) :
    TransGen table.Link child child := by
  obtain ⟨nonempty, chain⟩ := cyclic
  obtain ⟨first, rest, rfl⟩ := List.exists_cons_of_ne_nil nonempty
  have reached : ReflTransGen table.Link first child :=
    reflTransGen_of_mem chain (List.mem_append_left _ member)
  obtain ⟨front, back, split⟩ := List.append_of_mem member
  rw [split, List.append_assoc] at chain
  have later : (child :: (back ++ [first])).IsChain table.Link := by
    have whole := (List.isChain_append.mp chain).2.1
    rwa [← split] at whole
  have related := (later.imp fun _ _ joined => TransGen.single joined).pairwise
  exact (List.rel_of_pairwise_cons related (by simp)).trans_left reached

theorem IsCycle.mem_of_link (cyclic : table.IsCycle cycle) (member : child ∈ cycle) :
    ∃ row ∈ table, row.key = child := by
  obtain ⟨_, ⟨row, found, key, -⟩, -⟩ := TransGen.head'_iff.mp (cyclic.transGen member)
  exact ⟨row, found, key⟩

theorem IsCycle.of_links (cyclic : after.IsCycle cycle)
    (kept : ∀ child ∈ cycle, ∀ parent ∈ cycle, after.Link child parent → before.Link child parent) :
    before.IsCycle cycle := by
  refine ⟨cyclic.1, List.IsChain.imp_of_mem_imp (fun a b first second link => ?_) cyclic.2⟩
  have inside : ∀ key ∈ cycle ++ cycle.take 1, key ∈ cycle := fun key member =>
    (List.mem_append.mp member).elim id List.mem_of_mem_take
  exact kept a (inside a first) b (inside b second) link

theorem below_of_links (member : row ∈ table)
    (reached : ReflTransGen table.Link child row.key) :
    ∃ other, other.key = child ∧ ReflTransGen (table.Joined .down) row other := by
  induction reached using ReflTransGen.head_induction_on with
  | refl => exact ⟨row, rfl, .refl⟩
  | @head child parent link _ ih =>
    obtain ⟨next, key, reached⟩ := ih
    obtain ⟨first, firstMember, firstKey, firstParent⟩ := link
    have joined : table.Joined .down next first :=
      ⟨mem_of_reachable reached member, firstMember, key.trans firstParent.symm⟩
    exact ⟨first, firstKey, .tail reached joined⟩

/-- A row is on a cycle iff its parent is at it or below it. -/
theorem onCycle_iff_below (member : row ∈ table) : table.OnCycle row ↔
    ∃ other, other.key = row.parent ∧ ReflTransGen (table.Joined .down) row other := by
  constructor
  · intro around
    obtain ⟨next, joined, reached⟩ := TransGen.head'_iff.mp around
    exact ⟨next, joined.2.2, reflTransGen_down_iff.mpr reached⟩
  · rintro ⟨other, key, reached⟩
    exact TransGen.head' ⟨member, mem_of_reachable reached member, key⟩
      (reflTransGen_down_iff.mp reached)

theorem link_of_joined (joined : table.Joined .up row other) : table.Link row.key other.key :=
  ⟨row, joined.1, rfl, joined.2.2.symm⟩

theorem onCycle_of_transGen (keyed : table.IsKeyed kind) (member : row ∈ table)
    (around : TransGen table.Link row.key row.key) : table.OnCycle row := by
  obtain ⟨parent, link, reached⟩ := TransGen.head'_iff.mp around
  obtain ⟨first, firstMember, firstKey, rfl⟩ := link
  obtain rfl := keyed.eq_of_key firstMember member firstKey
  exact (onCycle_iff_below member).mpr (below_of_links member reached)

theorem IsCycle.onCycle (keyed : table.IsKeyed kind) (cyclic : table.IsCycle cycle)
    (member : row ∈ table) (inside : row.key ∈ cycle) : table.OnCycle row :=
  onCycle_of_transGen keyed member (cyclic.transGen inside)

theorem exists_isCycle (around : table.OnCycle row) :
    ∃ cycle, table.IsCycle cycle ∧ row.key ∈ cycle := by
  obtain ⟨next, joined, reached⟩ := TransGen.head'_iff.mp around
  obtain ⟨rest, chain, -, last⟩ := exists_simple_walk reached
  refine ⟨(next :: rest).map Row.key, ⟨by simp, ?_⟩, ?_⟩
  · have keys : ((next :: rest).map Row.key).IsChain table.Link :=
      List.isChain_map_of_isChain Row.key (fun _ _ => link_of_joined) chain
    refine List.isChain_append.mpr ⟨keys, by simp, fun key found other given => ?_⟩
    rw [List.getLast?_map, last, Option.map_some, Option.mem_some_iff] at found
    simp only [List.map_cons, List.take_succ_cons, List.take_zero, List.head?_cons,
      Option.mem_some_iff] at given
    subst found given
    exact link_of_joined joined
  · exact List.mem_map_of_mem (List.mem_of_getLast? last)

theorem not_onCycle_of_isCycle (keyed : before.IsKeyed kind) (acyclic : ∀ row, ¬ before.OnCycle row)
    (kept : ∀ cycle, after.IsCycle cycle → before.IsCycle cycle) (row : Row) : ¬ after.OnCycle row := by
  intro around
  obtain ⟨cycle, cyclic, inside⟩ := exists_isCycle around
  obtain ⟨old, member, same⟩ := (kept cycle cyclic).mem_of_link inside
  exact acyclic old ((kept cycle cyclic).onCycle keyed member (same ▸ inside))

theorem onCycle_iff_exists_isCycle (keyed : table.IsKeyed kind) (member : row ∈ table) :
    table.OnCycle row ↔ ∃ cycle, table.IsCycle cycle ∧ row.key ∈ cycle :=
  ⟨exists_isCycle, fun ⟨_, cyclic, inside⟩ => cyclic.onCycle keyed member inside⟩

namespace AgreesOutside

theorem refl (keys : List Value) (table : Table) : AgreesOutside keys table table :=
  ⟨fun _ _ => .rfl, fun row member => ⟨row, member, rfl⟩⟩

theorem trans {middle : Table} (first : AgreesOutside keys before middle)
    (second : AgreesOutside keys middle after) : AgreesOutside keys before after where
  rows row outside := (second.rows row outside).trans (first.rows row outside)
  keeps row member := by
    obtain ⟨next, found, same⟩ := first.keeps row member
    obtain ⟨other, foundLater, sameLater⟩ := second.keeps next found
    exact ⟨other, foundLater, sameLater.trans same⟩

theorem mono (agrees : AgreesOutside keys before after) (among : ∀ key ∈ keys, key ∈ more) :
    AgreesOutside more before after where
  rows row outside := agrees.rows row fun inside => outside (among _ inside)
  keeps := agrees.keeps

theorem link (agrees : AgreesOutside keys before after) (outside : child ∉ keys)
    (link : after.Link child parent) : before.Link child parent := by
  obtain ⟨row, member, rfl, same⟩ := link
  exact ⟨row, (agrees.rows row outside).mp member, rfl, same⟩

end AgreesOutside

theorem IsCycle.of_agreesOutside (agrees : AgreesOutside keys before after)
    (cyclic : after.IsCycle cycle) (free : ∀ key ∈ keys, key ∉ cycle) : before.IsCycle cycle :=
  cyclic.of_links fun child member _ _ =>
    agrees.link fun changed => free child changed member

theorem IsCycle.below (agrees : AgreesOutside [row.key] before after)
    (member : row ∈ before) (cyclic : after.IsCycle cycle) (inside : row.key ∈ cycle) :
    ∃ parent, after.Link row.key parent ∧
      ∃ other, other.key = parent ∧ ReflTransGen (before.Joined .down) row other := by
  obtain ⟨parent, link, reached⟩ := TransGen.head'_iff.mp (cyclic.transGen inside)
  -- The way back from the new parent stops at the changed row, so all its links were there before.
  have back : ReflTransGen before.Link parent row.key := by
    clear link
    induction reached using ReflTransGen.head_induction_on with
    | refl => exact .refl
    | @head a _ link _ ih =>
      by_cases same : a = row.key
      · exact same ▸ .refl
      · exact .head (agrees.link (by simpa using same) link) ih
  exact ⟨parent, link, below_of_links member back⟩

end AdjacencyForest.Table
