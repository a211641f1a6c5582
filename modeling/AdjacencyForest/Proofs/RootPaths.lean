import AdjacencyForest.Proofs.Forest
import AdjacencyForest.Proofs.Numerals
import AdjacencyForest.Proofs.Relatives

/-!
# Paths from a root

In a forest one list of keys leads from a root to a node, each key the parent of the next one: the
keys of the walk down to the node's row. Before the last key stand the keys of all nodes above the
node, each once. The path that a row of a tree shows is this list as a text, and is read back as it.

Main statements: `IsRootPath.eq`, there is one path; `IsRootPath.mem_dropLast_iff`, what stands on
it; `exists_isRootPath`, each row has one; `readPath_intercalate`, a path is read back from its text.
-/

open Relation

namespace AdjacencyForest

namespace Table

/-- The keys lead from a root to a key, each the parent of the next one. -/
structure IsRootPath (table : Table) (n : Int) (path : List Int) : Prop where
  head : ∃ root ∈ table, root.parent = .null ∧ path.head?.map Value.int = some root.key
  last : path.getLast? = some n
  joined : path.IsChain fun parent child => table.Link (.int child) (.int parent)

variable {kind : KeyKind} {table : Table} {row : Row} {walk : List Row} {path other : List Int}
  {n m : Int} {key parent parent' : Value} {separator : String}

theorem IsKeyed.link_unique (keyed : table.IsKeyed kind) (link : table.Link key parent)
    (otherLink : table.Link key parent') : parent = parent' := by
  obtain ⟨row, member, rfl, rfl⟩ := link
  obtain ⟨row', member', same, rfl⟩ := otherLink
  rw [keyed.eq_of_key member' member same]

theorem IsKeyed.not_link_null (keyed : table.IsKeyed kind) : ¬ table.Link .null parent := by
  rintro ⟨row, member, none, -⟩
  exact KeyKind.not_null_of_admits (keyed.key row member) none

namespace IsRootPath

theorem ne_nil (leads : table.IsRootPath n path) : path ≠ [] := by
  rintro rfl
  simpa using leads.last

theorem head_parent (leads : table.IsRootPath n path) (keyed : table.IsKeyed kind)
    (first : path.head? = some m) (link : table.Link (.int m) parent) : parent = .null := by
  obtain ⟨root, member, isRoot, same⟩ := leads.head
  rw [first] at same
  exact keyed.link_unique link ⟨root, member, (Option.some.inj same).symm, isRoot⟩

theorem eq (leads : table.IsRootPath n path) (keyed : table.IsKeyed kind)
    (otherLeads : table.IsRootPath n other) : path = other := by
  have functional (a b c : Int) (link : table.Link (.int a) (.int b))
      (otherLink : table.Link (.int a) (.int c)) : b = c :=
    Value.int.inj (keyed.link_unique link otherLink)
  have ending {long short : List Int} (leads : table.IsRootPath n long)
      (otherLeads : table.IsRootPath n short) : short <:+ long := by
    obtain ⟨top, rest, rfl⟩ := List.exists_cons_of_ne_nil leads.ne_nil
    refine isSuffix_of_unreached functional leads.joined otherLeads.joined rfl (fun above link => ?_)
      (leads.last.trans otherLeads.last.symm) otherLeads.ne_nil
    cases leads.head_parent keyed rfl link
  exact (ending otherLeads leads).eq_of_length_le (ending leads otherLeads).length_le

/-- What a key of the path links to stands before it on the path, unless it is a root. -/
theorem parent_mem (leads : table.IsRootPath n path) (keyed : table.IsKeyed kind) (found : m ∈ path)
    (link : table.Link (.int m) parent) :
    parent = .null ∨ ∃ above ∈ path.dropLast, parent = .int above := by
  obtain ⟨before, after, rfl⟩ := List.append_of_mem found
  cases before using List.reverseRecOn with
  | nil => exact .inl (leads.head_parent keyed rfl link)
  | append_singleton before above =>
    have joined := (List.isChain_append.mp leads.joined).2.2 above (by simp) m rfl
    refine .inr ⟨above, ?_, keyed.link_unique link joined⟩
    simp

theorem mem_dropLast_iff (leads : table.IsRootPath n path) (keyed : table.IsKeyed kind) :
    m ∈ path.dropLast ↔ TransGen table.Link (.int n) (.int m) := by
  constructor
  · intro found
    have split := List.dropLast_append_getLast? n leads.last
    have chain := leads.joined
    rw [← split] at chain
    have related := (chain.imp fun _ _ link => TransGen.single link).pairwise
    have reached := (List.pairwise_append.mp related).2.2 m found n List.mem_cons_self
    exact (transGen_swap.mpr reached).lift Value.int fun _ _ link => link
  · intro reached
    -- By induction on the way up: it stays on the path, since a link from the path's first key leads
    -- to no key.
    have onPath : ∀ value, TransGen table.Link value (.int m) → ∀ child ∈ path,
        value = .int child → m ∈ path.dropLast := by
      intro value reached
      induction reached using TransGen.head_induction_on with
      | single link =>
        rintro child found rfl
        obtain none | ⟨above, stands, same⟩ := leads.parent_mem keyed found link
        · cases none
        · rwa [Value.int.inj same]
      | head link later ih =>
        rintro child found rfl
        obtain rfl | ⟨above, stands, rfl⟩ := leads.parent_mem keyed found link
        · obtain ⟨next, first, -⟩ := TransGen.head'_iff.mp later
          exact absurd first keyed.not_link_null
        · exact ih above (List.mem_of_mem_dropLast stands) rfl
    exact onPath _ reached n (List.mem_of_getLast? leads.last) rfl

end IsRootPath

/-! ## In a forest -/

/-- In a forest the way up from each row ends at a root, since it cannot come back to a row. -/
theorem IsForest.isRooted (forest : table.IsForest) (member : row ∈ table) :
    table.IsRooted row := by
  let above : {row // row ∈ table} → {row // row ∈ table} → Prop := fun next row =>
    TransGen (table.Joined .up) row next
  have finite : Finite {row // row ∈ table} := List.finite_toSet table
  have transitive : IsTrans _ above := ⟨fun _ _ _ first second => second.trans first⟩
  have irreflexive : Std.Irrefl above := ⟨fun row => forest.acyclic row⟩
  have climbs : WellFounded above := Finite.wellFounded_of_trans_of_irrefl above
  refine climbs.induction (C := fun row => table.IsRooted row) ⟨row, member⟩ fun ⟨row, member⟩ ih => ?_
  by_cases root : row.parent = .null
  · exact ⟨row, member, root, .refl⟩
  · obtain ⟨next, found, key⟩ := Table.contains_iff.mp (forest.parents row member root)
    have joined : table.Joined .up row next := ⟨member, found, key⟩
    obtain ⟨top, inside, isRoot, reached⟩ := ih ⟨next, found⟩ (.single joined)
    exact ⟨top, inside, isRoot, .head joined reached⟩

theorem IsForest.exists_walk (forest : table.IsForest) (separator : String) (member : row ∈ table) :
    ∃ walk, (treePlan separator).IsWalk table walk ∧ WalkPlan.lastRow walk = row := by
  have reached := (mem_lastRows fun walk => @mem_rootListing separator .integer table walk
    forest.keyed).mpr (forest.isRooted member)
  obtain ⟨walk, found, last⟩ := List.mem_map.mp reached
  exact ⟨walk, (mem_rootListing forest.keyed).mp found, last⟩

theorem IsKeyed.exists_keys (keyed : table.IsKeyed .integer) (members : ∀ row ∈ walk, row ∈ table) :
    ∃ path : List Int, path.map Value.int = walk.map Row.key ∧
      walk.map Row.keyText = path.map writeInteger := by
  induction walk with
  | nil => exact ⟨[], rfl, rfl⟩
  | cons row rest ih =>
    obtain ⟨i, key, text⟩ := keyed.exists_keyText (members row List.mem_cons_self)
    obtain ⟨path, keys, texts⟩ := ih fun other found => members other (List.mem_cons_of_mem _ found)
    exact ⟨i :: path, by simp [key, keys], by simp [text, texts]⟩

theorem isRootPath_of_walk (made : (treePlan separator).IsWalk table walk)
    (keys : path.map Value.int = walk.map Row.key) (rowKey : (WalkPlan.lastRow walk).key = .int n) :
    table.IsRootPath n path where
  head := by
    obtain ⟨root, head, anchor⟩ := made.anchored
    refine ⟨root, made.members root (List.mem_of_head? head), Value.isNull_iff.mp anchor, ?_⟩
    rw [← List.head?_map, keys, List.head?_map, head, Option.map_some]
  last := by
    have last : path.getLast?.map Value.int = some (.int n) := by
      rw [← List.getLast?_map, keys, List.getLast?_map, made.getLast?_eq, Option.map_some, rowKey]
    obtain ⟨i, last, same⟩ := Option.map_eq_some_iff.mp last
    rw [last, Value.int.inj same]
  joined := by
    have chain : (walk.map Row.key).IsChain fun parent child => table.Link child parent :=
      (List.isChain_map Row.key).mpr
        (made.chain.imp fun _ _ joined => link_of_joined (joined_down_iff.mp joined))
    rwa [← keys, List.isChain_map] at chain

theorem nodup_keys (keyed : table.IsKeyed kind) (made : (treePlan separator).IsWalk table walk) :
    (walk.map Row.key).Nodup :=
  (made.nodup (avoidsCycles_treePlan keyed)).map_on fun row found other otherFound =>
    keyed.eq_of_key (made.members row found) (made.members other otherFound)

section Forest

variable (forest : table.IsForest) (member : row ∈ table) (rowKey : row.key = .int n)
include forest member rowKey

theorem exists_isRootPath : ∃ path, table.IsRootPath n path := by
  obtain ⟨walk, made, rfl⟩ := forest.exists_walk "" member
  obtain ⟨path, keys, -⟩ := forest.keyed.exists_keys made.members
  exact ⟨path, isRootPath_of_walk made keys rowKey⟩

theorem IsRootPath.exists_walk (leads : table.IsRootPath n path) (separator : String) :
    ∃ walk, (treePlan separator).IsWalk table walk ∧ WalkPlan.lastRow walk = row ∧
      path.map Value.int = walk.map Row.key := by
  obtain ⟨walk, made, rfl⟩ := forest.exists_walk separator member
  obtain ⟨path', keys, -⟩ := forest.keyed.exists_keys made.members
  obtain rfl := leads.eq forest.keyed (isRootPath_of_walk made keys rowKey)
  exact ⟨walk, made, rfl, keys⟩

theorem IsRootPath.nodup (leads : table.IsRootPath n path) : path.Nodup := by
  obtain ⟨walk, made, -, keys⟩ := leads.exists_walk forest member rowKey ""
  exact List.Nodup.of_map Value.int (keys ▸ nodup_keys forest.keyed made)

end Forest

end Table

/-! ## Limits of depth -/

/-- The limits of depth, from that on which leaves only the roots. -/
def IsStepLimit (limit : Option Int) : Prop :=
  ∀ bound, limit = some bound → 0 ≤ bound ∧ bound < 0x8000000000000000

variable {limit : Option Int} {table : Table} {walk : List Row} {separator : String}

theorem IsStepLimit.fits (bounds : IsStepLimit limit) (bound : Int) (given : limit = some bound) :
    fitsInt64 bound = true ∧ fitsInt64 (-bound) = true := by
  obtain ⟨least, most⟩ := bounds bound given
  simp only [fitsInt64_iff]
  omega

theorem isWalk_limitedTreePlan (bounds : IsStepLimit limit) :
    (limitedTreePlan separator limit).IsWalk table walk ↔ (treePlan separator).IsWalk table walk ∧
      ∀ bound, limit = some bound → (walk.length : Int) - 1 ≤ bound := by
  have depth (steps : Nat) : (limitedTreePlan separator limit).depthAfter steps = 0 + steps := rfl
  constructor
  · intro made
    refine ⟨⟨made.anchored, made.members, made.joined, WalkPlan.allows_of_unlimited rfl _⟩,
      fun bound given => ?_⟩
    have positive := made.length_pos
    have least := (bounds bound given).1
    rcases made.allowed with none | allowed
    · omega
    · have within : (limitedTreePlan separator limit).depthAfter (walk.length - 1) ≤ bound :=
        allowed bound given
      rw [depth] at within
      omega
  · rintro ⟨made, short⟩
    refine ⟨made.anchored, made.members, made.joined, .inr fun bound given => ?_⟩
    have positive := made.length_pos
    have within := short bound given
    show (limitedTreePlan separator limit).depthAfter (walk.length - 1) ≤ bound
    rw [depth]
    omega

theorem inRange_limitedTreePlan (keyed : table.IsKeyed .integer)
    (fitsLength : fitsInt64 table.length = true) (bounds : IsStepLimit limit) :
    (limitedTreePlan separator limit).InRange table := by
  have free : (treePlan separator).AvoidsCycles table := avoidsCycles_treePlan keyed
  exact WalkPlan.inRange_of_bounds (by simp [limitedTreePlan, treePlan]) bounds.fits free fitsLength

/-- The rows of the whole tree are those of the walks that the limit of depth allows. -/
theorem Service.exists_treeRows_perm {settings : Settings} (keyed : table.IsKeyed .integer)
    (fitsLength : fitsInt64 table.length = true)
    (supported : settings.registry.grammarFor .sqlite = .ok .sqlite)
    (bounds : IsStepLimit settings.treeMaxDepth) :
    ∃ shown, ∃ walks : List (List Row), treeRows settings table = .ok shown ∧
      shown.Perm (walks.map (treePlan ".").rowOf) ∧ (walks.map WalkPlan.lastRow).Nodup ∧
      ∀ walk, walk ∈ walks ↔ (treePlan ".").IsWalk table walk ∧
        ∀ bound, settings.treeMaxDepth = some bound → (walk.length : Int) - 1 ≤ bound := by
  have apart : TreeModel.standard.NamesApart := by decide
  obtain ⟨expression, built, accepted, walks, nodup, mem_walks, rows⟩ :=
    exists_limitedTree keyed apart supported bounds.fits
  have listed : walks.map (limitedTreePlan "." settings.treeMaxDepth).storedRow =
      walks.map (treePlan ".").rowOf :=
    List.map_congr_left fun walk found =>
      (inRange_limitedTreePlan keyed fitsLength bounds).storedRow_eq ((mem_walks walk).mp found)
  have members (walk : List Row) := (mem_walks walk).trans (isWalk_limitedTreePlan bounds)
  have once := nodup_lastRows keyed nodup fun walk found => ((members walk).mp found).1
  have distinct := WalkPlan.nodup_lastKeys keyed
    (fun walk found => ((members walk).mp found).1.lastRow_mem) once
  obtain ⟨shown, ordered, -, -, permuted⟩ := exists_orderedRows .depth accepted rows
  refine ⟨shown, walks, bind_eq_ok.mpr ⟨_, built, ordered⟩, listed ▸ permuted ?_, once, members⟩
  rw [List.map_map]
  exact distinct

/-! ## Paths as texts -/

open Text Json

/-- The integers between the points of a text. -/
def readPath (text : String) : Except IntegerFault (List Int) :=
  ((text.split '.').toList.map fun part => part.copy).mapM readInteger

theorem groupedDigits?_of_isDigits {digits : List Char} {afterDigit : Bool} (numeral : IsDigits digits)
    (some : afterDigit = true ∨ digits ≠ []) :
    groupedDigits? digitValue? afterDigit digits = .some (digits.map asciiDigitValue) := by
  induction digits generalizing afterDigit with
  | nil =>
    obtain rfl := some.resolve_right (by simp)
    rfl
  | cons c rest ih =>
    have digit := numeral c List.mem_cons_self
    have notUnderscore : c ≠ '_' := by
      rintro rfl
      exact absurd digit (by decide)
    have later := ih (fun d found => numeral d (List.mem_cons_of_mem c found)) (.inl rfl)
    simp [groupedDigits?, notUnderscore, digitValue?_of_ascii digit, later]

theorem isWhiteSpace_of_isAsciiDigit {c : Char} (digit : isAsciiDigit c = true) :
    isWhiteSpace c = false := by
  simp only [isAsciiDigit_iff] at digit
  unfold isWhiteSpace
  simp only [Bool.or_eq_false_iff, Bool.and_eq_false_iff, decide_eq_false_iff_not,
    beq_eq_false_iff_ne]
  omega

theorem ofDigitValues_map (digits : List Char) :
    ofDigitValues (digits.map asciiDigitValue) = ofDigits digits := List.foldl_map

theorem eq_or_isAsciiDigit_of_mem_writeInteger {i : Int} {c : Char}
    (found : c ∈ (writeInteger i).toList) : c = '-' ∨ isAsciiDigit c = true := by
  rw [toList_writeInteger] at found
  refine (List.mem_append.mp found).imp (fun sign => ?_) (isDigits_decimalDigits i.natAbs c)
  unfold signChars at sign
  split at sign
  · exact List.mem_singleton.mp sign
  · cases sign

theorem readInteger_writeInteger {i : Int} (fits : fitsInt64 i = true) :
    readInteger (writeInteger i) = .ok i := by
  have numeral := isDigits_decimalDigits i.natAbs
  have nonempty := decimalDigits_ne_nil i.natAbs
  have trimmed : trimWith isWhiteSpace (writeInteger i).toList = (writeInteger i).toList := by
    refine trimWith_eq_self fun c found => ?_
    rcases eq_or_isAsciiDigit_of_mem_writeInteger found with rfl | digit
    · unfold isWhiteSpace
      decide
    · exact isWhiteSpace_of_isAsciiDigit digit
  have short : (decimalDigits i.natAbs).length ≤ digitLimit := by
    simp only [fitsInt64_iff] at fits
    have few : (decimalDigits i.natAbs).length ≤ 19 :=
      (Nat.length_toDigits_le_iff (by decide) (by decide)).mpr (by omega)
    exact few.trans (by decide)
  unfold readInteger
  rw [trimmed, toList_writeInteger, splitSign_signChars numeral nonempty]
  simp only [groupedDigits?_of_isDigits numeral (.inr nonempty), List.length_map,
    if_neg (Nat.not_lt.mpr short), ofDigitValues_map, ofDigits_decimalDigits, signed_natAbs]

theorem readPath_intercalate {path : List Int} (nonempty : path ≠ [])
    (fits : ∀ i ∈ path, fitsInt64 i = true) :
    readPath (".".intercalate (path.map writeInteger)) = .ok path := by
  have clear : ∀ text ∈ path.map writeInteger, '.' ∉ text.toList := by
    intro text found
    obtain ⟨i, -, rfl⟩ := List.mem_map.mp found
    intro point
    rcases eq_or_isAsciiDigit_of_mem_writeInteger point with same | digit
    · exact absurd same (by decide)
    · exact absurd digit (by decide)
  have parts := String.toList_split_intercalate clear
  rw [if_neg (by simpa using nonempty)] at parts
  have each : ∀ i ∈ path, readInteger (writeInteger i) = .ok i := fun i found =>
    readInteger_writeInteger (fits i found)
  unfold readPath
  have separator : "." = String.singleton '.' := rfl
  rw [separator, parts]
  clear parts clear fits nonempty
  induction path with
  | nil => rfl
  | cons i rest ih =>
    have later := ih fun j found => each j (List.mem_cons_of_mem i found)
    rw [List.map_cons, List.mapM_cons, each i List.mem_cons_self, later]
    rfl

end AdjacencyForest
