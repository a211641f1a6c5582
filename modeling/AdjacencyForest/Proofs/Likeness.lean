import AdjacencyForest.Proofs.ValueOrder

/-!
# Likeness of data

Two values are alike when they are equal up to the kind of their numbers and the order of their
fields. What is no container is told by its standing: as a text, or as a place among the numbers. Lists
are compared item by item, objects field by field.

Main statements: `alikeScalar_iff`, values that are no containers are alike when they have one standing;
`alike_trans`, likeness can be chained; `IsPlain.eq_of_alike`, without truth values, fractions and
containers it is equality.
-/

namespace AdjacencyForest.Json

/-- What a value that is no container is compared by. -/
inductive Standing where
  | null
  | text (value : String)
  | points (points : List Nat)
  | number (place : WithBot (WithTop ℚ))

/-- The standing of a value; containers and the number that is none are like nothing. -/
def standing? : Json → Option Standing
  | .null => some .null
  | .bool b => some (.number (Binary64.placeOfInt (if b then 1 else 0)))
  | .int i => some (.number (Binary64.placeOfInt i))
  | .num x => if x = .nan then none else some (.number x.place)
  | .str s => some (.text s)
  | .illFormed points => some (.points points)
  | .arr _ | .obj _ => none

variable {a b c : Json}

theorem standing?_num {x : Binary64} (number : x ≠ .nan) :
    standing? (.num x) = some (.number x.place) := if_neg number

theorem placeOfInt_inj {i j : Int} : Binary64.placeOfInt i = Binary64.placeOfInt j ↔ i = j := by
  rw [← compare_eq_iff_eq, Binary64.compare_placeOfInt, compare_eq_iff_eq]

theorem compare?_eq_iff (x y : Binary64) : (x.compare? y == some .eq) = true ↔
    standing? (.num x) = standing? (.num y) ∧ standing? (.num x) ≠ none := by
  by_cases number : x = .nan
  · subst number
    cases y <;> simp [Binary64.compare?, standing?]
  by_cases otherNumber : y = .nan
  · subst otherNumber
    cases x <;> simp [Binary64.compare?, standing?]
  rw [Binary64.compare?_eq number otherNumber, standing?_num number, standing?_num otherNumber]
  simp

theorem compareInt?_eq_iff (x : Binary64) (i : Int) : (x.compareInt? i == some .eq) = true ↔
    standing? (.num x) = some (.number (Binary64.placeOfInt i)) := by
  by_cases number : x = .nan
  · subst number
    simp [Binary64.compareInt?, standing?]
  rw [Binary64.compareInt?_eq number, standing?_num number]
  simp

/-- Values that are no containers are alike when they have one standing. -/
theorem alikeScalar_iff :
    alikeScalar a b = true ↔ standing? a = standing? b ∧ standing? a ≠ none := by
  cases a <;> cases b
  case num.num x y => exact compare?_eq_iff x y
  case num.bool x b =>
    refine (compareInt?_eq_iff x _).trans ⟨fun same => ⟨same, by simp [same]⟩, And.left⟩
  case num.int x i =>
    refine (compareInt?_eq_iff x i).trans ⟨fun same => ⟨same, by simp [same]⟩, And.left⟩
  case bool.num b x =>
    refine (compareInt?_eq_iff x _).trans ⟨fun same => ⟨same.symm, Option.some_ne_none _⟩,
      fun same => same.1.symm⟩
  case int.num i x =>
    refine (compareInt?_eq_iff x i).trans ⟨fun same => ⟨same.symm, Option.some_ne_none _⟩,
      fun same => same.1.symm⟩
  all_goals simp [alikeScalar, standing?, integral?, placeOfInt_inj]

theorem alikeScalar_trans (first : alikeScalar a b = true) (second : alikeScalar b c = true) :
    alikeScalar a c = true := by
  obtain ⟨same, stands⟩ := alikeScalar_iff.mp first
  exact alikeScalar_iff.mpr ⟨same.trans (alikeScalar_iff.mp second).1, stands⟩

theorem alike_eq_alikeScalar (stands : standing? a ≠ none) : alike a b = alikeScalar a b := by
  cases a with
  | arr | obj => exact absurd rfl stands
  | _ => cases b <;> rfl

/-- The value is null, an integer or a text. -/
inductive IsPlain : Json → Prop where
  | null : IsPlain .null
  | int (i : Int) : IsPlain (.int i)
  | str (s : String) : IsPlain (.str s)
  | illFormed (points : List Nat) : IsPlain (.illFormed points)

theorem IsPlain.stands (plain : a.IsPlain) : standing? a ≠ none := by
  cases plain <;> exact Option.some_ne_none _

theorem IsPlain.alike_self (plain : a.IsPlain) : alike a a = true := by
  rw [alike_eq_alikeScalar plain.stands, alikeScalar_iff]
  exact ⟨rfl, plain.stands⟩

theorem IsPlain.eq_of_alike (plain : a.IsPlain) (otherPlain : b.IsPlain) (same : alike a b = true) :
    a = b := by
  rw [alike_eq_alikeScalar plain.stands, alikeScalar_iff] at same
  have standing := same.1
  cases plain <;> cases otherPlain <;> simp_all [standing?, placeOfInt_inj]

/-! ## Containers -/

theorem mem_of_lookup? {α : Type} {name : String} {value : α} {fields : List (String × α)}
    (found : lookup? name fields = some value) : (name, value) ∈ fields := by
  induction fields with
  | nil => cases found
  | cons entry rest ih =>
    obtain ⟨key, other⟩ := entry
    rw [lookup?] at found
    split at found
    next same =>
      obtain rfl := Option.some.inj found
      exact same ▸ List.mem_cons_self
    · exact List.mem_cons_of_mem _ (ih found)

theorem alikeFields_iff {fields others : List (String × Json)} : alikeFields fields others = true ↔
    ∀ entry ∈ fields, ∃ value, lookup? entry.1 others = some value ∧ alike entry.2 value = true := by
  induction fields with
  | nil => simp [alikeFields]
  | cons entry rest ih =>
    rw [alikeFields, Bool.and_eq_true, ih, List.forall_mem_cons]
    refine and_congr_left' ?_
    cases lookup? entry.1 others <;> simp

theorem alike_trans_of_scalar (scalar : ∀ other, alike a other = alikeScalar a other)
    (first : alike a b = true) (second : alike b c = true) : alike a c = true := by
  rw [scalar] at first ⊢
  obtain ⟨same, stands⟩ := alikeScalar_iff.mp first
  rw [alike_eq_alikeScalar (same ▸ stands)] at second
  exact alikeScalar_trans first second

mutual

/-- Likeness can be chained: by the structure of the first value. -/
theorem alike_trans : {a b c : Json} → alike a b = true → alike b c = true → alike a c = true
  | .arr _, .arr _, .arr _, first, second => alikeItems_trans first second
  | .obj _, .obj _, .obj _, first, second => by
    rw [alike, Bool.and_eq_true, beq_iff_eq] at *
    exact ⟨first.1.trans second.1, alikeFields_trans first.2 second.2⟩
  | .null, _, _, first, second | .bool _, _, _, first, second | .int _, _, _, first, second
  | .num _, _, _, first, second | .str _, _, _, first, second | .illFormed _, _, _, first, second =>
    alike_trans_of_scalar (fun other => by cases other <;> rfl) first second

theorem alikeItems_trans : {xs ys zs : List Json} → alikeItems xs ys = true →
    alikeItems ys zs = true → alikeItems xs zs = true
  | [], [], _, _, second => second
  | _ :: _, _ :: _, _ :: _, first, second => by
    rw [alikeItems, Bool.and_eq_true] at *
    exact ⟨alike_trans first.1 second.1, alikeItems_trans first.2 second.2⟩

theorem alikeFields_trans : {xs ys zs : List (String × Json)} → alikeFields xs ys = true →
    alikeFields ys zs = true → alikeFields xs zs = true
  | [], _, _, _, _ => rfl
  | (name, x) :: xs, ys, zs, first, second => by
    rw [alikeFields, Bool.and_eq_true] at first ⊢
    refine ⟨?_, alikeFields_trans first.2 second⟩
    cases found : lookup? name ys with
    | none => simp [found] at first
    | some y =>
      have same : alike x y = true := by simpa [found] using first.1
      obtain ⟨z, foundNext, sameNext⟩ := alikeFields_iff.mp second _ (mem_of_lookup? found)
      rw [foundNext]
      exact alike_trans same sameNext

end

end AdjacencyForest.Json
