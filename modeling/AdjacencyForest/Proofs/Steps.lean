import AdjacencyForest.Query

/-!
# Steps that may fail

What the success of a sequence of steps says about each of them.
-/

namespace AdjacencyForest

variable {ε φ α β : Type}

theorem bind_eq_ok {step : Except ε α} {next : α → Except ε β} {b : β} :
    step >>= next = .ok b ↔ ∃ a, step = .ok a ∧ next a = .ok b := by
  cases step <;> simp [bind, Except.bind]

theorem pure_eq_ok {a b : α} : (pure a : Except ε α) = .ok b ↔ a = b := by
  simp [pure, Except.pure]

theorem throw_ne_ok {e : ε} {a : α} : (throw e : Except ε α) ≠ .ok a := by
  simp [throw, throwThe, MonadExceptOf.throw]

theorem mapError_eq_ok {convert : ε → φ} {step : Except ε α} {a : α} :
    step.mapError convert = .ok a ↔ step = .ok a := by
  cases step with
  | error e =>
    change Except.error (convert e) = Except.ok a ↔ _
    simp
  | ok b =>
    change Except.ok b = Except.ok a ↔ _
    simp

theorem map_eq_ok {convert : α → β} {step : Except ε α} {b : β} :
    step.map convert = .ok b ↔ ∃ a, step = .ok a ∧ convert a = b := by
  cases step <;> simp [Except.map]

theorem forM_eq_ok {step : α → Except ε Unit} {items : List α} :
    items.forM step = .ok () ↔ ∀ item ∈ items, step item = .ok () := by
  induction items with
  | nil => simp [pure, Except.pure]
  | cons item rest ih =>
    have same : (item :: rest).forM step = (step item >>= fun _ => rest.forM step) := rfl
    rw [same, bind_eq_ok, List.forall_mem_cons, ← ih]
    exact ⟨fun ⟨_, first, later⟩ => ⟨first, later⟩, fun ⟨first, later⟩ => ⟨(), first, later⟩⟩

theorem forM_append {step : α → Except ε Unit} {items others : List α} :
    (items ++ others).forM step = (items.forM step >>= fun _ => others.forM step) :=
  List.forM_append

theorem foldlM_keeps (kept : β → Prop) {step : β → α → Except ε β} {items : List α}
    {before after : β} (start : kept before)
    (keeps : ∀ item ∈ items, ∀ before after, kept before → step before item = .ok after → kept after)
    (done : items.foldlM step before = .ok after) : kept after := by
  induction items generalizing before with
  | nil =>
    rw [List.foldlM_nil, pure_eq_ok] at done
    exact done ▸ start
  | cons item rest ih =>
    rw [List.foldlM_cons] at done
    obtain ⟨middle, first, later⟩ := bind_eq_ok.mp done
    exact ih (keeps item (by simp) before middle start first)
      (fun other member => keeps other (by simp [member])) later

/-- If the steps for all items succeed, the step for each of them does in some state. -/
theorem exists_step_of_foldlM {step : β → α → Except ε β} {items : List α} {before after : β}
    (done : items.foldlM step before = .ok after) {item : α} (member : item ∈ items) :
    ∃ state result, step state item = .ok result := by
  induction items generalizing before with
  | nil => cases member
  | cons first rest ih =>
    rw [List.foldlM_cons] at done
    obtain ⟨middle, made, later⟩ := bind_eq_ok.mp done
    rcases List.mem_cons.mp member with rfl | inside
    · exact ⟨before, middle, made⟩
    · exact ih later inside

theorem foldlM_eq_ok (kept : β → Prop) {step : β → α → Except ε β} {value : β → α → β}
    {items : List α} {before : β} (start : kept before)
    (succeeds : ∀ item ∈ items, ∀ before, kept before →
      step before item = .ok (value before item) ∧ kept (value before item)) :
    items.foldlM step before = .ok (items.foldl value before) := by
  induction items generalizing before with
  | nil => rfl
  | cons item rest ih =>
    obtain ⟨first, keeps⟩ := succeeds item (by simp) before start
    rw [List.foldlM_cons, first]
    exact ih keeps fun other member => succeeds other (by simp [member])

/-- A step that fails keeps what it has done to the state. -/
theorem run_bind {σ : Type} (step : ExceptT ε (StateM σ) α) (next : α → ExceptT ε (StateM σ) β)
    (state : σ) :
    (step >>= next).run.run state = match step.run.run state with
      | (.ok result, after) => (next result).run.run after
      | (.error e, after) => (.error e, after) := by
  change (ExceptT.bind step next).run.run state = _
  unfold ExceptT.bind ExceptT.bindCont ExceptT.run ExceptT.mk StateT.run
  simp only [bind, StateT.bind]
  cases step state with
  | mk result after => cases result <;> rfl

theorem run_bind_of_ok {σ : Type} {step : ExceptT ε (StateM σ) α}
    {next : α → ExceptT ε (StateM σ) β} {state after : σ} {result : α}
    (done : step.run.run state = (.ok result, after)) :
    (step >>= next).run.run state = (next result).run.run after := by
  rw [run_bind, done]

theorem run_bind_of_error {σ : Type} {step : ExceptT ε (StateM σ) α}
    {next : α → ExceptT ε (StateM σ) β} {state after : σ} {e : ε}
    (failed : step.run.run state = (.error e, after)) :
    (step >>= next).run.run state = (.error e, after) := by
  rw [run_bind, failed]

theorem run_get {σ : Type} (state : σ) :
    (get : ExceptT ε (StateM σ) σ).run.run state = (.ok state, state) := rfl

theorem run_modify {σ : Type} (change : σ → σ) (state : σ) :
    (modify change : ExceptT ε (StateM σ) Unit).run.run state = (.ok (), change state) := rfl

theorem TreeQuery.checkParameters_eq_ok {parameters : List (Field × Json)} :
    checkParameters parameters = .ok () ↔
      ∀ parameter ∈ parameters, ∃ value, Value.ofParameter parameter.1 parameter.2 = .ok value := by
  unfold checkParameters
  rw [forM_eq_ok]
  constructor
  · intro accepted parameter member
    obtain ⟨index, inside, rfl⟩ := List.getElem_of_mem member
    have checked := accepted (parameters[index], index)
      (by simp [List.mem_zipIdx_iff_getElem?, inside])
    dsimp only at checked
    split at checked
    next value bound => exact ⟨value, bound⟩
    · cases checked
    · cases checked
  · intro accepted pair member
    obtain ⟨value, bound⟩ := accepted pair.1 (List.fst_mem_of_mem_zipIdx member)
    dsimp only
    rw [bound]

theorem TreeQuery.checkParameters_of_tooLarge {parameters : List (Field × Json)} {field : Field}
    {value : Json} (accepted : checkParameters parameters = .ok ())
    (refused : Value.ofParameter field value = .error .tooLarge) :
    checkParameters (parameters ++ [(field, value)]) = .error .integerOverflow := by
  unfold checkParameters at accepted ⊢
  rw [List.zipIdx_append, forM_append, accepted]
  have last (step : (Field × Json) × Nat → Except Fault Unit) (index : Nat) :
      ([(field, value)].zipIdx index).forM step = (step ((field, value), index) >>= fun _ => pure ()) :=
    rfl
  rw [last]
  dsimp only
  rw [refused]
  rfl

theorem TreeQuery.checkParameters_append_of_error {parameters : List (Field × Json)} {fault : Fault}
    (refused : checkParameters parameters = .error fault) (more : List (Field × Json)) :
    checkParameters (parameters ++ more) = .error fault := by
  unfold checkParameters at refused ⊢
  rw [List.zipIdx_append, forM_append, refused]
  rfl

end AdjacencyForest
