import DialectIR.Proofs.Encounters

/-! The parts of a run in sequence, and the encounters in each part. -/

namespace DialectIR.Greedy

open Operation

variable {σ : Type}

/-- What a recorded action does to the state. -/
def State.act (s : State σ) (results : List Value) : Option Action → State σ
  | some (.replace values) => s.replace results values
  | some .erase => s.erase results
  | some (.update _) | none => s

/-- Makes the changes of a match. -/
def commit (config : Config) (within : Operation → Step σ Operation) (op : Operation)
    (recording : Recording) :
    Step σ (List Operation) := do
  modify fun s => (recording.inserted.foldl State.register s).act op.results recording.action
  match stays? op recording with
  | none => return recording.inserted
  | some op => visit.settle config within recording.inserted op

/-- Substitution changes operands only. -/
theorem returns_substitute {op op' : Operation} {s s' : State σ}
    (h : Returns (substitute op) s op' s') :
    s' = s ∧ (op' = op ∨ op' = s.replaced.applyTo op) := by
  unfold substitute at h
  rw [Returns.get_bind_iff] at h
  dsimp only at h
  split at h
  · obtain ⟨rfl, rfl⟩ := Returns.pure_iff.1 h
    exact ⟨rfl, .inl rfl⟩
  · split at h
    · exact absurd h Returns.throw_iff
    · obtain ⟨rfl, rfl⟩ := Returns.pure_iff.1 h
      exact ⟨rfl, .inr rfl⟩

theorem returns_finish {op op' : Operation} {s s' : State σ} (h : Returns (finish op) s op' s') :
    (op' = op ∨ op' = s.replaced.applyTo op)
      ∧ s' = { s with replaced := .empty, erased := [] } := by
  unfold finish at h
  obtain ⟨op₁, s₁, hsubstitute, hrest⟩ := Returns.bind_iff.1 h
  obtain ⟨rfl, hop⟩ := returns_substitute hsubstitute
  rw [Returns.modify_bind_iff, Returns.get_bind_iff] at hrest
  dsimp only at hrest
  rw [Returns.modify_bind_iff] at hrest
  split at hrest
  · exact absurd hrest Returns.throw_iff
  · obtain ⟨rfl, rfl⟩ := Returns.pure_iff.1 hrest
    exact ⟨hop, rfl⟩

theorem returns_removeDead {config : Config} {op : Operation} {s s' : State σ}
    {removed : Operation × Nat} (h : Returns (removeDead config op) s removed s') :
    removed = ((op.removeDeadOps s.context).op, (op.removeDeadOps s.context).removed)
        ∧ s' = { s with context := (op.removeDeadOps s.context).context }
      ∨ removed = (op, 0) ∧ s' = s := by
  unfold removeDead at h
  rw [Returns.ite_iff] at h
  split at h
  · rw [Returns.get_bind_iff] at h
    dsimp only at h
    rw [Returns.modify_bind_iff] at h
    exact .inl (Returns.pure_iff.1 h)
  · exact .inr (Returns.pure_iff.1 h)

theorem act_of_stays {op kept : Operation} {recording : Recording} {s : State σ}
    (h : stays? op recording = some kept) :
    s.act op.results recording.action = s := by
  unfold stays? at h
  split at h
  next => cases h
  next => cases h
  next haction =>
    rw [haction]
    rfl
  next haction =>
    rw [haction]
    rfl

/-- A visit substitutes operands, tries patterns and commits the match; one without changes if there
is none. -/
theorem visit_eq (patterns : FrozenPatterns σ) (config : Config)
    (within : Operation → Step σ Operation) (depth : Nat) (op : Operation) :
    visit patterns config within depth op
      = substitute op >>= fun op => (if !config.topDown then within op else pure op) >>= fun op =>
        applyPatterns patterns config depth op >>= fun recording? =>
          commit config within op (recording?.getD {}) := by
  have hjoin : ∀ (op : Operation) (tail : Operation → Step σ (List Operation)),
      (if config.topDown then pure op >>= tail else within op >>= tail)
        = (if !config.topDown then within op else pure op) >>= tail := by
    intro op tail
    cases config.topDown with
    | true => rfl
    | false => rfl
  unfold visit
  congr 1
  funext op
  apply (hjoin op _).trans
  congr 1
  funext op
  dsimp only
  congr 1
  funext recording?
  rcases recording? with _ | ⟨inserted, _ | (values | _ | new)⟩
  · rfl
  · rfl
  · rfl
  · rfl
  · rfl

theorem settle_eq (config : Config) (within : Operation → Step σ Operation)
    (inserted : List Operation) (op : Operation) :
    visit.settle config within inserted op
      = (if config.topDown then within op else pure op) >>= fun op => do
        modify (·.register op)
        return inserted ++ [op] := by
  unfold visit.settle
  cases config.topDown with
  | true => rfl
  | false => rfl

theorem afterwards_of_returns {α β : Type} {step : Step σ α} {next : α → State σ → List β}
    {s s' : State σ} {a : α} (h : Returns step s a s') : afterwards step next s = next a s' := by
  unfold afterwards
  rw [h]

theorem afterwards_of_error {α β : Type} {step : Step σ α} {next : α → State σ → List β}
    {s s' : State σ} {error : Error} (h : runFrom step s = (.error error, s')) :
    afterwards step next s = [] := by
  unfold afterwards
  rw [h]

theorem afterwards_nil {α β : Type} (step : Step σ α) (s : State σ) :
    afterwards step (fun _ _ => ([] : List β)) s = [] := by
  unfold afterwards
  split <;> rfl

/-- The encounters within what a match leaves. -/
def innerEncounters (config : Config)
    (inside : List String → Operation → State σ → List (Encounter σ)) (visible : List String)
    (op : Operation) (recording : Recording) (s : State σ) : List (Encounter σ) :=
  match stays? op recording with
  | some op =>
      if config.topDown then
        inside (visibleAfter visible recording.inserted) op
          (recording.inserted.foldl State.register s)
      else []
  | none => []

/-- The encounters from the one with an operation on, whose operands and nested operations are
done. -/
def encountersFrom (patterns : FrozenPatterns σ) (config : Config)
    (inside : List String → Operation → State σ → List (Encounter σ)) (depth : Nat)
    (visible : List String) (op : Operation) (s : State σ) : List (Encounter σ) :=
  ⟨visible, depth, op, s⟩ :: afterwards (applyPatterns patterns config depth op)
    (fun recording? s => innerEncounters config inside visible op (recording?.getD {}) s) s

/-- The first encounter is followed by those in what its match leaves. -/
theorem encountersFrom_of_returns {patterns : FrozenPatterns σ} {config : Config} {depth : Nat}
    {op : Operation} {s s' : State σ} {recording? : Option Recording}
    (inside : List String → Operation → State σ → List (Encounter σ)) (visible : List String)
    (h : Returns (applyPatterns patterns config depth op) s recording? s') :
    encountersFrom patterns config inside depth visible op s
      = [⟨visible, depth, op, s⟩] ++ innerEncounters config inside visible op
        (recording?.getD {}) s' := by
  unfold encountersFrom
  rw [afterwards_of_returns h]
  rfl

/-- The encounters of a visit, step by step. -/
theorem visitEncounters_eq (patterns : FrozenPatterns σ) (config : Config)
    (within : Operation → Step σ Operation)
    (inside : List String → Operation → State σ → List (Encounter σ)) (depth : Nat)
    (visible : List String) (op : Operation) (s : State σ) :
    visitEncounters patterns config within inside depth visible op s
      = afterwards (substitute op)
        (fun op s => (if !config.topDown then inside visible op s else [])
        ++ afterwards (if !config.topDown then within op else pure op)
          (encountersFrom patterns config inside depth visible) s) s := by
  unfold visitEncounters encountersFrom innerEncounters
  congr 1
  funext op s
  cases config.topDown with
  | true => rfl
  | false =>
      simp only [Bool.false_eq_true, if_false]
      congr 2
      funext op s
      congr 1
      unfold afterwards
      split
      next =>
        dsimp only
        split <;> rfl
      next => rfl

theorem sweep_eq (patterns : FrozenPatterns σ) (config : Config) (root : Operation) :
    sweep patterns config root = (modify fun s => { s with definitions := .empty }) >>= fun _ =>
      visitRegion patterns config (root.height + spareLevels) 0 root >>= finish := rfl

/-- A sweep, dead operations and a look at what has changed, and then the same again. -/
theorem iterate_eq (patterns : FrozenPatterns σ) (config : Config) (remaining iteration : Nat)
    (progress : Progress) :
    iterate patterns config (remaining + 1) iteration progress = get >>= fun (s : State σ) =>
      if s.limitReached config then pure progress
      else modify (·.note (.iteration iteration progress.root.name.text)) >>= fun _ =>
        get >>= fun (before : State σ) =>
        (sweep patterns config progress.root >>= removeDead config) >>= fun swept =>
          get >>= fun (after : State σ) =>
          if after.rewrites = before.rewrites && swept.2 = 0
            then pure { progress with root := swept.1, converged := true }
          else iterate patterns config remaining (iteration + 1)
            { root := swept.1, changed := true } := by
  rw [iterate]
  simp only [bind_assoc]

end DialectIR.Greedy
