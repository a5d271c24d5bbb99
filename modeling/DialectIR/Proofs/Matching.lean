import DialectIR.Proofs.Encounters
import DialectIR.Proofs.FreshNames
import DialectIR.Proofs.WellFormed

/-! What trying patterns on an operation does: it draws names, and what it records suits the
operation. -/

namespace DialectIR

variable {σ α : Type}

/-- An action that is recorded suits the operation. -/
def Recording.Suits (recording : Recording) (op : Operation) : Prop :=
  ∀ action, recording.action = some action → action.mismatch? op = none

theorem Recording.Suits.act {recording recording' : Recording} {op : Operation} {action : Action}
    (h : recording.act op action = .ok recording') : recording'.Suits op := by
  unfold Recording.act at h
  split at h
  · cases h
  next hsuits =>
    split at h
    · cases h
    · cases h
      rintro _ ⟨⟩
      exact hsuits

theorem Recording.Suits.length_eq {recording : Recording} {op : Operation} {values : List Value}
    (h : recording.Suits op) (haction : recording.action = some (.replace values)) :
    values.length = op.results.length := by
  by_contra hne
  have hmismatch := h _ haction
  rw [Action.mismatch?, if_neg hne] at hmismatch
  cases hmismatch

theorem Recording.Suits.insert {recording : Recording} {op new : Operation}
    (h : recording.Suits op) :
    (recording.insert new).Suits op := h

/-- Running a program draws the names that it asks for. -/
theorem Rewrite.run_draws (site : Site) (program : Rewrite σ α) (draft : Draft σ) :
    draft.names.Draws (program.drawn site draft) (program.run site draft).2.names := by
  induction program generalizing draft with
  | done result => exact rfl
  | definingOp value next ih => exact ih _ draft
  | freshName next ih => exact ⟨rfl, ih _ { draft with names := draft.names.fresh.2 }⟩
  | create op next ih => exact ih { draft with recording := draft.recording.insert op }
  | act action next ih =>
      cases hact : draft.recording.act site.op action with
      | ok recording =>
          simp only [drawn, run, hact]
          exact ih _ { draft with recording }
      | error refusal =>
          simp only [drawn, run, hact]
          exact ih _ draft
  | context next ih => exact ih _ draft
  | readMemory next ih => exact ih _ draft
  | writeMemory memory next ih => exact ih { draft with memory }

theorem Rewrite.run_suits (site : Site) (program : Rewrite σ α) {draft : Draft σ}
    (h : draft.recording.Suits site.op) : (program.run site draft).2.recording.Suits site.op := by
  induction program generalizing draft with
  | done result => exact h
  | definingOp value next ih => exact ih _ h
  | freshName next ih =>
      rw [run]
      exact ih _ h
  | create op next ih =>
      rw [run]
      exact ih h.insert
  | act action next ih =>
      rw [run]
      split
      next recording hact =>
        apply ih _
        exact .act hact
      next => exact ih _ h
  | context next ih => exact ih _ h
  | readMemory next ih => exact ih _ h
  | writeMemory memory next ih =>
      rw [run]
      exact ih h

namespace Greedy

/-- The states agree on the tree, on what is known about it, and on dialects. -/
structure State.Similar (s s' : State σ) : Prop where
  definitions : s'.definitions = s.definitions
  replaced : s'.replaced = s.replaced
  erased : s'.erased = s.erased
  dialects : s.context.SameDialects s'.context

theorem State.Similar.refl (s : State σ) : s.Similar s := ⟨rfl, rfl, rfl, .refl _⟩

theorem State.Similar.symm {s s' : State σ} (h : s.Similar s') : s'.Similar s :=
  ⟨h.definitions.symm, h.replaced.symm, h.erased.symm, h.dialects.symm⟩

theorem State.Similar.trans {a b c : State σ} (h : a.Similar b) (h' : b.Similar c) : a.Similar c :=
  ⟨h'.definitions.trans h.definitions, h'.replaced.trans h.replaced, h'.erased.trans h.erased,
    h.dialects.trans h'.dialects⟩

theorem sameDialects_note (context : Context) (event : Event) :
    context.SameDialects (context.note event) :=
  ⟨fun _ => rfl, rfl⟩

/-- The error says what is wrong with a pattern. -/
inductive BlamesPattern : Error → Prop where
  | failed (pattern : String) (op : OpName) (cause : Error) : BlamesPattern
      (.inPattern pattern op cause)
  | unchanged (pattern : String) (op : OpName) : BlamesPattern (.unchanged pattern op)

theorem rollback_of_draws {supply after : NameSupply} {names : List String}
    (h : supply.Draws names after) :
    after.rollback supply.next = supply := by
  have hreserved := h.reserved
  obtain ⟨next, reserved⟩ := supply
  obtain ⟨next', reserved'⟩ := after
  cases hreserved
  rfl

/-- What an attempt leaves, in view of what it recorded and of the names that were drawn. -/
structure Tried (op : Operation) (drawn : List String) (s : State σ) (recording? : Option Recording)
    (s' : State σ) : Prop where
  similar : s.Similar s'
  draws : s.names.Draws drawn s'.names
  suits : ∀ recording, recording? = some recording → recording.Suits op

theorem ensures_attempt (depth : Nat) (op : Operation) (pattern : Pattern σ) (s : State σ) :
    Ensures (attempt depth op pattern) s
      (fun recording? s' => Tried op
        (if recording?.isSome then (pattern.rewrite op).run.drawn (s.site op) s.draft else []) s
          recording? s')
      (fun error _ => BlamesPattern error) := by
  have hnote := sameDialects_note s.context (.matching depth op.name.text pattern.name)
  unfold attempt
  rw [Ensures.modify_bind_iff, Ensures.get_bind_iff, Ensures.set_bind_iff]
  generalize hrun : Rewrite.run _ _ _ = outcome
  obtain ⟨answer, draft⟩ := outcome
  have hrun' : (pattern.rewrite op).run.run (s.site op) s.draft = (answer, draft) := hrun
  have hdraws := Rewrite.run_draws (s.site op) (pattern.rewrite op).run s.draft
  have hsuits := @Rewrite.run_suits _ _ (s.site op) (pattern.rewrite op).run s.draft
    fun _ h => by cases h
  rw [hrun'] at hdraws hsuits
  rcases answer with cause | _ | _
  · exact .failed _ _ _
  · have hback := rollback_of_draws hdraws
    exact ⟨⟨rfl, rfl, rfl, hnote⟩, hback, nofun⟩
  · dsimp only
    split
    · exact .unchanged _ _
    · rw [Ensures.modify_bind_iff, Ensures.modify_bind_iff]
      refine ⟨⟨rfl, rfl, rfl, hnote.trans (sameDialects_note _ _)⟩, hdraws, ?_⟩
      rintro _ ⟨⟩
      exact hsuits

theorem ensures_attemptFirst (depth : Nat) (op : Operation) (patterns : List (Pattern σ))
    (s : State σ) :
    Ensures (attemptFirst depth op patterns) s
      (fun recording? s' => Tried op (if recording?.isSome then drawnBy depth op patterns s else [])
        s recording? s')
      (fun error _ => BlamesPattern error) := by
  induction patterns generalizing s with
  | nil => exact ⟨.refl s, rfl, nofun⟩
  | cons pattern rest ih =>
      unfold attemptFirst
      refine (ensures_attempt depth op pattern s).bind fun recording? s' hreturns htried => ?_
      cases recording? with
      | some recording =>
          have hdrawn : drawnBy depth op (pattern :: rest) s
            = (pattern.rewrite op).run.drawn (s.site op) s.draft := by
            unfold drawnBy
            rw [hreturns]
          rw [Ensures.pure_iff, hdrawn]
          exact htried
      | none =>
          have hdrawn : drawnBy depth op (pattern :: rest) s = drawnBy depth op rest s' := by
            rw [drawnBy, hreturns]
          have hnames : s'.names = s.names := htried.draws
          refine (ih s').mono fun recording? s'' _ h =>
            ⟨htried.similar.trans h.similar, ?_, h.suits⟩
          rw [hdrawn, ← hnames]
          exact h.draws

variable (patterns : FrozenPatterns σ) (config : Config)

/-- The matches at some encounters. -/
def matchesIn (encounters : List (Encounter σ)) : List Match :=
  encounters.filterMap (Encounter.match? patterns config)

@[simp] theorem matchesIn_nil : matchesIn patterns config [] = [] := rfl

@[simp] theorem matchesIn_append (encounters more : List (Encounter σ)) :
    matchesIn patterns config (encounters ++ more) = matchesIn patterns config encounters
      ++ matchesIn patterns config more :=
  List.filterMap_append

/-- The names that are drawn by the matches at some encounters. -/
def drawnIn (encounters : List (Encounter σ)) : List String :=
  (encounters.filterMap (Encounter.match? patterns config)).flatMap (·.drawn)

@[simp] theorem drawnIn_nil : drawnIn patterns config [] = [] := rfl

@[simp] theorem drawnIn_append (encounters more : List (Encounter σ)) :
    drawnIn patterns config (encounters ++ more) = drawnIn patterns config encounters
      ++ drawnIn patterns config more := by
  simp [drawnIn]

section

variable {visible : List String} {depth : Nat} {op : Operation} {s s' : State σ}

theorem match?_of_returns {recording : Recording}
    (h : Returns (applyPatterns patterns config depth op) s (some recording) s') :
    Encounter.match? patterns config ⟨visible, depth, op, s⟩
      = some ⟨visible, op, drawnBy depth op (patterns.patternsFor op.name) s, recording⟩ := by
  unfold Encounter.match?
  rw [h]

theorem match?_of_returns_none
    (h : Returns (applyPatterns patterns config depth op) s none s') :
    Encounter.match? patterns config ⟨visible, depth, op, s⟩ = none := by
  unfold Encounter.match?
  rw [h]

variable {recording? : Option Recording}

theorem matchesIn_of_returns
    (h : Returns (applyPatterns patterns config depth op) s recording? s') :
    matchesIn patterns config [⟨visible, depth, op, s⟩] = (recording?.map
      (Match.mk visible op (drawnBy depth op (patterns.patternsFor op.name) s))).toList := by
  cases recording? with
  | some recording => simp [matchesIn, match?_of_returns patterns config h]
  | none => simp [matchesIn, match?_of_returns_none patterns config h]

theorem drawnIn_of_returns
    (h : Returns (applyPatterns patterns config depth op) s recording? s') :
    drawnIn patterns config [⟨visible, depth, op, s⟩]
      = if recording?.isSome then drawnBy depth op (patterns.patternsFor op.name) s else [] := by
  cases recording? with
  | some recording => simp [drawnIn, match?_of_returns patterns config h]
  | none => simp [drawnIn, match?_of_returns_none patterns config h]

end

/-- Trying patterns at an encounter draws the names of its match. -/
theorem ensures_applyPatterns (visible : List String) (depth : Nat) (op : Operation) (s : State σ) :
    Ensures (applyPatterns patterns config depth op) s
      (fun recording? s' => Tried op (drawnIn patterns config [⟨visible, depth, op, s⟩]) s recording? s')
      (fun error _ => BlamesPattern error) := by
  have htried : Ensures (applyPatterns patterns config depth op) s (fun recording? s' => Tried op
      (if recording?.isSome then drawnBy depth op (patterns.patternsFor op.name) s else []) s
        recording? s')
      (fun error _ => BlamesPattern error) := by
    unfold applyPatterns
    rw [Ensures.get_bind_iff]
    split
    · exact ⟨.refl s, rfl, nofun⟩
    · exact ensures_attemptFirst depth op _ s
  refine htried.mono fun recording? s' hreturns h => ?_
  rw [drawnIn_of_returns patterns config hreturns]
  exact h

end Greedy

end DialectIR
