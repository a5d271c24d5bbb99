import DialectIR.Proofs.Matching

/-! What a pattern does at a site, step by step: its answer, the names that it draws and what it
records. A match of a run is what one of the patterns does where it is tried. -/

namespace DialectIR

variable {σ α β : Type} {site : Site}

namespace Rewrite

theorem run_bind (program : Rewrite σ α) (next : α → Rewrite σ β) (draft : Draft σ) :
    (program.bind next).run site draft = (next (program.run site draft).1).run site
      (program.run site draft).2 := by
  induction program generalizing draft with
  | done result => rfl
  | definingOp value rest ih => exact ih _ draft
  | freshName rest ih => exact ih _ { draft with names := draft.names.fresh.2 }
  | create op rest ih => exact ih { draft with recording := draft.recording.insert op }
  | act action rest ih =>
      simp only [bind, run]
      cases draft.recording.act site.op action with
      | ok recording => exact ih _ { draft with recording }
      | error refusal => exact ih _ draft
  | context rest ih => exact ih _ draft
  | readMemory rest ih => exact ih _ draft
  | writeMemory memory rest ih => exact ih { draft with memory }

theorem drawn_bind (program : Rewrite σ α) (next : α → Rewrite σ β) (draft : Draft σ) :
    (program.bind next).drawn site draft
      = program.drawn site draft ++ (next (program.run site draft).1).drawn site
        (program.run site draft).2 := by
  induction program generalizing draft with
  | done result => rfl
  | definingOp value rest ih => exact ih _ draft
  | freshName rest ih => exact congrArg (_ :: ·) (ih _ { draft with names := draft.names.fresh.2 })
  | create op rest ih => exact ih { draft with recording := draft.recording.insert op }
  | act action rest ih =>
      simp only [bind, run, drawn]
      cases draft.recording.act site.op action with
      | ok recording => exact ih _ { draft with recording }
      | error refusal => exact ih _ draft
  | context rest ih => exact ih _ draft
  | readMemory rest ih => exact ih _ draft
  | writeMemory memory rest ih => exact ih { draft with memory }

end Rewrite

/-- The attempt ends with an answer, drawn names and a draft as described. -/
def Attempt.Does (site : Site) (attempt : Attempt σ α) (draft : Draft σ)
    (post : Except Error α → List String → Draft σ → Prop) : Prop :=
  post (attempt.run.run site draft).1 (attempt.run.drawn site draft) (attempt.run.run site draft).2

namespace Attempt

variable {draft : Draft σ} {post : Except Error α → List String → Draft σ → Prop}

theorem does_bind {attempt : Attempt σ α} {next : α → Attempt σ β}
    {post : Except Error β → List String → Draft σ → Prop} :
    Does site (attempt >>= next) draft post ↔ Does site attempt draft fun answer names draft =>
      match answer with
      | .ok a => Does site (next a) draft fun answer more draft => post answer (names ++ more) draft
      | .error error => post (.error error) names draft := by
  have hbind : (attempt >>= next).run = attempt.run.bind fun answer => match answer with
      | .ok a => (next a).run
      | .error error => .done (.error error) := by
    rw [ExceptT.run_bind]
    show Rewrite.bind _ _ = _
    congr 1
    funext answer
    cases answer <;> rfl
  unfold Does
  rw [hbind, Rewrite.run_bind, Rewrite.drawn_bind]
  cases (attempt.run.run site draft).1 with
  | ok a => rfl
  | error error =>
      dsimp only [Rewrite.drawn, Rewrite.run]
      rw [List.append_nil]

theorem does_pure {a : α} : Does site (pure a) draft post ↔ post (.ok a) [] draft := .rfl

theorem does_throw {error : Error} :
    Does site (throw error) draft post ↔ post (.error error) [] draft := .rfl

theorem does_definition? {value : Value}
    {post : Except Error (Option Operation) → List String → Draft σ → Prop} :
    Does site (definition? value) draft post
      ↔ post (.ok (site.definition? draft.recording value.name)) [] draft := .rfl

theorem does_freshValue {ty : Ty} {post : Except Error Value → List String → Draft σ → Prop} :
    Does site (freshValue ty) draft post ↔ post (.ok (.named draft.names.fresh.1 ty))
      [draft.names.fresh.1]
      { draft with names := draft.names.fresh.2 } := .rfl

theorem does_insert {op : Operation} {post : Except Error Unit → List String → Draft σ → Prop} :
    Does site (insert op) draft post ↔ post (.ok ()) []
      { draft with recording := draft.recording.insert op } := .rfl

theorem does_act {action : Action} {post : Except Error Unit → List String → Draft σ → Prop} :
    Does site (act action) draft post ↔ match draft.recording.act site.op action with
      | .ok recording => post (.ok ()) [] { draft with recording }
      | .error refusal => post (.error (.refused refusal)) [] draft := by
  unfold Does
  show post (Rewrite.run site (.act action _) draft).1 (Rewrite.drawn site (.act action _) draft)
    (Rewrite.run site (.act action _) draft).2 ↔ _
  simp only [Rewrite.run, Rewrite.drawn]
  cases draft.recording.act site.op action with
  | ok recording => rfl
  | error refusal => rfl

end Attempt

/-- What the pattern does somewhere on an operation that finds the given definitions. -/
def Pattern.DoesOn (pattern : Pattern σ) (op : Operation) (definitions : Dict Operation)
    (post : Except Error Bool → List String → Recording → Prop) : Prop :=
  ∃ (site : Site) (draft : Draft σ), site.op = op ∧ site.definitions = definitions
    ∧ draft.recording = {}
    ∧ (pattern.rewrite op).Does site draft fun answer names draft =>
      post answer names draft.recording

/-- Trying the pattern on the operation ends with the error: one that it raises, or that it claims
to match without changes. -/
def Pattern.FailsOn (pattern : Pattern σ) (op : Operation) (definitions : Dict Operation)
    (error : Error) : Prop :=
  pattern.DoesOn op definitions fun answer _ recording =>
    (∃ cause, answer = .error cause ∧ error = .inPattern pattern.name op.name cause)
      ∨ answer = .ok true ∧ recording.isEmpty = true ∧ error = .unchanged pattern.name op.name

namespace Greedy

theorem ensures_attempt_does (depth : Nat) (op : Operation) (pattern : Pattern σ) (s : State σ) :
    Ensures (attempt depth op pattern) s
      (fun recording? _ => ∀ recording, recording? = some recording →
        pattern.DoesOn op s.definitions fun answer names made =>
        answer = .ok true ∧ names = (pattern.rewrite op).run.drawn (s.site op) s.draft
          ∧ made = recording)
      (fun error _ => pattern.FailsOn op s.definitions error) := by
  have hdoes : ∀ post : Except Error Bool → List String → Recording → Prop,
      post ((pattern.rewrite op).run.run (s.site op) s.draft).1
        ((pattern.rewrite op).run.drawn (s.site op) s.draft)
        ((pattern.rewrite op).run.run (s.site op) s.draft).2.recording →
          pattern.DoesOn op s.definitions post :=
    fun post h => ⟨s.site op, s.draft, rfl, rfl, rfl, h⟩
  unfold attempt
  rw [Ensures.modify_bind_iff, Ensures.get_bind_iff, Ensures.set_bind_iff]
  generalize hrun : Rewrite.run _ _ _ = outcome
  obtain ⟨answer, draft⟩ := outcome
  have hrun' : (pattern.rewrite op).run.run (s.site op) s.draft = (answer, draft) := hrun
  rw [hrun'] at hdoes
  rcases answer with cause | _ | _
  · have hfails : pattern.FailsOn op s.definitions (.inPattern pattern.name op.name cause) :=
      hdoes _ (.inl ⟨cause, rfl, rfl⟩)
    exact hfails
  · exact nofun
  · dsimp only
    split
    next hempty =>
      have hfails : pattern.FailsOn op s.definitions (.unchanged pattern.name op.name) :=
        hdoes _ (.inr ⟨rfl, hempty, rfl⟩)
      exact hfails
    next =>
      rintro _ ⟨⟩
      exact hdoes _ ⟨rfl, rfl, rfl⟩

theorem ensures_attemptFirst_does (depth : Nat) (op : Operation) (patterns : List (Pattern σ))
    (s : State σ) :
    Ensures (attemptFirst depth op patterns) s
      (fun recording? _ => ∀ recording, recording? = some recording → ∃ pattern ∈ patterns,
        pattern.DoesOn op s.definitions fun answer names made =>
          answer = .ok true ∧ names = drawnBy depth op patterns s ∧ made = recording)
      (fun error _ => ∃ pattern ∈ patterns, pattern.FailsOn op s.definitions error) := by
  induction patterns generalizing s with
  | nil => exact nofun
  | cons pattern rest ih =>
      unfold attemptFirst
      have hfirst := (ensures_attempt_does depth op pattern s).weaken fun error _ hfails =>
        (⟨pattern, List.mem_cons_self, hfails⟩ : ∃ other ∈ pattern :: rest,
          other.FailsOn op s.definitions error)
      refine hfirst.bind fun recording? s' hreturns hdoes => ?_
      cases recording? with
      | some recording =>
          have hdrawn : drawnBy depth op (pattern :: rest) s
            = (pattern.rewrite op).run.drawn (s.site op) s.draft := by
            unfold drawnBy
            rw [hreturns]
          rw [Ensures.pure_iff, hdrawn]
          rintro _ ⟨⟩
          exact ⟨pattern, List.mem_cons_self, hdoes recording rfl⟩
      | none =>
          have hdrawn : drawnBy depth op (pattern :: rest) s = drawnBy depth op rest s' := by
            rw [drawnBy, hreturns]
          have hsame :=
            ((ensures_attempt depth op pattern s).of_returns hreturns).similar.definitions
          have hrest := ih s'
          rw [hsame] at hrest
          rw [hdrawn]
          refine (hrest.mono fun _ _ _ h recording hsome => ?_).weaken fun _ _ hfails => ?_
          · obtain ⟨other, hother, hmade⟩ := h recording hsome
            exact ⟨other, List.mem_cons_of_mem _ hother, hmade⟩
          · obtain ⟨other, hother, hfails⟩ := hfails
            exact ⟨other, List.mem_cons_of_mem _ hother, hfails⟩

variable {patterns : FrozenPatterns σ} {config : Config}

/-- **What a match is**: one of the patterns for the operation made the changes. -/
theorem exists_of_match? {e : Encounter σ} {m : Match} (h : e.match? patterns config = some m) :
    m.visible = e.visible ∧ m.op = e.op ∧ ∃ pattern ∈ patterns.patternsFor e.op.name,
      pattern.DoesOn e.op e.before.definitions fun answer names recording =>
        answer = .ok true ∧ names = m.drawn ∧ recording = m.recording := by
  unfold Encounter.match? at h
  split at h
  next recording s' hrun =>
    cases h
    refine ⟨rfl, rfl, ?_⟩
    unfold applyPatterns at hrun
    have hreturns : Returns _ e.before (some recording) s' := hrun
    rw [Returns.get_bind_iff, Returns.ite_iff] at hreturns
    split at hreturns
    · cases (Returns.pure_iff.1 hreturns).1
    · exact (ensures_attemptFirst_does _ _ _ _).of_returns hreturns recording rfl
  next => cases h

/-- Trying patterns fails only if one of them does. -/
theorem ensures_applyPatterns_of_forall (depth : Nat) (op : Operation) (s : State σ)
    (h : ∀ pattern ∈ patterns.patternsFor op.name, ∀ error,
      ¬ pattern.FailsOn op s.definitions error) :
    Ensures (applyPatterns patterns config depth op) s (fun _ _ => True) fun _ _ => False := by
  unfold applyPatterns
  rw [Ensures.get_bind_iff]
  split
  · trivial
  · apply ((ensures_attemptFirst_does depth op _ s).mono fun _ _ _ _ => trivial).weaken
    rintro error - ⟨pattern, hpattern, hfails⟩
    exact h pattern hpattern error hfails

end Greedy

end DialectIR
