import DialectIR.Pass.Pipeline
import DialectIR.Proofs.Loading
import DialectIR.Proofs.Matching

/-! How passes get ready and are run. Dialects that are available need not be made available again,
and to load them changes no answer of the context. -/

namespace DialectIR

namespace Registry

variable {registry needed : Registry} {dialects : List Dialect}

/-- The dialects are registered. -/
def Holds (registry : Registry) (dialects : List Dialect) : Prop :=
  ∀ dialect ∈ dialects, registry.get? dialect.name = some dialect

theorem get?_of_mem_dialects {dialect : Dialect} (h : dialect ∈ registry.dialects) :
    registry.get? dialect.name = some dialect := by
  obtain ⟨entry, hentry, rfl⟩ := List.mem_map.1 h
  have hget := Dict.get?_of_mem hentry
  rw [registry.named _ _ hget]
  exact hget

/-- To register dialects once more changes nothing. -/
theorem insertAll_of_holds (h : registry.Holds dialects) :
    registry.insertAll dialects = (registry, none) := by
  induction dialects with
  | nil => rfl
  | cons dialect dialects ih =>
      obtain ⟨hdialect, hrest⟩ := List.forall_mem_cons.1 h
      rw [insertAll, insert, hdialect]
      dsimp only
      rw [if_pos rfl]
      exact ih hrest

/-- Dialects of one registry are not in conflict. -/
theorem insertAll_holds
    (hneeded : ∀ name dialect, needed.get? name = some dialect → registry.get? name = some dialect)
    (h : registry.Holds dialects) :
    (needed.insertAll dialects).2 = none ∧ registry.Holds
      (needed.insertAll dialects).1.dialects := by
  induction dialects generalizing needed with
  | nil => exact ⟨rfl, fun dialect hdialect => hneeded _ _ (get?_of_mem_dialects hdialect)⟩
  | cons dialect dialects ih =>
      obtain ⟨hdialect, hrest⟩ := List.forall_mem_cons.1 h
      rw [insertAll, insert]
      cases hget : needed.get? dialect.name with
      | some existing =>
          have hsame : existing = dialect :=
            Option.some.inj ((hneeded _ _ hget).symm.trans hdialect)
          dsimp only
          rw [if_pos hsame]
          exact ih hneeded hrest
      | none =>
          refine ih (fun name other hother => ?_) hrest
          have hadd : (needed.add dialect).get? name = if name = dialect.name then some dialect
            else needed.get? name :=
            Dict.get?_insert ..
          rw [hadd] at hother
          split at hother
          next hname =>
            cases hother
            rw [hname, hdialect]
          next => exact hneeded name other hother

end Registry

variable {σ α : Type}

theorem Ensures.adapt_iff {ε ε' : Type} {program : ExceptT ε (StateM σ) α} {f : ε → ε'} {before : σ}
    {post : α → σ → Prop} {fails : ε' → σ → Prop} :
    Ensures (program.adapt f) before post fails ↔ Ensures program before post fun error =>
      fails (f error) := by
  have hrun : runFrom (program.adapt f) before = match runFrom program before with
      | (.ok a, after) => (.ok a, after)
      | (.error error, after) => (.error (f error), after) := by
    show (Except.mapError f (program.run.run before).1, (program.run.run before).2) = _
    unfold runFrom
    rcases program.run.run before with ⟨error | a, after⟩
    · rfl
    · rfl
  unfold Ensures
  rw [hrun]
  rcases runFrom program before with ⟨error | a, after⟩
  · rfl
  · rfl

theorem run_insertAll (context : Context) (set : PatternSet σ) (patterns : List (Pattern σ))
    (memory : σ) :
    (set.insertAll context (patterns.map Pattern.source)).run memory
      = (⟨set.patterns ++ patterns⟩, memory) := by
  induction patterns generalizing set with
  | nil => exact Prod.ext (congrArg PatternSet.mk (List.append_nil _).symm) rfl
  | cons pattern patterns ih =>
      refine (ih (set.add pattern)).trans (Prod.ext (congrArg PatternSet.mk ?_) rfl)
      exact List.append_assoc set.patterns [pattern] patterns

/-- Patterns that depend on nothing are ready as they are. -/
theorem run_ofSources (context : Context) (patterns : List (Pattern σ)) (memory : σ) :
    (FrozenPatterns.ofSources context (patterns.map Pattern.source)).run memory
      = ((PatternSet.mk patterns).freeze, memory) := by
  have hinsert := run_insertAll context .empty patterns memory
  show ((PatternSet.freeze _, _) : FrozenPatterns σ × σ) = _
  exact congrArg (fun made => (PatternSet.freeze made.1, made.2)) hinsert

namespace PassManager

variable {σ : Type} {passes : List (Pass σ)} {space : Workspace σ}

/-- **Dependencies that are available are only loaded.** -/
theorem returns_loadDependencies
    (h : space.context.registry.Holds (passes.flatMap (·.dependencies))) :
    Returns (loadDependencies passes) space ⟨⟩ { space with
      context := space.context.loadEach (Registry.empty.insertAll
        (passes.flatMap (·.dependencies))).1.names } := by
  have hempty (name : String) (dialect : Dialect) (hget : Registry.empty.get? name = some dialect) :
      space.context.registry.get? name = some dialect := nomatch hget
  obtain ⟨hconflict, hneeded⟩ := Registry.insertAll_holds hempty h
  have happend : space.context.append (Registry.empty.insertAll (passes.flatMap (·.dependencies))).1
    = (space.context, none) := by
    unfold Context.append Registry.append
    rw [Registry.insertAll_of_holds hneeded]
  unfold loadDependencies
  generalize Registry.empty.insertAll (passes.flatMap (·.dependencies))
    = outcome at hconflict happend
  obtain ⟨needed, conflict?⟩ := outcome
  dsimp only at hconflict happend ⊢
  subst hconflict
  rw [Returns.get_bind_iff, happend, Returns.set_bind_iff, Returns.set_iff]

/-- Patterns that depend on nothing are made without a change. -/
theorem returns_preparePass (argument description : String) (dependencies : List Dialect)
    (patterns : List (Pattern σ)) (config : Greedy.Config) (space : Workspace σ) :
    Returns
      (preparePass (.ofPatterns argument description dependencies (patterns.map Pattern.source)
        config)) space
      ⟨.ofPatterns argument description dependencies (patterns.map Pattern.source) config,
        (PatternSet.mk patterns).freeze⟩
      space := by
  have hrun := run_ofSources space.context patterns space.memory
  exact congrArg (fun made : FrozenPatterns σ × σ =>
    ((.ok ⟨_, made.1⟩, { space with memory := made.2 }) : Except Error (ReadyPass σ) × Workspace σ))
      hrun

/-- A pass that applies patterns ends as their application does. -/
theorem ensures_applyPatterns {config : Greedy.Config} {patterns : FrozenPatterns σ}
    {op : Operation} {post : Bool × Operation → Workspace σ → Prop}
    {fails : Error → Workspace σ → Prop}
    (hok : ∀ outcome, (applyGreedily patterns config op space.context space.memory).result
      = .ok outcome →
      post (outcome.changed, (applyGreedily patterns config op space.context space.memory).op)
        ⟨(applyGreedily patterns config op space.context space.memory).context,
          (applyGreedily patterns config op space.context space.memory).memory⟩)
    (herror : ∀ error, (applyGreedily patterns config op space.context space.memory).result
      = .error error →
      fails error ⟨(applyGreedily patterns config op space.context space.memory).context,
        (applyGreedily patterns config op space.context space.memory).memory⟩) :
    Ensures (Pass.applyPatterns config patterns op) space post fails := by
  unfold Pass.applyPatterns
  rw [Ensures.get_bind_iff, Ensures.set_bind_iff]
  revert hok herror
  generalize applyGreedily patterns config op space.context space.memory = rewritten
  intro hok herror
  cases hresult : rewritten.result with
  | ok outcome => exact hok outcome hresult
  | error error => exact herror error hresult

/-- What the application of patterns leaves of a tree and of the context, a pass that applies them
leaves. -/
theorem ensures_applyPatterns_leaves {config : Greedy.Config} {patterns : FrozenPatterns σ}
    {op : Operation} {P : Operation → Prop} {Q : Context → Prop}
    (h : ∀ rewritten outcome, rewritten = applyGreedily patterns config op space.context space.memory →
      rewritten.result = .ok outcome → P rewritten.op ∧ Q rewritten.context) :
    Ensures (Pass.applyPatterns config patterns op) space
      (fun out after => P out.2 ∧ Q after.context) fun _ _ => True := by
  unfold Pass.applyPatterns
  rw [Ensures.get_bind_iff, Ensures.set_bind_iff]
  generalize hrewritten : applyGreedily patterns config op space.context space.memory = rewritten
  cases hresult : rewritten.result with
  | ok outcome => exact h rewritten outcome hrewritten.symm hresult
  | error error => trivial

/-- A pass does in a manager what it does by itself; the context only takes notes before. -/
theorem ensures_runPass {printing : Bool} {ready : ReadyPass σ} {op : Operation}
    {post : Bool × Operation → Workspace σ → Prop} {fails : Error → Workspace σ → Prop}
    (h : ∀ context, space.context.Loads context →
      Ensures (ready.pass.run ready.patterns op) { space with context } post
      fun error => fails (.inPass ready.pass.argument error)) :
    Ensures (runPass printing ready op) space post fails := by
  have hrunning (context : Context) (hnoted : space.context.Loads context) :
      Ensures (Task.note (.running ready.pass.argument) >>= fun _ =>
        (ready.pass.run ready.patterns op).adapt (Error.inPass ready.pass.argument))
          { space with context } post fails := by
    unfold Task.note
    rw [Ensures.modify_bind_iff, Ensures.adapt_iff]
    exact h _ (hnoted.note _)
  unfold runPass
  cases printing with
  | true => exact hrunning _ ((Context.Loads.refl _).note _)
  | false => exact hrunning _ (.refl _)

/-- A manager that is not ready gets ready before it runs its passes. -/
theorem run_of_returns {manager : PassManager σ} {ready : List (ReadyPass σ)} {space' : Workspace σ}
    (hready : manager.ready = none) (h : Returns manager.prepare space ready space')
    (op : Operation) :
    (manager.run op space).1 = runReady manager.printing ready false op space' := by
  have hrun : manager.prepare.run.run space = (.ok ready, space') := h
  unfold run
  rw [hready, hrun]

theorem runReady_singleton {printing : Bool} {ready : ReadyPass σ} {op op' : Operation}
    {changed : Bool} {space' : Workspace σ}
    (h : Returns (runPass printing ready op) space (changed, op') space') :
    runReady printing [ready] false op space = ⟨.ok changed, op', space'⟩ := by
  have hrun : (runPass printing ready op).run.run space = (.ok (changed, op'), space') := h
  rw [runReady, hrun]
  dsimp only
  rw [runReady, Bool.false_or]

end PassManager

end DialectIR
