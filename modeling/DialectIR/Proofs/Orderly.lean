import DialectIR.Proofs.ContextUse
import DialectIR.Proofs.Growth

/-! Orderly passes. A pass is handed the context to use it: dialects may be made available and
loaded in it, and that is all. Managers are orderly if their passes are, also where a run ends
early. -/

namespace DialectIR

variable {σ α : Type} {context : Context}

theorem Maintains.adapt {ε ε' σ α : Type} {P : σ → Prop} {program : ExceptT ε (StateM σ) α}
    (h : Maintains P program) (f : ε → ε') :
    Maintains P (program.adapt f) := fun before hbefore => Ensures.adapt_iff.2 (h before hbefore)

/-- The context of the workspace is what the given context became in use. -/
def Workspace.UsedSince (context : Context) (space : Workspace σ) : Prop :=
  context.Uses space.context

namespace Task

theorem maintains_context :
    Maintains (Workspace.UsedSince context) (Task.context : Task σ Context) :=
  .get_bind fun _ => .pure _

theorem maintains_note (event : Event) :
    Maintains (Workspace.UsedSince context) (note event : Task σ Unit) :=
  .modify fun _ h => h.note event

theorem maintains_withMemory (work : StateM σ α) :
    Maintains (Workspace.UsedSince context) (withMemory work) := fun _ h => h

end Task

namespace Pass

/-- The pass does no more to a context than that it uses it, also when it fails. -/
structure Orderly (pass : Pass σ) : Prop where
  prepare : ∀ context, Maintains (Workspace.UsedSince context) pass.prepare
  run : ∀ context patterns op, Maintains (Workspace.UsedSince context) (pass.run patterns op)

/-- Whatever the patterns do, their application loads dialects at most. -/
theorem maintains_applyPatterns (config : Greedy.Config) (patterns : FrozenPatterns σ)
    (op : Operation) :
    Maintains (Workspace.UsedSince context) (applyPatterns config patterns op) := by
  intro space h
  have hafter : context.Uses
    (applyGreedily patterns config op space.context space.memory).context :=
    h.trans (loads_applyGreedily patterns config op space.context space.memory).uses
  exact PassManager.ensures_applyPatterns (fun _ _ => hafter) fun _ _ => hafter

theorem orderly_ofPatterns (argument description : String) (dependencies : List Dialect)
    (sources : List (PatternSource σ)) (config : Greedy.Config) :
    (ofPatterns argument description dependencies sources config).Orderly where
  prepare _ := Task.maintains_context.bind fun _ => Task.maintains_withMemory _
  run _ := maintains_applyPatterns config

theorem orderly_canonicalize (simplifications : Dialect → List (PatternSource σ)) :
    (canonicalize simplifications).Orderly where
  prepare _ := Task.maintains_context.bind fun _ => (Task.maintains_withMemory _).bind fun _ =>
    (Task.maintains_note _).bind fun _ => .pure _
  run _ := maintains_applyPatterns {}

theorem orderly_convertArithToLLVM : (convertArithToLLVM (σ := σ)).Orderly := orderly_ofPatterns ..

theorem orderly_idle (argument description : String) :
    (idle (σ := σ) argument description).Orderly :=
  ⟨fun _ => .pure _, fun _ _ _ => .pure _⟩

end Pass

namespace PassManager

/-- The passes are orderly, those that got ready as well. -/
structure Orderly (manager : PassManager σ) : Prop where
  passes : ∀ pass ∈ manager.passes, pass.Orderly
  ready : ∀ {readied}, manager.ready = some readied → ∀ ready ∈ readied, ready.pass.Orderly

theorem Orderly.add {manager : PassManager σ} (h : manager.Orderly) {pass : Pass σ}
    (hpass : pass.Orderly) :
    (manager.add pass).Orderly where
  passes := List.forall_mem_append.2 ⟨h.passes, List.forall_mem_singleton.2 hpass⟩
  ready := nofun

/-- A conflict among the dependencies, or with dialects that are available, comes before anything is
loaded. -/
theorem maintains_loadDependencies (passes : List (Pass σ)) :
    Maintains (Workspace.UsedSince context) (loadDependencies passes) := by
  intro space h
  unfold loadDependencies
  generalize Registry.empty.insertAll _ = outcome
  obtain ⟨needed, conflict?⟩ := outcome
  cases conflict? with
  | some found => exact h
  | none =>
      have happend : context.Uses (space.context.append needed).1 := h.use (.append needed)
      dsimp only
      rw [Ensures.get_bind_iff]
      generalize space.context.append needed = outcome at happend
      obtain ⟨appended, conflict?⟩ := outcome
      cases conflict? with
      | some found => exact happend
      | none =>
          have hload : appended.Uses (appended.loadEach needed.names) :=
            Context.Loads.uses ⟨needed.names, rfl⟩
          exact happend.trans hload

theorem maintains_preparePass {pass : Pass σ} (h : pass.Orderly) :
    Maintains (Workspace.UsedSince context) (preparePass pass) :=
  ((h.prepare context).adapt _).bind fun _ => .pure _

theorem maintains_prepareAll {passes : List (Pass σ)} (h : ∀ pass ∈ passes, pass.Orderly) :
    Maintains (Workspace.UsedSince context) (prepareAll passes) := by
  induction passes with
  | nil => exact .pure _
  | cons pass passes ih =>
      obtain ⟨hpass, hrest⟩ := List.forall_mem_cons.1 h
      exact (maintains_preparePass hpass).bind fun _ => (ih hrest).bind fun _ => .pure _

/-- What gets ready are the passes, in their order. -/
theorem map_pass_of_returns {passes : List (Pass σ)} {space space' : Workspace σ}
    {readied : List (ReadyPass σ)} (h : Returns (prepareAll passes) space readied space') :
    readied.map ReadyPass.pass = passes := by
  induction passes generalizing space readied with
  | nil =>
      obtain ⟨rfl, rfl⟩ := Returns.pure_iff.1 h
      rfl
  | cons pass passes ih =>
      obtain ⟨first, between, hfirst, h⟩ := Returns.bind_iff.1 h
      obtain ⟨rest, between', hrest, h⟩ := Returns.bind_iff.1 h
      obtain ⟨rfl, rfl⟩ := Returns.pure_iff.1 h
      obtain ⟨patterns, between'', _, hfirst⟩ := Returns.bind_iff.1 hfirst
      obtain ⟨rfl, rfl⟩ := Returns.pure_iff.1 hfirst
      rw [List.map_cons, ih hrest]

/-- Where a pass is run: what happens is noted before. -/
def announced (printing : Bool) (ready : ReadyPass σ) (op : Operation) (space : Workspace σ) :
    Workspace σ :=
  let shown := if printing then space.context.note (.dump ready.pass.argument op.text)
    else space.context
  { space with context := shown.note (.running ready.pass.argument) }

theorem runFrom_runPass (printing : Bool) (ready : ReadyPass σ) (op : Operation)
    (space : Workspace σ) :
    runFrom (runPass printing ready op) space
      = runFrom ((ready.pass.run ready.patterns op).adapt (Error.inPass ready.pass.argument))
        (announced printing ready op space) := by
  cases printing with
  | true => rfl
  | false => rfl

theorem loads_announced (printing : Bool) (ready : ReadyPass σ) (op : Operation)
    (space : Workspace σ) :
    space.context.Loads (announced printing ready op space).context := by
  cases printing with
  | true => exact ((Context.Loads.refl _).note _).note _
  | false => exact (Context.Loads.refl _).note _

theorem maintains_runPass {ready : ReadyPass σ} (h : ready.pass.Orderly) (printing : Bool)
    (op : Operation) :
    Maintains (Workspace.UsedSince context) (runPass printing ready op) :=
  fun _ hspace => ensures_runPass fun _ hnoted =>
    h.run context ready.patterns op _ (hspace.trans hnoted.uses)

theorem uses_runReady {readied : List (ReadyPass σ)} (h : ∀ ready ∈ readied, ready.pass.Orderly)
    (printing changed : Bool) (op : Operation) {space : Workspace σ}
    (hspace : context.Uses space.context) :
    context.Uses (runReady printing readied changed op space).space.context := by
  induction readied generalizing changed op space with
  | nil => exact hspace
  | cons ready readied ih =>
      obtain ⟨hready, hrest⟩ := List.forall_mem_cons.1 h
      have hran : context.Uses ((runPass printing ready op).run.run space).2.context :=
        (maintains_runPass hready printing op).holds hspace
      rw [runReady]
      generalize (runPass printing ready op).run.run space = outcome at hran
      obtain ⟨error | ⟨changedNow, op'⟩, space'⟩ := outcome
      · exact hran
      · exact ih hrest _ op' hran

/-- **Runs of orderly passes are orderly**, however they end; and so is the manager that is left. -/
theorem Orderly.run {manager : PassManager σ} (h : manager.Orderly) (op : Operation)
    (space : Workspace σ) :
    space.context.Uses (manager.run op space).1.space.context
      ∧ (manager.run op space).2.Orderly := by
  unfold PassManager.run
  split
  next readied hready => exact ⟨uses_runReady (h.ready hready) _ _ _ (.refl _), h⟩
  next hready =>
    have hprepare : Maintains (Workspace.UsedSince space.context) manager.prepare :=
      (maintains_loadDependencies _).bind fun _ => maintains_prepareAll h.passes
    have hspace := hprepare.holds (Context.Uses.refl space.context)
    split
    next error space' hrun =>
      unfold runFrom at hspace
      rw [hrun] at hspace
      exact ⟨hspace, h⟩
    next readied space' hrun =>
      unfold runFrom at hspace
      rw [hrun] at hspace
      obtain ⟨_, _, _, hreadied⟩ := Returns.bind_iff.1
        (show Returns manager.prepare space readied space' from hrun)
      have hsame := map_pass_of_returns hreadied
      have horderly : ∀ ready ∈ readied, ready.pass.Orderly :=
        fun ready hmem => h.passes _ (hsame ▸ List.mem_map_of_mem hmem)
      exact ⟨uses_runReady horderly _ _ _ hspace, h.passes, by rintro _ ⟨⟩; exact horderly⟩

end PassManager

end DialectIR
