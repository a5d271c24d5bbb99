import DialectIR.Proofs.ContextUse
import DialectIR.Proofs.LoweredTree
import DialectIR.Proofs.OwnOutput

/-! Pipelines are compositional: a pipeline does what its passes do that are called one by one. In a
pipeline all dialects are loaded and all patterns are collected before the first pass runs, in
single calls that happens in between. No call finds more simplifications than the others if the
arithmetic dialect was met before; and if it was not, there is no arithmetic in the tree, and there
never will be. -/

namespace DialectIR

open Operation Greedy

variable {σ : Type}

theorem Dict.flatMap_insertEntry {α β : Type} {key : String} {value : α}
    {entries : List (String × α)} {f : String × α → List β} (hnew : entries.lookup key = none)
    (hnone : f (key, value) = []) :
    (insertEntry key value entries).flatMap f = entries.flatMap f := by
  induction entries with
  | nil => simp [insertEntry, hnone]
  | cons entry entries ih =>
      rw [lookup_cons_eq_ite] at hnew
      have hne : key ≠ entry.1 := fun h => by simp [h] at hnew
      rw [if_neg hne] at hnew
      rw [insertEntry, if_neg hne]
      split
      · rw [List.flatMap_cons, hnone, List.nil_append]
      · rw [List.flatMap_cons, List.flatMap_cons, ih hnew]

namespace Context

variable {context other : Context}

/-- The simplifications of the loaded dialects, in the order in which they are collected. -/
def simplifications (context : Context) : List (PatternSource σ) :=
  (context.loaded.entries.map fun entry => entry.2.dialect).flatMap Dialect.standardSimplifications

/-- Only the arithmetic dialect has simplifications. -/
theorem simplifications_load (hmet : context.Met "arith") (name : String) :
    (context.load name).simplifications = context.simplifications (σ := σ) := by
  by_cases hname : context.Met name
  · rw [load_of_met hname]
  · unfold load
    split
    next dialect hloaded hregistered =>
      have hother : dialect ≠ .arith := by
        rintro rfl
        exact hname (context.registry.named name .arith hregistered ▸ hmet)
      unfold simplifications
      rw [List.flatMap_map, List.flatMap_map]
      exact Dict.flatMap_insertEntry hloaded (if_neg hother)
    next => rfl

theorem Loads.simplifications_eq (h : context.Loads other) (hmet : context.Met "arith") :
    other.simplifications = context.simplifications (σ := σ) := by
  refine (h.induction (P := fun other => other.Met "arith"
    ∧ other.simplifications = context.simplifications (σ := σ))
    (fun before after hsame hbefore => ?_) (fun between name hbetween => ?_) ⟨hmet, rfl⟩).2
  · have hafter : before.withoutJournal.Met "arith"
      ∧ before.withoutJournal.simplifications = context.simplifications (σ := σ) :=
      hbefore
    rw [← hsame] at hafter
    exact hafter
  · exact ⟨hbetween.1.load name, (simplifications_load hbetween.1 name).trans hbetween.2⟩

end Context

/-- The pattern looks neither at the context nor at the memory, and has nothing to do on operations
of other dialects. -/
structure Pattern.Arithmetic (pattern : Pattern σ) : Prop where
  blind : pattern.Blind
  rests : ∀ {op : Operation}, op.name.dialect ≠ "arith" → pattern.appliesTo op.name = true →
    ∀ definitions, pattern.Yields op definitions none

namespace Arith

theorem arithmetic_simplifications : ∀ pattern ∈ simplifications (σ := σ), pattern.Arithmetic := by
  refine fun pattern hpattern =>
    ⟨blind_simplifications pattern hpattern, fun {op} hother happlies definitions => ?_⟩
  refine yields_of_not_reducible hpattern happlies fun hreducible => hother ?_
  rcases hreducible.isBinary with hname | hname | hname
  all_goals
    rw [hname]
    decide +kernel

end Arith

namespace Lowering

theorem lowered?_of_dialect_ne {op : Operation} (h : op.name.dialect ≠ "arith") :
    lowered? op.toHead = none := by
  have hne {name : OpName} (hname : name.dialect = "arith") : op.name ≠ name :=
    fun heq => h (heq ▸ hname)
  unfold lowered?
  rw [if_neg (hne (by decide +kernel)), if_neg (hne (by decide +kernel)),
    if_neg (hne (by decide +kernel)), if_neg (hne (by decide +kernel))]

theorem arithmetic_patterns : ∀ pattern ∈ patterns (σ := σ), pattern.Arithmetic := by
  refine fun pattern hpattern =>
    ⟨blind_patterns pattern hpattern, fun {op} hother happlies definitions => ?_⟩
  exact (rests_of_none (lowered?_of_dialect_ne hother)).yields definitions trivial pattern
    (List.mem_filter.2 ⟨hpattern, happlies⟩)

end Lowering

/-- Where no pattern has anything to do, a run takes away what is dead. -/
theorem applyGreedily_of_arithmetic {patterns : FrozenPatterns σ}
    (hpatterns : ∀ pattern ∈ patterns.patterns, pattern.Arithmetic) {root : Operation}
    (hroot : ∀ head ∈ root.heads, head.name.dialect ≠ "arith") (context : Context) (memory : σ) :
    ∃ outcome, (applyGreedily patterns {} root context memory).result = .ok outcome
      ∧ Ended context root 0 outcome (applyGreedily patterns {} root context memory).op := by
  refine applyGreedily_of_rests memory rfl rfl (by decide) fun op hop =>
    ⟨fun definitions _ pattern hpattern => ?_, fun _ _ => trivial⟩
  obtain ⟨hmem, happlies⟩ := List.mem_filter.1 hpattern
  have hother : op.toHead ∈ root.heads := by
    rw [heads_eq]
    exact List.mem_cons_of_mem _ hop
  exact (hpatterns pattern hmem).rests (hroot op.toHead hother) happlies definitions

/-- How a pass ends that leaves a run of rewriting. -/
def Rewritten.ending (rewritten : Rewritten σ) (argument : String) :
    Except Error (Bool × Operation) :=
  match rewritten.result with
  | .ok outcome => .ok (outcome.changed, rewritten.op)
  | .error error => .error (.inPass argument error)

theorem Rewritten.ending_of_ok {rewritten : Rewritten σ} {outcome : Outcome}
    (h : rewritten.result = .ok outcome) (argument : String) :
    rewritten.ending argument = .ok (outcome.changed, rewritten.op) := by
  rw [ending, h]

theorem Rewritten.ending_of_error {rewritten : Rewritten σ} {error : Error}
    (h : rewritten.result = .error error) (argument : String) :
    rewritten.ending argument = .error (.inPass argument error) := by
  rw [ending, h]

theorem Rewritten.ending_congr {rewritten rewritten' : Rewritten σ}
    (hresult : rewritten'.result = rewritten.result) (hop : rewritten'.op = rewritten.op)
    (argument : String) : rewritten'.ending argument = rewritten.ending argument := by
  rw [ending, ending, hresult, hop]

/-- What a pass that got ready makes of a module. -/
def ReadyPass.outcome (ready : ReadyPass σ) (context : Context) (memory : σ) (op : Operation) :
    Except Error (Bool × Operation) :=
  (applyGreedily ready.patterns {} op context memory).ending ready.pass.argument

/-- The context has met arithmetic, or there is none in the tree. -/
def Context.Foresees (context : Context) (op : Operation) : Prop :=
  context.Met "arith" ∨ ∀ head ∈ op.heads, head.name.dialect ≠ "arith"

namespace PassManager

variable {context : Context} {pass : Pass σ} {ready ready' : ReadyPass σ} {space : Workspace σ}
  {op : Operation}

/-- The pass got ready somewhere where dialects were loaded at most. If arithmetic was met, it gets
ready in the same way everywhere. -/
structure Stands (context : Context) (pass : Pass σ) (ready : ReadyPass σ) : Prop where
  same : ready.pass = pass
  run : pass.run = Pass.applyPatterns {}
  arithmetic : ∀ pattern ∈ ready.patterns.patterns, pattern.Arithmetic
  again : context.Met "arith" → ∀ space, context.Loads space.context →
    ∃ after, Returns (preparePass pass) space ready after

theorem exists_stands (hpass : IsStandard pass) (h : context.Loads space.context) :
    ∃ ready after, Returns (preparePass pass) space ready after ∧ Stands context pass ready
      ∧ context.Loads after.context := by
  rcases hpass with rfl | rfl
  · obtain ⟨patterns, hpatterns, hsources⟩ :=
      exists_patterns (σ := σ) (space.context.loaded.entries.map fun entry => entry.2.dialect)
    refine ⟨_, _, returns_prepareCanonicalize hsources,
      ⟨rfl, rfl, fun pattern hpattern => ?_, fun hmet other hother => ?_⟩, h.note _⟩
    · exact Arith.arithmetic_simplifications pattern (hpatterns (List.mem_mergeSort.1 hpattern))
    · have hsame := (hother.simplifications_eq hmet).trans (h.simplifications_eq (σ := σ) hmet).symm
      exact ⟨_, returns_prepareCanonicalize (hsame.trans hsources)⟩
  · refine ⟨_, space, returns_preparePass ..,
      ⟨rfl, rfl, fun pattern hpattern => ?_, fun _ other _ => ?_⟩, h⟩
    · exact Lowering.arithmetic_patterns pattern (List.mem_mergeSort.1 hpattern)
    · exact ⟨other, returns_preparePass ..⟩

theorem exists_stands_all {passes : List (Pass σ)} (hpasses : ∀ pass ∈ passes, IsStandard pass)
    (h : context.Loads space.context) :
    ∃ readied after, Returns (prepareAll passes) space readied after
      ∧ List.Forall₂ (Stands context) passes readied
      ∧ context.Loads after.context := by
  induction passes generalizing space with
  | nil => exact ⟨[], space, Returns.pure_iff.2 ⟨rfl, rfl⟩, .nil, h⟩
  | cons pass passes ih =>
      obtain ⟨hpass, hrest⟩ := List.forall_mem_cons.1 hpasses
      obtain ⟨first, between, hfirst, hstands, hbetween⟩ := exists_stands hpass h
      obtain ⟨rest, after, hreturns, hstand, hafter⟩ := ih hrest hbetween
      refine ⟨first :: rest, after, ?_, .cons hstands hstand, hafter⟩
      exact Returns.bind_iff.2
        ⟨_, _, hfirst, Returns.bind_iff.2 ⟨_, _, hreturns, Returns.pure_iff.2 ⟨rfl, rfl⟩⟩⟩

/-- A pass that applies patterns ends as their application does. -/
theorem ensures_applyPatterns_ending {patterns : FrozenPatterns σ} {config : Config}
    {rewritten : Rewritten σ}
    (h : applyGreedily patterns config op space.context space.memory = rewritten)
    (argument : String) {P : Context → Prop} (hcontext : P rewritten.context) :
    Ensures (Pass.applyPatterns config patterns op) space
      (fun out after => rewritten.ending argument = .ok out ∧ P after.context)
      fun error after => rewritten.ending argument = .error (.inPass argument error)
        ∧ P after.context := by
  unfold Pass.applyPatterns
  rw [Ensures.get_bind_iff, Ensures.set_bind_iff, h]
  cases hresult : rewritten.result with
  | ok outcome => exact ⟨Rewritten.ending_of_ok hresult argument, hcontext⟩
  | error error => exact ⟨Rewritten.ending_of_error hresult argument, hcontext⟩

namespace Stands

/-- Where nothing is to be done, the outcome is plain. -/
theorem exists_outcome (h : Stands context pass ready)
    (hnone : ∀ head ∈ op.heads, head.name.dialect ≠ "arith") (memory : σ) :
    ∃ changed, (changed = true ↔ 0 < (op.removeDeadOps context).removed)
      ∧ ready.outcome context memory op = .ok (changed, (op.removeDeadOps context).op) := by
  obtain ⟨outcome, hresult, hended⟩ := applyGreedily_of_arithmetic h.arithmetic hnone context memory
  refine ⟨outcome.changed, hended.changed.trans (or_iff_right (Nat.lt_irrefl 0)), ?_⟩
  rw [ReadyPass.outcome, Rewritten.ending_of_ok hresult, hended.op]

/-- Where arithmetic is foreseen, it does not matter where the pass got ready. -/
theorem outcome_eq (h : Stands context pass ready) (h' : Stands context pass ready')
    (hop : context.Foresees op) (memory : σ) :
    ready'.outcome context memory op = ready.outcome context memory op := by
  rcases hop with hmet | hnone
  · -- Both passes get ready in the given context, and that has one result.
    obtain ⟨_, hreturns⟩ := h.again hmet ⟨context, memory⟩ (.refl context)
    obtain ⟨_, hreturns'⟩ := h'.again hmet ⟨context, memory⟩ (.refl context)
    have hready : ready' = ready :=
      Except.ok.inj (congrArg Prod.fst (Eq.trans (Eq.symm hreturns') hreturns))
    rw [hready]
  · obtain ⟨changed, hchanged, houtcome⟩ := h.exists_outcome hnone memory
    obtain ⟨changed', hchanged', houtcome'⟩ := h'.exists_outcome hnone memory
    rw [houtcome, houtcome', Bool.eq_iff_iff.2 (hchanged'.trans hchanged.symm)]

/-- Arithmetic stays foreseen. -/
theorem foresees (h : Stands context pass ready) (hop : context.Foresees op) {memory : σ}
    {out : Bool × Operation} (hout : ready.outcome context memory op = .ok out) :
    context.Foresees out.2 := by
  rcases hop with hmet | hnone
  · exact .inl hmet
  · obtain ⟨changed, -, houtcome⟩ := h.exists_outcome hnone memory
    rw [houtcome] at hout
    cases hout
    exact .inr fun head hhead => hnone head ((heads_removeDeadOps context op).subset hhead)

/-- A run of a pass ends in the same way wherever dialects were loaded at most. -/
theorem exists_runPass (h : Stands context pass ready) (printing : Bool) (op : Operation)
    (hs : context.Loads space.context) (memory : σ) :
    ∃ after, (runPass printing ready op).run.run space = (ready.outcome context memory op, after)
      ∧ context.Loads after.context := by
  have hrun : Ensures (runPass printing ready op) space
      (fun out after => ready.outcome context memory op = .ok out ∧ context.Loads after.context)
      fun error after => ready.outcome context memory op = .error error
        ∧ context.Loads after.context := by
    apply ensures_runPass
    intro noted hnoted
    have hloads := hs.trans hnoted
    have hafter := hloads.trans (loads_applyGreedily ready.patterns {} op noted space.memory)
    have hsame := applyGreedily_of_blind
      (fun pattern hpattern => (h.arithmetic pattern hpattern).blind) {} op hloads.dialects
      memory space.memory
    -- From here on the run is known by its ending only.
    generalize hrewritten : applyGreedily ready.patterns {} op noted space.memory
      = rewritten at hafter hsame
    have houtcome : ready.outcome context memory op = rewritten.ending ready.pass.argument :=
      (Rewritten.ending_congr hsame.1 hsame.2 _).symm
    rw [h.same, h.run, houtcome, h.same]
    exact ensures_applyPatterns_ending (P := context.Loads) hrewritten pass.argument hafter
  unfold Ensures runFrom at hrun
  generalize (runPass printing ready op).run.run space = ended at hrun ⊢
  obtain ⟨error | out, after⟩ := ended
  · exact ⟨after, by rw [hrun.1], hrun.2⟩
  · exact ⟨after, by rw [hrun.1], hrun.2⟩

end Stands

end PassManager

namespace Pipeline

variable {context : Context} {registry : PassRegistry σ} {names : List String}
  {space space' : Workspace σ} {op : Operation}

/-- A call for each of the names, in turn, on the module and in the workspace that the call before
left. -/
def calls (registry : PassRegistry σ) (printing : Bool) :
    List String → Operation → Workspace σ → List (Transformed σ)
  | [], _, _ => []
  | name :: names, op, space =>
      let done := transform ⟨[name]⟩ registry printing op space
      done :: calls registry printing names done.op done.space

theorem manager_of_known (hnames : ∀ name ∈ names, (registry.create? name).isSome)
    {soFar : PassManager σ} (hready : soFar.ready = none) :
    manager registry names soFar = .ok
      { soFar with passes := soFar.passes ++ names.filterMap registry.create? } := by
  induction names generalizing soFar with
  | nil => rw [manager, List.filterMap_nil, List.append_nil]
  | cons name names ih =>
      obtain ⟨hname, hrest⟩ := List.forall_mem_cons.1 hnames
      obtain ⟨pass, hpass⟩ := Option.isSome_iff_exists.1 hname
      rw [manager, hpass]
      dsimp only
      rw [ih hrest rfl, PassManager.add, List.filterMap_cons_some hpass, List.append_assoc,
        List.singleton_append, hready]

/-- The first unknown name is the error. -/
theorem exists_manager_of_unknown (hnames : ∃ name ∈ names, registry.create? name = none)
    (soFar : PassManager σ) :
    ∃ name ∈ names, registry.create? name = none ∧ manager registry names soFar
      = .error (.unknownPass name) := by
  induction names generalizing soFar with
  | nil =>
      obtain ⟨_, hname, _⟩ := hnames
      cases hname
  | cons name names ih =>
      cases hcreate : registry.create? name with
      | none => exact ⟨name, List.mem_cons_self, hcreate, by rw [manager, hcreate]⟩
      | some pass =>
          have hrest : ∃ name ∈ names, registry.create? name = none := by
            obtain ⟨unknown, hmem, hunknown⟩ := hnames
            rcases List.mem_cons.1 hmem with rfl | hmem
            · rw [hcreate] at hunknown
              cases hunknown
            · exact ⟨unknown, hmem, hunknown⟩
          obtain ⟨unknown, hmem, hunknown, herror⟩ := ih hrest (soFar.add pass)
          exact ⟨unknown, List.mem_cons_of_mem _ hmem, hunknown,
            by rw [manager, hcreate]; exact herror⟩

/-- The passes that the names stand for get ready, and then they are run. -/
theorem exists_transform
    (hstandard : ∀ name pass, registry.create? name = some pass → PassManager.IsStandard pass)
    (hllvm : context.registry.get? "llvm" = some .llvm)
    (hnames : ∀ name ∈ names, (registry.create? name).isSome) (printing : Bool) (op : Operation)
    (hs : context.Loads space.context) :
    ∃ readied after, List.Forall₂ (PassManager.Stands context)
      (names.filterMap registry.create?) readied
      ∧ context.Loads after.context
      ∧ transform ⟨names⟩ registry printing op space = PassManager.runReady printing readied false
        op after := by
  have hpasses : ∀ pass ∈ names.filterMap registry.create?, PassManager.IsStandard pass := by
    intro pass hpass
    obtain ⟨name, -, hname⟩ := List.mem_filterMap.1 hpass
    exact hstandard name pass hname
  have hmanager : manager registry names { printing }
    = .ok { printing, passes := names.filterMap registry.create? } :=
    manager_of_known hnames rfl
  have hloaded : space.context.registry.get? "llvm" = some .llvm := by
    rw [hs.registry, hllvm]
  have hload := PassManager.returns_loadDependencies
    (PassManager.holds_dependencies hpasses hloaded)
  generalize (Registry.empty.insertAll _).1.names = loaded at hload
  obtain ⟨readied, after, hprepare, hstands, hafter⟩ := PassManager.exists_stands_all hpasses
    (show context.Loads (Workspace.mk (space.context.loadEach loaded) space.memory).context
      from hs.loadEach loaded)
  have hprepared : Returns
    (PassManager.prepare { printing, passes := names.filterMap registry.create? }) space
      readied after :=
    Returns.bind_iff.2 ⟨_, _, hload, hprepare⟩
  refine ⟨readied, after, hstands, hafter, ?_⟩
  rw [transform, hmanager]
  exact PassManager.run_of_returns rfl hprepared op

/-! ### Composition -/

/-- The first call that fails decides the result; if none does, it tells whether the module was
changed by one of them. -/
def together (calls : List (Transformed σ)) : Except Error Bool :=
  (calls.mapM Transformed.result).map fun changes => changes.any id

/-- The module as the calls before the first that fails left it. -/
def leftBy (op : Operation) (calls : List (Transformed σ)) : Operation :=
  ((calls.takeWhile (·.result.isOk)).map Transformed.op).getLastD op

theorem together_cons_ok {done : Transformed σ} {changed : Bool} (h : done.result = .ok changed)
    (calls : List (Transformed σ)) :
    together (done :: calls) = (together calls).map (changed || ·) := by
  rw [together, together, List.mapM_cons, h]
  show Except.map _ ((calls.mapM Transformed.result).bind fun changes =>
    .ok (changed :: changes)) = _
  cases calls.mapM Transformed.result with
  | error error => rfl
  | ok changes => rfl

theorem together_cons_error {done : Transformed σ} {error : Error} (h : done.result = .error error)
    (calls : List (Transformed σ)) :
    together (done :: calls) = .error error := by
  rw [together, List.mapM_cons, h]
  rfl

theorem leftBy_cons_ok {done : Transformed σ} {changed : Bool} (h : done.result = .ok changed)
    (op : Operation) (calls : List (Transformed σ)) :
    leftBy op (done :: calls) = leftBy done.op calls := by
  have hok : done.result.isOk = true := by
    rw [h]
    rfl
  simp only [leftBy, List.takeWhile_cons, hok, if_true, List.map_cons, List.getLastD_cons]

theorem leftBy_cons_error {done : Transformed σ} {error : Error} (h : done.result = .error error)
    (op : Operation) (calls : List (Transformed σ)) : leftBy op (done :: calls) = op := by
  have hfails : done.result.isOk = false := by
    rw [h]
    rfl
  simp only [leftBy, List.takeWhile_cons, hfails, Bool.false_eq_true, if_false, List.map_nil,
    List.getLastD_nil]

/-- The passes of a pipeline do in a row what they do one by one. -/
theorem runReady_eq_calls
    (hstandard : ∀ name pass, registry.create? name = some pass → PassManager.IsStandard pass)
    (hllvm : context.registry.get? "llvm" = some .llvm)
    (hnames : ∀ name ∈ names, (registry.create? name).isSome) (printing : Bool)
    {readied : List (ReadyPass σ)}
    (hreadied : List.Forall₂ (PassManager.Stands context) (names.filterMap registry.create?) readied)
    (hop : context.Foresees op) (hs : context.Loads space.context)
    (hs' : context.Loads space'.context) (changed : Bool) :
    (PassManager.runReady printing readied changed op space).result
        = (together (calls registry printing names op space')).map (changed || ·)
      ∧ (PassManager.runReady printing readied changed op space).op
        = leftBy op (calls registry printing names op space') := by
  -- The contexts may differ, but both come from the given one by loading, and that is all the
  -- passes depend on.
  induction names generalizing readied changed op space space' with
  | nil =>
      cases hreadied
      exact ⟨congrArg Except.ok (Bool.or_false changed).symm, rfl⟩
  | cons name names ih =>
      obtain ⟨hname, hrest⟩ := List.forall_mem_cons.1 hnames
      obtain ⟨pass, hpass⟩ := Option.isSome_iff_exists.1 hname
      rw [List.filterMap_cons_some hpass] at hreadied
      obtain ⟨ready, rest, hready, hrests, rfl⟩ := List.forall₂_cons_left_iff.1 hreadied
      obtain ⟨single, start, hsingle, hstart, hcall⟩ := exists_transform hstandard hllvm
        (List.forall_mem_singleton.2 hname) printing op hs'
      rw [List.filterMap_cons_some hpass] at hsingle
      obtain ⟨ready', _, hready', hnil, rfl⟩ := List.forall₂_cons_left_iff.1 hsingle
      cases hnil
      obtain ⟨after, hrun, hafter⟩ := hready.exists_runPass printing op hs space.memory
      obtain ⟨after', hrun', hafter'⟩ := hready'.exists_runPass printing op hstart space.memory
      rw [hready.outcome_eq hready' hop] at hrun'
      rw [PassManager.runReady, hrun'] at hcall
      rw [calls, PassManager.runReady, hrun]
      cases houtcome : ready.outcome context space.memory op with
      | error error =>
          rw [houtcome] at hcall
          have hfails : (transform ⟨[name]⟩ registry printing op space').result
            = .error error := by rw [hcall]
          rw [together_cons_error hfails, leftBy_cons_error hfails]
          exact ⟨rfl, rfl⟩
      | ok out =>
          obtain ⟨changedNow, op'⟩ := out
          rw [houtcome] at hcall
          dsimp only at hcall ⊢
          rw [PassManager.runReady, Bool.false_or] at hcall
          have hok : (transform ⟨[name]⟩ registry printing op space').result
            = .ok changedNow := by rw [hcall]
          rw [together_cons_ok hok, leftBy_cons_ok hok, hcall]
          obtain ⟨hresult, hleft⟩ := ih hrest hrests (hready.foresees hop houtcome) hafter hafter'
            (changed || changedNow)
          refine ⟨hresult.trans ?_, hleft⟩
          cases together (calls registry printing names op' after') with
          | error error => rfl
          | ok changes => exact congrArg Except.ok (Bool.or_assoc changed changedNow changes)

end Pipeline

open Pipeline

/-- **Pipelines are compositional.** On a module that was read where the dialects of the library are
available, a pipeline of passes of the library ends as the calls of the single passes do, one after
the other, and leaves the module that they leave up to the first that fails. A pipeline with an
unknown name, wherever it stands, is an error and leaves the module as it was, whatever passes there
are. -/
theorem transform_eq_calls {source : String} {before after : Context} {m : Operation}
    (hregistry : before.registry = .standard) (hparse : parse source before = (.ok m, after))
    (names : List String) (printing : Bool) (memory : σ) :
    ((∀ name ∈ names,
      ((PassRegistry.standard Dialect.standardSimplifications).create? name : Option (Pass σ)).isSome) →
      let whole := transform ⟨names⟩ (PassRegistry.standard Dialect.standardSimplifications)
          printing m ⟨after, memory⟩
      let singles := calls (PassRegistry.standard Dialect.standardSimplifications) printing names m
          ⟨after, memory⟩
      whole.result = together singles ∧ whole.op = leftBy m singles)
    ∧ ∀ (registry : PassRegistry σ) (op : Operation) (space : Workspace σ),
      (∃ name ∈ names, registry.create? name = none) →
      (∃ name ∈ names, registry.create? name = none
        ∧ (transform ⟨names⟩ registry printing op space).result = .error (.unknownPass name))
      ∧ (transform ⟨names⟩ registry printing op space).op = op := by
  obtain ⟨hloads, hheads⟩ := met_of_parse hparse
  have hllvm : after.registry.get? "llvm" = some .llvm := by
    rw [hloads.registry, hregistry]
    decide +kernel
  have hop : after.Foresees m := by
    by_cases hmet : after.Met "arith"
    · exact .inl hmet
    · refine .inr fun head hhead hdialect => ?_
      rcases hheads head hhead with hname | hother
      · rw [hname] at hdialect
        exact absurd hdialect (by decide +kernel)
      · exact hmet (hdialect ▸ hother)
  refine ⟨fun hnames => ?_, fun registry op space hunknown => ?_⟩
  · have hspace : after.Loads (Workspace.mk after memory).context := .refl after
    obtain ⟨readied, start, hreadied, hstart, hwhole⟩ :=
      exists_transform (fun _ _ => PassManager.isStandard_of_create?) hllvm hnames printing m hspace
    obtain ⟨hresult, hleft⟩ := runReady_eq_calls (fun _ _ => PassManager.isStandard_of_create?)
      hllvm hnames printing hreadied hop hstart hspace false
    dsimp only
    rw [hwhole, hresult, hleft]
    refine ⟨?_, rfl⟩
    cases together (calls _ printing names m ⟨after, memory⟩) with
    | error error => rfl
    | ok changed => rfl
  · obtain ⟨name, hmem, hname, hmanager⟩ := exists_manager_of_unknown hunknown { printing }
    rw [transform, hmanager]
    exact ⟨⟨name, hmem, hname, rfl⟩, rfl⟩

/-- The difference of a value and itself is folded, lowered, and looked at once more; and nothing is
done about it where a last pass is unknown. -/
theorem transform_eq_calls_difference : ∃ (m : Operation) (after : Context),
    parse "%a = test : i8\n%b = arith.subi %a, %a : i4\ntest %b"
        { Context.ofRegistry .standard with allowsUnregistered := true } = (.ok m, after)
      ∧ (let names := ["canonicalize", "convert-arith-to-llvm", "canonicalize"]
        let whole := transform ⟨names⟩ (PassRegistry.standard Dialect.standardSimplifications) false
            m (Workspace.mk after ())
        let singles := calls (PassRegistry.standard Dialect.standardSimplifications) false names m
            (Workspace.mk after ())
        whole.result = together singles ∧ whole.op = leftBy m singles)
      ∧ (transform ⟨["canonicalize", "convert-arith-to-llvm", "canonicalise"]⟩
        (PassRegistry.standard Dialect.standardSimplifications) false m (Workspace.mk after ())).op
          = m := by
  have hknown : ∀ name ∈ ["canonicalize", "convert-arith-to-llvm", "canonicalize"],
      ((PassRegistry.standard Dialect.standardSimplifications).create? name : Option
        (Pass Unit)).isSome := by decide +kernel
  have hunknown : ((PassRegistry.standard Dialect.standardSimplifications).create?
    "canonicalise" : Option (Pass Unit)) = none :=
    Option.isNone_iff_eq_none.1 (by decide +kernel)
  refine exists_ok_and (by decide +kernel) fun m after hparse =>
    ⟨(transform_eq_calls rfl hparse _ false ()).1 hknown, ?_⟩
  exact ((transform_eq_calls rfl hparse _ false ()).2 _ m _ ⟨"canonicalise", by decide, hunknown⟩).2

end DialectIR
