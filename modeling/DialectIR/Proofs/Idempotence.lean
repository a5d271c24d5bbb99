import DialectIR.Proofs.Composition
import DialectIR.Proofs.Orderly

/-! Idempotence. Canonicalization leaves nothing to do for the simplifications that it was run with,
and these are those of the loaded dialects. Where a run loads arithmetic itself, by asking which
dead operations are pure, its simplifications come with the next run only. -/

namespace DialectIR

open Operation Greedy

variable {σ α : Type} {context other : Context} {op root : Operation}

/-- What simplifications rely on: the rules of scoping and typing, and fewer values than there are
fresh names. -/
structure Operation.Regular (op : Operation) : Prop where
  verify : op.verify = .ok ()
  typed : op.WellTyped
  count : op.definedNames.length + op.heads.length ≤ 2 ^ 64

/-- Removing dead operations leaves a tree regular. -/
theorem Operation.Regular.removeDeadOps (h : op.Regular) (context : Context) :
    (op.removeDeadOps context).op.Regular := by
  obtain ⟨huses, hnodup⟩ := verify_eq_ok_iff.1 h.verify
  have hheads := heads_removeDeadOps context op
  have hnames : (op.removeDeadOps context).op.definedNames.Sublist op.definedNames :=
    hheads.flatMap Head.resultNames
  have hscoped : (op.removeDeadOps context).op.Scoped [] :=
    (removeDeadOps_induction (P := (·.Scoped [])) context (fun _ _ _ hop => scoped_prune hop) huses).1
  refine ⟨verify_eq_ok_iff.2 ⟨hscoped, hnodup.sublist hnames⟩,
    fun operand hoperand result hresult => ?_, ?_⟩
  · exact h.typed operand ((hheads.flatMap _).subset hoperand) result
      ((hheads.flatMap _).subset hresult)
  · exact (Nat.add_le_add hnames.length_le hheads.length_le).trans h.count

theorem Dict.flatMap_entries {α β : Type} {map : Dict α} {key : String} {f : String × α → List β}
    (hothers : ∀ entry ∈ map.entries, entry.1 ≠ key → f entry = []) :
    map.entries.flatMap f = match map.get? key with
      | some value => f (key, value)
      | none => [] := by
  obtain ⟨entries, hsorted⟩ := map
  simp only [get?] at hothers ⊢
  induction entries with
  | nil => rfl
  | cons entry entries ih =>
      obtain ⟨hentry, hrest⟩ := List.forall_mem_cons.1 hothers
      obtain ⟨hless, hsorted⟩ := List.pairwise_cons.1 hsorted
      rw [List.flatMap_cons, lookup_cons_eq_ite]
      by_cases hkey : key = entry.1
      · have hnone : entries.flatMap f = [] := List.flatMap_eq_nil_iff.2 fun other hother =>
          hrest other hother fun hsame => String.lt_irrefl entry.1
            (hsame.trans hkey ▸ hless other hother)
        rw [if_pos hkey, hnone, List.append_nil, hkey]
      · rw [if_neg hkey, hentry (Ne.symm hkey), List.nil_append, ih hsorted hrest]

namespace Context

/-- What is loaded is what is registered, and arithmetic is registered. -/
structure KnowsArith (context : Context) : Prop where
  sound : context.Sound
  arith : context.registry.get? "arith" = some .arith

theorem KnowsArith.of_uses (h : context.KnowsArith) (huses : context.Uses other) :
    other.KnowsArith :=
  ⟨huses.sound h.sound, huses.grows.registry h.arith⟩

theorem knowsArith_standard : (ofRegistry .standard).KnowsArith :=
  ⟨sound_ofRegistry _, by decide +kernel⟩

/-- The simplifications of the dialects that are loaded: only arithmetic has any. -/
def collected (context : Context) : List (Pattern σ) :=
  if (context.loaded? "arith").isSome then Arith.simplifications else []

theorem simplifications_eq_collected (h : context.KnowsArith) :
    context.simplifications (σ := σ) = context.collected.map Pattern.source := by
  have hothers : ∀ entry ∈ context.loaded.entries, entry.1 ≠ "arith" →
    entry.2.dialect.standardSimplifications (σ := σ) = [] := by
    refine fun entry hentry hne => if_neg fun heq => hne ?_
    have hregistered := h.sound.registered (Dict.get?_of_mem hentry)
    rw [heq] at hregistered
    exact (context.registry.named _ _ hregistered).symm
  unfold simplifications collected
  rw [List.flatMap_map, Dict.flatMap_entries hothers]
  cases hloaded : context.loaded? "arith" with
  | none =>
      have hnone : context.loaded.get? "arith" = none := hloaded
      rw [hnone]
      rfl
  | some found =>
      have hsome : context.loaded.get? "arith" = some found := hloaded
      have harith' : found.dialect = .arith :=
        Option.some.inj ((h.sound.registered hloaded).symm.trans h.arith)
      rw [hsome]
      exact if_pos harith'

/-- They have all the same benefit. -/
theorem freeze_collected (context : Context) :
    (PatternSet.mk (context.collected (σ := σ))).freeze = ⟨context.collected⟩ := by
  unfold collected
  split
  · exact Arith.freeze_simplifications
  · exact congrArg FrozenPatterns.mk List.mergeSort_nil

theorem collected_congr (h : (other.loaded? "arith").isSome = (context.loaded? "arith").isSome) :
    other.collected (σ := σ) = context.collected := by
  rw [collected, collected, h]

end Context

/-- Where nothing is left to do, nothing is done. -/
theorem applyGreedily_of_settled {patterns : FrozenPatterns σ} {config : Config} (memory : σ)
    (hremove : config.removeDeadOps = true) (hlimit : config.maxRewrites = none)
    (hiterations : 2 ≤ config.maxIterations) (h : Settled patterns context root) :
    ∃ outcome, (applyGreedily patterns config root context memory).result = .ok outcome
      ∧ outcome.changed = false
      ∧ (applyGreedily patterns config root context memory).op = root := by
  obtain ⟨hpruned, hremoved⟩ := removeDeadOps_of_alive h.alive
  obtain ⟨Known, hknown, hrests⟩ := h.rests
  have hsweep (s : State σ) (hs : s.Begins root context) : Ensures (sweep patterns config root) s
      (fun swept s' => Settles patterns context swept s' ∧ swept = root ∧ s'.rewrites = 0)
        fun _ _ => False := by
    apply (ensures_sweep_of_rests hrests hknown hs.replaced hs.erased).mono
    rintro _ s' _ ⟨rfl, h'⟩
    refine ⟨⟨h'.replaced.trans hs.replaced, h'.erased.trans hs.erased,
      hs.dialects.trans h'.dialects, ?_⟩, rfl, h'.rewrites.trans hs.rewrites⟩
    rw [hpruned]
    exact h
  obtain ⟨outcome, _, _, hresult, ⟨rfl, rfl⟩, hended⟩ | ⟨_, _, hfails⟩ := applyGreedily_of_settles
    (P := fun swept count => swept = root ∧ count = 0) memory hremove hlimit hiterations hsweep
  · refine ⟨outcome, hresult, ?_, hended.op.trans hpruned⟩
    rw [← Bool.not_eq_true, hended.changed, hremoved]
    exact fun h => h.elim (Nat.lt_irrefl 0) (Nat.lt_irrefl 0)
  · exact hfails.elim

namespace Arith

/-- Simplifications that succeed leave nothing to do for themselves. -/
theorem settled_of_simplifications (hroot : root.Regular) (memory : σ) {outcome : Greedy.Outcome}
    (hresult : (applyGreedily (FrozenPatterns.mk simplifications) {} root context memory).result
      = .ok outcome) :
    Settled (FrozenPatterns.mk (simplifications (σ := σ))) context
      (applyGreedily (FrozenPatterns.mk simplifications) {} root context memory).op := by
  have hroom := Nat.le_trans (Nat.add_le_add_left (weight_le_length root.heads) _) hroot.count
  have hswept (s : State σ) (_ : s.Begins root context) (_ : Between root
      (drawnIn ⟨simplifications⟩ {} (sweepEncounters ⟨simplifications⟩ {} root s)) s) :
      Ensures (sweep ⟨simplifications⟩ {} root) s (fun _ _ => True) fun _ _ => True :=
        .of_forall_returns fun _ _ _ => trivial
  rcases applyGreedily_of_swept {} memory hroot.verify hroot.typed hroom
    rfl rfl (by decide) hswept with
    ⟨_, swept, -, -, -, hirreducible, -, hop⟩ | ⟨error, hfails, -⟩
  · rw [hop]
    exact ⟨(hirreducible.normalForm context).irreducible.rests, alive_removeDeadOps context swept⟩
  · rw [hresult] at hfails
    cases hfails

end Arith

/-- Without patterns dead operations are removed, and that is all. -/
theorem applyGreedily_of_no_patterns (root : Operation) (context : Context) (memory : σ) :
    (∃ outcome, (applyGreedily (FrozenPatterns.mk []) {} root context memory).result = .ok outcome)
      ∧ (applyGreedily (FrozenPatterns.mk []) {} root context memory).op
        = (root.removeDeadOps context).op
      ∧ Settled (FrozenPatterns.mk ([] : List (Pattern σ))) context
        (root.removeDeadOps context).op := by
  have hrests (op : Operation) : Rests (FrozenPatterns.mk ([] : List (Pattern σ)))
    (fun _ => True) op :=
    ⟨fun _ _ => nofun, fun _ _ => trivial⟩
  have hrun : ∃ outcome, (applyGreedily (FrozenPatterns.mk []) {} root context memory).result
    = .ok outcome
      ∧ Ended context root 0 outcome
        (applyGreedily (FrozenPatterns.mk []) {} root context memory).op :=
    applyGreedily_of_rests memory rfl rfl (by decide) fun op _ => hrests op
  obtain ⟨outcome, hok, hended⟩ := hrun
  exact ⟨⟨outcome, hok⟩, hended.op,
    ⟨fun _ => True, trivial, eachNested_of_heads fun op _ => hrests op⟩,
    alive_removeDeadOps context root⟩

/-! ### Runs of the pass -/

theorem runFrom_adapt {ε ε' : Type} (program : ExceptT ε (StateM σ) α) (f : ε → ε') (before : σ) :
    runFrom (program.adapt f) before
      = ((runFrom program before).1.mapError f, (runFrom program before).2) := rfl

namespace Rewritten

variable {rewritten : Rewritten σ} {outcome : Outcome} {argument : String}

/-- What a pass leaves that applied patterns to a module. -/
def transformed (rewritten : Rewritten σ) (argument : String) (op : Operation) : Transformed σ :=
  match rewritten.result with
  | .ok outcome => ⟨.ok outcome.changed, rewritten.op, ⟨rewritten.context, rewritten.memory⟩⟩
  | .error error => ⟨.error (.inPass argument error), op, ⟨rewritten.context, rewritten.memory⟩⟩

theorem context_transformed (rewritten : Rewritten σ) (argument : String) (op : Operation) :
    (rewritten.transformed argument op).space.context = rewritten.context := by
  unfold transformed
  split
  · rfl
  · rfl

theorem result_transformed (h : rewritten.result = .ok outcome) (argument : String)
    (op : Operation) :
    (rewritten.transformed argument op).result = .ok outcome.changed := by
  rw [transformed, h]

theorem op_transformed (h : rewritten.result = .ok outcome) (argument : String) (op : Operation) :
    (rewritten.transformed argument op).op = rewritten.op := by
  rw [transformed, h]

theorem exists_of_transformed {changed : Bool}
    (h : (rewritten.transformed argument op).result = .ok changed) :
    ∃ outcome, rewritten.result = .ok outcome := by
  unfold transformed at h
  cases hresult : rewritten.result with
  | ok outcome => exact ⟨outcome, rfl⟩
  | error error =>
      rw [hresult] at h
      cases h

end Rewritten

namespace PassManager

variable {space : Workspace σ} {printing changed : Bool} {left : Transformed σ}

/-- A new manager with canonicalization as its only pass. -/
def canonicalizer (printing : Bool) : PassManager σ :=
  add { printing } (.canonicalize Dialect.standardSimplifications)

theorem uses_canonicalizer (printing : Bool) (op : Operation) (space : Workspace σ) :
    space.context.Uses ((canonicalizer printing).run op space).1.space.context := by
  have horderly : (canonicalizer (σ := σ) printing).Orderly :=
    ⟨List.forall_mem_singleton.2 (Pass.orderly_canonicalize _), nofun⟩
  exact (horderly.run op space).1

/-- A pass that applies patterns leaves what their application does where the pass was announced. -/
theorem runReady_singleton_applyPatterns {ready : ReadyPass σ} {config : Config}
    (hrun : ready.pass.run = Pass.applyPatterns config) (printing : Bool) (op : Operation)
    (space : Workspace σ) : runReady printing [ready] false op space
      = (applyGreedily ready.patterns config op (announced printing ready op space).context
        space.memory).transformed ready.pass.argument op := by
  have happly (space : Workspace σ) : runFrom (Pass.applyPatterns config ready.patterns op) space
      = runFrom (match (applyGreedily ready.patterns config op space.context space.memory).result with
        | .ok outcome =>
            return (outcome.changed,
              (applyGreedily ready.patterns config op space.context space.memory).op)
        | .error error => throw error)
        ⟨(applyGreedily ready.patterns config op space.context space.memory).context,
          (applyGreedily ready.patterns config op space.context space.memory).memory⟩ := rfl
  have hpass : (runPass printing ready op).run.run space = _ :=
    runFrom_runPass printing ready op space
  have hmemory : (announced printing ready op space).memory = space.memory := rfl
  rw [runReady, hpass, hrun, runFrom_adapt, happly, hmemory]
  generalize applyGreedily ready.patterns config op (announced printing ready op space).context
    space.memory = rewritten
  unfold Rewritten.transformed
  cases rewritten.result with
  | ok outcome => rfl
  | error error => rfl

/-- The context in which simplifications are applied: what happens is noted before. -/
def canonicalizing (printing : Bool) (op : Operation) (space : Workspace σ) : Context :=
  let ready : ReadyPass σ :=
    ⟨.canonicalize Dialect.standardSimplifications, ⟨space.context.collected⟩⟩
  (announced printing ready op { space with
    context := space.context.note (.collected ready.patterns.size) }).context

theorem loads_canonicalizing (printing : Bool) (op : Operation) (space : Workspace σ) :
    space.context.Loads (canonicalizing printing op space) :=
  ((Context.Loads.refl space.context).note _).trans (loads_announced ..)

/-- **Canonicalization applies the simplifications of the loaded dialects.** -/
theorem run_canonicalizer (hspace : space.context.KnowsArith) (printing : Bool) (op : Operation) :
    ((canonicalizer printing).run op space).1
      = (applyGreedily ⟨space.context.collected⟩ {} op (canonicalizing printing op space)
        space.memory).transformed "canonicalize" op := by
  let ready : ReadyPass σ :=
    ⟨.canonicalize Dialect.standardSimplifications, ⟨space.context.collected⟩⟩
  let collected : Workspace σ :=
    { space with context := space.context.note (.collected ready.patterns.size) }
  have hload : Returns (loadDependencies [ready.pass]) space ⟨⟩ space :=
    @returns_loadDependencies σ [ready.pass] space nofun
  have hready : Returns (preparePass ready.pass) space ready collected := by
    have hcollected := returns_prepareCanonicalize
      (Context.simplifications_eq_collected (σ := σ) hspace)
    rw [Context.freeze_collected] at hcollected
    exact hcollected
  have hprepare : Returns (PassManager.prepare (canonicalizer printing)) space [ready] collected :=
    Returns.bind_iff.2 ⟨_, _, hload,
      Returns.bind_iff.2 ⟨_, _, hready, Returns.bind_iff.2 ⟨[], _, Returns.pure_iff.2 ⟨rfl, rfl⟩,
      Returns.pure_iff.2 ⟨rfl, rfl⟩⟩⟩⟩
  have hrun : ready.pass.run = Pass.applyPatterns {} := rfl
  rw [run_of_returns rfl hprepare op]
  exact runReady_singleton_applyPatterns hrun printing op collected

/-- A run that succeeds leaves nothing to do for the simplifications that were loaded before it. -/
theorem settled_of_canonicalizer (hspace : space.context.KnowsArith) (hop : op.Regular)
    (hleft : ((canonicalizer printing).run op space).1 = left) (h : left.result = .ok changed) :
    Settled ⟨space.context.collected (σ := σ)⟩ space.context left.op
      ∧ space.context.Loads left.space.context
      ∧ (space.context.loaded? "arith" = none → left.op.Regular) := by
  have hnoted := loads_canonicalizing printing op space
  rw [run_canonicalizer hspace] at hleft
  generalize canonicalizing printing op space = noted at hnoted hleft
  have hloads :=
    hnoted.trans (loads_applyGreedily ⟨space.context.collected⟩ {} op noted space.memory)
  subst hleft
  obtain ⟨outcome, hresult⟩ := Rewritten.exists_of_transformed h
  rw [Rewritten.op_transformed hresult, Rewritten.context_transformed]
  by_cases harithmetic : (space.context.loaded? "arith").isSome
  · have hcollected : space.context.collected (σ := σ) = Arith.simplifications := if_pos harithmetic
    rw [hcollected] at hresult hloads ⊢
    refine ⟨(Arith.settled_of_simplifications hop space.memory hresult).congr hnoted.dialects.symm,
      hloads, fun hnone => ?_⟩
    rw [hnone] at harithmetic
    cases harithmetic
  · have hcollected : space.context.collected (σ := σ) = [] := if_neg harithmetic
    rw [hcollected] at hloads ⊢
    obtain ⟨-, hpruned, hsettled⟩ := applyGreedily_of_no_patterns op noted space.memory
    rw [hpruned]
    exact ⟨hsettled.congr hnoted.dialects.symm, hloads, fun _ => hop.removeDeadOps noted⟩

/-- Where nothing is left to do, a run succeeds and changes nothing. -/
theorem run_canonicalizer_of_settled (hspace : space.context.KnowsArith)
    (h : Settled ⟨space.context.collected (σ := σ)⟩ space.context op) (printing : Bool) :
    ((canonicalizer printing).run op space).1.result = .ok false
      ∧ ((canonicalizer printing).run op space).1.op = op := by
  have hnoted := (loads_canonicalizing printing op space).dialects
  rw [run_canonicalizer hspace]
  generalize canonicalizing printing op space = noted at hnoted ⊢
  have happly : ∃ outcome, (applyGreedily ⟨space.context.collected⟩ {} op noted space.memory).result
    = .ok outcome
      ∧ outcome.changed = false
      ∧ (applyGreedily ⟨space.context.collected⟩ {} op noted space.memory).op = op :=
    applyGreedily_of_settled space.memory rfl rfl (by decide) (h.congr hnoted)
  obtain ⟨outcome, hresult, hchanged, hop⟩ := happly
  rw [Rewritten.result_transformed hresult, Rewritten.op_transformed hresult, hchanged, hop]
  exact ⟨rfl, rfl⟩

/-- A run that succeeds and does not load arithmetic leaves nothing to do for another run. -/
theorem run_canonicalizer_again (hspace : space.context.KnowsArith) (hop : op.Regular)
    (hleft : ((canonicalizer printing).run op space).1 = left) (h : left.result = .ok changed)
    (hloaded : (left.space.context.loaded? "arith").isSome
      = (space.context.loaded? "arith").isSome) :
    ((canonicalizer printing).run left.op left.space).1.result = .ok false
      ∧ ((canonicalizer printing).run left.op left.space).1.op = left.op := by
  obtain ⟨hsettled, hloads, -⟩ := settled_of_canonicalizer hspace hop hleft h
  refine run_canonicalizer_of_settled (hspace.of_uses hloads.uses) ?_ printing
  rw [Context.collected_congr hloaded]
  exact hsettled.congr hloads.dialects

/-- **Canonicalization is idempotent**, unless it loads arithmetic itself: then a second run may
find something to do, but a third does not. -/
theorem idempotent_canonicalizer (hcontext : (Context.ofRegistry .standard).Uses space.context)
    {root : Operation} (hroot : root.verify = .ok ()) (htyped : root.WellTyped)
    (hcount : root.definedNames.length + root.heads.length ≤ 2 ^ 64)
    {first second third : Transformed σ}
    (hfirst : ((canonicalizer printing).run root space).1 = first)
    (hsecond : ((canonicalizer printing).run first.op first.space).1 = second)
    (hthird : ((canonicalizer printing).run second.op second.space).1 = third)
    (hok : first.result = .ok changed) :
    ((space.context.loaded? "arith").isSome ∨ first.space.context.loaded? "arith" = none →
        second.result = .ok false ∧ second.op = first.op)
      ∧ (space.context.loaded? "arith" = none → (first.space.context.loaded? "arith").isSome →
        ∀ changed', second.result = .ok changed' → third.result = .ok false
          ∧ third.op = second.op) := by
  have hspace := Context.knowsArith_standard.of_uses hcontext
  have hregular : root.Regular := ⟨hroot, htyped, hcount⟩
  obtain ⟨-, hloads, hpruned⟩ := settled_of_canonicalizer hspace hregular hfirst hok
  have hkept {context other : Context} (hloads : context.Loads other)
    (hloaded : (context.loaded? "arith").isSome) :
      (other.loaded? "arith").isSome := by
    obtain ⟨found, hfound⟩ := Option.isSome_iff_exists.1 hloaded
    rw [hloads.uses.grows.loaded hfound]
    rfl
  refine ⟨fun hstays => ?_, fun hnone hsome changed' hok' => ?_⟩
  · rw [← hsecond]
    refine run_canonicalizer_again hspace hregular hfirst hok ?_
    rcases hstays with hloaded | hnone
    · rw [hkept hloads hloaded, hloaded]
    · have hbefore : ¬ (space.context.loaded? "arith").isSome := by
        intro hloaded
        have hsome := hkept hloads hloaded
        rw [hnone] at hsome
        cases hsome
      rw [hnone, eq_false_of_ne_true hbefore]
      rfl
  · -- The first run found no simplifications, so that it left a regular tree; and the second run loads no more.
    have hspace' := hspace.of_uses hloads.uses
    have hregular' := hpruned hnone
    obtain ⟨-, hloads', -⟩ := settled_of_canonicalizer hspace' hregular' hsecond hok'
    rw [← hthird]
    refine run_canonicalizer_again hspace' hregular' hsecond hok' ?_
    rw [hkept hloads' hsome, hsome]

/-- A sum of constants, and a constant that nothing uses. -/
def sumBesideUnused : Operation :=
  let a : Value := ⟨"a", .int 8⟩
  let b : Value := ⟨"b", .int 8⟩
  .module
    [.constant a 1, { name := "arith.addi", operands := [a, a], results := [b] },
      { name := "test.sink", operands := [b] }, .constant ⟨"c", .int 8⟩ 2]

/-- Where arithmetic is not loaded, the first run only takes the unused constant away; but for that
it loads arithmetic, and the second run folds the sum. -/
theorem exists_runs_sumBesideUnused : ∃ first second : Transformed Unit,
    ((canonicalizer false).run sumBesideUnused ⟨.ofRegistry .standard, ()⟩).1 = first
      ∧ ((canonicalizer false).run first.op first.space).1 = second
      ∧ (first.result = .ok true ∧ second.result = .ok true)
      ∧ (first.op.definedNames = ["a", "b"] ∧ second.op.definedNames = ["0"])
      ∧ (first.space.context.loaded? "arith").isSome := by
  obtain ⟨first, hfirst⟩ : ∃ first,
    ((canonicalizer false).run sumBesideUnused ⟨.ofRegistry .standard, ()⟩).1 = first := ⟨_, rfl⟩
  obtain ⟨second, hsecond⟩ : ∃ second, ((canonicalizer false).run first.op first.space).1
    = second := ⟨_, rfl⟩
  have hstart : (Workspace.mk (Context.ofRegistry .standard) ()).context.KnowsArith :=
    Context.knowsArith_standard
  have hspace : first.space.context.KnowsArith :=
    hfirst ▸ hstart.of_uses (uses_canonicalizer false sumBesideUnused _)
  have hrun := run_canonicalizer hspace false first.op
  rw [hsecond, ← hfirst] at hrun
  refine ⟨first, second, hfirst, hsecond,
    ⟨eq_ok_of_toOption ?_, eq_ok_of_toOption ?_⟩, ⟨?_, ?_⟩, ?_⟩
  · rw [← hfirst]
    decide +kernel
  · rw [hrun]
    decide +kernel
  · rw [← hfirst]
    decide +kernel
  · rw [hrun]
    decide +kernel
  · rw [← hfirst]
    decide +kernel

/-- The sum is folded once and for all: in the first run if arithmetic is loaded, and in the second
if it is not. -/
theorem idempotent_canonicalizer_sum :
    (∃ first second : Transformed Unit,
      ((canonicalizer false).run sumBesideUnused
        ⟨(Context.ofRegistry .standard).load "arith", ()⟩).1 = first
        ∧ ((canonicalizer false).run first.op first.space).1 = second
        ∧ first.op.definedNames = ["0"] ∧ second.result = .ok false ∧ second.op = first.op)
    ∧ ∃ first second third : Transformed Unit,
      ((canonicalizer false).run sumBesideUnused ⟨.ofRegistry .standard, ()⟩).1 = first
        ∧ ((canonicalizer false).run first.op first.space).1 = second
        ∧ ((canonicalizer false).run second.op second.space).1 = third
        ∧ second.op.definedNames = ["0"] ∧ third.result = .ok false ∧ third.op = second.op := by
  constructor
  · let space : Workspace Unit := ⟨(Context.ofRegistry .standard).load "arith", ()⟩
    have hcontext : (Context.ofRegistry .standard).Uses space.context :=
      .use (.refl _) (.load "arith")
    have hrun := run_canonicalizer (Context.knowsArith_standard.of_uses hcontext) false
      sumBesideUnused
    obtain ⟨first, hfirst⟩ : ∃ first, ((canonicalizer false).run sumBesideUnused space).1
      = first := ⟨_, rfl⟩
    obtain ⟨second, hsecond⟩ : ∃ second, ((canonicalizer false).run first.op first.space).1
      = second := ⟨_, rfl⟩
    obtain ⟨third, hthird⟩ : ∃ third, ((canonicalizer false).run second.op second.space).1
      = third := ⟨_, rfl⟩
    rw [hfirst] at hrun
    have hok : first.result = .ok true := eq_ok_of_toOption (by rw [hrun]; decide +kernel)
    have hnames : first.op.definedNames = ["0"] := by
      rw [hrun]
      decide +kernel
    have hloaded : (space.context.loaded? "arith").isSome := by decide +kernel
    have hagain := idempotent_canonicalizer hcontext rfl (by decide +kernel) (by decide +kernel)
      hfirst hsecond hthird hok
    exact ⟨first, second, hfirst, hsecond, hnames, hagain.1 (.inl hloaded)⟩
  · obtain ⟨first, second, hfirst, hsecond, ⟨hok, hok'⟩, ⟨-, hnames⟩, hloaded⟩ :=
      exists_runs_sumBesideUnused
    obtain ⟨third, hthird⟩ : ∃ third, ((canonicalizer false).run second.op second.space).1
      = third := ⟨_, rfl⟩
    have hcontext : (Context.ofRegistry .standard).Uses
      (Workspace.mk (Context.ofRegistry .standard) ()).context := .refl _
    have hagain := idempotent_canonicalizer hcontext rfl (by decide +kernel) (by decide +kernel)
      hfirst hsecond hthird hok
    exact ⟨first, second, third, hfirst, hsecond, hthird, hnames, hagain.2 rfl hloaded true hok'⟩

/-- Two runs in a row can change a module. -/
theorem exists_changed_twice :
    ∃ (root : Operation) (first second : Transformed Unit), root.verify = .ok () ∧ root.WellTyped
    ∧ ((canonicalizer false).run root ⟨.ofRegistry .standard, ()⟩).1 = first
    ∧ ((canonicalizer false).run first.op first.space).1 = second
    ∧ first.result = .ok true ∧ second.result = .ok true ∧ second.op ≠ first.op := by
  obtain ⟨first, second, hfirst, hsecond, ⟨hok, hok'⟩, ⟨hnames, hnames'⟩, -⟩ :=
    exists_runs_sumBesideUnused
  refine ⟨sumBesideUnused, first, second, rfl, by decide +kernel, hfirst, hsecond, hok, hok',
    fun hsame => ?_⟩
  rw [hsame, hnames] at hnames'
  exact absurd hnames' (by decide)

end PassManager

end DialectIR
