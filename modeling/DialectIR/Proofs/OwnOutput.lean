import DialectIR.Proofs.Passes
import DialectIR.Proofs.Presentable

/-! The library reads its own output: whatever passes are run on a module that was read, the printed
result is read back. -/

namespace DialectIR

open Operation Greedy Arith

variable {σ : Type} {context : Context}

/-- A pass that is ready leaves presentable modules so, and changes no answer of the context. -/
def ReadyPass.Tame (context : Context) (ready : ReadyPass σ) : Prop :=
  ∀ (op : Operation) (space : Workspace σ), Presentable context op →
    context.SameDialects space.context → Ensures (ready.pass.run ready.patterns op) space
      (fun out after => Presentable context out.2 ∧ context.SameDialects after.context)
        fun _ _ => True

/-- The context accepts the operations that the passes of the library make. -/
def Context.AcceptsMade (context : Context) : Prop :=
  context.Accepts "arith.constant" ∧ ∀ name ∈ Lowering.names, context.Accepts name

namespace PassManager

theorem tame_canonicalize {patterns : FrozenPatterns σ}
    (hpatterns : patterns.patterns ⊆ simplifications) (haccepts : context.AcceptsMade)
    (sources : Dialect → List (PatternSource σ)) :
    ReadyPass.Tame context ⟨.canonicalize sources, patterns⟩ := by
  intro op space hop hsame
  apply ensures_applyPatterns_leaves
  rintro _ outcome rfl hresult
  refine ⟨?_, hsame.trans (sameDialects_applyGreedily hresult)⟩
  have hrewrite : Ensures (rewrite patterns {} op)
    { context := space.context, memory := space.memory, names := namesFor op } _ _ :=
    ensures_rewrite_presentable hpatterns {} space.memory hop haccepts.1
  rcases applyGreedily_cases (Presentable context) hrewrite with ⟨_, _, hpresentable⟩
    | ⟨error, herror, -, -⟩
  · exact hpresentable
  · rw [herror] at hresult
    cases hresult

theorem tame_lowering (haccepts : context.AcceptsMade) :
    ReadyPass.Tame (σ := σ) context
      ⟨.convertArithToLLVM, (PatternSet.mk Lowering.patterns).freeze⟩ := by
  intro op space hop hsame
  apply ensures_applyPatterns_leaves
  rintro _ outcome rfl hresult
  refine ⟨?_, hsame.trans (sameDialects_applyGreedily hresult)⟩
  obtain ⟨_, _, hended⟩ := Lowering.applyGreedily_lowered op space.context space.memory
  rw [hended.op]
  exact (Lowering.presentable_lowerNested hop haccepts.2).removeDeadOps space.context

/-- The passes of the library. -/
def IsStandard (pass : Pass σ) : Prop :=
  pass = .canonicalize Dialect.standardSimplifications ∨ pass = .convertArithToLLVM

theorem exists_patterns (dialects : List Dialect) :
    ∃ patterns : List (Pattern σ), patterns ⊆ simplifications
    ∧ dialects.flatMap Dialect.standardSimplifications = patterns.map Pattern.source := by
  induction dialects with
  | nil => exact ⟨[], List.nil_subset _, rfl⟩
  | cons dialect dialects ih =>
      obtain ⟨patterns, hpatterns, hsources⟩ := ih
      rw [List.flatMap_cons, Dialect.standardSimplifications, hsources]
      split
      · refine ⟨simplifications ++ patterns,
          List.append_subset.2 ⟨List.Subset.refl _, hpatterns⟩, ?_⟩
        rw [List.map_append]
      · exact ⟨patterns, hpatterns, rfl⟩

/-- The simplifications of the loaded dialects are ready as they are. -/
theorem returns_prepareCanonicalize {space : Workspace σ} {patterns : List (Pattern σ)}
    (h : (space.context.loaded.entries.map fun entry => entry.2.dialect).flatMap
      Dialect.standardSimplifications
      = patterns.map Pattern.source) :
    Returns (preparePass (.canonicalize Dialect.standardSimplifications)) space
      ⟨.canonicalize Dialect.standardSimplifications, (PatternSet.mk patterns).freeze⟩
      { space with context := space.context.note (.collected (PatternSet.mk patterns).freeze.size) } := by
  have hrun := run_ofSources space.context patterns space.memory
  rw [← h] at hrun
  exact congrArg (fun made : FrozenPatterns σ × σ =>
    ((.ok ⟨_, made.1⟩, ⟨space.context.note (.collected made.1.size), made.2⟩) : Except Error
      (ReadyPass σ) × Workspace σ)) hrun

/-- The passes of the library need one dialect at most. -/
theorem holds_dependencies {registry : Registry} {passes : List (Pass σ)}
    (hpasses : ∀ pass ∈ passes, IsStandard pass) (hllvm : registry.get? "llvm" = some .llvm) :
    registry.Holds (passes.flatMap (·.dependencies)) := by
  intro dialect hdialect
  obtain ⟨pass, hpass, hdialect⟩ := List.mem_flatMap.1 hdialect
  rcases hpasses pass hpass with rfl | rfl
  · cases hdialect
  · rw [List.mem_singleton.1 hdialect]
    exact hllvm

/-- Passes of the library get ready, whatever dialects are loaded. -/
theorem exists_preparePass (haccepts : context.AcceptsMade) {pass : Pass σ}
    (hpass : IsStandard pass) (space : Workspace σ) :
    ∃ ready after, Returns (preparePass pass) space ready after ∧ ready.Tame context
      ∧ space.context.SameDialects after.context := by
  rcases hpass with rfl | rfl
  · obtain ⟨patterns, hpatterns, hsources⟩ :=
      exists_patterns (σ := σ) (space.context.loaded.entries.map fun entry => entry.2.dialect)
    have hfrozen : (PatternSet.mk patterns).freeze.patterns ⊆ simplifications :=
      fun pattern hpattern => hpatterns (List.mem_mergeSort.1 hpattern)
    have htame := tame_canonicalize hfrozen haccepts Dialect.standardSimplifications
    have hsame := sameDialects_note space.context (.collected (PatternSet.mk patterns).freeze.size)
    exact ⟨_, _, returns_prepareCanonicalize hsources, htame, hsame⟩
  · exact ⟨_, space, returns_preparePass .., tame_lowering haccepts, .refl _⟩

theorem exists_prepareAll (haccepts : context.AcceptsMade) {passes : List (Pass σ)}
    (hpasses : ∀ pass ∈ passes, IsStandard pass) (space : Workspace σ) :
    ∃ ready after, Returns (prepareAll passes) space ready after
      ∧ (∀ pass ∈ ready, pass.Tame context)
      ∧ space.context.SameDialects after.context := by
  induction passes generalizing space with
  | nil => exact ⟨[], space, Returns.pure_iff.2 ⟨rfl, rfl⟩, nofun, .refl _⟩
  | cons pass passes ih =>
      obtain ⟨hpass, hrest⟩ := List.forall_mem_cons.1 hpasses
      obtain ⟨first, between, hfirst, htame, hsame⟩ := exists_preparePass haccepts hpass space
      obtain ⟨rest, after, hreturns, htames, hsame'⟩ := ih hrest between
      refine ⟨first :: rest, after, ?_, List.forall_mem_cons.2 ⟨htame, htames⟩, hsame.trans hsame'⟩
      exact Returns.bind_iff.2
        ⟨_, _, hfirst, Returns.bind_iff.2 ⟨_, _, hreturns, Returns.pure_iff.2 ⟨rfl, rfl⟩⟩⟩

theorem ensures_runPass_tame (printing : Bool) {ready : ReadyPass σ} (htame : ready.Tame context)
    {op : Operation} {space : Workspace σ} (hop : Presentable context op)
    (hsame : context.SameDialects space.context) :
    Ensures (runPass printing ready op) space
      (fun out after => Presentable context out.2 ∧ context.SameDialects after.context)
        fun _ _ => True :=
  ensures_runPass fun _ hnoted => (htame op _ hop (hsame.trans hnoted.dialects)).weaken
    fun _ _ _ => trivial

/-- What every pass keeps, a run of passes keeps that succeeds. -/
theorem presentable_of_runReady {printing : Bool} {ready : List (ReadyPass σ)}
    (htame : ∀ pass ∈ ready, pass.Tame context) {before changed : Bool} {op : Operation}
    {space : Workspace σ} (hop : Presentable context op)
    (hsame : context.SameDialects space.context)
    (h : (runReady printing ready before op space).result = .ok changed) :
    Presentable context (runReady printing ready before op space).op
      ∧ context.SameDialects (runReady printing ready before op space).space.context := by
  induction ready generalizing before op space with
  | nil => exact ⟨hop, hsame⟩
  | cons pass ready ih =>
      obtain ⟨hpass, hrest⟩ := List.forall_mem_cons.1 htame
      have hrun := ensures_runPass_tame printing hpass hop hsame
      unfold Ensures runFrom at hrun
      rw [runReady] at h ⊢
      split at h
      next => cases h
      next changed op' after heq =>
        rw [heq] at hrun
        exact ih hrest hrun.1 hrun.2 h

/-! ### Pipelines -/

theorem isStandard_of_create? {name : String} {pass : Pass σ}
    (h : (PassRegistry.standard Dialect.standardSimplifications).create? name = some pass) :
    IsStandard pass := by
  unfold PassRegistry.create? PassRegistry.standard PassRegistry.register at h
  rw [Dict.get?_insert, Dict.get?_insert, Dict.get?_empty] at h
  split_ifs at h
  · cases h
    exact .inr rfl
  · cases h
    exact .inl rfl
  · cases h

theorem standard_of_manager {names : List String} {soFar manager : PassManager σ}
    (hpasses : ∀ pass ∈ soFar.passes, IsStandard pass) (hready : soFar.ready = none)
    (h : Pipeline.manager (PassRegistry.standard Dialect.standardSimplifications) names soFar
      = .ok manager) :
    (∀ pass ∈ manager.passes, IsStandard pass) ∧ manager.ready = none := by
  induction names generalizing soFar with
  | nil =>
      rw [Pipeline.manager] at h
      cases h
      exact ⟨hpasses, hready⟩
  | cons name names ih =>
      rw [Pipeline.manager] at h
      split at h
      next pass hcreate =>
        refine ih (List.forall_mem_append.2 ⟨hpasses, ?_⟩) rfl h
        exact List.forall_mem_singleton.2 (isStandard_of_create? hcreate)
      next => cases h

end PassManager

/-- Whatever passes are run on a presentable module where their dialects are available, the result
is presentable. -/
theorem presentable_of_transform {names : List String} {printing changed : Bool} {op : Operation}
    {space : Workspace σ} {done : Transformed σ} (haccepts : context.AcceptsMade)
    (hllvm : space.context.registry.get? "llvm" = some .llvm) (hop : Presentable context op)
    (hsame : context.SameDialects space.context)
    (hdone : Pipeline.transform ⟨names⟩ (PassRegistry.standard Dialect.standardSimplifications)
      printing op space = done)
    (h : done.result = .ok changed) :
    Presentable context done.op ∧ context.SameDialects done.space.context := by
  unfold Pipeline.transform at hdone
  split at hdone
  next =>
    subst hdone
    cases h
  next manager hmanager =>
    obtain ⟨hpasses, hready⟩ := @PassManager.standard_of_manager σ names { printing } manager
      nofun rfl hmanager
    have hload := PassManager.returns_loadDependencies
      (PassManager.holds_dependencies hpasses hllvm)
    generalize (Registry.empty.insertAll _).1.names = loaded at hload
    obtain ⟨ready, after, hprepare, htame, hafter⟩ := PassManager.exists_prepareAll haccepts hpasses
      { space with context := space.context.loadEach loaded }
    have hprepared : Returns manager.prepare space ready after :=
      Returns.bind_iff.2 ⟨_, _, hload, hprepare⟩
    have hcontext := hsame.trans ((space.context.sameDialects_loadEach loaded).trans hafter)
    rw [PassManager.run_of_returns hready hprepared] at hdone
    subst hdone
    exact PassManager.presentable_of_runReady htame hop hcontext h

/-- **The library reads its own output.** A module that was read from a text without floating point
literals, where the dialects of the library are available, is read back from its text after any
passes of the library that succeed. (A text in memory has less than `2 ^ 64` characters.) -/
theorem parse_transform {source : String} {m : Operation} {names : List String}
    {allowsUnregistered printing changed : Bool} {after : Context} (memory : σ)
    {done : Transformed σ} (hlength : source.length ≤ 2 ^ 64)
    (hfloat : ∀ tokens, Token.scan source = .ok tokens → ∀ token ∈ tokens, token.kind ≠ .float)
    (hparse : parse source { Context.ofRegistry .standard with allowsUnregistered }
      = (.ok m, after))
    (hdone : Pipeline.transform ⟨names⟩ (PassRegistry.standard Dialect.standardSimplifications)
      printing m ⟨after, memory⟩ = done)
    (h : done.result = .ok changed) : (parse done.op.text done.space.context).1 = .ok done.op := by
  have haccepts : ∀ name ∈ (("builtin.module" : OpName) :: "arith.constant" :: Lowering.names),
      ({ Context.ofRegistry .standard with allowsUnregistered } : Context).Accepts name := by
    cases allowsUnregistered <;> decide +kernel
  obtain ⟨hmodule, hmade⟩ := List.forall_mem_cons.1 haccepts
  obtain ⟨hm, hloads⟩ := presentable_of_parse hlength hfloat hmodule hparse
  have hllvm : after.registry.get? "llvm" = some .llvm := by
    rw [hloads.registry]
    show (Registry.standard).get? "llvm" = some .llvm
    decide +kernel
  obtain ⟨hpresentable, hsame⟩ := presentable_of_transform (List.forall_mem_cons.1 hmade) hllvm hm
    hloads.dialects hdone h
  exact (hpresentable.congr hsame).parse

/-- The difference of a value and itself, of another type than the value, is folded and lowered. -/
theorem parse_transform_difference : ∃ (m : Operation) (after : Context) (done : Transformed Unit),
    parse "%a = test : i8\n%b = arith.subi %a, %a : i4\ntest %b"
        { Context.ofRegistry .standard with allowsUnregistered := true } = (.ok m, after)
      ∧ Pipeline.transform ⟨["canonicalize", "convert-arith-to-llvm"]⟩
        (PassRegistry.standard Dialect.standardSimplifications) false m ⟨after, ()⟩ = done
      ∧ done.result = .ok true
      ∧ done.op.text
        = "module \x7b\n  %a = test : i8\n  %0 = llvm.mlir.constant \x7bvalue = 0 : i4\x7d : i4\n  test %0\n\x7d"
      ∧ (parse done.op.text done.space.context).1 = .ok done.op := by
  let source := "%a = test : i8\n%b = arith.subi %a, %a : i4\ntest %b"
  let a : Value := ⟨"a", .int 8⟩
  let b : Value := ⟨"b", .int 4⟩
  let m := Operation.module
    [{ name := "test", results := [a] },
      { name := "arith.subi", operands := [a, a], results := [b] },
      { name := "test", operands := [b] }]
  let context : Context := { Context.ofRegistry .standard with allowsUnregistered := true }
  let after := (parse source context).2
  let loaded := after.loadEach ["llvm"]
  let space : Workspace Unit := ⟨loaded.note (.collected 6), ()⟩
  let done := PassManager.runReady false
    [⟨.canonicalize Dialect.standardSimplifications, ⟨simplifications⟩⟩,
    ⟨.convertArithToLLVM, ⟨Lowering.patterns⟩⟩] false m space
  have hparse : (parse source context).1.toOption = some m := by decide +kernel
  have hdialects : loaded.loaded.entries.map (fun entry => entry.2.dialect) = [.arith, .llvm] := by
    decide +kernel
  have hresult : done.result.toOption = some true := by decide +kernel
  have htext : done.op.text
    = "module \x7b\n  %a = test : i8\n  %0 = llvm.mlir.constant \x7bvalue = 0 : i4\x7d : i4\n  test %0\n\x7d" := by
    decide +kernel
  have hfloat : ((Token.scan source).toOption.all fun tokens => tokens.all fun token =>
    token.kind ≠ .float) = true := by
    decide +kernel
  have hread : parse source context = (.ok m, after) := Prod.ext (eq_ok_of_toOption hparse) rfl
  have hok : done.result = .ok true := eq_ok_of_toOption hresult
  have hcanonicalize : Returns
    (PassManager.preparePass (.canonicalize Dialect.standardSimplifications))
      (Workspace.mk loaded ())
      ⟨.canonicalize Dialect.standardSimplifications, ⟨simplifications⟩⟩ space := by
    have hsources : (loaded.loaded.entries.map fun entry => entry.2.dialect).flatMap
      Dialect.standardSimplifications
        = (simplifications (σ := Unit)).map Pattern.source := by
      rw [hdialects]
      rfl
    have hprepare := @PassManager.returns_prepareCanonicalize Unit ⟨loaded, ()⟩
      simplifications hsources
    rw [freeze_simplifications] at hprepare
    exact hprepare
  have hlowering : Returns (PassManager.preparePass .convertArithToLLVM) space
    ⟨.convertArithToLLVM, ⟨Lowering.patterns⟩⟩ space := by
    rw [← Lowering.freeze_patterns]
    exact PassManager.returns_preparePass ..
  have hholds : after.registry.Holds [.llvm] := List.forall_mem_singleton.2 (by decide +kernel)
  have hload : Returns
    (PassManager.loadDependencies [.canonicalize Dialect.standardSimplifications, .convertArithToLLVM])
      (Workspace.mk after ()) ⟨⟩ ⟨loaded, ()⟩ := PassManager.returns_loadDependencies hholds
  have hprepare : Returns
    (PassManager.prepare
      ((({} : PassManager Unit).add (.canonicalize Dialect.standardSimplifications)).add
      .convertArithToLLVM)) ⟨after, ()⟩
        [⟨.canonicalize Dialect.standardSimplifications, ⟨simplifications⟩⟩,
        ⟨.convertArithToLLVM, ⟨Lowering.patterns⟩⟩] space := by
    refine Returns.bind_iff.2 ⟨⟨⟩, _, hload, Returns.bind_iff.2 ⟨_, _, hcanonicalize, ?_⟩⟩
    refine Returns.bind_iff.2 ⟨_, _, ?_, Returns.pure_iff.2 ⟨rfl, rfl⟩⟩
    exact Returns.bind_iff.2 ⟨_, _, hlowering, Returns.pure_iff.2 ⟨rfl, rfl⟩⟩
  have hdone : Pipeline.transform ⟨["canonicalize", "convert-arith-to-llvm"]⟩
      (PassRegistry.standard Dialect.standardSimplifications) false m ⟨after, ()⟩ = done :=
    PassManager.run_of_returns rfl hprepare m
  refine ⟨m, after, done, hread, hdone, hok, htext,
    parse_transform () (by decide +kernel) ?_ hread hdone hok⟩
  intro tokens hscan token htoken
  rw [hscan] at hfloat
  exact of_decide_eq_true (List.all_eq_true.1 hfloat token htoken)

end DialectIR
