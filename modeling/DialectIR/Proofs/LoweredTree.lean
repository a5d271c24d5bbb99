import DialectIR.Proofs.Passes
import DialectIR.Proofs.Stillness

/-! The lowering of arithmetic as a map of trees. One sweep over a tree lowers each operation where
it stands; the next one has nothing left to do. -/

namespace DialectIR

open Operation Greedy

namespace Lowering

variable {σ : Type}

/-- What stands for an operation of integer arithmetic, nothing for other operations. -/
def lowered? (head : Head) : Option Head :=
  if head.name = "arith.constant" then some
    { head with name := "llvm.mlir.constant", operands := [] }
  else if head.name = "arith.addi" then some { head with name := "llvm.add" }
  else if head.name = "arith.subi" then some { head with name := "llvm.sub" }
  else if head.name = "arith.muli" then some { head with name := "llvm.mul" }
  else none

mutual

/-- An operation is lowered without its region; if there is nothing to lower, the region is
lowered. -/
def lower : Operation → Operation
  | ⟨head, none⟩ => ⟨(lowered? head).getD head, none⟩
  | ⟨head, some ops⟩ =>
      match lowered? head with
      | some new => ⟨new, none⟩
      | none => ⟨head, some (lowerAll ops)⟩

/-- All operations of a list are lowered. -/
def lowerAll : List Operation → List Operation
  | [] => []
  | op :: ops => lower op :: lowerAll ops

end

/-- The operation with all that it holds lowered. -/
def lowerNested : Operation → Operation
  | ⟨head, region⟩ => ⟨head, region.map lowerAll⟩

/-- The number of operations to be lowered. -/
def countIn (heads : List Head) : Nat := heads.countP fun head => (lowered? head).isSome

theorem lower_eq (op : Operation) :
    lower op = match lowered? op.toHead with
      | some new => ⟨new, none⟩
      | none => lowerNested op := by
  obtain ⟨head, _ | ops⟩ := op
  · rw [lower]
    cases lowered? head with
    | some new => rfl
    | none => rfl
  · rw [lower]
    rfl

theorem countIn_heads (op : Operation) :
    countIn op.heads = (lowered? op.toHead).toList.length + countIn (headsOfAll op.nested) := by
  rw [heads_eq, countIn, List.countP_cons, Nat.add_comm]
  cases lowered? op.toHead with
  | some new => rfl
  | none => rfl

theorem countIn_headsOfAll (op : Operation) (ops : List Operation) :
    countIn (headsOfAll (op :: ops)) = countIn op.heads + countIn (headsOfAll ops) :=
  List.countP_append

/-- What stands for an operation has the same results. -/
theorem lowered?_results {head new : Head} (h : lowered? head = some new) :
    new.results = head.results := by
  unfold lowered? at h
  split_ifs at h <;> cases h <;> rfl

/-- What stands for an operation is not lowered once more. -/
theorem lowered?_lowered {head new : Head} (h : lowered? head = some new) :
    lowered? new = none := by
  unfold lowered? at h
  split_ifs at h <;> cases h <;> rfl

mutual

theorem lowered?_of_mem_lower : (op : Operation) → ∀ head ∈ (lower op).heads, lowered? head = none
  | ⟨head, none⟩ => by
      rw [lower]
      cases h : lowered? head with
      | some new => exact List.forall_mem_singleton.2 (lowered?_lowered h)
      | none => exact List.forall_mem_singleton.2 h
  | ⟨head, some ops⟩ => by
      rw [lower]
      cases h : lowered? head with
      | some new => exact List.forall_mem_singleton.2 (lowered?_lowered h)
      | none => exact List.forall_mem_cons.2 ⟨h, lowered?_of_mem_lowerAll ops⟩

theorem lowered?_of_mem_lowerAll :
    (ops : List Operation) → ∀ head ∈ headsOfAll (lowerAll ops), lowered? head = none
  | [] => nofun
  | op :: ops => List.forall_mem_append.2 ⟨lowered?_of_mem_lower op, lowered?_of_mem_lowerAll ops⟩

end

theorem toHead_lowerNested (op : Operation) : (lowerNested op).toHead = op.toHead := by
  obtain ⟨head, region⟩ := op
  rfl

theorem nested_lowerNested (op : Operation) : (lowerNested op).nested = lowerAll op.nested := by
  obtain ⟨head, _ | ops⟩ := op
  · rfl
  · rfl

variable {op : Operation} {definitions : Dict Operation} {within : Operation → Step σ Operation}
  {s s' : State σ}

/-- What a match records: the new operation, whose results are those of the old one. -/
def recordingOf (op : Operation) (new : Head) : Recording :=
  ⟨[⟨new, none⟩], some (.replace op.results)⟩

theorem freeze_patterns : (PatternSet.mk (patterns (σ := σ))).freeze = ⟨patterns⟩ :=
  congrArg FrozenPatterns.mk
    (List.mergeSort_of_pairwise (by simp [patterns, constantLowering, binaryLowering]))

theorem does_rename {site : Site} {draft : Draft σ} (hsite : site.op = op)
    (hrecording : draft.recording = {}) (name : OpName) (operands : List Value) :
    Attempt.Does site (do
      rename op name operands
      return true) draft fun answer _ draft =>
        answer = .ok true ∧ draft.recording = recordingOf op { op.toHead with name, operands } := by
  have hact : (draft.recording.insert ⟨{ op.toHead with name, operands }, none⟩).act op
    (.replace op.results)
      = .ok (recordingOf op { op.toHead with name, operands }) := by
    rw [hrecording, Recording.act, Action.mismatch?, if_pos rfl]
    rfl
  unfold rename Attempt.replaceWithNew
  simp only [Attempt.does_bind, Attempt.does_insert, Attempt.does_act]
  rw [hsite, hact]
  exact ⟨rfl, rfl⟩

theorem yields_constantLowering (hname : op.name = "arith.constant") {new : Head}
    (hnew : lowered? op.toHead = some new) :
    (constantLowering (σ := σ)).Yields op definitions (some (recordingOf op new)) := by
  intro site draft hsite _ hrecording
  rw [lowered?, if_pos hname] at hnew
  cases hnew
  refine (does_rename hsite hrecording "llvm.mlir.constant" []).imp_right ?_
  rintro hmade _ ⟨⟩
  exact hmade

theorem lowered?_of_ne {head : Head} (hname : head.name ≠ "arith.constant") :
    lowered? head = (binary? head.name).map fun name => { head with name } := by
  unfold lowered? binary?
  rw [if_neg hname]
  split_ifs <;> rfl

theorem yields_binaryLowering (definitions : Dict Operation) (hname : op.name ≠ "arith.constant") :
    (binaryLowering (σ := σ)).Yields op definitions
      ((lowered? op.toHead).map (recordingOf op)) := by
  intro site draft hsite _ hrecording
  rw [lowered?_of_ne hname]
  unfold binaryLowering
  dsimp only
  cases binary? op.name with
  | none => exact ⟨rfl, nofun⟩
  | some name =>
      refine (does_rename hsite hrecording name op.operands).imp_right ?_
      rintro hmade _ ⟨⟩
      exact hmade

theorem patternsFor_of_eq {name : OpName} (h : name = "arith.constant") :
    (FrozenPatterns.mk (patterns (σ := σ))).patternsFor name
      = [constantLowering, binaryLowering] := by
  rw [h]
  rfl

theorem patternsFor_of_ne {name : OpName} (h : name ≠ "arith.constant") :
    (FrozenPatterns.mk (patterns (σ := σ))).patternsFor name = [binaryLowering] := by
  have hconstant : (constantLowering (σ := σ)).appliesTo name = false := decide_eq_false (Ne.symm h)
  unfold FrozenPatterns.patternsFor patterns
  rw [List.filter_cons, hconstant]
  rfl

/-- **What the lowering does with an operation.** -/
theorem ensures_applyPatterns (depth : Nat) (op : Operation) (s : State σ) :
    Ensures (applyPatterns ⟨patterns⟩ {} depth op) s
      (fun made? s' => made? = (lowered? op.toHead).map (recordingOf op)
      ∧ s.Advances (lowered? op.toHead).toList.length s') fun _ _ => False := by
  cases hnew : lowered? op.toHead with
  | some new =>
      by_cases hname : op.name = "arith.constant"
      · exact ensures_applyPatterns_of_first depth rfl (patternsFor_of_eq hname)
          (yields_constantLowering hname hnew) rfl
      · have hyields := yields_binaryLowering (σ := σ) s.definitions hname
        rw [hnew] at hyields
        exact ensures_applyPatterns_of_first depth rfl (patternsFor_of_ne hname) hyields rfl
  | none =>
      have hname : op.name ≠ "arith.constant" := by
        intro hname
        rw [lowered?, if_pos hname] at hnew
        cases hnew
      have hyields := yields_binaryLowering (σ := σ) s.definitions hname
      rw [hnew] at hyields
      apply (ensures_applyPatterns_of_none depth ?_).mono
      · rintro made? s' _ ⟨rfl, -, hadvances⟩
        exact ⟨rfl, hadvances⟩
      · rw [patternsFor_of_ne hname]
        exact List.forall_mem_singleton.2 hyields

/-- Results that keep their names leave nothing to be replaced. -/
theorem replace_self (s : State σ) (results : List Value) : s.replace results results = s := by
  have hzip : results.zip results = results.map fun result => (result, result) := by
    have hmap : (results.map id).zip (results.map id) = results.map fun result =>
      (id result, id result) := List.zip_map'
    rwa [List.map_id] at hmap
  have hnone : ((results.zip results).filter fun pair => pair.1.name ≠ pair.2.name) = [] := by
    refine List.filter_eq_nil_iff.2 fun pair hpair => ?_
    rw [hzip] at hpair
    obtain ⟨result, -, rfl⟩ := List.mem_map.1 hpair
    simp
  unfold State.replace State.forget
  rw [hnone]
  rfl

/-- An operation that was matched makes way for the new one. -/
theorem ensures_commit (op : Operation) (s : State σ) :
    Ensures (commit {} within op (((lowered? op.toHead).map (recordingOf op)).getD {})) s
      (fun out s' => out = (match lowered? op.toHead with
        | some new => [⟨new, none⟩]
        | none => [op]) ∧ s.Advances 0 s') fun _ _ => False := by
  unfold commit
  rw [Ensures.modify_bind_iff]
  cases hnew : lowered? op.toHead with
  | some new =>
      show Ensures (pure [(⟨new, none⟩ : Operation)])
        (State.replace (s.register ⟨new, none⟩) op.results op.results) _ _
      rw [replace_self]
      exact ⟨rfl, s.advances_register [⟨new, none⟩]⟩
  | none => exact ⟨rfl, s.advances_register [op]⟩

/-- Visiting what an operation holds, through a number of levels, lowers it and counts what it
lowers. -/
def LowersWithin (levels : Nat) (within : Operation → Step σ Operation) : Prop :=
  ∀ (op : Operation) (s : State σ), op.height ≤ levels → s.replaced = .empty →
    Ensures (within op) s (fun op' s' => op' = lowerNested op
      ∧ s.Advances (countIn (headsOfAll op.nested)) s') fun _ _ => False

theorem ensures_visit {levels : Nat} (hwithin : LowersWithin levels within) (depth : Nat)
    (hheight : op.height ≤ levels) (hreplaced : s.replaced = .empty) :
    Ensures (visit ⟨patterns⟩ {} within depth op) s
      (fun out s' => out = [lower op] ∧ s.Advances (countIn op.heads) s') fun _ _ => False := by
  rw [visit_eq]
  apply (ensures_substitute_of_empty hreplaced _).bind
  rintro op s _ ⟨rfl, rfl⟩
  apply (hwithin op s hheight hreplaced).bind
  rintro _ s₁ _ ⟨rfl, h₁⟩
  have hhead := toHead_lowerNested op
  apply (ensures_applyPatterns depth (lowerNested op) s₁).bind
  rintro _ s₂ _ ⟨rfl, h₂⟩
  apply (ensures_commit (lowerNested op) s₂).mono
  rintro _ s₃ _ ⟨rfl, h₃⟩
  have hadvances := h₁.trans (h₂.trans h₃)
  rw [hhead, Nat.add_zero, Nat.add_comm, ← countIn_heads] at hadvances
  refine ⟨?_, hadvances⟩
  rw [lower_eq, hhead]
  cases lowered? op.toHead with
  | some new => rfl
  | none => rfl

theorem ensures_visitAll {levels : Nat} (hwithin : LowersWithin levels within) (depth : Nat)
    {ops : List Operation} (hheight : heightOfAll ops ≤ levels) (hreplaced : s.replaced = .empty) :
    Ensures (visitAll ⟨patterns⟩ {} within depth ops) s
      (fun out s' => out = lowerAll ops ∧ s.Advances (countIn (headsOfAll ops)) s')
        fun _ _ => False := by
  induction ops generalizing s with
  | nil => exact ⟨rfl, .refl s⟩
  | cons op ops ih =>
      obtain ⟨hfirst, hrest⟩ := Nat.max_le.1 hheight
      apply (ensures_visit hwithin depth hfirst hreplaced).bind
      rintro _ s₁ _ ⟨rfl, h₁⟩
      apply (ih hrest (h₁.replaced.trans hreplaced)).bind
      rintro _ s₂ _ ⟨rfl, h₂⟩
      rw [countIn_headsOfAll]
      exact ⟨rfl, h₁.trans h₂⟩

theorem lowersWithin_visitRegion (levels depth : Nat) :
    LowersWithin (σ := σ) levels (visitRegion ⟨patterns⟩ {} levels depth) := by
  induction levels generalizing depth with
  | zero =>
      intro op s hheight
      have hpos := op.height_pos
      omega
  | succ levels ih =>
      rintro ⟨head, _ | ops⟩ s hheight hreplaced
      · unfold visitRegion
        exact ⟨rfl, .refl s⟩
      · unfold visitRegion
        apply (ensures_visitAll (ih (depth + 1)) depth (Nat.le_of_succ_le_succ hheight) hreplaced).bind
        rintro _ s' _ ⟨rfl, h⟩
        exact ⟨rfl, h⟩

/-- **A sweep lowers the tree.** -/
theorem ensures_sweep (root : Operation) (hreplaced : s.replaced = .empty)
    (herased : s.erased = []) :
    Ensures (sweep ⟨patterns⟩ {} root) s (fun root' s' => root' = lowerNested root
      ∧ s.Advances (countIn (headsOfAll root.nested)) s') fun _ _ => False := by
  rw [sweep_eq, Ensures.modify_bind_iff]
  have hregion : LowersWithin (root.height + spareLevels) _ := lowersWithin_visitRegion (σ := σ) _ 0
  apply (hregion root { s with definitions := .empty } (Nat.le_add_right _ _) hreplaced).bind
  rintro _ s₁ _ ⟨rfl, h₁⟩
  apply (ensures_finish_of_empty (h₁.replaced.trans hreplaced) (h₁.erased.trans herased) _).mono
  rintro _ s₂ _ ⟨rfl, h₂⟩
  have hadvances := h₁.trans h₂
  exact ⟨rfl, hadvances.replaced, hadvances.erased, hadvances.rewrites, hadvances.dialects⟩

/-! ### Runs -/

theorem rests_of_none (h : lowered? op.toHead = none) :
    Rests ⟨patterns (σ := σ)⟩ (fun _ => True) op where
  yields definitions _ pattern hpattern := by
    have hname : op.name ≠ "arith.constant" := by
      intro hname
      rw [lowered?, if_pos hname] at h
      cases h
    have hyields := yields_binaryLowering (σ := σ) definitions hname
    rw [h] at hyields
    rw [patternsFor_of_ne hname] at hpattern
    exact List.mem_singleton.1 hpattern ▸ hyields
  keeps _ _ := trivial

/-- Nothing is left to do in a lowered tree without dead operations. -/
theorem settled_lowered (context : Context) (root : Operation) :
    Settled ⟨patterns (σ := σ)⟩ context ((lowerNested root).removeDeadOps context).op where
  rests := by
    have hlowered : ∀ head ∈ headsOfAll (lowerNested root).nested, lowered? head = none := by
      rw [nested_lowerNested]
      exact lowered?_of_mem_lowerAll root.nested
    have hkept :=
      (removeDeadOps_induction (P := fun op => ∀ head ∈ headsOfAll op.nested,
        lowered? head = none) context
      (fun op other _ hop head hhead => hop head ((headsOfAll_nested_prune _ op).subset hhead))
        hlowered).1
    exact ⟨fun _ => True, trivial, eachNested_of_heads fun op hop =>
      rests_of_none (hkept op.toHead hop)⟩
  alive := alive_removeDeadOps context (lowerNested root)

/-- **Lowering runs to the lowered tree**, without the operations that are dead then. -/
theorem applyGreedily_lowered (root : Operation) (context : Context) (memory : σ) :
    ∃ outcome, (applyGreedily (PatternSet.mk patterns).freeze {} root context memory).result
      = .ok outcome
      ∧ Ended context (lowerNested root) (countIn (headsOfAll root.nested)) outcome
        (applyGreedily (PatternSet.mk patterns).freeze {} root context memory).op := by
  rw [freeze_patterns]
  have hsweep (s : State σ) (hs : s.Begins root context) : Ensures (sweep ⟨patterns⟩ {} root) s
      (fun swept s' => Settles ⟨patterns⟩ context swept s'
        ∧ swept = lowerNested root ∧ s'.rewrites = countIn (headsOfAll root.nested))
      fun _ _ => False := by
    apply (ensures_sweep root hs.replaced hs.erased).mono
    rintro _ s' _ ⟨rfl, h⟩
    refine ⟨⟨h.replaced.trans hs.replaced, h.erased.trans hs.erased, hs.dialects.trans h.dialects,
      settled_lowered context root⟩, rfl, ?_⟩
    rw [h.rewrites, hs.rewrites, Nat.zero_add]
  obtain ⟨outcome, _, _, hresult, ⟨rfl, rfl⟩, hended⟩ | ⟨_, _, hfails⟩ :=
    applyGreedily_of_settles (P := fun swept count => swept = lowerNested root
      ∧ count = countIn (headsOfAll root.nested)) memory rfl rfl (by decide) hsweep
  · exact ⟨outcome, hresult, hended⟩
  · exact hfails.elim

/-- Where the dialect of the results is available, the pass gets ready. -/
theorem exists_prepare (printing : Bool) {context : Context}
    (hllvm : context.registry.get? "llvm" = some .llvm) (memory : σ) :
    ∃ names, Returns (({ printing } : PassManager σ).add .convertArithToLLVM).prepare
      ⟨context, memory⟩
      [⟨.convertArithToLLVM, (PatternSet.mk patterns).freeze⟩]
      ⟨context.loadEach names, memory⟩ := by
  have hholds : (Workspace.mk context memory).context.registry.Holds
    ([Pass.convertArithToLLVM (σ := σ)].flatMap (·.dependencies)) :=
    List.forall_mem_singleton.2 hllvm
  have hload := PassManager.returns_loadDependencies hholds
  generalize (Registry.empty.insertAll _).1.names = names at hload
  have hprepare := PassManager.returns_preparePass "convert-arith-to-llvm"
    "Convert arith operations to LLVM" [.llvm]
    (patterns (σ := σ)) {} ⟨context.loadEach names, memory⟩
  refine ⟨names, Returns.bind_iff.2 ⟨_, _, hload, ?_⟩⟩
  exact Returns.bind_iff.2 ⟨_, _, hprepare, rfl⟩

theorem exists_returns_runPass (printing : Bool) (root : Operation) {context other : Context}
    (memory : σ) {changed : Bool} (hchanged : changed = true
      ↔ 0 < countIn (headsOfAll root.nested)
        ∨ 0 < ((lowerNested root).removeDeadOps context).removed)
    (hsame : context.SameDialects other) :
    ∃ space,
      Returns (PassManager.runPass printing ⟨.convertArithToLLVM, (PatternSet.mk patterns).freeze⟩
        root) ⟨other, memory⟩
      (changed, ((lowerNested root).removeDeadOps context).op) space := by
  have hpass : Ensures
    (PassManager.runPass printing ⟨.convertArithToLLVM, (PatternSet.mk patterns).freeze⟩ root)
      ⟨other, memory⟩ (fun out _ => out = (changed, ((lowerNested root).removeDeadOps context).op))
      fun _ _ => False := by
    apply PassManager.ensures_runPass
    intro noted hnoted
    obtain ⟨hpruned, hremoved⟩ := removeDeadOps_congr (hsame.trans hnoted.dialects)
      (lowerNested root)
    obtain ⟨outcome, hresult, hended⟩ := applyGreedily_lowered root noted memory
    rw [← hremoved, ← hended.changed] at hchanged
    have hpair : (outcome.changed,
      (applyGreedily (PatternSet.mk patterns).freeze {} root noted memory).op)
        = (changed, ((lowerNested root).removeDeadOps context).op) := by
      rw [hended.op, hpruned, Bool.eq_iff_iff.2 hchanged.symm]
    apply PassManager.ensures_applyPatterns
    · intro outcome' hresult'
      obtain rfl := Except.ok.inj (hresult.symm.trans hresult')
      exact hpair
    · intro error herror
      exact nomatch hresult.symm.trans herror
  obtain ⟨_, space, hreturns, rfl⟩ := hpass.exists_returns
  exact ⟨space, hreturns⟩

/-- **The lowering is its plain definition.** Where the dialect of the results is available, the
pass never fails, and it leaves the lowered tree without what is dead then; the outcome counts all
arithmetic of the tree, also what goes with the region of an operation that holds it. -/
theorem run_convertArithToLLVM (printing : Bool) (root : Operation) {context : Context} (memory : σ)
    (hllvm : context.registry.get? "llvm" = some .llvm) : ∃ changed,
      (changed = true ↔ 0 < countIn (headsOfAll root.nested)
        ∨ 0 < ((lowerNested root).removeDeadOps context).removed)
      ∧ (applyGreedily (PatternSet.mk patterns).freeze {} root context memory).result
        = .ok ⟨changed, true, countIn (headsOfAll root.nested)⟩
      ∧ (applyGreedily (PatternSet.mk patterns).freeze {} root context memory).op
        = ((lowerNested root).removeDeadOps context).op
      ∧ ((({ printing } : PassManager σ).add .convertArithToLLVM).run root
        ⟨context, memory⟩).1.result = .ok changed
      ∧ ((({ printing } : PassManager σ).add .convertArithToLLVM).run root ⟨context, memory⟩).1.op
        = ((lowerNested root).removeDeadOps context).op := by
  obtain ⟨⟨changed, converged, rewrites⟩, hresult, ⟨hconverged, hrewrites, hchanged, hop⟩⟩ :=
    applyGreedily_lowered root context memory
  dsimp only at hconverged hrewrites hchanged
  subst hconverged hrewrites
  refine ⟨changed, hchanged, hresult, hop, ?_⟩
  obtain ⟨names, hprepare⟩ := exists_prepare printing hllvm memory
  obtain ⟨space, hreturns⟩ := exists_returns_runPass printing root memory hchanged
    (context.sameDialects_loadEach names)
  rw [PassManager.run_of_returns rfl hprepare]
  have hready := PassManager.runReady_singleton hreturns
  exact ⟨congrArg Transformed.result hready, congrArg Transformed.op hready⟩

/-- The region of a sum goes with the product in it, and a difference that nothing uses goes behind
the sweep. -/
theorem run_convertArithToLLVM_region : ∃ root : Operation, countIn (headsOfAll root.nested) = 4
    ∧ ((({} : PassManager Unit).add .convertArithToLLVM).run root
      ⟨.ofRegistry .standard, ()⟩).1.result = .ok true
    ∧ ((({} : PassManager Unit).add .convertArithToLLVM).run root
      ⟨.ofRegistry .standard, ()⟩).1.op.heads.map (·.name)
      = ["builtin.module", "llvm.mlir.constant", "test.wrap", "llvm.add", "test.sink"] := by
  let a : Value := ⟨"a", .int 8⟩
  let b : Value := ⟨"b", .int 8⟩
  let c : Value := ⟨"c", .int 8⟩
  let d : Value := ⟨"d", .int 8⟩
  let product : Operation := { name := "arith.muli", operands := [a, a], results := [c] }
  let root := Operation.module
    [.constant a 1,
      { name := "test.wrap"
        region := some
          [{ name := "arith.addi", operands := [a, a], results := [b], region := some [product] },
            { name := "test.sink", operands := [b] }] },
      { name := "arith.subi", operands := [a, a], results := [d] }]
  have hllvm : (Context.ofRegistry .standard).registry.get? "llvm" = some .llvm := by decide +kernel
  obtain ⟨changed, hchanged, -, -, hresult, hop⟩ := run_convertArithToLLVM false root () hllvm
  have hcount : countIn (headsOfAll root.nested) = 4 := by decide +kernel
  refine ⟨root, hcount, ?_, ?_⟩
  · rw [hresult, hchanged.2 (.inl (by omega))]
  · rw [hop]
    decide +kernel

end Lowering

end DialectIR
