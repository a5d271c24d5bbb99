import DialectIR.Proofs.Foresight
import DialectIR.Proofs.Upkeep
import Mathlib.Data.List.Pairwise

/-! The normal form of arithmetic. What a sweep leaves stays, in view of what its own constants
tell: nothing is left that could be simplified. -/

namespace DialectIR

namespace Arith

open Greedy Operation

variable {σ : Type} {config : Config}

theorem eq_of_mem_resultNames {heads : List Head} (hnodup : (heads.flatMap Head.resultNames).Nodup)
    {head other : Head} (hhead : head ∈ heads) (hother : other ∈ heads) {name : String}
    (hname : name ∈ head.resultNames) (hsame : name ∈ other.resultNames) : head = other := by
  have hsymm : Std.Symm (Function.onFun List.Disjoint Head.resultNames) :=
    ⟨fun _ _ h _ hx hy => h hy hx⟩
  by_contra hne
  exact (List.nodup_flatMap.1 hnodup).2.forall hhead hother hne hname hsame

/-- Simplifications keep a property that their constants have. -/
theorem upholds_simplifications {patterns : FrozenPatterns σ}
    (hpatterns : patterns.patterns ⊆ simplifications) {good : Head → Prop} {fit : Value → Prop}
    {encounters : List (Encounter σ)}
    (h : ∀ e ∈ encounters, good e.op.toHead → ∀ m, e.match? patterns config = some m →
      ∀ new ∈ m.recording.inserted,
      good new.toHead ∧ ∀ result ∈ new.results, fit result) :
    Upholds patterns config good fit encounters := by
  intro e he hop _ m hmatch
  obtain ⟨-, hsame, hsimplifies⟩ := simplifies_of_match? hpatterns hmatch
  have hmeets := hop e.op.toHead (heads_eq e.op ▸ List.mem_cons_self)
  have hinserted := h e he hmeets.good m hmatch
  obtain ⟨visible, op, drawn, recording⟩ := m
  dsimp only at hsame hsimplifies hinserted
  subst hsame
  cases hsimplifies with
  | keep value hmem =>
      refine ⟨nofun, ?_, nofun⟩
      rintro _ ⟨⟩ other hother
      rw [List.mem_singleton.1 hother]
      exact hmeets.fit value hmem
  | fold name result constant =>
      obtain ⟨hgood, hresults⟩ := hinserted _ List.mem_cons_self
      refine ⟨List.forall_mem_singleton.2 ⟨hgood, nofun⟩, ?_, nofun⟩
      rintro _ ⟨⟩
      exact hresults

/-- Before a run, all operations use values that the tree defines. -/
theorem operands_subset_allResults {root : Operation} (hroot : root.verify = .ok ())
    (htyped : root.WellTyped) :
    root.allOperands ⊆ root.allResults := by
  intro operand hoperand
  have hscoped := (verify_eq_ok_iff.1 hroot).1
  have hname := (hscoped.mem_of_operand operand hoperand).resolve_left List.not_mem_nil
  have hdefined : operand.name ∈ root.definedNames := by
    rw [definedNames_eq]
    exact List.mem_append_right _ hname
  rw [definedNames_eq_map] at hdefined
  obtain ⟨result, hresult, hsame⟩ := List.mem_map.1 hdefined
  have hty := htyped operand hoperand result hresult hsame
  have heq : result = operand := by
    obtain ⟨name, ty⟩ := result
    obtain ⟨name', ty'⟩ := operand
    cases hsame
    cases hty
    rfl
  exact heq ▸ hresult

theorem exists_used_of_isDead {context : Context} {used : List String} {head : Head}
    (h : context.isDead used head = false) (hpure : context.isPure head.name = true)
    (hresults : head.results ≠ []) : ∃ result ∈ head.results, result.name ∈ used := by
  by_contra hnone
  have hunused : head.isUnused used = true := by
    rw [Head.isUnused, Bool.and_eq_true, List.all_eq_true]
    refine ⟨by simpa using hresults, fun result hresult => decide_eq_true fun hname => ?_⟩
    exact hnone ⟨result, hresult, hname⟩
  rw [Context.isDead, hunused, hpure] at h
  cases h

/-- Operations of which it is known what they are simplified to, and none is, cannot be
simplified. -/
theorem irreducible_of_stays {root : Operation} {values : List Value}
    {found : String → Option Finding} (hvalues : (values.map Value.name).Nodup)
    (hoperands : root.allOperands ⊆ values)
    (hstays : ∀ head ∈ headsOfAll root.nested, Stays found head) : Irreducible root := by
  intro head hhead hreducible
  have hmem : head ∈ root.heads := heads_eq root ▸ List.mem_cons_of_mem _ hhead
  have hvalue (operand : Value) (hoperand : operand ∈ head.operands) : operand ∈ values :=
    hoperands (List.mem_flatMap.2 ⟨head, hmem, hoperand⟩)
  have hsome : (reduct? (Finding.of found) head).isSome := by
    refine hreducible.isSome_reduct? (fun operand _ x hconstant => ?_)
      fun lhs rhs hpair hnames => ?_
    · obtain ⟨other, hother, hname, hconstant⟩ := hconstant
      have htold := (hstays other hother).tells operand.name hname
      rw [finding?, hconstant] at htold
      rw [Finding.of, htold]
      rfl
    · have hlhs := hvalue lhs (hpair ▸ List.mem_cons_self)
      have hrhs := hvalue rhs (hpair ▸ List.mem_cons_of_mem _ List.mem_cons_self)
      exact List.inj_on_of_nodup_map hvalues hlhs hrhs hnames
  rw [(hstays head hhead).stays] at hsome
  cases hsome

/-- **A sweep leaves a tree in normal form**, but for dead operations. -/
theorem ensures_sweep_irreducible {root : Operation} {s : State σ}
    (hlimit : config.maxRewrites = none)
    (hbetween : Between root
      (drawnIn ⟨simplifications⟩ config (sweepEncounters ⟨simplifications⟩ config root s)) s)
    (htyped : root.WellTyped) :
    Ensures (sweep ⟨simplifications⟩ config root) s (fun swept _ => Irreducible swept)
      fun _ _ => True := by
  have hpatterns : (FrozenPatterns.mk (simplifications (σ := σ))).patterns ⊆ simplifications :=
    List.Subset.refl _
  have hroot : root.verify = .ok () := verify_eq_ok_iff.2
    ⟨hbetween.uses, (List.nodup_append.1 hbetween.nodup).1⟩
  have hforetold := ensures_sweep_foretold hlimit hbetween
  generalize hencounters : sweepEncounters ⟨simplifications⟩ config root s = encounters at hbetween
  -- All values of the sweep: operands of one name are one of them.
  generalize hall : root.allResults ++ (insertedIn ⟨simplifications⟩ config encounters).flatMap
    (·.results) = values
  have hvalues : (values.map Value.name).Nodup := by
    have hnames : values.map Value.name = root.definedNames
      ++ drawnIn ⟨simplifications⟩ config encounters := by
      rw [← hall, List.map_append, ← definedNames_eq_map, List.map_flatMap]
      exact congrArg (_ ++ ·) (resultNames_insertedIn hpatterns encounters)
    rw [hnames]
    exact hbetween.nodup
  have hupholds : Upholds ⟨simplifications⟩ config (fun _ => True) (· ∈ values) encounters := by
    refine upholds_simplifications hpatterns fun e he _ m hmatch new hnew =>
      ⟨trivial, fun result hresult => ?_⟩
    rw [← hall, List.mem_append, List.mem_flatMap]
    exact .inr ⟨new.toHead, toHead_mem_insertedIn he hmatch hnew, hresult⟩
  have hmeets : ∀ head ∈ root.heads, Meets (fun _ => True) (· ∈ values) head := by
    refine fun head hhead => ⟨trivial, fun operand hoperand => ?_⟩
    rw [← hall, List.mem_append]
    exact .inl (operands_subset_allResults hroot htyped (List.mem_flatMap.2 ⟨head, hhead, hoperand⟩))
  have hstart : ∀ name value, s.replaced.get? name = some value → value ∈ values := by
    rw [hbetween.replaced]
    exact fun name value hget => nomatch (Dict.get?_empty name).symm.trans hget
  subst hencounters
  have htended := ensures_sweep_tended (fun _ _ _ => trivial) hupholds hmeets hstart
  apply ((hforetold.and htended).weaken fun _ _ _ => trivial).mono
  rintro swept _ _ ⟨⟨⟨found, hstays⟩, -⟩, hswept, -⟩
  refine irreducible_of_stays hvalues (fun operand hoperand => ?_) hstays
  obtain ⟨head, hhead, hmem⟩ := List.mem_flatMap.1 hoperand
  exact (hswept head hhead).fit operand hmem

/-- The normal form: nothing that is nested in the tree can be simplified, and no pure operation has
results that are all unused. -/
structure NormalForm (context : Context) (root : Operation) : Prop where
  irreducible : Irreducible root
  used : ∀ head ∈ headsOfAll root.nested, context.isPure head.name = true → head.results ≠ [] →
    ∃ result ∈ head.results, result.name ∈ root.usedNames

theorem Irreducible.normalForm {root : Operation} (h : Irreducible root) (context : Context) :
    NormalForm context (root.removeDeadOps context).op where
  irreducible := h.of_subset (heads_nested_removeDeadOps context root).subset
  used head hhead := exists_used_of_isDead (alive_removeDeadOps context root head hhead)

/-- **Runs of simplifications** end with what their first sweep leaves, without dead operations; or
they fail as it does. -/
theorem applyGreedily_of_swept (config : Config) {root : Operation} {context : Context} (memory : σ)
    {P : Operation → Prop} {fails : Error → Prop} (hroot : root.verify = .ok ())
    (htyped : root.WellTyped) (hroom : root.definedNames.length + weight binaryWeight root ≤ 2 ^ 64)
    (hremove : config.removeDeadOps = true) (hlimit : config.maxRewrites = none)
    (hiterations : 2 ≤ config.maxIterations) (hsweep : ∀ s : State σ, s.Begins root context →
      Between root
        (drawnIn ⟨simplifications⟩ config (sweepEncounters ⟨simplifications⟩ config root s)) s →
      Ensures (sweep ⟨simplifications⟩ config root) s (fun swept _ => P swept) fun error _ =>
        fails error) :
    (∃ outcome swept,
      (applyGreedily (FrozenPatterns.mk simplifications) config root context memory).result
        = .ok outcome
        ∧ outcome.converged = true ∧ swept.verify = .ok () ∧ Irreducible swept ∧ P swept
        ∧ (applyGreedily (FrozenPatterns.mk simplifications) config root context memory).op
          = (swept.removeDeadOps context).op)
      ∨ ∃ error,
        (applyGreedily (FrozenPatterns.mk simplifications) config root context memory).result
          = .error error
        ∧ fails error := by
  obtain ⟨huses, hnodup⟩ := verify_eq_ok_iff.1 hroot
  have hswept (s : State σ) (hbegins : s.Begins root context) : Ensures
    (sweep ⟨simplifications⟩ config root) s
      (fun swept s' => Settles ⟨simplifications⟩ context swept s' ∧ swept.verify = .ok ()
        ∧ Irreducible swept ∧ P swept)
      fun error _ => fails error := by
    have haccounts : Accounts ⟨simplifications⟩ config binaryWeight
      (sweep ⟨simplifications⟩ config root) _ _ _ s :=
      accounts_sweep root s
    have hnew := nodup_append_of_accounts (List.Subset.refl _) haccounts hbegins.names hnodup hroom
    have hbetween : Between root _ s := ⟨huses, hnew, hbegins.replaced, hbegins.erased⟩
    have hscoped := Greedy.ensures_sweep_of_between hbetween
      (sound_simplifications (List.Subset.refl _) _)
    have hboth := hscoped.and (ensures_sweep_irreducible hlimit hbetween htyped)
    apply ((hboth.and (hsweep s hbegins hbetween)).weaken fun _ _ hfails => hfails.2).mono
    rintro swept s' hreturns ⟨⟨hbetween', hirreducible⟩, hP⟩
    have hnames := hbetween'.nodup
    rw [List.append_nil] at hnames
    exact ⟨⟨hbetween'.replaced, hbetween'.erased, hbegins.dialects.trans (sameDialects_sweep hreturns),
      (hirreducible.normalForm context).irreducible.rests, alive_removeDeadOps context swept⟩,
      verify_eq_ok_iff.2 ⟨hbetween'.uses, hnames⟩, hirreducible, hP⟩
  rcases applyGreedily_of_settles (P := fun swept _ => swept.verify = .ok () ∧ Irreducible swept
    ∧ P swept) memory hremove hlimit
    hiterations hswept with ⟨outcome, swept, _, hresult, ⟨hverify, hirreducible, hP⟩,
      hended⟩ | hfails
  · exact .inl ⟨outcome, swept, hresult, hended.converged, hverify, hirreducible, hP, hended.op⟩
  · exact .inr hfails

/-- **Canonicalization reaches a normal form in two sweeps**, unless it fails. -/
theorem normalForm_applyGreedily {root : Operation} (context : Context) (memory : σ)
    (hroot : root.verify = .ok ()) (htyped : root.WellTyped)
    (hiterations : 2 ≤ config.maxIterations) (hlimit : config.maxRewrites = none)
    (hremove : config.removeDeadOps = true)
    (hcount : root.definedNames.length + root.heads.length ≤ 2 ^ 64) :
    (∃ error, (applyGreedily (PatternSet.mk simplifications).freeze config root context
      memory).result = .error error
        ∧ Blamable error)
      ∨ ∃ outcome,
        (applyGreedily (PatternSet.mk simplifications).freeze config root context memory).result
          = .ok outcome
        ∧ outcome.converged = true
        ∧ NormalForm context
          (applyGreedily (PatternSet.mk simplifications).freeze config root context memory).op := by
  have hroom := Nat.le_trans (Nat.add_le_add_left (weight_le_length root.heads) _) hcount
  rw [freeze_simplifications]
  have hblamable (s : State σ) (_ : s.Begins root context)
      (hbetween : Between root
        (drawnIn ⟨simplifications⟩ config (sweepEncounters ⟨simplifications⟩ config root s)) s) :
      Ensures (sweep ⟨simplifications⟩ config root) s (fun _ _ => True) fun error _ =>
        Blamable error :=
    (Greedy.ensures_sweep_of_between hbetween (sound_simplifications (List.Subset.refl _) _)).mono
      fun _ _ _ _ => trivial
  rcases applyGreedily_of_swept config memory hroot htyped hroom hremove hlimit hiterations
    hblamable with
    ⟨outcome, swept, hok, hconverged, -, hirreducible, -, hop⟩ | hfails
  · refine .inr ⟨outcome, hok, hconverged, ?_⟩
    rw [hop]
    exact hirreducible.normalForm context
  · exact .inl hfails

/-- Constants are folded along a chain and into a region that is visited last. -/
theorem normalForm_applyGreedily_chain :
    ∃ root : Operation, root.definedNames = ["a", "b", "c", "d"]
    ∧ (applyGreedily (σ := Unit) (PatternSet.mk simplifications).freeze
      { maxIterations := 2, topDown := true } root
        (.ofRegistry .standard) ()).op.definedNames = ["1", "2"]
    ∧ ((∃ error,
      (applyGreedily (σ := Unit) (PatternSet.mk simplifications).freeze
        { maxIterations := 2, topDown := true } root
          (.ofRegistry .standard) ()).result = .error error ∧ Blamable error)
      ∨ ∃ outcome,
        (applyGreedily (σ := Unit) (PatternSet.mk simplifications).freeze
          { maxIterations := 2, topDown := true } root
          (.ofRegistry .standard) ()).result = .ok outcome
        ∧ outcome.converged = true
        ∧ NormalForm (.ofRegistry .standard)
          (applyGreedily (σ := Unit) (PatternSet.mk simplifications).freeze
          { maxIterations := 2, topDown := true } root (.ofRegistry .standard) ()).op) := by
  let a : Value := ⟨"a", .int 8⟩
  let b : Value := ⟨"b", .int 8⟩
  let c : Value := ⟨"c", .int 8⟩
  let d : Value := ⟨"d", .int 8⟩
  let root := Operation.module
    [.constant a 100, { name := "arith.muli", operands := [a, a], results := [b] },
      { name := "test.scope",
        region := some [{ name := "arith.addi", operands := [b, a], results := [c] },
          { name := "arith.subi", operands := [c, c], results := [d] },
          { name := "test.sink", operands := [c, d] }] }]
  have hnames : (applyGreedily (σ := Unit) (PatternSet.mk simplifications).freeze
    { maxIterations := 2, topDown := true } root
      (.ofRegistry .standard) ()).op.definedNames = ["1", "2"] := by
    rw [freeze_simplifications]
    decide +kernel
  exact ⟨root, by decide +kernel, hnames,
    normalForm_applyGreedily _ _ rfl (by decide +kernel) (by decide) rfl rfl (by decide +kernel)⟩

end Arith

end DialectIR
