import DialectIR.Proofs.Faithful
import DialectIR.Proofs.Rewriting

/-! Simplifying well-formed arithmetic keeps effects, step by step: from substitutions and matches
to visits, sweeps and runs. No step fails, apart from what erasing or a faulty pattern could do. -/

namespace DialectIR

namespace Arith

open Greedy Operation

variable {σ : Type} {patterns : FrozenPatterns σ} {config : Config} {meaning : Meaning}
  {quiet : OpName → Bool}
  {given : String → Int} {s s' s'' : State σ} {op : Operation} {ops more out rest : List Operation}
  {visible : List String}

theorem Explained.append {encounters later : List (Encounter σ)} :
    Explained patterns config meaning given (encounters ++ later)
      ↔ Explained patterns config meaning given encounters
        ∧ Explained patterns config meaning given later :=
  List.forall_mem_append

theorem Kept.refl (hgood : meaning.GoodAll quiet given ops) (h : Faithful meaning given s) :
    Kept meaning quiet given ops ops s :=
  ⟨hgood, rfl, h⟩

theorem Kept.append (h : Kept meaning quiet given ops out s)
    (h' : Kept meaning quiet given more rest s') :
    Kept meaning quiet given (ops ++ more) (out ++ rest) s' := by
  refine ⟨Meaning.GoodAll.append.2 ⟨h.good, h'.good⟩, ?_, h'.faithful⟩
  rw [effectsOfAll_append, h.effects, h'.effects, effectsOfAll_append]

theorem Kept.trans (h : Kept meaning quiet given ops out s)
    (h' : Kept meaning quiet given out rest s') :
    Kept meaning quiet given ops rest s' :=
  ⟨h'.good, h'.effects.trans h.effects, h'.faithful⟩

theorem Kept.head {op' : Operation} (h : Kept meaning quiet given [op] [op'] s) :
    meaning.Good quiet given op' ∧ op'.effects quiet meaning.value
      = op.effects quiet meaning.value := by
  have heffects := h.effects
  rw [effectsOfAll_singleton, effectsOfAll_singleton] at heffects
  exact ⟨Meaning.goodAll_singleton.1 h.good, heffects⟩

theorem kept_singleton {op' : Operation} (hgood : meaning.Good quiet given op')
    (heffects : op'.effects quiet meaning.value = op.effects quiet meaning.value)
    (h : Faithful meaning given s) :
    Kept meaning quiet given [op] [op'] s := by
  refine ⟨Meaning.goodAll_singleton.2 hgood, ?_, h⟩
  rw [effectsOfAll_singleton, effectsOfAll_singleton, heffects]

theorem Faithful.of_similar (h : Faithful meaning given s) (hsimilar : s.Similar s') :
    Faithful meaning given s' where
  definitions := hsimilar.definitions ▸ h.definitions
  replaced := hsimilar.replaced ▸ h.replaced
  erased := hsimilar.erased.trans h.erased

theorem not_blamable_endlessReplacement (value : Value) :
    ¬ Blamable (.endlessReplacement value) := by
  rintro (h | ⟨result, h⟩)
  · cases h
  · cases h

theorem not_blamable_nestedTooDeeply : ¬ Blamable .nestedTooDeeply := by
  rintro (h | ⟨result, h⟩)
  · cases h
  · cases h

theorem ensures_substitute (hgood : meaning.Good quiet given op) (h : Faithful meaning given s) :
    Ensures (substitute op) s (fun op' s' => Kept meaning quiet given [op] [op'] s') fun error _ =>
      ¬ Blamable error := by
  unfold substitute
  rw [Ensures.get_bind_iff]
  dsimp only
  split
  · exact kept_singleton hgood rfl h
  · split
    next value _ => exact not_blamable_endlessReplacement value
    next =>
      obtain ⟨hgood', heffects⟩ := h.applyTo hgood
      exact kept_singleton hgood' heffects h

theorem ensures_finish (hgood : meaning.Good quiet given op) (h : Faithful meaning given s) :
    Ensures (finish op) s (fun op' s' => Kept meaning quiet given [op] [op'] s') fun error _ =>
      ¬ Blamable error := by
  unfold finish
  apply (ensures_substitute hgood h).bind
  intro op' s' _ hkept
  rw [Ensures.modify_bind_iff, Ensures.get_bind_iff]
  dsimp only
  rw [Ensures.modify_bind_iff, hkept.faithful.erased]
  refine ⟨hkept.good, hkept.effects, hkept.faithful.definitions, fun name value hget => ?_, rfl⟩
  rw [Dict.get?_empty] at hget
  cases hget

/-- Removing dead operations takes quiet ones away. -/
theorem ensures_removeDead (hpure : ∀ name, s.context.isPure name = true → quiet name = true)
    (hgood : meaning.Good quiet given op) (h : Faithful meaning given s) :
    Ensures (removeDead config op) s (fun swept s' => Kept meaning quiet given [op] [swept.1] s')
      fun error _ => ¬ Blamable error := by
  unfold removeDead
  split
  · rw [Ensures.get_bind_iff]
    dsimp only
    rw [Ensures.modify_bind_iff, Ensures.pure_iff]
    have hprune (other : Operation) (context : Context) (hsame : s.context.SameDialects context)
        (hother : meaning.Good quiet given other ∧ other.effects quiet meaning.value
          = op.effects quiet meaning.value) :
        meaning.Good quiet given (other.prune (context.isDead other.usedNames))
          ∧ (other.prune (context.isDead other.usedNames)).effects quiet meaning.value
            = op.effects quiet meaning.value := by
      have hdead : ∀ head, context.isDead other.usedNames head = true → quiet head.name = true := by
        intro head hdead
        rw [Context.isDead, Bool.and_eq_true, hsame.isPure] at hdead
        exact hpure head.name hdead.2
      obtain ⟨hgood', heffects⟩ := Meaning.Good.prune hdead hother.1
      exact ⟨hgood', heffects.trans hother.2⟩
    obtain ⟨⟨hgood', heffects⟩, -⟩ := removeDeadOps_induction s.context hprune ⟨hgood, rfl⟩
    exact kept_singleton hgood' heffects ⟨h.definitions, h.replaced, h.erased⟩
  · exact kept_singleton hgood rfl h

/-! ### Visits -/

/-- Visiting what an operation holds keeps its effects. -/
def Preserves (patterns : FrozenPatterns σ) (config : Config) (meaning : Meaning)
    (quiet : OpName → Bool) (given : String → Int) (within : Operation → Step σ Operation)
    (inside : List String → Operation → State σ → List (Encounter σ)) : Prop :=
  ∀ (visible : List String) (op : Operation) (s : State σ), meaning.Good quiet given op →
    Faithful meaning given s → Explained patterns config meaning given (inside visible op s) →
    Ensures (within op) s (fun op' s' => Kept meaning quiet given [op] [op'] s') fun error _ =>
      ¬ Blamable error

variable {within : Operation → Step σ Operation}
  {inside : List String → Operation → State σ → List (Encounter σ)}

theorem Preserves.ensures_ite
    (hwithin : Preserves patterns config meaning quiet given within inside) (condition : Bool)
    (hgood : meaning.Good quiet given op) (h : Faithful meaning given s)
    (hexplained : Explained patterns config meaning given
      (if condition then inside visible op s else [])) :
    Ensures (if condition then within op else pure op) s
      (fun op' s' => Kept meaning quiet given [op] [op'] s')
      fun error _ => ¬ Blamable error := by
  cases condition with
  | true => exact hwithin visible op s hgood h hexplained
  | false => exact kept_singleton hgood rfl h

/-- An operation without a match stays. -/
theorem ensures_commit_empty (hwithin : Preserves patterns config meaning quiet given within inside)
    (hgood : meaning.Good quiet given op) (h : Faithful meaning given s)
    (hexplained : Explained patterns config meaning given
      (innerEncounters config inside visible op {} s)) :
    Ensures (commit config within op {}) s (Kept meaning quiet given [op]) fun error _ =>
      ¬ Blamable error := by
  unfold commit
  rw [Ensures.modify_bind_iff]
  show Ensures (visit.settle config within [] op) s _ _
  rw [settle_eq]
  apply (hwithin.ensures_ite config.topDown hgood h hexplained).bind
  intro op' s' _ hkept
  obtain ⟨hgood', heffects⟩ := hkept.head
  exact kept_singleton hgood' heffects (hkept.faithful.register hgood'.holds)

section

variable (hpatterns : patterns.patterns ⊆ simplifications)
  (hquiet : ∀ name, isArith name = true → quiet name = true)

include hpatterns hquiet

/-- Trying simplifications and committing the match keeps effects. -/
theorem ensures_match (hwithin : Preserves patterns config meaning quiet given within inside)
    (depth : Nat) (hgood : meaning.Good quiet given op) (h : Faithful meaning given s)
    (hexplained : Explained patterns config meaning given
      (encountersFrom patterns config inside depth visible op s)) :
    Ensures (applyPatterns patterns config depth op >>= fun recording? =>
      commit config within op (recording?.getD {})) s
      (Kept meaning quiet given [op]) fun error _ => ¬ Blamable error := by
  have hone : IsBinary op.name → op.results.length = 1 := by
    intro hbinary
    obtain ⟨-, -, result, -, hresults, -⟩ := hgood.holds.wellFormed.binary hbinary
    rw [hresults]
    rfl
  have htried : Ensures (applyPatterns patterns config depth op) s (fun _ _ => True) fun error _ =>
    ¬ Blamable error :=
    (ensures_applyPatterns_simplifications hpatterns depth s hone).weaken nofun
  refine htried.bind fun recording? s' hreturns _ => ?_
  have hsimilar :=
    ((ensures_applyPatterns patterns config visible depth op s).of_returns hreturns).similar
  have hfaithful := h.of_similar hsimilar
  have hfrom := encountersFrom_of_returns inside visible hreturns
  rw [hfrom, Explained.append] at hexplained
  cases recording? with
  | none => exact ensures_commit_empty hwithin hgood hfaithful hexplained.2
  | some recording =>
      have hmatch : Encounter.match? patterns config ⟨visible, depth, op, s⟩
          = some ⟨visible, op, drawnBy depth op (patterns.patternsFor op.name) s, recording⟩ :=
        match?_of_returns patterns config hreturns
      obtain ⟨-, -, hsimplifies⟩ := simplifies_of_match? hpatterns hmatch
      obtain ⟨hgone, hkept⟩ := hsimplifies.kept hquiet h.agrees hgood hfaithful
        (hexplained.1 _ List.mem_cons_self _ hmatch)
      unfold commit
      rw [Ensures.modify_bind_iff, Option.getD_some, hgone]
      exact hkept

theorem ensures_visit (hwithin : Preserves patterns config meaning quiet given within inside)
    (depth : Nat) (hgood : meaning.Good quiet given op) (h : Faithful meaning given s)
    (hexplained : Explained patterns config meaning given
      (visitEncounters patterns config within inside depth visible op s)) :
    Ensures (visit patterns config within depth op) s (Kept meaning quiet given [op]) fun error _ =>
      ¬ Blamable error := by
  rw [visit_eq]
  apply (ensures_substitute hgood h).bind
  intro op₁ s₁ hreturns₁ hkept₁
  rw [visitEncounters_eq, afterwards_of_returns hreturns₁, Explained.append] at hexplained
  apply (hwithin.ensures_ite _ hkept₁.head.1 hkept₁.faithful hexplained.1).bind
  intro op₂ s₂ hreturns₂ hkept₂
  rw [afterwards_of_returns hreturns₂] at hexplained
  apply (ensures_match hpatterns hquiet hwithin depth hkept₂.head.1 hkept₂.faithful hexplained.2).mono
  intro out s' _ hkept
  exact hkept₁.trans (hkept₂.trans hkept)

theorem ensures_visitAll (hwithin : Preserves patterns config meaning quiet given within inside)
    (depth : Nat) (hgood : meaning.GoodAll quiet given ops) (h : Faithful meaning given s)
    (hexplained : Explained patterns config meaning given
      (visitAllEncounters patterns config within inside depth visible ops s)) :
    Ensures (visitAll patterns config within depth ops) s (Kept meaning quiet given ops)
      fun error _ => ¬ Blamable error := by
  induction ops generalizing visible s with
  | nil => exact .refl hgood h
  | cons op ops ih =>
      rw [visitAllEncounters, Explained.append] at hexplained
      apply (ensures_visit hpatterns hquiet hwithin depth hgood.1 h hexplained.1).bind
      intro first s' hreturns hfirst
      rw [afterwards_of_returns hreturns] at hexplained
      apply (ih hgood.2 hfirst.faithful hexplained.2).bind
      intro rest s'' _ hrest
      exact hfirst.append hrest

/-- **Visits keep effects**, through any number of levels. -/
theorem preserves_visitRegion (levels depth : Nat) :
    Preserves patterns config meaning quiet given (visitRegion patterns config levels depth)
      (regionEncounters patterns config levels depth) := by
  induction levels generalizing depth with
  | zero =>
      rintro visible ⟨head, _ | ops⟩ s hgood h _
      · exact kept_singleton hgood rfl h
      · exact not_blamable_nestedTooDeeply
  | succ levels ih =>
      rintro visible ⟨head, _ | ops⟩ s hgood h hexplained
      · unfold visitRegion
        exact kept_singleton hgood rfl h
      · unfold visitRegion
        apply (ensures_visitAll hpatterns hquiet (ih (depth + 1)) depth hgood.2.2 h hexplained).bind
        intro out s' _ hkept
        refine kept_singleton ⟨hgood.1, hgood.2.1, hkept.good⟩ ?_ hkept.faithful
        unfold effects
        rw [hkept.effects]

theorem ensures_sweep (hgood : meaning.Good quiet given op) (h : Faithful meaning given s)
    (hexplained : Explained patterns config meaning given (sweepEncounters patterns config op s)) :
    Ensures (sweep patterns config op) s (fun op' s' => Kept meaning quiet given [op] [op'] s')
      fun error _ => ¬ Blamable error := by
  rw [sweep_eq, Ensures.modify_bind_iff]
  have hfaithful : Faithful meaning given { s with definitions := .empty } := by
    refine ⟨fun name found hget => ?_, h.replaced, h.erased⟩
    rw [Dict.get?_empty] at hget
    cases hget
  have hregion : Preserves patterns config meaning quiet given
    (visitRegion patterns config (op.height + spareLevels) 0)
      (regionEncounters patterns config (op.height + spareLevels) 0) :=
        preserves_visitRegion hpatterns hquiet _ 0
  apply (hregion [] op _ hgood hfaithful hexplained).bind
  intro op₁ s₁ _ hkept
  apply (ensures_finish hkept.head.1 hkept.faithful).mono
  intro op₂ s₂ _ hfinished
  exact hkept.trans hfinished

/-- **Runs keep effects.** -/
theorem ensures_iterate (remaining iteration : Nat) {progress : Progress}
    (hpure : ∀ name, s.context.isPure name = true → quiet name = true)
    (hgood : meaning.Good quiet given progress.root) (h : Faithful meaning given s)
    (hexplained : Explained patterns config meaning given
      (iterateEncounters patterns config remaining iteration progress.root s)) :
    Ensures (iterate patterns config remaining iteration progress) s
      (fun progress' s' => Kept meaning quiet given [progress.root] [progress'.root] s')
        fun error _ => ¬ Blamable error := by
  induction remaining generalizing iteration progress s with
  | zero => exact kept_singleton hgood rfl h
  | succ remaining ih =>
      rw [iterate_eq, Ensures.get_bind_iff]
      unfold iterateEncounters at hexplained
      split
      · exact kept_singleton hgood rfl h
      next hlimit =>
        rw [if_neg hlimit, Explained.append] at hexplained
        rw [Ensures.modify_bind_iff, Ensures.get_bind_iff]
        have hnoted : Faithful meaning given
          (s.note (.iteration iteration progress.root.name.text)) :=
          ⟨h.definitions, h.replaced, h.erased⟩
        have hswept : Ensures (sweep patterns config progress.root >>= removeDead config)
            (s.note (.iteration iteration progress.root.name.text))
            (fun swept s' => Kept meaning quiet given [progress.root] [swept.1] s') fun error _ =>
              ¬ Blamable error := by
          apply (ensures_sweep hpatterns hquiet hgood hnoted hexplained.1).bind
          intro root s' hreturns hkept
          have hsame := (sameDialects_sweep hreturns).isPure
          refine (ensures_removeDead (fun name hname => ?_) hkept.head.1 hkept.faithful).mono
            fun swept s'' _ hremoved => ?_
          · rw [hsame] at hname
            exact hpure name hname
          · exact hkept.trans hremoved
        apply hswept.bind
        intro swept s' hreturns hkept
        obtain ⟨root, removed⟩ := swept
        rw [afterwards_of_returns hreturns] at hexplained
        rw [Ensures.get_bind_iff]
        show Ensures (if s'.rewrites = s.rewrites && removed = 0 then _ else _) s' _ _
        by_cases hstop : (s'.rewrites = s.rewrites && removed = 0) = true
        · rw [if_pos hstop]
          exact hkept
        · have hrest := hexplained.2
          dsimp only at hrest
          rw [if_neg hstop] at hrest ⊢
          have hsame := (sameDialects_swept hreturns).isPure
          have hpure' : ∀ name, s'.context.isPure name = true → quiet name = true := by
            intro name hname
            rw [hsame] at hname
            exact hpure name hname
          apply (ih (iteration + 1) hpure' hkept.head.1 hkept.faithful hrest).mono
          intro progress' s'' _ hlater
          exact hkept.trans hlater

end

end Arith

end DialectIR
