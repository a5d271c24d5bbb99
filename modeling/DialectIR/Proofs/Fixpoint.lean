import DialectIR.Proofs.Irreducible
import DialectIR.Proofs.Lockstep
import DialectIR.Proofs.Rewriting

/-! Runs that converge end in a fixpoint. The last sweep of such a run matches nothing, and the
sweep of another run over its tree follows it step by step: the names, the memory and the context
may differ, but patterns whose answers do not depend on these have nothing to do once more. -/

namespace DialectIR

variable {σ : Type}

/-- Whether the pattern has something to do is decided by the operation and by the definitions that
it finds: neither by fresh names nor by its memory. -/
def Pattern.Determined (pattern : Pattern σ) : Prop :=
  ∀ (op : Operation) (site site' : Site) (draft draft' : Draft σ), site.op = op → site'.op = op →
    site'.definitions = site.definitions → draft.recording = {} → draft'.recording = {} →
    ((pattern.rewrite op).run.run site draft).1 = .ok false →
      ((pattern.rewrite op).run.run site' draft').1 = .ok false

namespace Greedy

open Operation

variable {patterns : FrozenPatterns σ} {config : Config} {root : Operation} {context : Context}
  {s s' : State σ}

/-- The states of two sweeps that match nothing: one behind a number of matches, the other at the
start of a run. -/
def stillLink (σ : Type) (count : Nat) : Link σ where
  Linked s t := s.Similar t ∧ s.rewrites = count ∧ t.rewrites = 0
  Followed ok n := ok = true ∧ n ≤ count
  followed_before := @Link.before_upTo count
  similar h := h.1
  learn h _ _ _ := ⟨⟨rfl, rfl, rfl, h.1.dialects⟩, h.2⟩
  note h _ := ⟨h.1.note _ _, h.2⟩
  prune h op := ⟨h.1.prune op, h.2⟩

theorem follows_of_determined {pattern : Pattern σ} (h : pattern.Determined) (count depth : Nat)
    (op : Operation) :
    (stillLink σ count).Follows (attempt depth op pattern) (attempt depth op pattern) := by
  refine Link.follows_attempt fun {s t concluded} hlinked hconcluded hfollowed => ?_
  subst hconcluded
  obtain ⟨hsimilar, hs, ht⟩ := hlinked
  obtain ⟨hok, hle⟩ := hfollowed
  have hstill := h op (s.site op) (t.site op) s.draft t.draft rfl rfl hsimilar.definitions rfl rfl
  generalize (pattern.rewrite op).run.run (s.site op) s.draft = outcome at hok hle hstill ⊢
  generalize (pattern.rewrite op).run.run (t.site op) t.draft = outcome' at hstill ⊢
  obtain ⟨cause | _ | _, draft⟩ := outcome
  · cases hok
  · obtain ⟨answer, draft'⟩ := outcome'
    obtain rfl : answer = .ok false := hstill rfl
    have hnoted := hsimilar.note (.matching depth op.name.text pattern.name)
      (.matching depth op.name.text pattern.name)
    exact ⟨rfl, ⟨hnoted.definitions, hnoted.replaced, hnoted.erased, hnoted.dialects⟩, hs, ht⟩
  · -- A match would have been counted.
    unfold State.conclude at hok hle
    dsimp only at hok hle
    split at hok
    · cases hok
    next hmade =>
      rw [if_neg hmade, hs] at hle
      exact absurd hle (Nat.not_succ_le_self count)

theorem limitReached_of_le {s t : State σ} (h : s.limitReached config = false)
    (hle : t.rewrites ≤ s.rewrites) :
    t.limitReached config = false := by
  rw [Bool.eq_false_iff, ne_eq, limitReached_iff] at h ⊢
  rintro ⟨most, hmost, hreached⟩
  exact h ⟨most, hmost, hreached.trans hle⟩

theorem followsPatterns_still (hpatterns : ∀ pattern ∈ patterns.patterns, pattern.Determined)
    (hlimit : s.limitReached config = false) :
    (stillLink σ s.rewrites).FollowsPatterns patterns patterns config config := by
  have hsame : (stillLink σ s.rewrites).SameLimit config config := by
    rintro u t ⟨-, hu, ht⟩ -
    rw [limitReached_of_le hlimit (Nat.le_of_eq hu), limitReached_of_le hlimit (ht ▸ Nat.zero_le _)]
  refine ⟨rfl, fun depth op => hsame.follows_ite none
    (Link.follows_attemptFirst fun pattern hpattern => ?_)⟩
  exact follows_of_determined (hpatterns pattern (List.mem_filter.1 hpattern).1) s.rewrites depth op

/-! ### The last sweep -/

/-- The tree without dead operations, if the configuration asks for that, and their number. -/
def Config.cleaned (config : Config) (context : Context) (root : Operation) : Operation × Nat :=
  if config.removeDeadOps
    then ((root.removeDeadOps context).op, (root.removeDeadOps context).removed) else (root, 0)

theorem ensures_removeDead_cleaned (root : Operation) (s : State σ) :
    Ensures (removeDead config root) s
      (fun swept s' => swept = config.cleaned s.context root ∧ s.Advances 0 s')
        fun _ _ => False := by
  unfold Config.cleaned
  cases hremove : config.removeDeadOps with
  | true => exact ensures_removeDead_eq hremove _
  | false =>
      unfold removeDead
      rw [hremove]
      exact ⟨rfl, .refl s⟩

theorem cleaned_congr {other : Context} (h : context.SameDialects other) (root : Operation) :
    config.cleaned other root = config.cleaned context root := by
  obtain ⟨hop, hremoved⟩ := removeDeadOps_congr h root
  rw [Config.cleaned, Config.cleaned, hop, hremoved]

theorem cleaned_of_none (h : (config.cleaned context root).2 = 0) :
    config.cleaned context root = (root, 0) := by
  unfold Config.cleaned at h ⊢
  split
  next hremove =>
    rw [if_pos hremove] at h
    exact Prod.ext (op_eq_of_removed_eq_zero h) h
  next => rfl

theorem cleaned_eq_zero_iff : (config.cleaned context root).2 = 0
    ↔ (config.removeDeadOps = true → (root.removeDeadOps context).removed = 0) := by
  unfold Config.cleaned
  cases config.removeDeadOps with
  | true => exact ⟨fun h _ => h, fun h => h rfl⟩
  | false => exact ⟨fun _ h => absurd h Bool.false_ne_true, fun _ => rfl⟩

/-- Behind a sweep dead operations are removed. -/
theorem exists_returns_sweep {swept : Operation × Nat}
    (h : Returns (sweep patterns config root >>= removeDead config) s swept s') : ∃ root' between,
      Returns (sweep patterns config root) s root' between
        ∧ swept = config.cleaned between.context root'
        ∧ between.Advances 0 s' := by
  obtain ⟨root', between, hsweep, hremove⟩ := Returns.bind_iff.1 h
  exact ⟨root', between, hsweep, (ensures_removeDead_cleaned root' between).of_returns hremove⟩

/-- A sweep that counted no match, behind which nothing was dead, gives back the tree. -/
theorem root_of_returns_swept {swept : Operation × Nat} (hreplaced : s.replaced = .empty)
    (herased : s.erased = [])
    (h : Returns (sweep patterns config root >>= removeDead config) s swept s')
    (hrewrites : s'.rewrites = s.rewrites) (hremoved : swept.2 = 0) : swept.1 = root := by
  obtain ⟨root', between, hsweep, rfl, hadvances⟩ := exists_returns_sweep h
  have hstill : between.rewrites = s.rewrites := hadvances.rewrites.symm.trans hrewrites
  obtain rfl := ((ensures_sweep_counts hreplaced herased).of_returns hsweep).2 hstill
  rw [cleaned_of_none hremoved]

/-- What is known about the last sweep of a run that converges. -/
structure LastSweep (patterns : FrozenPatterns σ) (config : Config) (context : Context)
    (root : Operation) (s : State σ) : Prop where
  definitions : s.definitions = .empty
  replaced : s.replaced = .empty
  erased : s.erased = []
  dialects : context.SameDialects s.context
  limit : s.limitReached config = false
  still : ∃ s', Returns (sweep patterns config root) s root s' ∧ s'.rewrites = s.rewrites
  alive : (config.cleaned context root).2 = 0

/-- **A run that converges has a last sweep**, and changes before it have been noticed. -/
theorem exists_lastSweep {remaining iteration : Nat} {progress progress' : Progress}
    (h : Returns (iterate patterns config remaining iteration progress) s progress' s')
    (hprogress : progress.converged = false) (hconverged : progress'.converged = true)
    (hreplaced : s.replaced = .empty) (herased : s.erased = [])
    (hdialects : context.SameDialects s.context) :
    0 < remaining ∧ (∃ u : State σ, LastSweep patterns config context progress'.root u)
      ∧ (progress'.changed = false → progress.changed = false
        ∧ progress'.root = progress.root) := by
  induction remaining generalizing iteration progress s with
  | zero =>
      obtain ⟨rfl, -⟩ := Returns.pure_iff.1 h
      rw [hprogress] at hconverged
      cases hconverged
  | succ remaining ih =>
      refine ⟨Nat.succ_pos remaining, ?_⟩
      rcases returns_iterate_succ_iff.1 h with ⟨-, rfl, -⟩ | ⟨hlimit, swept, s₂, hswept, hend⟩
      · rw [hprogress] at hconverged
        cases hconverged
      · obtain ⟨root₁, s₁, hsweep, hswept₂, hadvances⟩ := exists_returns_sweep hswept
        have hnoted := hdialects.trans
          (sameDialects_note s.context (.iteration iteration progress.root.name.text))
        have hdialects₁ := hnoted.trans (sameDialects_sweep hsweep)
        rcases hend with ⟨⟨hrewrites, hremoved⟩, rfl, -⟩ | ⟨-, hrest⟩
        · -- This sweep was the last one: without a match it gave back the tree that it was given.
          have hroot := root_of_returns_swept (s := s.note _) hreplaced herased hswept
            hrewrites hremoved
          have hstill : s₁.rewrites = s.rewrites := hadvances.rewrites.symm.trans hrewrites
          obtain rfl :=
            ((ensures_sweep_counts (s := s.note _) hreplaced herased).of_returns hsweep).2 hstill
          rw [hswept₂, cleaned_congr hdialects₁] at hremoved
          refine ⟨⟨{ s.note (.iteration iteration progress.root.name.text) with
            definitions := .empty }, ?_⟩, fun hchanged => ⟨hchanged, hroot⟩⟩
          dsimp only
          rw [hroot]
          exact ⟨rfl, hreplaced, herased, hnoted, hlimit, ⟨s₁, hsweep, hstill⟩, hremoved⟩
        · have hfinished : s₁.replaced = .empty ∧ s₁.erased = [] := by
            rw [sweep_eq, Returns.modify_bind_iff] at hsweep
            obtain ⟨_, _, -, hfinish⟩ := Returns.bind_iff.1 hsweep
            obtain ⟨-, rfl⟩ := returns_finish hfinish
            exact ⟨rfl, rfl⟩
          obtain ⟨-, hlast, hunchanged⟩ := ih hrest rfl (hadvances.replaced.trans hfinished.1)
            (hadvances.erased.trans hfinished.2) (hdialects₁.trans hadvances.dialects)
          exact ⟨hlast, fun hchanged => nomatch (hunchanged hchanged).1⟩

/-- Sweeps over the tree that the last sweep of another run left end with the first. -/
theorem LastSweep.exists_returns_iterate (h : LastSweep patterns config context root s)
    (hpatterns : ∀ pattern ∈ patterns.patterns, pattern.Determined) {t : State σ}
    (ht : context.SameDialects t.context)
    (hstart : t.definitions = .empty ∧ t.replaced = .empty ∧ t.erased = [] ∧ t.rewrites = 0)
    (remaining iteration : Nat) :
    ∃ t', Returns (iterate patterns config (remaining + 1) iteration { root }) t
      { root, converged := true } t'
      ∧ t'.rewrites = 0 := by
  obtain ⟨s', hsweep, hstill⟩ := h.still
  obtain ⟨hdefinitions, hreplaced, herased, hrewrites⟩ := hstart
  have hlinked : (stillLink σ s.rewrites).Linked s (t.note (.iteration iteration root.name.text)) :=
    ⟨⟨hdefinitions.trans h.definitions.symm, hreplaced.trans h.replaced.symm, herased.trans h.erased.symm,
      (h.dialects.symm.trans ht).trans (sameDialects_note _ _)⟩, rfl, hrewrites⟩
  obtain ⟨t₁, hagain, hlinked'⟩ :=
    ((followsPatterns_still hpatterns h.limit).follows_sweep root).exists_returns hlinked hsweep
    ⟨rfl, Nat.le_of_eq hstill⟩
  have hremoved : Ensures (removeDead config root) t₁ _ _ := ensures_removeDead_cleaned root t₁
  obtain ⟨swept, t₂, hremove, hswept, hadvances⟩ := hremoved.exists_returns
  have hsame := (h.dialects.trans (sameDialects_sweep hsweep)).trans hlinked'.1.dialects
  rw [cleaned_congr hsame, cleaned_of_none h.alive] at hswept
  subst hswept
  have hzero : t₂.rewrites = 0 := hadvances.rewrites.trans hlinked'.2.2
  refine ⟨t₂, returns_iterate_succ_iff.2
    (.inr ⟨limitReached_of_le h.limit (hrewrites ▸ Nat.zero_le _), (root, 0), t₂,
    Returns.bind_iff.2 ⟨root, t₁, hagain, hremove⟩,
    .inl ⟨⟨hzero.trans hrewrites.symm, rfl⟩, rfl, rfl⟩⟩), hzero⟩

end Greedy

open Greedy

/-- **A converged run ends in a fixpoint.** To apply the patterns once more changes nothing and ends
at once, if what they answer depends only on the operation and on the definitions that they find. -/
theorem applyGreedily_of_converged {patterns : FrozenPatterns σ} {config : Config}
    {root : Operation} {context : Context} {memory : σ} {outcome : Outcome}
    (hpatterns : ∀ pattern ∈ patterns.patterns, pattern.Determined)
    (hresult : (applyGreedily patterns config root context memory).result = .ok outcome)
    (hconverged : outcome.converged = true) :
    let first := applyGreedily patterns config root context memory
    (applyGreedily patterns config first.op first.context first.memory).result
      = .ok ⟨false, true, 0⟩
      ∧ (applyGreedily patterns config first.op first.context first.memory).op = first.op := by
  obtain ⟨op, s, hreturns⟩ := exists_returns_of_result hresult
  have hdialects := sameDialects_applyGreedily hresult
  rw [applyGreedily_of_returns hreturns] at hdialects ⊢
  obtain ⟨progress, between, hiterate, rfl, rfl, -⟩ := returns_rewrite_iff.1 hreturns
  obtain ⟨hpositive, ⟨u, hlast⟩, hunchanged⟩ := exists_lastSweep hiterate rfl hconverged rfl rfl
    (Context.SameDialects.refl context)
  have hroot : (if progress.changed then progress.root else root) = progress.root := by
    split
    · rfl
    next hchanged => exact (hunchanged (Bool.eq_false_iff.2 hchanged)).2.symm
  obtain ⟨remaining, hremaining⟩ := Nat.exists_eq_succ_of_ne_zero (Nat.ne_of_gt hpositive)
  dsimp only at hdialects ⊢
  rw [hroot]
  obtain ⟨t, hagain, hzero⟩ := hlast.exists_returns_iterate hpatterns
    (t := { context := s.context, memory := s.memory, names := namesFor progress.root }) hdialects
      ⟨rfl, rfl, rfl, rfl⟩ remaining 0
  have hrewrite : Returns (rewrite patterns config progress.root)
      { context := s.context, memory := s.memory, names := namesFor progress.root }
        (⟨false, true, 0⟩, progress.root) t := by
    refine returns_rewrite_iff.2 ⟨{ root := progress.root, converged := true }, t, ?_, ?_, rfl, rfl⟩
    · rw [hremaining]
      exact hagain
    · rw [hzero]
  rw [applyGreedily_of_returns hrewrite]
  exact ⟨rfl, rfl⟩

namespace Arith

/-- The simplifications look at constants among the operands only. -/
theorem determined_simplifications : ∀ pattern ∈ simplifications (σ := σ), pattern.Determined := by
  intro pattern hpattern op site site' draft draft' hsite hsite' hdefinitions hrecording
    hrecording' hnone
  obtain ⟨reduct?, hseeks⟩ := exists_seeks hpattern op site.definitions
  have hfollows := hseeks site draft hsite rfl hrecording
  have hfollows' := hseeks site' draft' hsite' hdefinitions hrecording'
  unfold Attempt.Does at hfollows hfollows'
  rw [hnone] at hfollows
  cases reduct? with
  | none => exact hfollows'
  | some reduct =>
      obtain ⟨hanswer, -⟩ : false = true ∧ _ := hfollows
      cases hanswer

end Arith

/-- What is left of a chain of constants is at rest in a second run. -/
theorem applyGreedily_of_converged_chain : ∃ root : Operation, root.definedNames = ["a", "b", "c"]
    ∧ (applyGreedily (σ := Unit) ⟨Arith.simplifications⟩ { maxRewrites := some 9 } root
      (.ofRegistry .standard) ()).result
      = .ok ⟨true, true, 2⟩
    ∧ let first := applyGreedily (σ := Unit) ⟨Arith.simplifications⟩ { maxRewrites := some 9 } root
          (.ofRegistry .standard) ()
      (applyGreedily (σ := Unit) ⟨Arith.simplifications⟩ { maxRewrites := some 9 } first.op
        first.context first.memory).result
          = .ok ⟨false, true, 0⟩
        ∧ (applyGreedily (σ := Unit) ⟨Arith.simplifications⟩ { maxRewrites := some 9 } first.op
          first.context first.memory).op
          = first.op := by
  let a : Value := ⟨"a", .int 8⟩
  let b : Value := ⟨"b", .int 8⟩
  let c : Value := ⟨"c", .int 8⟩
  let root := Operation.module
    [.constant a 100, { name := "arith.muli", operands := [a, a], results := [b] },
      { name := "test.scope",
        region := some [{ name := "arith.subi", operands := [b, b], results := [c] },
          { name := "test.sink", operands := [b, c] }] }]
  have hresult : (applyGreedily (σ := Unit) ⟨Arith.simplifications⟩ { maxRewrites := some 9 } root
      (.ofRegistry .standard) ()).result = .ok ⟨true, true, 2⟩ :=
        eq_ok_of_toOption (by decide +kernel)
  exact ⟨root, by decide +kernel, hresult,
    applyGreedily_of_converged Arith.determined_simplifications hresult rfl⟩

end DialectIR
