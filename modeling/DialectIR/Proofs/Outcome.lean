import DialectIR.Proofs.Fixpoint
import DialectIR.Proofs.RewriteLimit
import DialectIR.Proofs.Upkeep

/-! What a run reports. Without a reported change the tree is as it was, no run counts more matches
than are allowed, and the operation that holds everything is not rewritten. -/

namespace DialectIR

namespace Greedy

open Operation

variable {σ : Type} {patterns : FrozenPatterns σ} {config : Config} {root : Operation}
  {s s' : State σ}

/-- A change that has been noticed is not forgotten. -/
theorem changed_of_returns_iterate {remaining iteration : Nat} {progress progress' : Progress}
    (h : Returns (iterate patterns config remaining iteration progress) s progress' s')
    (hchanged : progress.changed = true) :
    progress'.changed = true := by
  induction remaining generalizing iteration progress s with
  | zero =>
      obtain ⟨rfl, -⟩ := Returns.pure_iff.1 h
      exact hchanged
  | succ remaining ih =>
      obtain ⟨-, rfl, -⟩ | ⟨-, swept, s₁, -, ⟨-, rfl, -⟩ | ⟨-, hrest⟩⟩ :=
        returns_iterate_succ_iff.1 h
      · exact hchanged
      · exact hchanged
      · exact ih hrest rfl

/-- **Every change is noticed**: sweeps that report none have left the tree as it was and counted no
match. -/
theorem unchanged_of_returns_iterate {remaining iteration : Nat} {progress progress' : Progress}
    (h : Returns (iterate patterns config remaining iteration progress) s progress' s')
    (hreplaced : s.replaced = .empty) (herased : s.erased = [])
    (hunchanged : progress'.changed = false) :
    progress'.root = progress.root ∧ s'.rewrites = s.rewrites := by
  cases remaining with
  | zero =>
      obtain ⟨rfl, rfl⟩ := Returns.pure_iff.1 h
      exact ⟨rfl, rfl⟩
  | succ remaining =>
      obtain ⟨-, rfl, rfl⟩
        | ⟨-, swept, s₁, hswept, ⟨⟨hrewrites, hremoved⟩, rfl, rfl⟩ | ⟨-, hrest⟩⟩ :=
        returns_iterate_succ_iff.1 h
      · exact ⟨rfl, rfl⟩
      · exact ⟨root_of_returns_swept (s := s.note _) hreplaced herased hswept hrewrites hremoved,
          hrewrites⟩
      · -- Behind this sweep a change is noticed.
        rw [changed_of_returns_iterate hrest rfl] at hunchanged
        cases hunchanged

/-- No more matches have been counted than are allowed. -/
def State.Bounded (config : Config) (s : State σ) : Prop :=
  ∀ most, config.maxRewrites = some most → s.rewrites ≤ most

/-- A run beside itself, as long as there are no errors and no more matches than are allowed. -/
def boundedLink (σ : Type) (config : Config) : Link σ where
  Linked s t := t = s ∧ s.Bounded config
  Followed ok _ := ok = true
  followed_before _ _ := rfl
  similar h := h.1 ▸ .refl _
  learn h _ _ _ := ⟨h.1 ▸ rfl, h.2⟩
  note h _ := ⟨h.1 ▸ rfl, h.2⟩
  prune h _ := ⟨h.1 ▸ rfl, h.2⟩

/-- Where the limit is not reached, one match more is allowed. -/
theorem bounded_succ (hlimit : s.limitReached config = false) (hle : s'.rewrites ≤ s.rewrites + 1) :
    s'.Bounded config := by
  intro most hmost
  rw [Bool.eq_false_iff, ne_eq, limitReached_iff] at hlimit
  by_contra hmore
  exact hlimit ⟨most, hmost, by omega⟩

theorem follows_attemptFirst_bounded (depth : Nat) (op : Operation) (tried : List (Pattern σ)) :
    (boundedLink σ config).Follows
      (get >>= fun s => if s.limitReached config then pure none else attemptFirst depth op tried)
      (get >>= fun s => if s.limitReached config then pure none
        else attemptFirst depth op tried) where
  grows s := by
    rw [runFrom_get_bind]
    split
    · exact Nat.le_refl _
    · exact rewrites_attemptFirst depth op tried s
  ends {s t} hlinked hfollowed := by
    obtain ⟨rfl, hbounded⟩ := hlinked
    refine ⟨rfl, rfl, ?_⟩
    rw [runFrom_get_bind] at hfollowed ⊢
    cases hlimit : t.limitReached config with
    | true => exact hbounded
    | false =>
        rw [hlimit, if_neg Bool.false_ne_true] at hfollowed
        rw [if_neg Bool.false_ne_true]
        rcases hrun : runFrom (attemptFirst depth op tried) t with ⟨error | recording?, t'⟩
        · rw [hrun] at hfollowed
          cases hfollowed
        · have hcount := ((ensures_attemptFirst_counts depth op tried t).of_returns hrun).1
          exact bounded_succ hlimit (hcount ▸ Nat.add_le_add_left Option.length_toList_le _)

theorem followsRuns_bounded :
    (boundedLink σ config).FollowsRuns patterns patterns config config where
  topDown := rfl
  applyPatterns depth op := follows_attemptFirst_bounded depth op _
  limit _ _ hlinked _ := hlinked.1 ▸ rfl
  removeDeadOps := rfl
  rewrites hlinked := hlinked.1 ▸ rfl

/-- Sweeps stop counting at the limit. -/
theorem bounded_of_returns_iterate {remaining iteration : Nat} {progress progress' : Progress}
    (h : Returns (iterate patterns config remaining iteration progress) s progress' s')
    (hbounded : s.Bounded config) :
    s'.Bounded config := by
  obtain ⟨_, -, -, hbounded'⟩ :=
    (followsRuns_bounded.followsSweeps.follows_iterate remaining iteration trivial).exists_returns
      ⟨rfl, hbounded⟩ h rfl
  exact hbounded'

end Greedy

open Greedy

/-- **A run reports what it did.** The tree that its sweeps worked on is as it was if no change is
reported, and then no match is. No more matches are reported than are allowed. The operation that
holds everything is not rewritten, and if it uses no values, then it stays as it was. -/
theorem applyGreedily_reports {σ : Type} {patterns : FrozenPatterns σ} {config : Config}
    {root : Operation} {context : Context} {memory : σ} {outcome : Outcome}
    (hroot : root.operands = [])
    (hresult : (applyGreedily patterns config root context memory).result = .ok outcome) :
    ∃ work after, Returns (iterate patterns config config.maxIterations 0 { root })
        { context, memory, names := namesFor root } work after
      ∧ outcome = ⟨work.changed, work.converged, after.rewrites⟩
      ∧ (applyGreedily patterns config root context memory).op = work.root
      ∧ (outcome.changed = false → work.root = root ∧ outcome.rewrites = 0)
      ∧ (∀ most, config.maxRewrites = some most → outcome.rewrites ≤ most)
      ∧ work.root.toHead = root.toHead := by
  obtain ⟨op, s, hreturns⟩ := exists_returns_of_result hresult
  rw [applyGreedily_of_returns hreturns]
  obtain ⟨work, after, hiterate, rfl, rfl, -⟩ := returns_rewrite_iff.1 hreturns
  have hunchanged := unchanged_of_returns_iterate hiterate rfl rfl
  refine ⟨work, after, hiterate, rfl, ?_, hunchanged, ?_, ?_⟩
  · dsimp only
    split
    · rfl
    next hchanged => exact (hunchanged (Bool.eq_false_iff.2 hchanged)).1.symm
  · exact bounded_of_returns_iterate hiterate fun most _ => Nat.zero_le most
  · obtain ⟨f, hhead⟩ := toHead_of_returns_iterate hiterate
    rw [hhead, Head.mapOperands, hroot, List.map_nil, ← hroot]

/-- A chain of constants: one match is allowed, and reported, of the two that there are. Without
patterns nothing is reported. -/
theorem applyGreedily_reports_chain :
    ∃ (root : Operation) (config : Config), root.definedNames = ["a", "b", "c"]
    ∧ config.maxRewrites = some 1
    ∧ (∃ work after,
      Returns (iterate (σ := Unit) ⟨Arith.simplifications⟩ config config.maxIterations 0 { root })
        { context := .ofRegistry .standard, memory := (), names := namesFor root } work after
      ∧ work.changed = true ∧ after.rewrites = 1 ∧ work.root ≠ root
      ∧ work.root.toHead = root.toHead)
    ∧ ∃ work after, Returns (iterate (σ := Unit) .empty config config.maxIterations 0 { root })
        { context := .ofRegistry .standard, memory := (), names := namesFor root } work after
      ∧ work.changed = false ∧ work.root = root := by
  let a : Value := ⟨"a", .int 8⟩
  let b : Value := ⟨"b", .int 8⟩
  let c : Value := ⟨"c", .int 8⟩
  let root := Operation.module
    [.constant a 100, { name := "arith.muli", operands := [a, a], results := [b] },
      { name := "test.scope",
        region := some [{ name := "arith.subi", operands := [b, b], results := [c] },
          { name := "test.sink", operands := [b, c] }] }]
  let config : Config := { maxRewrites := some 1 }
  have hresult : (applyGreedily (σ := Unit) ⟨Arith.simplifications⟩ config root
    (.ofRegistry .standard) ()).result
      = .ok ⟨true, false, 1⟩ := eq_ok_of_toOption (by decide +kernel)
  have hchanged : (applyGreedily (σ := Unit) ⟨Arith.simplifications⟩ config root
    (.ofRegistry .standard) ()).op ≠ root := by
    decide +kernel
  have hidle : (applyGreedily (σ := Unit) .empty config root (.ofRegistry .standard) ()).result
      = .ok ⟨false, true, 0⟩ := eq_ok_of_toOption (by decide +kernel)
  obtain ⟨work, after, hiterate, houtcome, hop, -, -, hhead⟩ := applyGreedily_reports rfl hresult
  obtain ⟨work', after', hiterate', houtcome', -, hsame, -⟩ := applyGreedily_reports rfl hidle
  obtain ⟨hmade, -, hcount⟩ := Outcome.mk.inj houtcome
  obtain ⟨hnone, -, -⟩ := Outcome.mk.inj houtcome'
  rw [hop] at hchanged
  exact ⟨root, config, by decide +kernel, rfl,
    ⟨work, after, hiterate, hmade.symm, hcount.symm, hchanged, hhead⟩, work', after',
    hiterate', hnone.symm, (hsame rfl).1⟩

end DialectIR
