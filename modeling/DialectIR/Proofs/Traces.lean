import DialectIR.Proofs.Outcome
import DialectIR.Proofs.Stops

/-! What is listed beside a run is what happens in it. Each sweep in the list is made of what the
one before has left, and the run ends as the last one does; the matches of the run are those at the
stops. -/

namespace DialectIR.Greedy

variable {σ : Type}

/-- Sweeps in turn, each of what the one before has left, up to the last or to one that fails; and
how they end. -/
inductive Sweeps (patterns : FrozenPatterns σ) (config : Config) :
    Operation → State σ → List (Operation × State σ) → Except Error Operation → State σ → Prop
  | rest (root : Operation) (s : State σ) : Sweeps patterns config root s [] (.ok root) s
  | fails {root : Operation} {s noted after : State σ} {iteration : Nat} {error : Error}
      (announced : noted = s.note (.iteration iteration root.name.text))
      (failed : runFrom (sweep patterns config root >>= removeDead config) noted
        = (.error error, after)) :
      Sweeps patterns config root s [(root, noted)] (.error error) after
  | goesOn {root swept : Operation} {removed : Nat} {s noted between after : State σ}
      {iteration : Nat} {later : List (Operation × State σ)} {ending : Except Error Operation}
      (announced : noted = s.note (.iteration iteration root.name.text))
      (made : Returns (sweep patterns config root >>= removeDead config) noted (swept, removed)
        between)
      (goesOn : Sweeps patterns config swept between later ending after) :
      Sweeps patterns config root s ((root, noted) :: later) ending after

variable {patterns : FrozenPatterns σ} {config : Config}

theorem ensures_self {α : Type} (step : Step σ α) (s : State σ) :
    Ensures step s (fun a s' => Returns step s a s')
    fun error s' => runFrom step s = (.error error, s') := by
  unfold Ensures Returns
  rcases runFrom step s with ⟨error | a, s'⟩
  · rfl
  · rfl

/-- **The sweeps of a run** are made in turn, and the run ends as they do. -/
theorem ensures_iterate_sweeps (remaining iteration : Nat) (progress : Progress) (s : State σ) :
    Ensures (iterate patterns config remaining iteration progress) s
      (fun last s' => Sweeps patterns config progress.root s
        (sweepStarts patterns config remaining iteration progress.root s) (.ok last.root) s')
      fun error s' => Sweeps patterns config progress.root s
        (sweepStarts patterns config remaining iteration progress.root s) (.error error) s' := by
  induction remaining generalizing iteration progress s with
  | zero => exact .rest progress.root s
  | succ remaining ih =>
      rw [iterate_eq, Ensures.get_bind_iff, sweepStarts]
      by_cases hlimit : s.limitReached config = true
      · rw [if_pos hlimit, if_pos hlimit]
        exact .rest progress.root s
      · rw [if_neg hlimit, if_neg hlimit, Ensures.modify_bind_iff, Ensures.get_bind_iff]
        dsimp only
        have hfirst := ensures_self (sweep patterns config progress.root >>= removeDead config)
          (s.note (.iteration iteration progress.root.name.text))
        refine (hfirst.weaken fun error s' hfailed => ?_).bind fun swept between _ hmade => ?_
        · rw [afterwards_of_error hfailed]
          exact .fails rfl hfailed
        · obtain ⟨swept, removed⟩ := swept
          rw [afterwards_of_returns hmade, Ensures.get_bind_iff]
          have hnoted : (s.note (.iteration iteration progress.root.name.text)).rewrites
            = s.rewrites := rfl
          dsimp only
          rw [hnoted]
          by_cases hstop : (between.rewrites = s.rewrites && removed = 0) = true
          · rw [if_pos hstop, if_pos hstop]
            exact .goesOn rfl hmade (.rest swept between)
          · rw [if_neg hstop, if_neg hstop]
            apply ((ih (iteration + 1) { root := swept, changed := true } between).weaken ?_).mono
            · exact fun last s' _ hlater => .goesOn rfl hmade hlater
            · exact fun error s' hlater => .goesOn rfl hmade hlater

/-- The sweeps and the stops that are listed for a run are those of the run. -/
structure Traced (patterns : FrozenPatterns σ) (config : Config) (root : Operation)
    (context : Context) (memory : σ) : Prop where
  matched : committed patterns config root context memory
    = matchesIn patterns config (encountersAt (stopsOf patterns config root context memory))
  swept : ∃ ending after, Sweeps patterns config root { context, memory, names := namesFor root }
      (sweepsOf patterns config root context memory) ending after
    ∧ match ending with
      | .ok last =>
          (applyGreedily patterns config root context memory).op = last ∧ ∃ changed converged,
          (applyGreedily patterns config root context memory).result
            = .ok ⟨changed, converged, after.rewrites⟩
      | .error error => (applyGreedily patterns config root context memory).op = root
          ∧ (applyGreedily patterns config root context memory).result = .error error

theorem traced_applyGreedily (patterns : FrozenPatterns σ) (config : Config) (root : Operation)
    (context : Context) (memory : σ) : Traced patterns config root context memory := by
  refine ⟨committed_eq root context memory, ?_⟩
  have hsweeps := @ensures_iterate_sweeps σ patterns config config.maxIterations 0 { root }
    { context, memory, names := namesFor root }
  unfold Ensures at hsweeps
  rcases hrun : runFrom (iterate patterns config config.maxIterations 0 { root })
    { context, memory, names := namesFor root } with ⟨error | last, after⟩
  · rw [hrun] at hsweeps
    rw [applyGreedily_of_error hrun]
    exact ⟨_, _, hsweeps, rfl, rfl⟩
  · rw [hrun] at hsweeps
    have hreturns : Returns (iterate patterns config config.maxIterations 0 { root }) _
      last after := hrun
    rw [applyGreedily_of_returns (returns_rewrite_iff.2 ⟨last, after, hreturns, rfl, rfl, rfl⟩)]
    refine ⟨_, _, hsweeps, ?_, last.changed, last.converged, rfl⟩
    dsimp only
    split
    · rfl
    next hchanged =>
      exact (unchanged_of_returns_iterate hreturns rfl rfl (Bool.eq_false_iff.2 hchanged)).1.symm

end DialectIR.Greedy
