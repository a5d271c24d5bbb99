import DialectIR.Proofs.Blind
import DialectIR.Proofs.Lockstep

/-! What greedy rewriting has to do with its context. A run loads dialects at most, whatever its
patterns do; and patterns that look neither at the context nor at the memory do the same wherever
the dialects are the same. -/

namespace DialectIR

variable {σ : Type} {patterns : FrozenPatterns σ} {config : Greedy.Config} {context other : Context}
  {pattern : Pattern σ}

namespace Greedy

variable {s : State σ}

theorem loads_conclude (h : context.Loads s.context) (depth : Nat) (op : Operation)
    (pattern : Pattern σ) (outcome : Except Error Bool × Draft σ) :
    context.Loads (s.conclude depth op pattern outcome).2.context := by
  obtain ⟨answer, draft⟩ := outcome
  unfold State.conclude
  dsimp only
  split
  · exact h.note _
  · exact h.note _
  · split
    · exact h.note _
    · exact (h.note _).note _

/-- A run beside itself, with no more done to a context than that dialects were loaded. -/
def loadingLink (σ : Type) (context : Context) : Link σ where
  Linked s t := t = s ∧ context.Loads s.context
  Followed _ _ := True
  followed_before _ _ := trivial
  similar h := h.1 ▸ .refl _
  learn h _ _ _ := ⟨by rw [h.1], h.2⟩
  note h event := ⟨by rw [h.1], h.2.note event⟩
  prune h op := ⟨by rw [h.1], h.2.removeDeadOps op⟩

theorem followsRuns_loading (patterns : FrozenPatterns σ) (config : Config) (context : Context) :
    (loadingLink σ context).FollowsRuns patterns patterns config config := by
  have hlimit : (loadingLink σ context).SameLimit config config :=
    fun s t hlinked _ => by rw [hlinked.1]
  have hattempt (depth : Nat) (op : Operation) (pattern : Pattern σ) :
      (loadingLink σ context).Follows (attempt depth op pattern) (attempt depth op pattern) := by
    refine Link.follows_attempt fun {s t concluded} hlinked hconcluded _ => ?_
    obtain ⟨rfl, hloads⟩ := hlinked
    subst hconcluded
    exact ⟨rfl, rfl, loads_conclude hloads depth op pattern _⟩
  exact
    { topDown := rfl
      applyPatterns := fun depth op => hlimit.follows_ite none (Link.follows_attemptFirst
        fun pattern _ => hattempt depth op pattern)
      limit := hlimit
      removeDeadOps := rfl
      rewrites := fun hlinked => by rw [hlinked.1] }

/-- Runs that differ in their contexts and memories only, where the contexts give the same answers
about dialects. -/
def blindLink (σ : Type) : Link σ where
  Linked s t := s.Similar t ∧ t.names = s.names ∧ t.rewrites = s.rewrites
  Followed _ _ := True
  followed_before _ _ := trivial
  similar h := h.1
  learn h _ _ _ := ⟨⟨rfl, rfl, rfl, h.1.dialects⟩, h.2⟩
  note h event := ⟨h.1.note event event, h.2⟩
  prune h op := ⟨h.1.prune op, h.2⟩

theorem follows_attempt_of_blind (h : pattern.Blind) (depth : Nat) (op : Operation) :
    (blindLink σ).Follows (attempt depth op pattern) (attempt depth op pattern) := by
  refine Link.follows_attempt fun {s t concluded} hlinked hconcluded _ => ?_
  subst hconcluded
  obtain ⟨hsimilar, hnames, hrewrites⟩ := hlinked
  have hop : (t.site op).op = (s.site op).op := rfl
  have hdefinitions : (t.site op).definitions = (s.site op).definitions := hsimilar.definitions
  have hrun := (h op).run hop hdefinitions s.draft t.draft hnames rfl
  have hnoted := hsimilar.note (.matching depth op.name.text pattern.name)
    (.matching depth op.name.text pattern.name)
  generalize (pattern.rewrite op).run.run (s.site op) s.draft = outcome at hrun ⊢
  generalize (pattern.rewrite op).run.run (t.site op) t.draft = outcome' at hrun ⊢
  obtain ⟨answer, draft⟩ := outcome
  obtain ⟨answer', draft'⟩ := outcome'
  obtain ⟨rfl, hdrawn, hrecording, -, -⟩ := hrun
  dsimp only at hdrawn hrecording
  have htried : State.Similar { s.note _ with names := draft.names, memory := draft.memory }
      { t.note _ with names := draft'.names, memory := draft'.memory } :=
    ⟨hnoted.definitions, hnoted.replaced, hnoted.erased, hnoted.dialects⟩
  rcases answer' with cause | _ | _
  · exact ⟨rfl, htried, hdrawn, hrewrites⟩
  · exact ⟨rfl, ⟨hnoted.definitions, hnoted.replaced, hnoted.erased, hnoted.dialects⟩,
      hnames, hrewrites⟩
  · unfold State.conclude
    dsimp only
    rw [hrecording]
    split
    · exact ⟨rfl, htried, hdrawn, hrewrites⟩
    · have hmatched := htried.note (.success depth) (.success depth)
      exact ⟨rfl, ⟨hmatched.definitions, hmatched.replaced, hmatched.erased, hmatched.dialects⟩, hdrawn,
        congrArg (· + 1) hrewrites⟩

theorem followsRuns_blind (h : ∀ pattern ∈ patterns.patterns, pattern.Blind) (config : Config) :
    (blindLink σ).FollowsRuns patterns patterns config config := by
  have hlimit : (blindLink σ).SameLimit config config := by
    intro s t hlinked _
    unfold State.limitReached
    rw [hlinked.2.2]
  exact
    { topDown := rfl
      applyPatterns := fun depth op => hlimit.follows_ite none <| Link.follows_attemptFirst fun pattern hpattern =>
        follows_attempt_of_blind (h pattern (List.mem_filter.1 hpattern).1) depth op
      limit := hlimit
      removeDeadOps := rfl
      rewrites := fun hlinked => hlinked.2.2 }

end Greedy

open Greedy

/-- **A run loads dialects at most.** -/
theorem loads_applyGreedily (patterns : FrozenPatterns σ) (config : Config) (root : Operation)
    (context : Context) (memory : σ) :
    context.Loads (applyGreedily patterns config root context memory).context := by
  have hstart : (loadingLink σ context).Linked { context, memory, names := namesFor root }
    { context, memory, names := namesFor root } :=
    ⟨rfl, .refl context⟩
  obtain ⟨-, -, s, t, hlinked, hs, -⟩ :=
    (followsRuns_loading patterns config context).followsSweeps.ends_applyGreedily
      rfl trivial hstart fun _ => trivial
  rw [hs]
  exact hlinked.2

/-- **Blind patterns do the same in every context that knows the same dialects**, whatever the
memory holds. -/
theorem applyGreedily_of_blind (hblind : ∀ pattern ∈ patterns.patterns, pattern.Blind)
    (config : Config) (root : Operation) (hsame : context.SameDialects other) (memory memory' : σ) :
    (applyGreedily patterns config root other memory').result
      = (applyGreedily patterns config root context memory).result
      ∧ (applyGreedily patterns config root other memory').op
        = (applyGreedily patterns config root context memory).op := by
  have hstart : (blindLink σ).Linked { context, memory, names := namesFor root }
      { context := other, memory := memory', names := namesFor root } :=
        ⟨⟨rfl, rfl, rfl, hsame⟩, rfl, rfl⟩
  obtain ⟨hresult, hop, -⟩ := (followsRuns_blind hblind config).followsSweeps.ends_applyGreedily
    rfl trivial hstart fun _ => trivial
  exact ⟨hresult, hop⟩

end DialectIR
