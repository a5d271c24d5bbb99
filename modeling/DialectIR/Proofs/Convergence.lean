import DialectIR.Proofs.Outcome
import DialectIR.Proofs.Precedence

/-! Runs that do not converge. Such a run has used up what it was allowed, and each of its sweeps
has changed something. Whether the tree that it leaves is a fixpoint shows in one sweep more: a
sweep without a match has met every operation, and no pattern has anything to do there. -/

namespace DialectIR

variable {σ : Type}

/-- An operation, and the definitions that are known where a sweep comes to it. -/
structure Sight where
  op : Operation
  definitions : Dict Operation

namespace Operation

/-- Definitions, and with them those of the results of an operation. -/
def define (op : Operation) (known : Dict Operation) : Dict Operation :=
  op.results.foldl (fun known result => known.insert result.name op) known

mutual

/-- The definitions that are known behind what an operation holds. -/
def knownWithin : Operation → Dict Operation → Dict Operation
  | ⟨_, none⟩, known => known
  | ⟨_, some ops⟩, known => knownBehind ops known

/-- The definitions that are known behind some operations. -/
def knownBehind : List Operation → Dict Operation → Dict Operation
  | [], known => known
  | op :: ops, known => knownBehind ops (op.define (knownWithin op known))

end

mutual

/-- What a sweep that changes nothing sees in an operation. -/
def sights (topDown : Bool) : Operation → Dict Operation → List Sight
  | ⟨_, none⟩, _ => []
  | ⟨_, some ops⟩, known => sightsAlong topDown ops known

/-- What a sweep that changes nothing sees along some operations. -/
def sightsAlong (topDown : Bool) : List Operation → Dict Operation → List Sight
  | [], _ => []
  | op :: ops, known =>
      (if topDown then ⟨op, known⟩ :: sights topDown op known
        else sights topDown op known ++ [⟨op, knownWithin op known⟩])
        ++ sightsAlong topDown ops (op.define (knownWithin op known))

end

/-- In either order a sweep has seen what an operation holds, once, when it is through with the
operation. -/
theorem knownWithin_once (topDown : Bool) (op : Operation) (known : Dict Operation) :
    let before := if !topDown then op.knownWithin known else known
    (if topDown then op.knownWithin before else before) = op.knownWithin known := by
  cases topDown with
  | true => rfl
  | false => rfl

theorem sightsAlong_cons (topDown : Bool) (op : Operation) (ops : List Operation)
    (known : Dict Operation) :
    let before := if !topDown then op.knownWithin known else known
    sightsAlong topDown (op :: ops) known = (if !topDown then op.sights topDown known else [])
      ++ ([⟨op, before⟩]
      ++ ((if topDown then op.sights topDown before else [])
        ++ sightsAlong topDown ops (op.define (op.knownWithin known)))) := by
  rw [sightsAlong]
  cases topDown with
  | true => rfl
  | false => exact List.append_assoc _ _ _

end Operation

/-- The pattern may match the operation in view of the definitions. -/
def Pattern.Matches (pattern : Pattern σ) (op : Operation) (definitions : Dict Operation) : Prop :=
  pattern.DoesOn op definitions fun answer _ _ => answer = .ok true

namespace Greedy

/-- No pattern for the operation matches it. -/
def Unmatched (patterns : FrozenPatterns σ) (sight : Sight) : Prop :=
  ∀ pattern ∈ patterns.patternsFor sight.op.name, ¬ pattern.Matches sight.op sight.definitions

/-- There is nothing left to do: no pattern matches anything that is nested in the operation, and
nothing in it is dead, if dead operations are to be removed. -/
structure IsFixpoint (patterns : FrozenPatterns σ) (config : Config) (context : Context)
    (root : Operation) : Prop where
  unmatched : ∀ sight ∈ root.sights config.topDown .empty, Unmatched patterns sight
  alive : config.removeDeadOps = true → (root.removeDeadOps context).removed = 0

open Operation

variable {patterns : FrozenPatterns σ} {config : Config} {depth : Nat} {op root : Operation}
  {context : Context} {s s' s'' : State σ}

theorem matches_of_tryAt {pattern : Pattern σ} {names : NameSupply} {memory : σ} {draft : Draft σ}
    (h : pattern.tryAt (s.site op) names memory = (.ok true, draft)) :
    pattern.Matches op s.definitions :=
  ⟨s.site op, { names, memory }, rfl, rfl, rfl, congrArg Prod.fst h⟩

/-- Patterns that have declined do not match, whatever the memory holds. -/
theorem Declined.not_matches {tried : List (Pattern σ)} {names : NameSupply} {memory memory' : σ}
    (h : Declined (s.site op) names tried memory memory')
    (htried : ∀ pattern ∈ tried, pattern.Determined) :
    ∀ pattern ∈ tried, ¬ pattern.Matches op s.definitions := by
  induction h with
  | nil memory => exact List.forall_mem_nil _
  | cons hpattern hrest ih =>
      obtain ⟨hfirst, hlater⟩ := List.forall_mem_cons.1 htried
      refine List.forall_mem_cons.2 ⟨?_, ih hlater⟩
      rintro ⟨site, draft, hop, hdefinitions, hrecording, hmatch⟩
      have hdeclined := hfirst op (s.site op) site _ draft rfl hop hdefinitions rfl hrecording
        (congrArg Prod.fst hpattern)
      rw [Attempt.Does, hdeclined] at hmatch
      cases hmatch

/-- Nothing is chosen just if nothing matches. -/
theorem Chooses.eq_none_iff {tried : List (Pattern σ)} {names names' : NameSupply}
    {memory memory' : σ} {recording? : Option Recording}
    (h : Chooses tried (s.site op) names memory recording? names' memory')
    (htried : ∀ pattern ∈ tried, pattern.Determined) :
    recording? = none ↔ ∀ pattern ∈ tried, ¬ pattern.Matches op s.definitions := by
  cases h with
  | first hfirst hdeclined hpattern =>
      refine ⟨fun hnone => (Option.some_ne_none _ hnone).elim, fun hunmatched => ?_⟩
      exact (hunmatched _ (hfirst ▸ List.mem_append_right _ List.mem_cons_self)
        (matches_of_tryAt hpattern)).elim
  | nothing hdeclined => exact ⟨fun _ => hdeclined.not_matches htried, fun _ => rfl⟩

theorem State.definitions_register (s : State σ) (op : Operation) :
    (s.register op).definitions = op.define s.definitions := rfl

theorem Offer.rewrites_committed (offer : Offer σ) :
    offer.committed.rewrites = offer.after.rewrites :=
  (rewrites_act _ _ _).trans (State.advances_register _ _).rewrites

theorem Offer.rewrites_le {offer : Offer σ}
    (h : Returns (applyPatterns patterns config depth offer.op) offer.before
    offer.recording? offer.after) : offer.before.rewrites ≤ offer.committed.rewrites :=
  offer.rewrites_committed ▸ ((counts_applyPatterns depth offer.op offer.before).of_returns h).le

mutual

theorem WalkedAll.rewrites_le {depth : Nat} {ops out : List Operation} {s s' : State σ}
    {offers : List (Offer σ)} :
    WalkedAll patterns config depth ops s offers out s' → s.rewrites ≤ s'.rewrites
  | .nil _ _ => Nat.le_refl _
  | .gone _ hinner hoffer _ hlater =>
      (hinner.rewrites_le.trans (Offer.rewrites_le hoffer)).trans hlater.rewrites_le
  | .stays _ hinner hoffer _ hinside hlater =>
      ((hinner.rewrites_le.trans (Offer.rewrites_le hoffer)).trans hinside.rewrites_le).trans
        hlater.rewrites_le

theorem WalkedWithin.rewrites_le {now : Bool} {depth : Nat} {op op' : Operation} {s s' : State σ}
    {offers : List (Offer σ)} :
    WalkedWithin patterns config now depth op s offers op' s' → s.rewrites ≤ s'.rewrites
  | .skip _ _ _ => Nat.le_refl _
  | .leaf _ _ _ => Nat.le_refl _
  | .region hops => hops.rewrites_le

end

/-- A part of a sweep tells whether there was something to do: it counts a match just if it has met
an operation that is matched. If it counts none, then nothing was changed, and what it has met is
known. -/
structure Tells (patterns : FrozenPatterns σ) (met : List Sight) (same : Prop)
    (known : Dict Operation) (s s' : State σ) : Prop where
  iff : s'.rewrites = s.rewrites ↔ ∀ sight ∈ met, Unmatched patterns sight
  still : s'.rewrites = s.rewrites → same ∧ s'.replaced = .empty ∧ s'.definitions = known

namespace Tells

variable {met met' : List Sight} {p q : Prop} {known known' : Dict Operation}

theorem refl (hsame : p) (hreplaced : s.replaced = .empty) :
    Tells patterns [] p s.definitions s s :=
  ⟨⟨fun _ => List.forall_mem_nil _, fun _ => rfl⟩, fun _ => ⟨hsame, hreplaced, rfl⟩⟩

/-- The second part starts from what the first has left, and is of interest only if that has counted
no match. -/
theorem trans (h : Tells patterns met p known s s') (hle : s.rewrites ≤ s'.rewrites)
    (hle' : s'.rewrites ≤ s''.rewrites)
    (h' : s'.rewrites = s.rewrites → p → s'.replaced = .empty → s'.definitions = known →
      Tells patterns met' q known' s' s'') :
    Tells patterns (met ++ met') q known' s s'' := by
  have hnext (hstill : s'.rewrites = s.rewrites) : Tells patterns met' q known' s' s'' := by
    obtain ⟨hsame, hreplaced, hdefinitions⟩ := h.still hstill
    exact h' hstill hsame hreplaced hdefinitions
  refine ⟨?_, fun hall => ?_⟩
  · rw [List.forall_mem_append, ← h.iff]
    constructor
    · intro hall
      have hstill : s'.rewrites = s.rewrites := by omega
      exact ⟨hstill, (hnext hstill).iff.1 (hall.trans hstill.symm)⟩
    · rintro ⟨hstill, hmet⟩
      exact ((hnext hstill).iff.2 hmet).trans hstill
  · have hstill : s'.rewrites = s.rewrites := by omega
    exact (hnext hstill).still (hall.trans hstill.symm)

end Tells

/-- An offer tells whether the operation is matched. -/
theorem tells_offer (hpatterns : ∀ pattern ∈ patterns.patterns, pattern.Determined)
    {offer : Offer σ}
    (h : Returns (applyPatterns patterns config depth offer.op) offer.before offer.recording? offer.after)
    (hlimit : offer.before.limitReached config = false)
    (hreplaced : offer.before.replaced = .empty) :
    Tells patterns [⟨offer.op, offer.before.definitions⟩] (offer.changes = {})
      offer.before.definitions offer.before offer.committed := by
  have hchosen := chosen_of_returns_applyPatterns hlimit h
  have hcount := hchosen.rewrites
  rw [← offer.rewrites_committed] at hcount
  have hnone : offer.committed.rewrites = offer.before.rewrites ↔ offer.recording? = none := by
    rw [hcount]
    cases offer.recording? with
    | none => exact ⟨fun _ => rfl, fun _ => rfl⟩
    | some recording =>
        exact ⟨fun h => (Nat.succ_ne_self _ h).elim, fun h => (Option.some_ne_none _ h).elim⟩
  refine ⟨?_, fun hstill => ?_⟩
  · rw [hnone, List.forall_mem_singleton]
    exact hchosen.chooses.eq_none_iff fun pattern hpattern =>
      hpatterns pattern (List.mem_filter.1 hpattern).1
  · have hchanges : offer.changes = {} := by rw [Offer.changes, hnone.1 hstill, Option.getD_none]
    rw [Offer.committed, hchanges]
    exact ⟨rfl, hchosen.replaced.trans hreplaced, hchosen.definitions⟩

mutual

/-- **A walk tells whether there was something to do.** -/
theorem WalkedAll.tells (hpatterns : ∀ pattern ∈ patterns.patterns, pattern.Determined)
    {depth : Nat} {ops out : List Operation} {s s' : State σ} {offers : List (Offer σ)} :
    WalkedAll patterns config depth ops s offers out s' → s.limitReached config = false →
      s.replaced = .empty →
      Tells patterns (sightsAlong config.topDown ops s.definitions) (out = ops)
        (knownBehind ops s.definitions) s s'
  | .nil _ _, _, hreplaced => .refl rfl hreplaced
  | .gone _ hinner hoffer hgone hlater, hlimit, hreplaced => by
      -- An operation that goes was matched, so nothing is to be known about what comes behind it.
      have hfirst := hinner.tells hpatterns hlimit hreplaced
      rw [applyTo_of_isEmpty (hreplaced ▸ rfl)] at hfirst
      rw [sightsAlong_cons]
      refine hfirst.trans hinner.rewrites_le ((Offer.rewrites_le hoffer).trans hlater.rewrites_le)
        fun hstill hop hreplaced₁ hdefinitions₁ => ?_
      have hsecond := tells_offer hpatterns hoffer
        (limitReached_of_le hlimit (Nat.le_of_eq hstill)) hreplaced₁
      rw [hop, hdefinitions₁] at hsecond
      refine hsecond.trans (Offer.rewrites_le hoffer) hlater.rewrites_le fun _ hchanges _ _ => ?_
      rw [hchanges] at hgone
      cases hgone
  | .stays _ hinner hoffer hstays hinside hlater, hlimit, hreplaced => by
      -- Four parts follow each other: what the operation holds, the offer, what it holds if it is
      -- not visited before, and the rest.
      have hfirst := hinner.tells hpatterns hlimit hreplaced
      rw [applyTo_of_isEmpty (hreplaced ▸ rfl)] at hfirst
      rw [sightsAlong_cons]
      refine hfirst.trans hinner.rewrites_le
        (((Offer.rewrites_le hoffer).trans hinside.rewrites_le).trans hlater.rewrites_le)
        fun hstill hop hreplaced₁ hdefinitions₁ => ?_
      have hlimit₁ := limitReached_of_le hlimit (Nat.le_of_eq hstill)
      have hsecond := tells_offer hpatterns hoffer hlimit₁ hreplaced₁
      rw [hop, hdefinitions₁] at hsecond
      refine hsecond.trans (Offer.rewrites_le hoffer) (hinside.rewrites_le.trans hlater.rewrites_le)
        fun hstill₁ hchanges hreplaced₂ hdefinitions₂ => ?_
      rw [hchanges, hop] at hstays
      have hlimit₂ := limitReached_of_le hlimit₁ (Nat.le_of_eq hstill₁)
      have hthird := hinside.tells hpatterns hlimit₂ hreplaced₂
      rw [← Option.some.inj hstays, hdefinitions₂, knownWithin_once] at hthird
      refine hthird.trans hinside.rewrites_le hlater.rewrites_le
        fun hstill₂ hkept' hreplaced₃ hdefinitions₃ => ?_
      have hlast := hlater.tells hpatterns (limitReached_of_le hlimit₂ (Nat.le_of_eq hstill₂))
        hreplaced₃
      rw [State.definitions_register, hkept', hdefinitions₃] at hlast
      exact ⟨hlast.iff, fun hall => (hlast.still hall).imp_left fun hout => by
        rw [hchanges, hkept', hout]; rfl⟩

theorem WalkedWithin.tells (hpatterns : ∀ pattern ∈ patterns.patterns, pattern.Determined)
    {now : Bool} {depth : Nat} {op op' : Operation} {s s' : State σ} {offers : List (Offer σ)} :
    WalkedWithin patterns config now depth op s offers op' s' → s.limitReached config = false →
      s.replaced = .empty →
      Tells patterns (if now then op.sights config.topDown s.definitions else []) (op' = op)
        (if now then op.knownWithin s.definitions else s.definitions) s s'
  | .skip _ _ _, _, hreplaced => .refl rfl hreplaced
  | .leaf _ _ _, _, hreplaced => .refl rfl hreplaced
  | .region hops, hlimit, hreplaced => by
      obtain ⟨hiff, hstill⟩ := hops.tells hpatterns hlimit hreplaced
      refine ⟨hiff, fun hrewrites => ?_⟩
      obtain ⟨rfl, hrest⟩ := hstill hrewrites
      exact ⟨rfl, hrest⟩

end

/-! ### Sweeps and runs -/

theorem rewrites_le_of_returns_swept {swept : Operation × Nat}
    (h : Returns (sweep patterns config root >>= removeDead config) s swept s') :
    s.rewrites ≤ s'.rewrites := by
  obtain ⟨root', s₁, hsweep, -, hadvances⟩ := exists_returns_sweep h
  obtain ⟨offers, walked, between, hwalked, -, rfl⟩ := exists_walked_of_returns_sweep hsweep
  exact hadvances.rewrites ▸ hwalked.rewrites_le

/-- **A sweep tells whether the tree was a fixpoint**: if so, it counts no match and nothing dead is
found behind it, and only then. -/
theorem isFixpoint_iff_of_returns_swept
    (hpatterns : ∀ pattern ∈ patterns.patterns, pattern.Determined) {swept : Operation × Nat}
    (h : Returns (sweep patterns config root >>= removeDead config) s swept s')
    (hlimit : s.limitReached config = false) (hreplaced : s.replaced = .empty)
    (herased : s.erased = []) (hdialects : context.SameDialects s.context) :
    (s'.rewrites = s.rewrites ∧ swept.2 = 0) ↔ IsFixpoint patterns config context root := by
  obtain ⟨root', s₁, hsweep, rfl, hadvances⟩ := exists_returns_sweep h
  have hroot := ((ensures_sweep_counts hreplaced herased).of_returns hsweep).2
  rw [cleaned_congr (hdialects.trans (sameDialects_sweep hsweep)), hadvances.rewrites, Nat.add_zero,
    cleaned_eq_zero_iff]
  obtain ⟨offers, walked, between, hwalked, -, rfl⟩ := exists_walked_of_returns_sweep hsweep
  have htells := (hwalked.tells hpatterns hlimit hreplaced).iff
  constructor
  · rintro ⟨hstill, halive⟩
    exact ⟨htells.1 hstill, hroot hstill ▸ halive⟩
  · rintro ⟨hunmatched, halive⟩
    have hstill := htells.2 hunmatched
    exact ⟨hstill, (hroot hstill).symm ▸ halive⟩

/-- Behind a sweep that changed something there are those over what it left. -/
theorem sweepStarts_of_changed {remaining iteration removed : Nat} {root' : Operation}
    (hlimit : s.limitReached config = false)
    (hswept : Returns (sweep patterns config root >>= removeDead config)
      (s.note (.iteration iteration root.name.text))
      (root', removed) s') (hchanged : ¬ (s'.rewrites = s.rewrites ∧ removed = 0)) :
    sweepStarts patterns config (remaining + 1) iteration root s
      = (root, s.note (.iteration iteration root.name.text))
      :: sweepStarts patterns config remaining (iteration + 1) root' s' := by
  have hgoes : ¬ (decide (s'.rewrites = s.rewrites) && decide (removed = 0)) = true := by
    rwa [Bool.and_eq_true, decide_eq_true_eq, decide_eq_true_eq]
  rw [sweepStarts, if_neg (ne_true_of_eq_false hlimit)]
  dsimp only
  rw [afterwards_of_returns hswept, if_neg hgoes]

/-- Sweeps that do not converge have all changed something, and have used up what was allowed. -/
theorem exhausted_of_returns_iterate {remaining iteration : Nat} {progress progress' : Progress}
    (h : Returns (iterate patterns config remaining iteration progress) s progress' s')
    (hconverged : progress'.converged = false) :
    ((sweepStarts patterns config remaining iteration progress.root s).length = remaining
      ∨ s'.limitReached config = true)
      ∧ ∀ start ∈ sweepStarts patterns config remaining iteration progress.root s, ∃ swept after,
        Returns (sweep patterns config start.1 >>= removeDead config) start.2 swept after
          ∧ (start.2.rewrites < after.rewrites ∨ 0 < swept.2) := by
  induction remaining generalizing iteration progress s with
  | zero => exact ⟨.inl rfl, List.forall_mem_nil _⟩
  | succ remaining ih =>
      obtain ⟨hlimit, -, rfl⟩
        | ⟨hlimit, ⟨root, removed⟩, s₁, hswept, ⟨-, rfl, -⟩ | ⟨hchanged, hrest⟩⟩ :=
        returns_iterate_succ_iff.1 h
      · rw [sweepStarts, if_pos hlimit]
        exact ⟨.inr hlimit, List.forall_mem_nil _⟩
      · cases hconverged
      · obtain ⟨hlength, hall⟩ := ih hrest
        rw [sweepStarts_of_changed hlimit hswept hchanged]
        refine ⟨hlength.imp_left (congrArg (· + 1)),
          List.forall_mem_cons.2 ⟨⟨(root, removed), s₁, hswept, ?_⟩, hall⟩⟩
        have hle := rewrites_le_of_returns_swept hswept
        rw [rewrites_note] at hle ⊢
        dsimp only at hchanged ⊢
        omega

end Greedy

open Greedy

/-- A run that may make a match tells whether the tree was a fixpoint: just then it reports that it
converged without a change. -/
theorem applyGreedily_eq_iff_isFixpoint {patterns : FrozenPatterns σ} {config : Config}
    {root : Operation} {context : Context} {memory : σ} {outcome : Outcome}
    (hpatterns : ∀ pattern ∈ patterns.patterns, pattern.Determined)
    (hiterations : 0 < config.maxIterations) (hrewrites : config.maxRewrites ≠ some 0)
    (hresult : (applyGreedily patterns config root context memory).result = .ok outcome) :
    outcome = ⟨false, true, 0⟩ ↔ IsFixpoint patterns config context root := by
  obtain ⟨op, s, hreturns⟩ := exists_returns_of_result hresult
  obtain ⟨progress, between, hiterate, rfl, -, -⟩ := returns_rewrite_iff.1 hreturns
  obtain ⟨remaining, hremaining⟩ := Nat.exists_eq_succ_of_ne_zero (Nat.ne_of_gt hiterations)
  rw [hremaining] at hiterate
  obtain ⟨hlimit, -, -⟩ | ⟨hlimit, swept, s₁, hswept, hends⟩ := returns_iterate_succ_iff.1 hiterate
  · -- Nothing has been counted yet, and a match is allowed.
    obtain ⟨most, hmost, hle⟩ := limitReached_iff.1 hlimit
    exact absurd (hmost.trans (congrArg some (Nat.le_zero.1 hle))) hrewrites
  · have hiff := isFixpoint_iff_of_returns_swept hpatterns hswept hlimit
      rfl rfl (sameDialects_note context _)
    rw [← hiff]
    obtain ⟨hstill, rfl, rfl⟩ | ⟨hchanged, hrest⟩ := hends
    · exact ⟨fun _ => hstill, fun _ => congrArg (Outcome.mk false true) hstill.1⟩
    · refine ⟨fun heq => ?_, fun hstill => (hchanged hstill).elim⟩
      rw [changed_of_returns_iterate hrest rfl] at heq
      cases heq

/-- **A run that does not converge has used up what it was allowed**: it has made all sweeps, or all
matches, and every sweep has changed something. Whether the tree that it leaves is a fixpoint is
left open: just if it is, a run over that tree that may make a sweep and a match finds nothing to
do. -/
theorem applyGreedily_of_not_converged {patterns : FrozenPatterns σ} {config : Config}
    {root : Operation} {context : Context} {memory : σ} {outcome : Outcome}
    (hpatterns : ∀ pattern ∈ patterns.patterns, pattern.Determined)
    (hresult : (applyGreedily patterns config root context memory).result = .ok outcome)
    (hconverged : outcome.converged = false) :
    let first := applyGreedily patterns config root context memory
    ((sweepsOf patterns config root context memory).length = config.maxIterations
      ∨ config.maxRewrites = some outcome.rewrites)
      ∧ (∀ start ∈ sweepsOf patterns config root context memory, ∃ swept after,
        Returns (sweep patterns config start.1 >>= removeDead config) start.2 swept after
          ∧ (start.2.rewrites < after.rewrites ∨ 0 < swept.2))
      ∧ ∀ iterations most outcome', 0 < iterations → most ≠ some 0 →
        (applyGreedily patterns { config with maxIterations := iterations, maxRewrites := most }
          first.op first.context first.memory).result = .ok outcome' →
        (outcome' = ⟨false, true, 0⟩ ↔ IsFixpoint patterns config first.context first.op) := by
  obtain ⟨op, s, hreturns⟩ := exists_returns_of_result hresult
  obtain ⟨progress, between, hiterate, rfl, -, -⟩ := returns_rewrite_iff.1 hreturns
  obtain ⟨hlength, hall⟩ := exhausted_of_returns_iterate hiterate hconverged
  refine ⟨hlength.imp_right fun hlimit => ?_, hall,
    fun iterations most outcome' hiterations hmost hagain => ?_⟩
  · have hbounded := bounded_of_returns_iterate hiterate fun most _ => Nat.zero_le most
    obtain ⟨most, hmost, hle⟩ := limitReached_iff.1 hlimit
    exact hmost.trans (congrArg some (Nat.le_antisymm hle (hbounded most hmost)))
  · have hiff := applyGreedily_eq_iff_isFixpoint hpatterns hiterations hmost hagain
    exact hiff.trans ⟨fun h => ⟨h.unmatched, h.alive⟩, fun h => ⟨h.unmatched, h.alive⟩⟩

/-- Of a chain of constants one match is left to be made when the limit is reached. -/
theorem applyGreedily_of_not_converged_chain :
    ∃ (root : Operation) (config : Config), root.definedNames = ["a", "b", "c"]
    ∧ config.maxRewrites = some 1
    ∧ let first := applyGreedily (σ := Unit) ⟨Arith.simplifications⟩ config root
          (.ofRegistry .standard) ()
      first.result = .ok ⟨true, false, 1⟩ ∧ ¬ IsFixpoint (σ := Unit) ⟨Arith.simplifications⟩ config
        first.context first.op := by
  let a : Value := ⟨"a", .int 8⟩
  let b : Value := ⟨"b", .int 8⟩
  let c : Value := ⟨"c", .int 8⟩
  let root := Operation.module
    [.constant a 100, { name := "arith.muli", operands := [a, a], results := [b] },
      { name := "test.scope",
        region := some [{ name := "arith.subi", operands := [b, b], results := [c] },
          { name := "test.sink", operands := [b, c] }] }]
  let config : Config := { maxRewrites := some 1 }
  have hresult : (applyGreedily (σ := Unit) ⟨Arith.simplifications⟩ config root
    (.ofRegistry .standard) ()).result
      = .ok ⟨true, false, 1⟩ := eq_ok_of_toOption (by decide +kernel)
  let first := applyGreedily (σ := Unit) ⟨Arith.simplifications⟩ config root
    (.ofRegistry .standard) ()
  have hagain : (applyGreedily (σ := Unit) ⟨Arith.simplifications⟩ config first.op first.context
    first.memory).result
      = .ok ⟨true, false, 1⟩ := eq_ok_of_toOption (by decide +kernel)
  obtain ⟨-, -, hfixpoint⟩ := applyGreedily_of_not_converged
    Arith.determined_simplifications hresult rfl
  refine ⟨root, config, by decide +kernel, rfl, hresult, fun h => ?_⟩
  cases (hfixpoint config.maxIterations config.maxRewrites _ (by decide) (by decide) hagain).2 h

/-- Makes one operation of another. -/
def Pattern.renaming (root target : String) : Pattern Unit where
  name := "test::Rename"
  root := some root
  rewrite _ := do
    Attempt.replaceWithNew { name := target }
    return true

theorem not_declines_renaming (root target : String) (op : Operation) (site : Site)
    (draft : Draft Unit) :
    ¬ (((Pattern.renaming root target).rewrite op).run.run site draft).1 = .ok false := by
  intro h
  have hdoes : ((Pattern.renaming root target).rewrite op).Does site draft fun answer _ _ =>
    answer = .ok false := h
  simp only [Pattern.renaming, Attempt.replaceWithNew, Attempt.does_bind, Attempt.does_insert,
    Attempt.does_act, Attempt.does_pure] at hdoes
  split at hdoes
  · cases hdoes
  · cases hdoes

/-- The one match that there is to make is the one that is allowed, or it is made in the only sweep:
a fixpoint is reached within the limits, and yet the run does not converge. -/
theorem exists_isFixpoint_not_converged : ∃ (patterns : FrozenPatterns Unit) (root : Operation),
    (∀ pattern ∈ patterns.patterns, pattern.Determined)
      ∧ ∀ config ∈ [({ maxRewrites := some 1 } : Config), { maxIterations := 1 }],
        let run := applyGreedily patterns config root (.ofRegistry .standard) ()
        run.result = .ok ⟨true, false, 1⟩ ∧ run.op = .module [{ name := "test.b" }]
          ∧ IsFixpoint patterns config run.context run.op := by
  refine ⟨⟨[.renaming "test.a" "test.b"]⟩, .module [{ name := "test.a" }], ?_, ?_⟩
  · rw [List.forall_mem_singleton]
    intro op site site' draft draft' _ _ _ _ _ hdeclines
    exact (not_declines_renaming "test.a" "test.b" op site draft hdeclines).elim
  · intro config hconfig run
    have hcomputed : run.result.toOption = some ⟨true, false, 1⟩
      ∧ run.op = .module [{ name := "test.b" }]
        ∧ config.topDown = false ∧ (run.op.removeDeadOps run.context).removed = 0 := by
      revert config
      decide +kernel
    obtain ⟨hresult, hop, htopDown, halive⟩ := hcomputed
    refine ⟨eq_ok_of_toOption hresult, hop, fun sight hsight => ?_, fun _ => halive⟩
    -- The pattern is not for what it makes.
    rw [hop, htopDown] at hsight
    obtain rfl := List.mem_singleton.1 hsight
    intro pattern hpattern
    cases hpattern

end DialectIR
