import DialectIR.Proofs.Lockstep
import DialectIR.Proofs.Stops
import DialectIR.Proofs.Walk

/-! Which pattern wins. A set is frozen with the patterns of the highest benefit first, and at each
operation the first pattern that has something to do there is the one whose changes are made: those
before it have declined, and left nothing but what they put into the memory. -/

namespace DialectIR

variable {σ : Type}

namespace PatternSet

/-- A call that adds patterns to a set. -/
inductive Call (σ : Type) where
  | add (pattern : Pattern σ)
  | insert (context : Context) (source : PatternSource σ)
  | insertAll (context : Context) (sources : List (PatternSource σ))

namespace Call

def perform (set : PatternSet σ) : Call σ → StateM σ (PatternSet σ)
  | .add pattern => return set.add pattern
  | .insert context source => set.insert context source
  | .insertAll context sources => set.insertAll context sources

/-- Performs calls in order. -/
def performAll (set : PatternSet σ) : List (Call σ) → StateM σ (PatternSet σ)
  | [] => return set
  | call :: calls => do performAll (← call.perform set) calls

/-- The patterns that a call adds, in order. -/
def made : Call σ → StateM σ (List (Pattern σ))
  | .add pattern => return [pattern]
  | .insert context source => return [← source context]
  | .insertAll context sources => sources.mapM (· context)

/-- The patterns that calls add, in order. -/
def madeBy (calls : List (Call σ)) : StateM σ (List (Pattern σ)) :=
  return (← calls.mapM made).flatten

end Call

/-- The set with patterns added at its end. -/
def extend (set : PatternSet σ) (added : List (Pattern σ)) : PatternSet σ := ⟨set.patterns ++ added⟩

theorem insertAll_eq (set : PatternSet σ) (context : Context) (sources : List (PatternSource σ)) :
    set.insertAll context sources = set.extend <$> sources.mapM (· context) := by
  induction sources generalizing set with
  | nil => simp [insertAll, extend]
  | cons source sources ih =>
      have hextend (pattern : Pattern σ) : (set.add pattern).extend = fun added =>
        set.extend (pattern :: added) := by
        funext added
        simp [add, extend]
      simp [insertAll, insert, ih, hextend]

theorem Call.perform_eq (set : PatternSet σ) (call : Call σ) :
    call.perform set = set.extend <$> call.made := by
  cases call with
  | add pattern => simp [perform, made, PatternSet.add, extend]
  | insert context source => simp [perform, made, PatternSet.insert, PatternSet.add, extend]
  | insertAll context sources => exact insertAll_eq set context sources

/-- Calls add patterns at the end of a set. -/
theorem Call.performAll_eq (set : PatternSet σ) (calls : List (Call σ)) :
    performAll set calls = set.extend <$> madeBy calls := by
  induction calls generalizing set with
  | nil => simp [performAll, madeBy, extend]
  | cons call calls ih => simp [performAll, madeBy, perform_eq, ih, extend]

section

variable (p q r : Pattern σ)

theorem benefit_trans (hpq : decide (q.benefit ≤ p.benefit) = true)
    (hqr : decide (r.benefit ≤ q.benefit) = true) :
    decide (r.benefit ≤ p.benefit) = true :=
  decide_eq_true (Nat.le_trans (of_decide_eq_true hqr) (of_decide_eq_true hpq))

theorem benefit_total :
    (decide (q.benefit ≤ p.benefit) || decide (p.benefit ≤ q.benefit)) = true := by
  rw [Bool.or_eq_true, decide_eq_true_eq, decide_eq_true_eq]
  exact Nat.le_total _ _

end

/-- A frozen set holds the patterns that were added. -/
theorem freeze_perm (set : PatternSet σ) : set.freeze.patterns.Perm set.patterns :=
  List.mergeSort_perm _ _

theorem freeze_pairwise (set : PatternSet σ) :
    set.freeze.patterns.Pairwise fun p q => q.benefit ≤ p.benefit :=
  (List.pairwise_mergeSort benefit_trans benefit_total set.patterns).imp of_decide_eq_true

/-- Patterns of one benefit keep their order. -/
theorem freeze_filter_benefit (set : PatternSet σ) (benefit : Nat) :
    set.freeze.patterns.filter (·.benefit = benefit) = set.patterns.filter
      (·.benefit = benefit) := by
  have hequal : (set.patterns.filter (·.benefit = benefit)).Pairwise fun p q =>
    decide (q.benefit ≤ p.benefit) = true := by
    refine List.pairwise_of_forall_mem_list fun p hp q hq => decide_eq_true (Nat.le_of_eq ?_)
    rw [of_decide_eq_true (List.mem_filter.1 hp).2, of_decide_eq_true (List.mem_filter.1 hq).2]
  have hsublist : (set.patterns.filter (·.benefit = benefit)).Sublist set.freeze.patterns :=
    List.sublist_mergeSort benefit_trans benefit_total hequal List.filter_sublist
  have hkept := hsublist.filter (·.benefit = benefit)
  rw [List.filter_filter] at hkept
  simp only [Bool.and_self] at hkept
  exact (hkept.eq_of_length (set.freeze_perm.filter _).length_eq.symm).symm

end PatternSet

/-! ### Choices -/

/-- How the pattern ends that is tried at a site: what it answers, and what it has drafted. -/
def Pattern.tryAt (pattern : Pattern σ) (site : Site) (names : NameSupply) (memory : σ) :
    Except Error Bool × Draft σ :=
  (pattern.rewrite site.op).run.run site { names, memory }

namespace Greedy

/-- All patterns of a list decline. Each is tried at the same site with the same names; only the
memory is handed on. -/
inductive Declined (site : Site) (names : NameSupply) : List (Pattern σ) → σ → σ → Prop where
  | nil (memory : σ) : Declined site names [] memory memory
  | cons {pattern : Pattern σ} {rest : List (Pattern σ)} {memory memory' : σ} {draft : Draft σ}
      (hpattern : pattern.tryAt site names memory = (.ok false, draft))
        (hrest : Declined site names rest draft.memory memory') :
      Declined site names (pattern :: rest) memory memory'

/-- What is chosen among patterns: the changes of the first that matches, where those before it
decline, or nothing if all decline. -/
inductive Chooses (tried : List (Pattern σ)) (site : Site) (names : NameSupply) (memory : σ) :
    Option Recording → NameSupply → σ → Prop where
  | first {earlier later : List (Pattern σ)} {pattern : Pattern σ} {between : σ} {draft : Draft σ}
      (htried : tried = earlier ++ pattern :: later)
        (hdeclined : Declined site names earlier memory between)
      (hpattern : pattern.tryAt site names between = (.ok true, draft)) :
      Chooses tried site names memory (some draft.recording) draft.names draft.memory
  | nothing {memory' : σ} (hdeclined : Declined site names tried memory memory') :
      Chooses tried site names memory none names memory'

namespace Chooses

variable {pattern : Pattern σ} {tried : List (Pattern σ)} {site : Site}
  {names between names' : NameSupply} {memory handed memory' : σ} {recording? : Option Recording}

/-- A pattern that declines may stand before others. -/
theorem cons (hpattern : Chooses [pattern] site names memory none between handed)
    (hrest : Chooses tried site between handed recording? names' memory') :
    Chooses (pattern :: tried) site names memory recording? names' memory' := by
  obtain - | ⟨hdeclined⟩ := hpattern
  obtain - | ⟨hpattern, ⟨⟩⟩ := hdeclined
  cases hrest with
  | first htried hdeclined hmatch =>
      exact .first (congrArg (pattern :: ·) htried) (.cons hpattern hdeclined) hmatch
  | nothing hdeclined => exact .nothing (.cons hpattern hdeclined)

/-- What stands behind a pattern that matches does not count. -/
theorem append {recording : Recording}
    (h : Chooses tried site names memory (some recording) names' memory')
    (more : List (Pattern σ)) :
    Chooses (tried ++ more) site names memory (some recording) names' memory' := by
  cases h with
  | first htried hdeclined hmatch =>
      exact .first (by rw [htried, List.append_assoc, List.cons_append]) hdeclined hmatch

end Chooses

variable {patterns : FrozenPatterns σ} {config : Config} {depth : Nat} {op root root' : Operation}
  {tried : List (Pattern σ)} {recording? : Option Recording} {s s' : State σ}

/-- The state behind a choice: only names, memory, the journal and the number of matches may
differ. -/
structure Chosen (tried : List (Pattern σ)) (op : Operation) (s : State σ)
    (recording? : Option Recording) (s' : State σ) : Prop where
  chooses : Chooses tried (s.site op) s.names s.memory recording? s'.names s'.memory
  context : s'.context.withoutJournal = s.context.withoutJournal
  definitions : s'.definitions = s.definitions
  replaced : s'.replaced = s.replaced
  erased : s'.erased = s.erased
  rewrites : s'.rewrites = s.rewrites + recording?.toList.length

theorem Chosen.cons {pattern : Pattern σ} {between : State σ}
    (hpattern : Chosen [pattern] op s none between)
    (hrest : Chosen tried op between recording? s') :
    Chosen (pattern :: tried) op s recording? s' where
  chooses := by
    have hsite : between.site op = s.site op := by
      rw [State.site, State.site, hpattern.context, hpattern.definitions]
    exact hpattern.chooses.cons (hsite ▸ hrest.chooses)
  context := hrest.context.trans hpattern.context
  definitions := hrest.definitions.trans hpattern.definitions
  replaced := hrest.replaced.trans hpattern.replaced
  erased := hrest.erased.trans hpattern.erased
  rewrites := hrest.rewrites.trans (congrArg (· + _) hpattern.rewrites)

/-- An attempt is a choice among one pattern. -/
theorem chosen_of_returns_attempt {pattern : Pattern σ}
    (h : Returns (attempt depth op pattern) s recording? s') :
    Chosen [pattern] op s recording? s' := by
  unfold Returns at h
  rw [runFrom_attempt] at h
  have htry : pattern.tryAt (s.site op) s.names s.memory
    = (pattern.rewrite op).run.run (s.site op) s.draft := rfl
  generalize (pattern.rewrite op).run.run (s.site op) s.draft = outcome at h htry
  obtain ⟨answer, draft⟩ := outcome
  rcases answer with cause | _ | _
  · cases h
  · cases h
    exact ⟨.nothing (.cons htry (.nil _)), rfl, rfl, rfl, rfl, rfl⟩
  · unfold State.conclude at h
    dsimp only at h
    split at h
    · cases h
    · cases h
      exact ⟨.first rfl (.nil _) htry, rfl, rfl, rfl, rfl, rfl⟩

/-- **The first pattern that matches is chosen.** -/
theorem chosen_of_returns_attemptFirst (h : Returns (attemptFirst depth op tried) s recording? s') :
    Chosen tried op s recording? s' := by
  induction tried generalizing s with
  | nil =>
      obtain ⟨rfl, rfl⟩ := Returns.pure_iff.1 h
      exact ⟨.nothing (.nil _), rfl, rfl, rfl, rfl, rfl⟩
  | cons pattern tried ih =>
      unfold attemptFirst at h
      obtain ⟨made?, between, hattempt, hrest⟩ := Returns.bind_iff.1 h
      have hpattern := chosen_of_returns_attempt hattempt
      cases made? with
      | none => exact hpattern.cons (ih hrest)
      | some recording =>
          obtain ⟨rfl, rfl⟩ := Returns.pure_iff.1 hrest
          exact { hpattern with chooses := hpattern.chooses.append tried }

/-- Where another match is allowed, the choice is among the patterns for the operation. -/
theorem chosen_of_returns_applyPatterns (hlimit : s.limitReached config = false)
    (h : Returns (applyPatterns patterns config depth op) s recording? s') :
    Chosen (patterns.patternsFor op.name) op s recording? s' := by
  unfold applyPatterns at h
  rw [Returns.get_bind_iff, if_neg (ne_true_of_eq_false hlimit)] at h
  exact chosen_of_returns_attemptFirst h

end Greedy

open Greedy

/-- **The pattern of the highest benefit wins.** A frozen set holds the patterns that were added,
once each, by decreasing benefit, and those of one benefit as they were added; for an operation it
keeps those without a root or with that one, in this order. Wherever a sweep tries patterns and ends
without an error, the first of them that matches is chosen, or none if all decline. A sweep that
ends without an error makes the changes that are chosen, and no other ones. -/
theorem PatternSet.first_match_wins (calls : List (Call σ)) (start : σ) (config : Config)
    (root : Operation) (s : State σ) :
    let set := ((Call.performAll .empty calls).run start).1
    let added := ((Call.madeBy calls).run start).1
    set.freeze.patterns.Perm added
      ∧ set.freeze.patterns.Pairwise (fun p q => q.benefit ≤ p.benefit)
      ∧ (∀ benefit, set.freeze.patterns.filter (·.benefit = benefit)
        = added.filter (·.benefit = benefit))
      ∧ (∀ name, set.freeze.patternsFor name = set.freeze.patterns.filter fun p => p.root = none
        ∨ p.root = some name)
      ∧ (∀ p ∈ pointsAt (sweepStops set.freeze config root s),
        p.before.limitReached config = false → ∀ recording? after,
        Returns (applyPatterns set.freeze config p.depth p.op) p.before recording? after →
        Chosen (set.freeze.patternsFor p.op.name) p.op p.before recording? after)
      ∧ ∀ root' s', Returns (sweep set.freeze config root) s root' s' → ∃ offers swept between,
        WalkedWithin set.freeze config true 0 root { s with definitions := .empty }
          offers swept between
          ∧ root' = between.replaced.applyTo swept
          ∧ s' = { between with replaced := .empty, erased := [] }
          ∧ ∀ offer ∈ offers, offer.before.limitReached config = false →
            Chosen (set.freeze.patternsFor offer.op.name) offer.op offer.before offer.recording?
              offer.after := by
  have hadded : ((Call.performAll .empty calls).run start).1.patterns
    = ((Call.madeBy calls).run start).1 := by
    rw [Call.performAll_eq]
    rfl
  generalize ((Call.performAll .empty calls).run start).1 = set at hadded
  rw [← hadded]
  refine ⟨set.freeze_perm, set.freeze_pairwise, set.freeze_filter_benefit,
    fun name => List.filter_congr fun p _ => ?_,
    fun p _ hlimit recording? after h => chosen_of_returns_applyPatterns hlimit h,
    fun root' s' h => ?_⟩
  · unfold Pattern.appliesTo
    cases p.root with
    | none => rfl
    | some root => simp
  · obtain ⟨offers, swept, between, hwalked, hroot, hs⟩ := exists_walked_of_returns_sweep h
    exact ⟨offers, swept, between, hwalked, hroot, hs,
      hwalked.forall_offers fun offer hoffer hlimit =>
        chosen_of_returns_applyPatterns hlimit hoffer⟩

/-- Of two patterns that match, the one of higher benefit wins, though it was added later, and
although one of the same benefit declines and counts that. A pattern of still higher benefit is not
for the operation. -/
theorem PatternSet.first_match_wins_later : ∃ (calls : List (Call Nat)) (root : Operation),
    let set := ((Call.performAll .empty calls).run 0).1
    set.freeze.names = ["other", "decline", "win", "lose"]
      ∧ root.nested.map (·.name.text) = ["test.old"]
      ∧ ∃ (root' : Operation) (s' : State Nat),
        Returns (sweep set.freeze {} root) { context := .ofRegistry .standard, memory := 0 }
          root' s'
        ∧ root'.nested.map (·.name.text) = ["test.win"] ∧ s'.memory = 1
        ∧ ∃ offer : Offer Nat,
          Chosen (set.freeze.patternsFor offer.op.name) offer.op offer.before offer.recording?
            offer.after := by
  let renames (name root target : String) (benefit : Nat) : Pattern Nat :=
    { name, root := some root, benefit, rewrite := fun _ => do
        Attempt.replaceWithNew { name := target }
        return true }
  let declines : Pattern Nat :=
    { name := "decline", benefit := 5, rewrite := fun _ => do
        Attempt.modifyMemory (· + 1)
        return false }
  let calls : List (Call Nat) := [.add (renames "lose" "test.old" "test.lose" 1),
    .insertAll (.ofRegistry .standard)
      [declines.source, (renames "other" "test.other" "test.new" 7).source],
    .insert (.ofRegistry .standard) (renames "win" "test.old" "test.win" 5).source]
  let root := Operation.module [{ name := "test.old" }]
  let start : State Nat := { context := .ofRegistry .standard, memory := 0 }
  have hfrozen : ((Call.performAll .empty calls).run 0).1.freeze
    = ⟨[renames "other" "test.other" "test.new" 7, declines,
      renames "win" "test.old" "test.win" 5, renames "lose" "test.old" "test.lose" 1]⟩ := by
    refine congrArg FrozenPatterns.mk ?_
    show List.mergeSort [renames "lose" "test.old" "test.lose" 1, declines,
      renames "other" "test.other" "test.new" 7, renames "win" "test.old" "test.win" 5] _ = _
    simp [List.mergeSort, renames, declines]
  have hsweeps := (PatternSet.first_match_wins calls 0 {} root start).2.2.2.2.2
  refine ⟨calls, root, ?_⟩
  dsimp only at hsweeps ⊢
  rw [hfrozen] at hsweeps ⊢
  generalize hset : FrozenPatterns.mk _ = frozen at hsweeps ⊢
  have hswept : (runFrom (sweep frozen {} root) start).1.toOption.map (·.nested.map (·.name.text))
    = some ["test.win"]
      ∧ (runFrom (sweep frozen {} root) start).2.memory = 1 := by
    rw [← hset]
    decide +kernel
  generalize hrun : runFrom (sweep frozen {} root) start = ending at hswept
  obtain ⟨result, s'⟩ := ending
  obtain ⟨hresult, hmemory⟩ := hswept
  obtain ⟨root', hroot, hnested⟩ := Option.map_eq_some_iff.1 hresult
  obtain rfl := eq_ok_of_toOption hroot
  obtain ⟨offers, swept, between, hwalked, -, -, hchosen⟩ := hsweeps root' s' hrun
  obtain ⟨offer, hoffer⟩ : ∃ offer, offer ∈ offers := by
    change WalkedWithin frozen {} true 0 ⟨_, some [_]⟩ _ _ _ _ at hwalked
    cases hwalked with
    | region hops =>
        cases hops with
        | gone hdepth hinner hoffer hgone hlater =>
            exact ⟨_, List.mem_append_right _ List.mem_cons_self⟩
        | stays hdepth hinner hoffer hstays hinside hlater =>
            exact ⟨_, List.mem_append_right _ List.mem_cons_self⟩
  exact ⟨by rw [← hset]; rfl, rfl, root', s', hrun, hnested, hmemory, offer,
    hchosen offer hoffer rfl⟩

end DialectIR
