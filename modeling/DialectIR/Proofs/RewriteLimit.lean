import DialectIR.Proofs.Blind
import DialectIR.Proofs.Lockstep
import DialectIR.Proofs.Stillness

/-! Runs with a limit to the number of matches, beside the run without one. The matches are the same
until the limit is reached. The sweep in which that happens goes on without further matches, and
then no other sweep follows. -/

namespace DialectIR.Greedy

open Operation

variable {σ α β : Type} {patterns : FrozenPatterns σ} {config : Config} {k : Nat} {s s' : State σ}

/-- The configuration with a limit to the number of matches. -/
def Config.limited (config : Config) (k : Nat) : Config := { config with maxRewrites := some k }

/-- What may be wrong with a tree when a sweep was cut short: a result that was erased is in use,
replacements go round in circles, or the tree is too deep. -/
inductive CutShort : Error → Prop where
  | erasedInUse (result : Value) : CutShort (.erasedInUse result)
  | endlessReplacement (value : Value) : CutShort (.endlessReplacement value)
  | nestedTooDeeply : CutShort .nestedTooDeeply

/-- The states of a run without a limit and of one with a limit are the same until the limit is
reached. Then they still agree about the sweep, as long as the run without a limit finds no other
match. -/
def limitLink (σ : Type) (k : Nat) : Link σ where
  Linked s t := s.Similar t ∧ t.rewrites = s.rewrites ∧ s.rewrites ≤ k ∧ (s.rewrites < k → t = s)
  Followed ok n := ok = true ∧ n ≤ k
  followed_before := @Link.before_upTo k
  similar h := h.1
  learn h definitions replaced erased :=
    ⟨⟨rfl, rfl, rfl, h.1.dialects⟩, h.2.1, h.2.2.1, fun hless => by rw [h.2.2.2 hless]⟩
  note h event := ⟨h.1.note _ _, h.2.1, h.2.2.1, fun hless => by rw [h.2.2.2 hless]⟩
  prune h op := ⟨h.1.prune op, h.2.1, h.2.2.1, fun hless => by rw [h.2.2.2 hless]⟩

theorem limitReached_limited (s : State σ) :
    s.limitReached (config.limited k) = decide (k ≤ s.rewrites) := rfl

theorem rewrites_attemptFirst (depth : Nat) (op : Operation) (tried : List (Pattern σ))
    (s : State σ) :
    s.rewrites ≤ (runFrom (attemptFirst depth op tried) s).2.rewrites := by
  induction tried generalizing s with
  | nil => exact Nat.le_refl _
  | cons pattern rest ih =>
      have hle := Link.rewrites_conclude s depth op pattern
        ((pattern.rewrite op).run.run (s.site op) s.draft)
      rw [attemptFirst, runFrom_bind]
      rw [← runFrom_attempt] at hle
      rcases hrun : runFrom (attempt depth op pattern) s with ⟨error | _ | recording, s'⟩
      · rw [hrun] at hle
        exact hle
      · rw [hrun] at hle
        exact Nat.le_trans hle (ih s')
      · rw [hrun] at hle
        exact hle

theorem runFrom_applyPatterns_unlimited (hlimit : config.maxRewrites = none) (depth : Nat)
    (op : Operation) (s : State σ) :
    runFrom (applyPatterns patterns config depth op) s
      = runFrom (attemptFirst depth op (patterns.patternsFor op.name)) s := by
  unfold applyPatterns
  rw [runFrom_get_bind, limitReached_of_none hlimit, if_neg Bool.false_ne_true]

theorem runFrom_applyPatterns_below (hless : s.rewrites < k) (depth : Nat) (op : Operation) :
    runFrom (applyPatterns patterns (config.limited k) depth op) s
      = runFrom (attemptFirst depth op (patterns.patternsFor op.name)) s := by
  unfold applyPatterns
  rw [runFrom_get_bind, limitReached_limited, decide_eq_false (Nat.not_le_of_lt hless),
    if_neg Bool.false_ne_true]

theorem runFrom_applyPatterns_reached (hreached : k ≤ s.rewrites) (depth : Nat) (op : Operation) :
    runFrom (applyPatterns patterns (config.limited k) depth op) s = (.ok none, s) := by
  unfold applyPatterns
  rw [runFrom_get_bind, limitReached_limited, decide_eq_true hreached, if_pos rfl]
  rfl

/-- Without a limit every match is counted where patterns are tried. -/
theorem returns_applyPatterns_unlimited (hlimit : config.maxRewrites = none) {depth : Nat}
    {op : Operation} {recording? : Option Recording}
    (h : Returns (applyPatterns patterns config depth op) s recording? s') :
    s.Similar s' ∧ s'.rewrites = s.rewrites + recording?.toList.length := by
  unfold Returns at h
  rw [runFrom_applyPatterns_unlimited hlimit] at h
  exact ⟨((ensures_attemptFirst depth op _ s).of_returns h).similar,
    ((ensures_attemptFirst_counts depth op _ s).of_returns h).1⟩

/-- Trying patterns does the same until the limit is reached, and nothing behind that. -/
theorem follows_applyPatterns_limited (hlimit : config.maxRewrites = none) (depth : Nat)
    (op : Operation) :
    (limitLink σ k).Follows (applyPatterns patterns config depth op)
    (applyPatterns patterns (config.limited k) depth op) where
  grows s := by
    rw [runFrom_applyPatterns_unlimited hlimit]
    exact rewrites_attemptFirst depth op _ s
  ends {s t} hlinked hfollowed := by
    obtain ⟨hsimilar, hrewrites, hle, hsame⟩ := hlinked
    rcases Nat.lt_or_ge s.rewrites k with hless | hreached
    · obtain rfl := hsame hless
      rw [runFrom_applyPatterns_below hless, ← runFrom_applyPatterns_unlimited hlimit]
      exact ⟨rfl, .refl _, rfl, hfollowed.2, fun _ => rfl⟩
    · rw [runFrom_applyPatterns_reached (hrewrites ▸ hreached)]
      rcases hrun : runFrom (applyPatterns patterns config depth op) s with ⟨error | recording?, s'⟩
      · rw [hrun] at hfollowed
        cases hfollowed.1
      · rw [hrun] at hfollowed
        have hcount : s'.rewrites ≤ k := hfollowed.2
        obtain ⟨hsimilar', hmade⟩ := returns_applyPatterns_unlimited hlimit hrun
        cases recording? with
        | some recording =>
            rw [Option.toList_some, List.length_singleton] at hmade
            omega
        | none =>
            have hstill : s'.rewrites = s.rewrites := hmade
            exact ⟨rfl, hsimilar'.symm.trans hsimilar, hrewrites.trans hstill.symm, hcount,
              fun hless => absurd hless (Nat.not_lt_of_ge (hstill ▸ hreached))⟩

theorem take_append_sub {l m : List α} {k n n' : Nat} (h : n' = n + l.length) :
    (l ++ m).take (k - n) = l.take (k - n) ++ m.take (k - n') := by
  rw [List.take_append, h, Nat.sub_add_eq]

theorem afterwards_modify (g : State σ → State σ) (next : PUnit → State σ → List β) (s : State σ) :
    afterwards (modify g : Step σ PUnit) next s = next ⟨⟩ (g s) := rfl

/-- A step without a limit and the same step with one, and the encounters of both. -/
structure Cut (patterns : FrozenPatterns σ) (config : Config) (k : Nat) (p q : Step σ α)
    (encounters limited : State σ → List (Encounter σ)) : Prop where
  follows : (limitLink σ k).Follows p q
  /-- The step without a limit counts its matches. -/
  counts : ∀ {s a s'}, Returns p s a s' → s'.rewrites
    = s.rewrites + (matchesIn patterns config (encounters s)).length
  /-- The step with a limit makes the same matches, up to the limit. -/
  takes : ∀ {s t a s'}, (limitLink σ k).Linked s t → Returns p s a s' →
    matchesIn patterns (config.limited k) (limited t)
      = (matchesIn patterns config (encounters s)).take (k - s.rewrites)
  /-- If there is one match more, then the limit is reached. -/
  late : ∀ {s t a s'}, (limitLink σ k).Linked s t → Returns p s a s' → k < s'.rewrites →
    Ensures q t (fun _ t' => t'.rewrites = k) fun error _ => CutShort error
  /-- Behind the limit there are no matches. -/
  idle : ∀ {t : State σ}, t.rewrites = k → matchesIn patterns (config.limited k) (limited t) = []
    ∧ Ensures q t (fun _ t' => t'.rewrites = k) fun error _ => CutShort error

namespace Cut

variable {p q : Step σ α} {next next' : α → Step σ β} {e f : State σ → List (Encounter σ)}
  {e' f' : α → State σ → List (Encounter σ)}

theorem congr {d g : State σ → List (Encounter σ)} (h : Cut patterns config k p q d g)
    (hd : ∀ s, e s = d s) (hg : ∀ t, f t = g t) :
    Cut patterns config k p q e f := by
  obtain rfl : e = d := funext hd
  obtain rfl : f = g := funext hg
  exact h

theorem matchesIn_afterwards {t : State σ} {fails : Error → State σ → Prop}
    (h : Ensures q t (fun _ t' => t'.rewrites = k) fails)
    (hnext : ∀ a t', t'.rewrites = k → matchesIn patterns (config.limited k) (f' a t') = []) :
    matchesIn patterns (config.limited k) (afterwards q f' t) = [] := by
  unfold afterwards
  unfold Ensures at h
  split
  next a t' hrun =>
    rw [hrun] at h
    exact hnext a t' h
  next => rfl

/-- A step and what follows it. -/
theorem bind (h : Cut patterns config k p q e f)
    (hnext : ∀ a, Cut patterns config k (next a) (next' a) (e' a) (f' a)) :
    Cut patterns config k (p >>= next) (q >>= next') (fun s => e s ++ afterwards p e' s) fun t =>
      f t ++ afterwards q f' t where
  follows := h.follows.bind fun a => (hnext a).follows
  counts hreturns := by
    obtain ⟨a, s₁, hp, hrest⟩ := Returns.bind_iff.1 hreturns
    rw [afterwards_of_returns hp, matchesIn_append, List.length_append, (hnext a).counts hrest,
      h.counts hp, Nat.add_assoc]
  takes {s t b s'} hlinked hreturns := by
    obtain ⟨a, s₁, hp, hrest⟩ := Returns.bind_iff.1 hreturns
    rw [afterwards_of_returns hp, matchesIn_append, matchesIn_append, take_append_sub (h.counts hp),
      h.takes hlinked hp]
    congr 1
    rcases Nat.lt_or_ge k s₁.rewrites with hlate | hle
    · rw [matchesIn_afterwards (h.late hlinked hp hlate) fun a t' ht' => ((hnext a).idle ht').1,
        Nat.sub_eq_zero_of_le (Nat.le_of_lt hlate), List.take_zero]
    · obtain ⟨t₁, hq, hlinked₁⟩ := h.follows.exists_returns hlinked hp ⟨rfl, hle⟩
      rw [afterwards_of_returns hq, (hnext a).takes hlinked₁ hrest]
  late {s t b s'} hlinked hreturns hless := by
    obtain ⟨a, s₁, hp, hrest⟩ := Returns.bind_iff.1 hreturns
    rcases Nat.lt_or_ge k s₁.rewrites with hlate | hle
    · exact (h.late hlinked hp hlate).bind fun a t₁ _ ht₁ => ((hnext a).idle ht₁).2
    · obtain ⟨t₁, hq, hlinked₁⟩ := h.follows.exists_returns hlinked hp ⟨rfl, hle⟩
      have hlater := (hnext a).late hlinked₁ hrest hless
      unfold Ensures at hlater ⊢
      rw [runFrom_bind, hq]
      exact hlater
  idle ht := by
    obtain ⟨hnone, hends⟩ := h.idle ht
    rw [matchesIn_append, hnone, matchesIn_afterwards hends fun a t' ht' => ((hnext a).idle ht').1]
    exact ⟨rfl, hends.bind fun a t₁ _ ht₁ => ((hnext a).idle ht₁).2⟩

/-- A step that tries no patterns. -/
theorem quiet (hfollows : (limitLink σ k).Follows p q)
    (hp : ∀ s a s', Returns p s a s' → s'.rewrites = s.rewrites)
    (hq : ∀ t, Ensures q t (fun _ t' => t'.rewrites = t.rewrites) fun error _ => CutShort error) :
    Cut patterns config k p q (fun _ => []) fun _ => [] where
  follows := hfollows
  counts hreturns := hp _ _ _ hreturns
  takes _ _ := List.take_nil.symm
  late hlinked hreturns hless := by
    have hle := hlinked.2.2.1
    rw [hp _ _ _ hreturns] at hless
    omega
  idle ht := ⟨rfl, ht ▸ hq _⟩

theorem pure (a : α) :
    Cut patterns config k (pure a : Step σ α) (pure a) (fun _ => []) fun _ => [] :=
  quiet (Link.follows_pure a)
    (fun _ _ _ hreturns => (congrArg State.rewrites (Returns.pure_iff.1 hreturns).2)) fun _ => rfl

theorem modify (g : State σ → State σ) (hg : ∀ s, (g s).rewrites = s.rewrites)
    (hlinked : ∀ {s t}, (limitLink σ k).Linked s t → (limitLink σ k).Linked (g s) (g t)) :
    Cut patterns config k (modify g : Step σ PUnit) (modify g) (fun _ => []) fun _ => [] := by
  refine quiet (Link.follows_modify g hg hlinked) (fun s _ s' hreturns => ?_) fun t => hg t
  rw [Returns.modify_iff.1 hreturns, hg]

theorem ite {p' q' : Step σ α} {d g : State σ → List (Encounter σ)}
    (h : Cut patterns config k p q e f) (h' : Cut patterns config k p' q' d g) (condition : Bool) :
    Cut patterns config k (if condition then p else p') (if condition then q else q')
      (fun s => if condition then e s else d s) fun t => if condition then f t else g t := by
  cases condition with
  | true => exact h
  | false => exact h'

end Cut

/-! ### Visits -/

theorem ensures_substitute_cutShort (op : Operation) (t : State σ) :
    Ensures (substitute op) t (fun _ t' => t' = t) fun error _ => CutShort error := by
  unfold substitute
  rw [Ensures.get_bind_iff]
  dsimp only
  split
  · exact rfl
  · split
    · exact .endlessReplacement _
    · exact rfl

theorem cut_substitute (op : Operation) :
    Cut patterns config k (substitute op) (substitute op : Step σ Operation) (fun _ => [])
      fun _ => [] := by
  refine .quiet (Link.follows_substitute op) (fun s op' s' hreturns => ?_) fun t => ?_
  · rw [(returns_substitute hreturns).1]
  · exact (ensures_substitute_cutShort op t).mono fun _ _ _ ht => congrArg State.rewrites ht

theorem match?_congr {config' : Config} {encounter : Encounter σ}
    (h : runFrom (applyPatterns patterns config' encounter.depth encounter.op) encounter.before
      = runFrom (applyPatterns patterns config encounter.depth encounter.op) encounter.before) :
    encounter.match? patterns config' = encounter.match? patterns config := by
  unfold Encounter.match?
  rw [h]

theorem length_matchesIn_of_returns {visible : List String} {depth : Nat} {op : Operation}
    {recording? : Option Recording}
    (h : Returns (applyPatterns patterns config depth op) s recording? s') :
    (matchesIn patterns config [⟨visible, depth, op, s⟩]).length = recording?.toList.length := by
  rw [matchesIn_of_returns patterns config h]
  cases recording? <;> rfl

/-- Where patterns are tried, the limit decides. -/
theorem cut_applyPatterns (hlimit : config.maxRewrites = none) (visible : List String) (depth : Nat)
    (op : Operation) :
    Cut patterns config k (applyPatterns patterns config depth op)
      (applyPatterns patterns (config.limited k) depth op)
      (fun s => [⟨visible, depth, op, s⟩]) fun t => [⟨visible, depth, op, t⟩] := by
  have hidle {t : State σ} (ht : k ≤ t.rewrites) :
      matchesIn patterns (config.limited k) [⟨visible, depth, op, t⟩] = []
        ∧ Ensures (applyPatterns patterns (config.limited k) depth op) t
          (fun _ t' => t'.rewrites = t.rewrites)
          fun error _ => CutShort error := by
    have hrun : Returns (applyPatterns patterns (config.limited k) depth op) t none t :=
      runFrom_applyPatterns_reached ht depth op
    refine ⟨List.eq_nil_of_length_eq_zero (length_matchesIn_of_returns hrun), ?_⟩
    unfold Ensures
    rw [hrun]
  refine ⟨follows_applyPatterns_limited hlimit depth op, fun hreturns => ?_,
    fun {s t _ s'} hlinked hreturns => ?_,
    fun {s t recording? s'} hlinked hreturns hless => ?_, fun ht => ?_⟩
  · rw [length_matchesIn_of_returns hreturns, (returns_applyPatterns_unlimited hlimit hreturns).2]
  · obtain ⟨-, hrewrites, -, hsame⟩ := hlinked
    rcases Nat.lt_or_ge s.rewrites k with hless | hreached
    · obtain rfl := hsame hless
      have hrun : runFrom (applyPatterns patterns (config.limited k) depth op) t
          = runFrom (applyPatterns patterns config depth op) t :=
        (runFrom_applyPatterns_below hless depth op).trans
          (runFrom_applyPatterns_unlimited hlimit depth op t).symm
      have hmatches : matchesIn patterns (config.limited k) [⟨visible, depth, op, t⟩]
          = matchesIn patterns config [⟨visible, depth, op, t⟩] := by
        unfold matchesIn
        rw [List.filterMap_cons, List.filterMap_cons, match?_congr hrun, List.filterMap_nil,
          List.filterMap_nil]
      rw [hmatches, List.take_of_length_le]
      rw [length_matchesIn_of_returns hreturns]
      exact Nat.le_trans (Option.length_toList_le) (Nat.sub_pos_of_lt hless)
    · rw [(hidle (hrewrites ▸ hreached)).1, Nat.sub_eq_zero_of_le hreached, List.take_zero]
  · obtain ⟨-, hrewrites, hle, -⟩ := hlinked
    have hmade := (returns_applyPatterns_unlimited hlimit hreturns).2
    have hone := Option.length_toList_le (o := recording?)
    have ht : t.rewrites = k := by omega
    have hends := (hidle (Nat.le_of_eq ht.symm)).2
    exact ht ▸ hends
  · obtain ⟨hnone, hends⟩ := hidle (Nat.le_of_eq ht.symm)
    exact ⟨hnone, ht ▸ hends⟩

variable {within within' : Operation → Step σ Operation}
  {inside inside' : List String → Operation → State σ → List (Encounter σ)}

theorem cut_settle
    (hwithin : ∀ visible op, Cut patterns config k (within op) (within' op) (inside visible op)
      (inside' visible op))
    (visible : List String) (inserted : List Operation) (op : Operation) :
    Cut patterns config k (visit.settle config within inserted op)
      (visit.settle (config.limited k) within' inserted op)
      (fun s => if config.topDown then inside visible op s else [])
      fun t => if config.topDown then inside' visible op t else [] := by
  rw [settle_eq, settle_eq]
  have hregister (op : Operation) : Cut patterns config k (modify (State.register · op))
    (modify (State.register · op))
      (fun _ => []) fun _ => [] := .modify (State.register · op) (fun _ => rfl) fun hlinked =>
        Link.linked_register hlinked op
  refine (((hwithin visible op).ite (.pure op) config.topDown).bind fun op =>
    (hregister op).bind fun _ => .pure _).congr
    (fun s => ?_) fun t => ?_
  · simp [afterwards_nil]
  · simp [afterwards_nil]

theorem innerEncounters_eq {op kept : Operation} {recording : Recording} (visible : List String)
    (s : State σ) (h : stays? op recording = some kept) :
    innerEncounters config inside visible op recording s
      = if config.topDown then
          inside (visibleAfter visible recording.inserted) kept
            ((recording.inserted.foldl State.register s).act op.results recording.action)
        else [] := by
  unfold innerEncounters
  rw [h, act_of_stays h]

theorem cut_commit
    (hwithin : ∀ visible op, Cut patterns config k (within op) (within' op) (inside visible op)
      (inside' visible op))
    (visible : List String) (op : Operation) (recording : Recording) :
    Cut patterns config k (commit config within op recording)
      (commit (config.limited k) within' op recording)
      (innerEncounters config inside visible op recording)
      (innerEncounters (config.limited k) inside' visible op recording) := by
  have hchange : Cut patterns config k
      (modify fun s => (recording.inserted.foldl State.register s).act op.results recording.action)
      (modify fun s => (recording.inserted.foldl State.register s).act op.results recording.action)
      (fun _ => []) fun _ => [] :=
    .modify _ (fun s => (rewrites_act _ _ _).trans (Link.rewrites_registerAll s _))
      fun hlinked => Link.linked_act (Link.linked_registerAll hlinked _) _ _
  unfold commit
  cases hstays : stays? op recording with
  | none =>
      refine (hchange.bind fun _ => .pure recording.inserted).congr (fun s => ?_) fun t => ?_
      · simp [innerEncounters, hstays, afterwards_nil]
      · simp [innerEncounters, hstays, afterwards_nil]
  | some kept =>
      refine (hchange.bind fun _ => cut_settle hwithin (visibleAfter visible recording.inserted)
        recording.inserted kept).congr (fun s => ?_) fun t => ?_
      · exact innerEncounters_eq visible s hstays
      · exact innerEncounters_eq visible t hstays

theorem cut_visit (hlimit : config.maxRewrites = none)
    (hwithin : ∀ visible op, Cut patterns config k (within op) (within' op) (inside visible op)
      (inside' visible op))
    (depth : Nat) (visible : List String) (op : Operation) :
    Cut patterns config k (visit patterns config within depth op)
      (visit patterns (config.limited k) within' depth op)
      (visitEncounters patterns config within inside depth visible op)
      (visitEncounters patterns (config.limited k) within' inside' depth visible op) := by
  have htried (op : Operation) : Cut patterns config k _ _
    (encountersFrom patterns config inside depth visible op)
      (encountersFrom patterns (config.limited k) inside' depth visible op) :=
    (cut_applyPatterns hlimit visible depth op).bind fun recording? =>
      cut_commit hwithin visible op (recording?.getD {})
  rw [visit_eq, visit_eq]
  refine ((cut_substitute op).bind fun op =>
    ((hwithin visible op).ite (.pure op) (!config.topDown)).bind htried).congr
    (fun s => ?_) fun t => ?_
  · rw [visitEncounters_eq]
    rfl
  · rw [visitEncounters_eq]
    rfl

theorem cut_visitAll (hlimit : config.maxRewrites = none)
    (hwithin : ∀ visible op, Cut patterns config k (within op) (within' op) (inside visible op)
      (inside' visible op))
    (depth : Nat) (visible : List String) (ops : List Operation) :
    Cut patterns config k (visitAll patterns config within depth ops)
      (visitAll patterns (config.limited k) within' depth ops)
      (visitAllEncounters patterns config within inside depth visible ops)
      (visitAllEncounters patterns (config.limited k) within' inside' depth visible ops) := by
  induction ops generalizing visible with
  | nil => exact .pure []
  | cons op ops ih =>
      refine ((cut_visit hlimit hwithin depth visible op).bind fun first =>
        (ih (visibleAfter visible first)).bind fun rest => .pure (first ++ rest)).congr
          (fun s => ?_) fun t => ?_
      · simp only [afterwards_nil, List.append_nil]
        rfl
      · simp only [afterwards_nil, List.append_nil]
        rfl

theorem cut_visitRegion (hlimit : config.maxRewrites = none) (levels depth : Nat)
    (visible : List String) (op : Operation) :
    Cut patterns config k (visitRegion patterns config levels depth op)
      (visitRegion patterns (config.limited k) levels depth op)
      (regionEncounters patterns config levels depth visible op)
      (regionEncounters patterns (config.limited k) levels depth visible op) := by
  induction levels generalizing depth visible op with
  | zero =>
      unfold visitRegion regionEncounters
      cases op.region with
      | none => exact .pure op
      | some ops =>
          exact .quiet (Link.follows_throw _) (fun _ _ _ h => absurd h Returns.throw_iff) fun _ =>
            .nestedTooDeeply
  | succ levels ih =>
      unfold visitRegion regionEncounters
      cases op.region with
      | none => exact .pure op
      | some ops =>
          refine ((cut_visitAll hlimit (ih (depth + 1)) depth visible ops).bind fun ops =>
            .pure { op with region := some ops }).congr
            (fun s => ?_) fun t => ?_
          · simp only [afterwards_nil, List.append_nil]
          · simp only [afterwards_nil, List.append_nil]

theorem cut_finish (root : Operation) :
    Cut patterns config k (finish root) (finish root : Step σ Operation) (fun _ => [])
      fun _ => [] := by
  refine .quiet (Link.follows_finish root) (fun s op' s' hreturns => ?_) fun t => ?_
  · rw [(returns_finish hreturns).2]
  · unfold finish
    apply (ensures_substitute_cutShort root t).bind
    rintro op' _ _ rfl
    rw [Ensures.modify_bind_iff, Ensures.get_bind_iff]
    dsimp only
    rw [Ensures.modify_bind_iff]
    split
    · exact .erasedInUse _
    · exact rfl

theorem cut_sweep (hlimit : config.maxRewrites = none) (root : Operation) :
    Cut patterns config k (sweep patterns config root) (sweep patterns (config.limited k) root)
      (sweepEncounters patterns config root)
      (sweepEncounters patterns (config.limited k) root) := by
  have hrestart : Cut patterns config k (modify fun s => { s with definitions := .empty })
      (modify fun s => { s with definitions := .empty }) (fun _ => []) fun _ => [] := by
    refine .modify (fun s => { s with definitions := .empty }) (fun _ => rfl) fun hlinked => ?_
    have hsame := Link.similar _ hlinked
    exact Link.linked_map hlinked (fun s => { s with definitions := .empty }) (fun _ => rfl)
      rfl hsame.replaced hsame.erased
  rw [sweep_eq, sweep_eq]
  refine (hrestart.bind fun _ =>
    (cut_visitRegion hlimit (root.height + spareLevels) 0 [] root).bind cut_finish).congr
      (fun s => ?_) fun t => ?_
  · rw [sweepEncounters, List.nil_append, afterwards_modify, afterwards_nil, List.append_nil]
  · rw [sweepEncounters, List.nil_append, afterwards_modify, afterwards_nil, List.append_nil]

theorem cut_removeDead (root : Operation) :
    Cut patterns config k (removeDead config root) (removeDead (config.limited k) root : Step σ _)
      (fun _ => []) fun _ => [] := by
  refine .quiet (Link.follows_removeDead rfl root) (fun s swept s' hreturns => ?_) fun t => ?_
  · rcases returns_removeDead hreturns with ⟨-, rfl⟩ | ⟨-, rfl⟩
    · rfl
    · rfl
  · unfold removeDead
    split
    · exact rfl
    · exact rfl

theorem cut_swept (hlimit : config.maxRewrites = none) (root : Operation) :
    Cut patterns config k (sweep patterns config root >>= removeDead config)
      (sweep patterns (config.limited k) root >>= removeDead (config.limited k))
      (sweepEncounters patterns config root)
      (sweepEncounters patterns (config.limited k) root) := by
  refine ((cut_sweep hlimit root).bind cut_removeDead).congr (fun s => ?_) fun t => ?_
  · simp only [afterwards_nil, List.append_nil]
  · simp only [afterwards_nil, List.append_nil]

/-! ### Runs -/

theorem rewrites_note (s : State σ) (event : Event) : (s.note event).rewrites = s.rewrites := rfl

theorem ensures_iterate_succ {remaining iteration : Nat} {progress : Progress}
    {between : Operation × Nat → State σ → Prop}
    {post : Progress → State σ → Prop} {fails : Error → State σ → Prop}
    (hbelow : s.limitReached config = false)
    (h : Ensures (sweep patterns config progress.root >>= removeDead config)
      (s.note (.iteration iteration progress.root.name.text)) between fails)
    (hstop : ∀ swept s', between swept s' → s'.rewrites = s.rewrites ∧ swept.2 = 0 →
      post { progress with root := swept.1, converged := true } s')
    (hgo : ∀ swept s', between swept s' → ¬ (s'.rewrites = s.rewrites ∧ swept.2 = 0) →
      Ensures (iterate patterns config remaining (iteration + 1)
        { root := swept.1, changed := true }) s' post fails) :
    Ensures (iterate patterns config (remaining + 1) iteration progress) s post fails := by
  rw [iterate_eq, Ensures.get_bind_iff, hbelow, if_neg Bool.false_ne_true, Ensures.modify_bind_iff,
    Ensures.get_bind_iff]
  apply h.bind
  intro swept s' _ hbetween
  rw [Ensures.get_bind_iff, rewrites_note]
  by_cases hend : s'.rewrites = s.rewrites ∧ swept.2 = 0
  · rw [if_pos (by simpa using hend)]
    exact hstop swept s' hbetween hend
  · rw [if_neg (by simpa using hend)]
    exact hgo swept s' hbetween hend

theorem iterateEncounters_of_swept {remaining iteration : Nat} {root : Operation}
    {swept : Operation × Nat} (hlimit : s.limitReached config = false)
    (h : Returns (sweep patterns config root >>= removeDead config)
      (s.note (.iteration iteration root.name.text)) swept s') :
    iterateEncounters patterns config (remaining + 1) iteration root s
      = sweepEncounters patterns config root (s.note (.iteration iteration root.name.text))
        ++ if s'.rewrites = s.rewrites && swept.2 = 0 then []
          else iterateEncounters patterns config remaining (iteration + 1) swept.1 s' := by
  rw [iterateEncounters, hlimit, if_neg Bool.false_ne_true]
  dsimp only
  rw [afterwards_of_returns h]

/-- Without a limit every match is counted. -/
theorem rewrites_of_returns_iterate (hlimit : config.maxRewrites = none) {remaining iteration : Nat}
    {progress progress' : Progress}
    (h : Returns (iterate patterns config remaining iteration progress) s progress' s') :
    s'.rewrites = s.rewrites
      + (matchesIn patterns config
        (iterateEncounters patterns config remaining iteration progress.root s)).length := by
  induction remaining generalizing iteration progress s with
  | zero =>
      obtain ⟨-, rfl⟩ := Returns.pure_iff.1 h
      rfl
  | succ remaining ih =>
      rcases returns_iterate_succ_iff.1 h with ⟨hreached, -⟩ | ⟨hbelow, swept, s₁, hswept, hend⟩
      · rw [limitReached_of_none hlimit] at hreached
        cases hreached
      · have hcounts := (cut_swept (k := 0) hlimit progress.root).counts hswept
        rw [rewrites_note] at hcounts
        rw [iterateEncounters_of_swept hbelow hswept, matchesIn_append, List.length_append]
        rcases hend with ⟨hstop, -, rfl⟩ | ⟨hgo, hrest⟩
        · rw [if_pos (by simpa using hstop), matchesIn_nil, List.length_nil, Nat.add_zero]
          exact hcounts
        · rw [if_neg (by simpa using hgo), ih hrest, hcounts, Nat.add_assoc]

theorem iterate_of_reached {t : State σ} (ht : t.rewrites = k) (remaining iteration : Nat)
    (progress : Progress) :
    Returns (iterate patterns (config.limited k) remaining iteration progress) t progress t
      ∧ iterateEncounters patterns (config.limited k) remaining iteration progress.root t = [] := by
  have hreached : t.limitReached (config.limited k) = true := by
    rw [limitReached_limited, ht]
    exact decide_eq_true (Nat.le_refl k)
  cases remaining with
  | zero => exact ⟨Returns.pure_iff.2 ⟨rfl, rfl⟩, rfl⟩
  | succ remaining =>
      refine ⟨returns_iterate_succ_iff.2 (.inl ⟨hreached, rfl, rfl⟩), ?_⟩
      rw [iterateEncounters, hreached, if_pos rfl]

/-- If the limit is reached within a sweep, then no other sweep follows. -/
theorem iterate_cutShort {iteration : Nat} {progress : Progress} {t : State σ}
    (hless : t.rewrites < k) (remaining : Nat)
    (h : Ensures (sweep patterns (config.limited k) progress.root >>= removeDead (config.limited k))
      (t.note (.iteration iteration progress.root.name.text))
      (fun _ t' => t'.rewrites = k) fun error _ => CutShort error) :
    matchesIn patterns (config.limited k)
      (iterateEncounters patterns (config.limited k) (remaining + 1) iteration progress.root t)
        = matchesIn patterns (config.limited k)
          (sweepEncounters patterns (config.limited k) progress.root
          (t.note (.iteration iteration progress.root.name.text)))
      ∧ Ensures (iterate patterns (config.limited k) (remaining + 1) iteration progress) t
        (fun _ t' => t'.rewrites = k)
        fun error _ => CutShort error := by
  have hbelow : t.limitReached (config.limited k) = false :=
    decide_eq_false (Nat.not_le_of_lt hless)
  constructor
  · rw [iterateEncounters, hbelow, if_neg Bool.false_ne_true]
    dsimp only
    rw [matchesIn_append]
    refine (congrArg _ (Cut.matchesIn_afterwards h fun swept t' ht' => ?_)).trans
      (List.append_nil _)
    split
    · rfl
    · rw [(iterate_of_reached ht' remaining (iteration + 1) { root := swept.1 }).2]
      rfl
  · refine ensures_iterate_succ hbelow h (fun _ _ ht' _ => ht') fun swept t' ht' _ => ?_
    exact Ensures.of_post
      (iterate_of_reached ht' remaining (iteration + 1) { root := swept.1, changed := true }).1 ht'

/-- **Sweeps with a limit.** They make the same matches up to the limit. They end in the same way if
there are fewer, and else they stop at the limit, unless the tree is faulty then. -/
theorem iterate_limited (hlimit : config.maxRewrites = none) {remaining iteration : Nat}
    {progress progress' : Progress} {t : State σ} (hlinked : (limitLink σ k).Linked s t)
    (h : Returns (iterate patterns config remaining iteration progress) s progress' s') :
    matchesIn patterns (config.limited k)
        (iterateEncounters patterns (config.limited k) remaining iteration progress.root t)
      = (matchesIn patterns config (iterateEncounters patterns config remaining iteration
        progress.root s)).take (k - s.rewrites)
    ∧ Ensures (iterate patterns (config.limited k) remaining iteration progress) t
      (fun limited t' => t'.rewrites = min k s'.rewrites
        ∧ (s'.rewrites < k → limited = progress' ∧ t' = s'))
      fun error _ => k < s'.rewrites ∧ CutShort error := by
  induction remaining generalizing iteration progress s t with
  | zero =>
      obtain ⟨rfl, rfl⟩ := Returns.pure_iff.1 h
      obtain ⟨-, hrewrites, hle, hsame⟩ := hlinked
      refine ⟨List.take_nil.symm, ?_⟩
      exact ⟨hrewrites.trans (Nat.min_eq_right hle).symm, fun hless => ⟨rfl, hsame hless⟩⟩
  | succ remaining ih =>
      obtain ⟨-, hrewrites, hle, hsame⟩ := id hlinked
      rcases Nat.lt_or_ge s.rewrites k with hless | hreached
      · obtain rfl := hsame hless
        have hbelow' : t.limitReached (config.limited k) = false :=
          decide_eq_false (Nat.not_le_of_lt hless)
        rcases returns_iterate_succ_iff.1 h with ⟨hreached, -⟩ | ⟨hbelow, swept, s₁, hswept, hend⟩
        · rw [limitReached_of_none hlimit] at hreached
          cases hreached
        · have hcut : Cut patterns config k _ _ _ _ := cut_swept hlimit progress.root
          have hnoted := (limitLink σ k).note hlinked (.iteration iteration progress.root.name.text)
          have htakes := hcut.takes hnoted hswept
          have hcounts := hcut.counts hswept
          rw [rewrites_note] at htakes hcounts
          rw [iterateEncounters_of_swept hbelow hswept, matchesIn_append,
            take_append_sub hcounts, ← htakes]
          rcases Nat.lt_or_ge k s₁.rewrites with hlate | hle₁
          · have hmore : k < s'.rewrites := by
              rcases hend with ⟨-, -, rfl⟩ | ⟨-, hrest⟩
              · exact hlate
              · rw [rewrites_of_returns_iterate hlimit hrest]
                omega
            obtain ⟨hmatches, hends⟩ := iterate_cutShort hless remaining
              (hcut.late hnoted hswept hlate)
            rw [hmatches, Nat.sub_eq_zero_of_le (Nat.le_of_lt hlate), List.take_zero,
              List.append_nil]
            refine ⟨rfl, (hends.mono fun _ t' _ ht' => ?_).weaken fun _ _ hshort => ⟨hmore, hshort⟩⟩
            exact ⟨by omega, fun hlater => by omega⟩
          · obtain ⟨t₁, hq, hlinked₁⟩ := hcut.follows.exists_returns hnoted hswept ⟨rfl, hle₁⟩
            obtain ⟨-, hrewrites₁, -, hsame₁⟩ := id hlinked₁
            rw [iterateEncounters_of_swept hbelow' hq, matchesIn_append, hrewrites₁]
            rcases hend with ⟨hstop, rfl, rfl⟩ | ⟨hgo, hrest⟩
            · have hstop' : (s'.rewrites = t.rewrites && swept.2 = 0) = true := by simpa using hstop
              rw [if_pos hstop', if_pos hstop']
              refine ⟨by rw [matchesIn_nil, matchesIn_nil, List.take_nil], ?_⟩
              exact Ensures.of_post (returns_iterate_succ_iff.2 (.inr ⟨hbelow', swept, t₁, hq,
                .inl ⟨⟨hrewrites₁.trans hstop.1, hstop.2⟩, rfl, rfl⟩⟩))
                  ⟨by omega, fun hlater => ⟨rfl, hsame₁ hlater⟩⟩
            · -- Both runs go on, and their states are still linked.
              have hgo' : ¬ (s₁.rewrites = t.rewrites && swept.2 = 0) = true := by simpa using hgo
              rw [if_neg hgo', if_neg hgo']
              obtain ⟨htakes₁, hends₁⟩ := ih hlinked₁ hrest
              have hends : Ensures _ _ (fun swept' t' => swept' = swept ∧ t' = t₁) fun error _ =>
                k < s'.rewrites ∧ CutShort error :=
                Ensures.of_post hq ⟨rfl, rfl⟩
              refine ⟨by rw [htakes₁], ensures_iterate_succ hbelow' hends ?_ ?_⟩
              · rintro _ _ ⟨rfl, rfl⟩ hstop
                exact absurd (hrewrites₁ ▸ hstop) hgo
              · rintro _ _ ⟨rfl, rfl⟩ _
                exact hends₁
      · -- The limit has been reached: no other sweep is made.
        have ht : t.rewrites = k := by omega
        have hcounted := rewrites_of_returns_iterate hlimit h
        obtain ⟨hreturns, hnone⟩ : Returns
          (iterate patterns (config.limited k) (remaining + 1) iteration progress) t
            progress t ∧ _ :=
          iterate_of_reached ht (remaining + 1) iteration progress
        rw [hnone, Nat.sub_eq_zero_of_le hreached]
        exact ⟨rfl, Ensures.of_post hreturns ⟨by omega, fun hlater => by omega⟩⟩

end DialectIR.Greedy

namespace DialectIR

open Greedy

/-- **A limit only stops a run early.** Where the run without a limit ends well, the run with a
limit makes the same matches up to it. If there are fewer of them, then both end in the same way;
and if there are more, then the sweep that the limit cuts short may leave a faulty tree, which is an
error. -/
theorem applyGreedily_limited {σ : Type} {patterns : FrozenPatterns σ} {config : Config}
    {root : Operation} {context : Context} {memory : σ} {outcome : Outcome}
    (hlimit : config.maxRewrites = none)
    (hresult : (applyGreedily patterns config root context memory).result = .ok outcome) (k : Nat) :
    let whole := applyGreedily patterns config root context memory
    let part := applyGreedily patterns (config.limited k) root context memory
    let matches' := committed patterns config root context memory
    committed patterns (config.limited k) root context memory = matches'.take k
      ∧ (matches'.length < k → part.result = whole.result ∧ part.op = whole.op)
      ∧ ((∃ outcome', part.result = .ok outcome' ∧ outcome'.rewrites = min k matches'.length)
        ∨ k < matches'.length ∧ part.op = root ∧ ∃ error, part.result = .error error
        ∧ CutShort error) := by
  obtain ⟨op, s, hreturns⟩ := exists_returns_of_result hresult
  obtain ⟨progress, between, hiterate, rfl, rfl, -⟩ := returns_rewrite_iff.1 hreturns
  have hlinked : (limitLink σ k).Linked { context, memory, names := namesFor root }
    { context, memory, names := namesFor root } :=
    ⟨.refl _, rfl, Nat.zero_le k, fun _ => rfl⟩
  have hcount : between.rewrites = (committed patterns config root context memory).length :=
    (rewrites_of_returns_iterate hlimit hiterate).trans (Nat.zero_add _)
  obtain ⟨htakes, hends⟩ := iterate_limited hlimit hlinked hiterate
  refine ⟨htakes, ?_⟩
  rw [← hcount, applyGreedily_of_returns hreturns]
  unfold Ensures at hends
  rcases hrun : runFrom (iterate patterns (config.limited k) config.maxIterations 0 { root })
    { context, memory, names := namesFor root } with ⟨error | limited, t⟩
  · rw [hrun] at hends
    obtain ⟨hmore, hshort⟩ := hends
    rw [applyGreedily_of_error hrun]
    exact ⟨fun hless => absurd hless (Nat.not_lt_of_gt hmore),
      .inr ⟨hmore, rfl, error, rfl, hshort⟩⟩
  · rw [hrun] at hends
    obtain ⟨hrewrites, hsame⟩ := hends
    rw [applyGreedily_of_returns (returns_rewrite_iff.2 ⟨limited, t, hrun, rfl, rfl, rfl⟩)]
    refine ⟨fun hless => ?_, .inl ⟨_, rfl, hrewrites⟩⟩
    obtain ⟨rfl, rfl⟩ := hsame hless
    exact ⟨rfl, rfl⟩

/-- Of the two matches that fold a chain into a region, a limit of one allows the first. -/
theorem applyGreedily_limited_chain : ∃ root : Operation, root.definedNames = ["a", "b", "c"]
    ∧ (applyGreedily (σ := Unit) ⟨Arith.simplifications⟩ {} root (.ofRegistry .standard) ()).result
      = .ok ⟨true, true, 2⟩
    ∧ let whole := applyGreedily (σ := Unit) ⟨Arith.simplifications⟩ {} root
          (.ofRegistry .standard) ()
      let part := applyGreedily (σ := Unit) ⟨Arith.simplifications⟩ (Config.limited {} 1) root
          (.ofRegistry .standard) ()
      let matches' := committed (σ := Unit) ⟨Arith.simplifications⟩ {} root
          (.ofRegistry .standard) ()
      committed (σ := Unit) ⟨Arith.simplifications⟩ (Config.limited {} 1) root
        (.ofRegistry .standard) () = matches'.take 1
        ∧ (matches'.length < 1 → part.result = whole.result ∧ part.op = whole.op)
        ∧ ((∃ outcome', part.result = .ok outcome' ∧ outcome'.rewrites = min 1 matches'.length)
          ∨ 1 < matches'.length ∧ part.op = root ∧ ∃ error, part.result = .error error
            ∧ CutShort error) := by
  let a : Value := ⟨"a", .int 8⟩
  let b : Value := ⟨"b", .int 8⟩
  let c : Value := ⟨"c", .int 8⟩
  let root := Operation.module
    [.constant a 100, { name := "arith.muli", operands := [a, a], results := [b] },
      { name := "test.scope",
        region := some [{ name := "arith.subi", operands := [b, b], results := [c] },
          { name := "test.sink", operands := [b, c] }] }]
  have hresult : (applyGreedily (σ := Unit) ⟨Arith.simplifications⟩ {} root
    (.ofRegistry .standard) ()).result
      = .ok ⟨true, true, 2⟩ := eq_ok_of_toOption (by decide +kernel)
  exact ⟨root, by decide +kernel, hresult, applyGreedily_limited rfl hresult 1⟩

/-- A limit can make a run fail: the operation that is erased first is still in use when the limit
is reached. -/
theorem exists_limited_fails : ∃ (patterns : FrozenPatterns Unit) (root : Operation),
    (∀ pattern ∈ patterns.patterns, pattern.Blind)
      ∧ (applyGreedily patterns {} root default ()).result = .ok ⟨true, true, 2⟩
      ∧ ∃ error, (applyGreedily patterns (Config.limited {} 1) root default ()).result
        = .error error := by
  let erase (name : OpName) : Pattern Unit :=
    { name := "test::Erase"
      root := some name
      rewrite := fun _ => do
        Attempt.act .erase
        return true }
  let a : Value := ⟨"a", .int 8⟩
  let root := Operation.module
    [{ name := "test.source", results := [a] }, { name := "test.sink", operands := [a] }]
  have hblind (name : OpName) : (erase name).Blind :=
    fun _ => (Attempt.blind_act _).bind fun _ => Attempt.blind_pure true
  refine ⟨⟨[erase "test.source", erase "test.sink"]⟩, root, ?_,
    eq_ok_of_toOption (by decide +kernel), exists_error_of_toOption (by decide +kernel)⟩
  rintro pattern (_ | ⟨_, _ | ⟨_, ⟨⟩⟩⟩)
  · exact hblind _
  · exact hblind _

end DialectIR
