import DialectIR.Proofs.DeadCode
import DialectIR.Proofs.Loading
import DialectIR.Proofs.Matching
import DialectIR.Proofs.Steps

/-! Two runs of greedy rewriting side by side. If trying patterns keeps the states of the runs
linked, then so do visits, sweeps and whole runs, and the second run ends as the first. The second
run need not follow the first to every end: it may be enough that it does as long as there are no
errors, or no more than a number of matches. -/

namespace DialectIR.Greedy

open Operation

variable {σ α β : Type}

theorem runFrom_modify_bind (f : State σ → State σ) (next : PUnit → Step σ α) (s : State σ) :
    runFrom (modify f >>= next) s = runFrom (next ⟨⟩) (f s) := rfl

theorem runFrom_get_bind (next : State σ → Step σ α) (s : State σ) :
    runFrom (get >>= next) s = runFrom (next s) s := rfl

theorem runFrom_set_bind (t : State σ) (next : PUnit → Step σ α) (s : State σ) :
    runFrom (set t >>= next) s = runFrom (next ⟨⟩) t := rfl

/-- What a sweep among others can lead to: the run stops before it at the limit, or behind it if it
changed nothing, or goes on. -/
theorem returns_iterate_succ_iff {patterns : FrozenPatterns σ} {config : Config}
    {remaining iteration : Nat} {progress progress' : Progress} {s s' : State σ} :
    Returns (iterate patterns config (remaining + 1) iteration progress) s progress' s'
      ↔ s.limitReached config = true ∧ progress' = progress ∧ s' = s
        ∨ s.limitReached config = false ∧ ∃ swept between,
          Returns (sweep patterns config progress.root >>= removeDead config)
            (s.note (.iteration iteration progress.root.name.text)) swept between
          ∧ ((between.rewrites = s.rewrites ∧ swept.2 = 0)
              ∧ progress' = { progress with root := swept.1, converged := true } ∧ s' = between
            ∨ ¬ (between.rewrites = s.rewrites ∧ swept.2 = 0)
              ∧ Returns (iterate patterns config remaining (iteration + 1)
                { root := swept.1, changed := true }) between progress' s') := by
  rw [iterate_eq, Returns.get_bind_iff]
  cases hlimit : s.limitReached config with
  | true => simp
  | false =>
      rw [if_neg Bool.false_ne_true, Returns.modify_bind_iff, Returns.get_bind_iff,
        Returns.bind_iff]
      simp only [Bool.false_eq_true, false_and, true_and, false_or]
      refine exists_congr fun swept => exists_congr fun between => and_congr_right fun _ => ?_
      rw [Returns.get_bind_iff, Returns.ite_iff]
      have hnoted : (s.note (.iteration iteration progress.root.name.text)).rewrites
        = s.rewrites := rfl
      rw [hnoted]
      by_cases hstop : between.rewrites = s.rewrites ∧ swept.2 = 0
      · simp [hstop]
      · have hgo : ¬ (between.rewrites = s.rewrites && swept.2 = 0) = true := by simpa using hstop
        rw [if_neg hgo]
        simp [hstop]

/-- A run ends as its sweeps do. -/
theorem returns_rewrite_iff {patterns : FrozenPatterns σ} {config : Config} {root op : Operation}
    {outcome : Outcome} {s s' : State σ} : Returns (rewrite patterns config root) s (outcome, op) s'
      ↔ ∃ progress between, Returns (iterate patterns config config.maxIterations 0 { root }) s
        progress between
        ∧ outcome = ⟨progress.changed, progress.converged, between.rewrites⟩
        ∧ op = (if progress.changed then progress.root else root)
        ∧ s' = if progress.converged then between
          else between.note
            (.notConverged root.name.text between.rewrites config.maxIterations) := by
  unfold rewrite
  rw [Returns.bind_iff]
  refine exists_congr fun progress => exists_congr fun between => and_congr_right fun _ => ?_
  rw [Returns.get_bind_iff]
  dsimp only
  cases progress.converged with
  | true =>
      refine Returns.pure_iff.trans ?_
      rw [Prod.mk.injEq, and_assoc]
      rfl
  | false =>
      refine Returns.modify_bind_iff.trans (Returns.pure_iff.trans ?_)
      rw [Prod.mk.injEq, and_assoc]
      rfl

theorem applyGreedily_of_returns {patterns : FrozenPatterns σ} {config : Config}
    {root op : Operation} {context : Context} {memory : σ} {outcome : Outcome} {s : State σ}
    (h : Returns (rewrite patterns config root) { context, memory, names := namesFor root }
      (outcome, op) s) :
    applyGreedily patterns config root context memory = ⟨.ok outcome, op, s.context, s.memory⟩ := by
  have hrun : (rewrite patterns config root).run.run { context, memory, names := namesFor root }
    = (.ok (outcome, op), s) := h
  unfold applyGreedily
  rw [hrun]

theorem applyGreedily_of_error {patterns : FrozenPatterns σ} {config : Config} {root : Operation}
    {context : Context} {memory : σ} {error : Error} {s : State σ}
    (h : runFrom (iterate patterns config config.maxIterations 0 { root })
      { context, memory, names := namesFor root }
      = (.error error, s)) : applyGreedily patterns config root context memory
        = ⟨.error error, root, s.context, s.memory⟩ := by
  have hrun : (rewrite patterns config root).run.run { context, memory, names := namesFor root }
    = (.error error, s) := by
    show runFrom (rewrite patterns config root) _ = _
    rw [rewrite, runFrom_bind, h]
  unfold applyGreedily
  rw [hrun]

theorem exists_returns_of_result {patterns : FrozenPatterns σ} {config : Config} {root : Operation}
    {context : Context} {memory : σ} {outcome : Outcome}
    (h : (applyGreedily patterns config root context memory).result = .ok outcome) :
    ∃ op s, Returns (rewrite patterns config root) { context, memory, names := namesFor root }
      (outcome, op) s := by
  unfold applyGreedily at h
  split at h
  next outcome' op s hrun =>
    cases h
    exact ⟨op, s, hrun⟩
  next => cases h

/-- How an attempt ends, and the state that it leaves, in view of what the pattern answered and
drafted. -/
def State.conclude (s : State σ) (depth : Nat) (op : Operation) (pattern : Pattern σ) :
    Except Error Bool × Draft σ → Except Error (Option Recording) × State σ
  | (answer, draft) =>
      let tried := { s.note (.matching depth op.name.text pattern.name) with
        names := draft.names, memory := draft.memory }
      match answer with
      | .error cause => (.error (.inPattern pattern.name op.name cause), tried)
      | .ok false => (.ok none, { tried with names := s.names })
      | .ok true =>
          if draft.recording.isEmpty then (.error (.unchanged pattern.name op.name), tried)
          else (.ok (some draft.recording),
            { tried.note (.success depth) with rewrites := s.rewrites + 1 })

/-- **An attempt is decided by what the pattern does at the site.** -/
theorem runFrom_attempt (depth : Nat) (op : Operation) (pattern : Pattern σ) (s : State σ) :
    runFrom (attempt depth op pattern) s
      = s.conclude depth op pattern ((pattern.rewrite op).run.run (s.site op) s.draft) := by
  have hdraws := Rewrite.run_draws (s.site op) (pattern.rewrite op).run s.draft
  unfold attempt
  rw [runFrom_modify_bind, runFrom_get_bind, runFrom_set_bind]
  generalize hrun : Rewrite.run _ _ _ = outcome
  have hrun' : (pattern.rewrite op).run.run (s.site op) s.draft = outcome := hrun
  rw [hrun'] at hdraws ⊢
  obtain ⟨answer, draft⟩ := outcome
  rcases answer with cause | _ | _
  · rfl
  · have hback : draft.names.rollback s.names.next = s.names := rollback_of_draws hdraws
    show (Except.ok none, _) = s.conclude depth op pattern (.ok false, draft)
    unfold State.conclude
    rw [← hback]
    rfl
  · unfold State.conclude
    dsimp only
    split
    · rfl
    · rfl

theorem sameDialects_removeDeadOps (context : Context) (op : Operation) :
    context.SameDialects (op.removeDeadOps context).context :=
  ((Context.Loads.refl context).removeDeadOps op).dialects

theorem State.Similar.note {s t : State σ} (h : s.Similar t) (event event' : Event) :
    (s.note event).Similar (t.note event') :=
  ⟨h.definitions, h.replaced, h.erased,
    ((sameDialects_note _ event).symm.trans h.dialects).trans (sameDialects_note _ event')⟩

theorem State.Similar.prune {s t : State σ} (h : s.Similar t) (op : Operation) :
    State.Similar { s with context := (op.removeDeadOps s.context).context }
      { t with context := (op.removeDeadOps t.context).context } :=
  ⟨h.definitions, h.replaced, h.erased,
    ((sameDialects_removeDeadOps _ op).symm.trans h.dialects).trans
      (sameDialects_removeDeadOps _ op)⟩

/-- How the states of two runs are linked, and to which ends the second run follows the first: those
are told apart by whether there is a result, and by the number of matches. -/
structure Link (σ : Type) where
  Linked : State σ → State σ → Prop
  Followed : Bool → Nat → Prop
  /-- A run that is followed to its end is followed to all that comes before. -/
  followed_before : ∀ {ok m n}, Followed ok n → m ≤ n → Followed true m
  similar : ∀ {s t}, Linked s t → s.Similar t
  /-- What is known about a sweep may change in both states alike. -/
  learn : ∀ {s t}, Linked s t → ∀ definitions replaced erased,
    Linked { s with definitions, replaced, erased } { t with definitions, replaced, erased }
  note : ∀ {s t}, Linked s t → ∀ event, Linked (s.note event) (t.note event)
  /-- Dead operations may be removed in both states. -/
  prune : ∀ {s t}, Linked s t → ∀ op : Operation,
    Linked { s with context := (op.removeDeadOps s.context).context }
      { t with context := (op.removeDeadOps t.context).context }

namespace Link

variable {link : Link σ} {s t : State σ}

/-- To follow a run to its result, up to a number of matches, is to follow it to all that comes
before. -/
theorem before_upTo {count : Nat} {ok : Bool} {m n : Nat} (h : ok = true ∧ n ≤ count)
    (hle : m ≤ n) : true = true ∧ m ≤ count :=
  ⟨rfl, Nat.le_trans hle h.2⟩

theorem linked_map (h : link.Linked s t) (f : State σ → State σ)
    (hf : ∀ s,
      f s
        = { s with definitions := (f s).definitions, replaced := (f s).replaced, erased := (f s).erased })
    (hdefinitions : (f t).definitions = (f s).definitions)
    (hreplaced : (f t).replaced = (f s).replaced)
    (herased : (f t).erased = (f s).erased) : link.Linked (f s) (f t) := by
  rw [hf s, hf t, hdefinitions, hreplaced, herased]
  exact link.learn h _ _ _

theorem linked_register (h : link.Linked s t) (op : Operation) :
    link.Linked (s.register op) (t.register op) := by
  have hsame := link.similar h
  refine link.linked_map h (·.register op) (fun _ => rfl) ?_ hsame.replaced hsame.erased
  simp only [State.register, hsame.definitions]

theorem linked_registerAll (h : link.Linked s t) (ops : List Operation) :
    link.Linked (ops.foldl State.register s) (ops.foldl State.register t) := by
  induction ops generalizing s t with
  | nil => exact h
  | cons op ops ih => exact ih (link.linked_register h op)

theorem linked_act (h : link.Linked s t) (results : List Value) (action : Option Action) :
    link.Linked (s.act results action) (t.act results action) := by
  have hsame := link.similar h
  rcases action with _ | (values | _ | new)
  · exact h
  · refine link.linked_map h (·.replace results values) (fun _ => rfl) ?_ ?_ hsame.erased
    · simp only [State.replace, State.forget, hsame.definitions]
    · simp only [State.replace, hsame.replaced]
  · refine link.linked_map h (·.erase results) (fun _ => rfl) ?_ hsame.replaced ?_
    · simp only [State.erase, State.forget, hsame.definitions]
    · simp only [State.erase, hsame.erased]
  · exact h

/-! ### Steps -/

variable (link) in
/-- The second step follows the first to its end: from linked states it ends in the same way and
leaves linked states. -/
structure Follows (p q : Step σ α) : Prop where
  grows : ∀ s, s.rewrites ≤ (runFrom p s).2.rewrites
  ends : ∀ {s t}, link.Linked s t → link.Followed (runFrom p s).1.isOk (runFrom p s).2.rewrites →
    (runFrom q t).1 = (runFrom p s).1 ∧ link.Linked (runFrom p s).2 (runFrom q t).2

theorem Follows.exists_returns {p q : Step σ α} (h : link.Follows p q) {a : α} {s' : State σ}
    (hlinked : link.Linked s t) (hp : Returns p s a s')
    (hfollowed : link.Followed true s'.rewrites) : ∃ t', Returns q t a t' ∧ link.Linked s' t' := by
  have hends := h.ends hlinked
  unfold Returns at hp
  rw [hp] at hends
  obtain ⟨hresult, hlinked'⟩ := hends hfollowed
  exact ⟨(runFrom q t).2, Prod.ext hresult rfl, hlinked'⟩

theorem follows_pure (a : α) : link.Follows (pure a) (pure a) :=
  ⟨fun _ => Nat.le_refl _, fun h _ => ⟨rfl, h⟩⟩

theorem follows_throw (error : Error) : link.Follows (throw error : Step σ α) (throw error) :=
  ⟨fun _ => Nat.le_refl _, fun h _ => ⟨rfl, h⟩⟩

theorem follows_modify (f : State σ → State σ) (hrewrites : ∀ s, (f s).rewrites = s.rewrites)
    (h : ∀ {s t}, link.Linked s t → link.Linked (f s) (f t)) :
    link.Follows (modify f : Step σ PUnit) (modify f) :=
  ⟨fun s => Nat.le_of_eq (hrewrites s).symm, fun hlinked _ => ⟨rfl, h hlinked⟩⟩

/-- The second parts need to follow each other only behind what the first part ends with. -/
theorem Follows.bind_of_returns {p q : Step σ α} {next next' : α → Step σ β} (h : link.Follows p q)
    (hnext : ∀ s a s', Returns p s a s' → link.Follows (next a) (next' a)) :
    link.Follows (p >>= next) (q >>= next') where
  grows s := by
    have hle := h.grows s
    rw [runFrom_bind]
    rcases hp : runFrom p s with ⟨error | a, s'⟩
    · rw [hp] at hle
      exact hle
    · rw [hp] at hle
      exact Nat.le_trans hle ((hnext s a s' hp).grows s')
  ends {s t} hlinked hfollowed := by
    have hends := h.ends hlinked
    rw [runFrom_bind] at hfollowed
    rw [runFrom_bind, runFrom_bind]
    rcases hp : runFrom p s with ⟨error | a, s'⟩
    · rw [hp] at hends hfollowed
      obtain ⟨hresult, hlinked'⟩ := hends hfollowed
      rcases hq : runFrom q t with ⟨_ | _, t'⟩
      · rw [hq] at hresult hlinked'
        cases hresult
        exact ⟨rfl, hlinked'⟩
      · rw [hq] at hresult
        cases hresult
    · rw [hp] at hends hfollowed
      obtain ⟨hresult, hlinked'⟩ :=
        hends (link.followed_before hfollowed ((hnext s a s' hp).grows s'))
      rcases hq : runFrom q t with ⟨_ | _, t'⟩
      · rw [hq] at hresult
        cases hresult
      · rw [hq] at hresult hlinked'
        cases hresult
        exact (hnext s a s' hp).ends hlinked' hfollowed

theorem Follows.bind {p q : Step σ α} {next next' : α → Step σ β} (h : link.Follows p q)
    (hnext : ∀ a, link.Follows (next a) (next' a)) : link.Follows (p >>= next) (q >>= next') :=
  h.bind_of_returns fun _ a _ _ => hnext a

/-- A first part of the one step may be left out that leaves its state linked to the same states. -/
theorem Follows.skip_left {idle : Step σ α} {a : α} {next : α → Step σ β} {q : Step σ β}
    (hidle : ∀ s, Ensures idle s (fun a' s' => a' = a ∧ s'.rewrites = s.rewrites
      ∧ ∀ t, link.Linked s t → link.Linked s' t)
      fun _ _ => False) (h : link.Follows (next a) q) : link.Follows (idle >>= next) q where
  grows s := by
    obtain ⟨_, s', hreturns, rfl, hrewrites, -⟩ := (hidle s).exists_returns
    rw [runFrom_bind, hreturns, ← hrewrites]
    exact h.grows s'
  ends {s t} hlinked hfollowed := by
    obtain ⟨_, s', hreturns, rfl, -, hkeeps⟩ := (hidle s).exists_returns
    unfold Returns at hreturns
    rw [runFrom_bind, hreturns] at hfollowed ⊢
    exact h.ends (hkeeps t hlinked) hfollowed

/-- And so may one of the other step. -/
theorem Follows.skip_right {idle : Step σ α} {a : α} {next : α → Step σ β} {p : Step σ β}
    (hidle : ∀ s t, link.Linked s t →
      Ensures idle t (fun a' t' => a' = a ∧ link.Linked s t') fun _ _ => False)
    (h : link.Follows p (next a)) : link.Follows p (idle >>= next) where
  grows s := h.grows s
  ends {s t} hlinked hfollowed := by
    obtain ⟨_, t', hreturns, rfl, hlinked'⟩ := (hidle s t hlinked).exists_returns
    unfold Returns at hreturns
    rw [runFrom_bind, hreturns]
    exact h.ends hlinked' hfollowed

/-- A step may read what linked states have in common. -/
theorem follows_get_bind {next next' : State σ → Step σ α}
    (hread : ∀ {s t}, link.Linked s t → next' t = next' s)
    (h : ∀ s, link.Follows (next s) (next' s)) : link.Follows (get >>= next) (get >>= next') where
  grows s := (h s).grows s
  ends {s t} hlinked hfollowed := by
    show (runFrom (next' t) t).1 = (runFrom (next s) s).1
      ∧ link.Linked (runFrom (next s) s).2 (runFrom (next' t) t).2
    rw [hread hlinked]
    exact (h s).ends hlinked hfollowed

variable (link) in
/-- The limits of two configurations stop the runs at the same time. -/
def SameLimit (config config' : Config) : Prop :=
  ∀ s t, link.Linked s t → link.Followed true s.rewrites →
    t.limitReached config' = s.limitReached config

variable {config config' : Config}

theorem SameLimit.follows_ite (hlimit : link.SameLimit config config') (a : α) {p q : Step σ α}
    (h : link.Follows p q) :
    link.Follows (get >>= fun s => if s.limitReached config then pure a else p)
      (get >>= fun s => if s.limitReached config' then pure a else q) where
  grows s := by
    rw [runFrom_get_bind]
    split
    · exact Nat.le_refl _
    · exact h.grows s
  ends {s t} hlinked hfollowed := by
    rw [runFrom_get_bind] at hfollowed
    rw [runFrom_get_bind, runFrom_get_bind]
    cases hreached : s.limitReached config with
    | true =>
        rw [hreached, if_pos rfl] at hfollowed
        rw [hlimit s t hlinked (link.followed_before hfollowed (Nat.le_refl _)), hreached]
        exact ⟨rfl, hlinked⟩
    | false =>
        rw [hreached, if_neg Bool.false_ne_true] at hfollowed
        rw [hlimit s t hlinked (link.followed_before hfollowed (h.grows s)), hreached]
        exact h.ends hlinked hfollowed

theorem rewrites_conclude (s : State σ) (depth : Nat) (op : Operation) (pattern : Pattern σ)
    (outcome : Except Error Bool × Draft σ) :
    s.rewrites ≤ (s.conclude depth op pattern outcome).2.rewrites := by
  obtain ⟨answer, draft⟩ := outcome
  unfold State.conclude
  dsimp only
  split
  · exact Nat.le_refl _
  · exact Nat.le_refl _
  · split
    · exact Nat.le_refl _
    · exact Nat.le_succ _

theorem follows_attempt {depth : Nat} {op : Operation} {pattern : Pattern σ}
    (h : ∀ {s t concluded}, link.Linked s t →
      concluded = s.conclude depth op pattern ((pattern.rewrite op).run.run (s.site op) s.draft) →
      link.Followed concluded.1.isOk concluded.2.rewrites →
      (t.conclude depth op pattern ((pattern.rewrite op).run.run (t.site op) t.draft)).1
        = concluded.1
        ∧ link.Linked concluded.2
          (t.conclude depth op pattern ((pattern.rewrite op).run.run (t.site op) t.draft)).2) :
    link.Follows (attempt depth op pattern) (attempt depth op pattern) where
  grows s := by
    rw [runFrom_attempt]
    exact rewrites_conclude s depth op pattern _
  ends {s t} hlinked hfollowed := by
    rw [runFrom_attempt] at hfollowed
    rw [runFrom_attempt, runFrom_attempt]
    exact h hlinked rfl hfollowed

theorem follows_attemptFirst {depth : Nat} {op : Operation} {patterns : List (Pattern σ)}
    (h : ∀ pattern ∈ patterns, link.Follows (attempt depth op pattern) (attempt depth op pattern)) :
    link.Follows (attemptFirst depth op patterns) (attemptFirst depth op patterns) := by
  induction patterns with
  | nil => exact link.follows_pure none
  | cons pattern rest ih =>
      obtain ⟨hpattern, hrest⟩ := List.forall_mem_cons.1 h
      unfold attemptFirst
      refine hpattern.bind fun recording? => ?_
      cases recording? with
      | some recording => exact link.follows_pure _
      | none => exact ih hrest

theorem follows_substitute (op : Operation) : link.Follows (substitute op) (substitute op) := by
  unfold substitute
  refine link.follows_get_bind (fun h => ?_) fun s => ?_
  · rw [(link.similar h).replaced]
  · dsimp only
    split
    · exact link.follows_pure op
    · split
      · exact link.follows_throw _
      · exact link.follows_pure _

variable {within within' : Operation → Step σ Operation}

theorem Follows.ite {p q p' q' : Step σ α} (h : link.Follows p p') (h' : link.Follows q q')
    (condition : Bool) :
    link.Follows (if condition then p else q) (if condition then p' else q') := by
  cases condition with
  | true => exact h
  | false => exact h'

theorem follows_settle (hwithin : ∀ op, link.Follows (within op) (within' op))
    (htopDown : config'.topDown = config.topDown) (inserted : List Operation) (op : Operation) :
    link.Follows (visit.settle config within inserted op)
      (visit.settle config' within' inserted op) := by
  rw [settle_eq, settle_eq, htopDown]
  refine ((hwithin op).ite (link.follows_pure op) _).bind fun op => ?_
  refine (link.follows_modify (·.register op) (fun _ => rfl) fun h =>
    link.linked_register h op).bind fun _ => ?_
  exact link.follows_pure _

theorem rewrites_registerAll (s : State σ) (ops : List Operation) :
    (ops.foldl State.register s).rewrites = s.rewrites := by
  induction ops generalizing s with
  | nil => rfl
  | cons op ops ih => exact ih (s.register op)

theorem follows_commit (hwithin : ∀ op, link.Follows (within op) (within' op))
    (htopDown : config'.topDown = config.topDown) (op : Operation) (recording : Recording) :
    link.Follows (commit config within op recording) (commit config' within' op recording) := by
  unfold commit
  refine (link.follows_modify _ (fun s => ?_) fun h =>
    link.linked_act (link.linked_registerAll h _) _ _).bind fun _ => ?_
  · rcases recording.action with _ | (values | _ | new) <;> exact rewrites_registerAll s _
  · split
    · exact link.follows_pure _
    · exact link.follows_settle hwithin htopDown _ _

theorem follows_finish (root : Operation) : link.Follows (finish root) (finish root) := by
  unfold finish
  refine (link.follows_substitute root).bind fun root => ?_
  have hreplaced := link.follows_modify (fun s => { s with replaced := .empty })
    (fun _ => rfl) fun h => by
    exact link.linked_map h (fun s => { s with replaced := .empty }) (fun _ => rfl)
      (link.similar h).definitions rfl
      (link.similar h).erased
  have herased := link.follows_modify (fun s => { s with erased := [] }) (fun _ => rfl) fun h => by
    exact link.linked_map h (fun s => { s with erased := [] }) (fun _ => rfl)
      (link.similar h).definitions
      (link.similar h).replaced rfl
  refine hreplaced.bind fun _ => link.follows_get_bind (fun hlinked => ?_) fun s =>
    herased.bind fun _ => ?_
  · rw [(link.similar hlinked).erased]
  · split
    · exact link.follows_throw _
    · exact link.follows_pure root

variable {patterns patterns' : FrozenPatterns σ}

variable (link) in
/-- Trying patterns keeps the states linked. -/
structure FollowsPatterns (patterns patterns' : FrozenPatterns σ)
    (config config' : Config) : Prop where
  topDown : config'.topDown = config.topDown
  applyPatterns : ∀ depth op, link.Follows (applyPatterns patterns config depth op)
    (applyPatterns patterns' config' depth op)

namespace FollowsPatterns

variable (h : link.FollowsPatterns patterns patterns' config config')

include h

theorem follows_visit (hwithin : ∀ op, link.Follows (within op) (within' op)) (depth : Nat)
    (op : Operation) :
    link.Follows (visit patterns config within depth op)
      (visit patterns' config' within' depth op) := by
  rw [visit_eq, visit_eq, h.topDown]
  refine (link.follows_substitute op).bind fun op => ?_
  refine ((hwithin op).ite (link.follows_pure op) _).bind fun op => ?_
  refine (h.applyPatterns depth op).bind fun recording? => ?_
  exact link.follows_commit hwithin h.topDown op _

theorem follows_visitAll (hwithin : ∀ op, link.Follows (within op) (within' op)) (depth : Nat)
    (ops : List Operation) :
    link.Follows (visitAll patterns config within depth ops)
      (visitAll patterns' config' within' depth ops) := by
  induction ops with
  | nil => exact link.follows_pure []
  | cons op ops ih =>
      refine (h.follows_visit hwithin depth op).bind fun first => ?_
      refine ih.bind fun rest => ?_
      exact link.follows_pure _

theorem follows_visitRegion (levels depth : Nat) (op : Operation) :
    link.Follows (visitRegion patterns config levels depth op)
      (visitRegion patterns' config' levels depth op) := by
  induction levels generalizing depth op with
  | zero =>
      unfold visitRegion
      cases op.region with
      | none => exact link.follows_pure op
      | some ops => exact link.follows_throw _
  | succ levels ih =>
      unfold visitRegion
      cases op.region with
      | none => exact link.follows_pure op
      | some ops =>
          exact (h.follows_visitAll (ih (depth + 1)) depth ops).bind fun ops => link.follows_pure _

theorem follows_sweep (root : Operation) :
    link.Follows (sweep patterns config root) (sweep patterns' config' root) := by
  rw [sweep_eq, sweep_eq]
  have hdefinitions := link.follows_modify (fun s => { s with definitions := .empty })
    (fun _ => rfl) fun h => by
    exact link.linked_map h (fun s => { s with definitions := .empty }) (fun _ => rfl)
      rfl (link.similar h).replaced
      (link.similar h).erased
  exact hdefinitions.bind fun _ => (h.follows_visitRegion _ 0 root).bind link.follows_finish

end FollowsPatterns

/-! ### Runs -/

theorem follows_removeDead (hremove : config'.removeDeadOps = config.removeDeadOps)
    (root : Operation) :
    link.Follows (removeDead config root) (removeDead config' root) := by
  unfold removeDead
  rw [hremove]
  split
  · refine ⟨fun s => Nat.le_refl _, fun {s t} hlinked _ => ⟨?_, link.prune hlinked root⟩⟩
    obtain ⟨hop, hremoved⟩ := removeDeadOps_congr (link.similar hlinked).dialects root
    show Except.ok ((root.removeDeadOps t.context).op, (root.removeDeadOps t.context).removed)
      = Except.ok ((root.removeDeadOps s.context).op, (root.removeDeadOps s.context).removed)
    rw [hop, hremoved]
  · exact link.follows_pure _

variable (link) in
/-- Sweeps do the same over trees that fit, as far as the first run is followed, and leave trees
that fit. -/
structure FollowsSweeps (Fits : Operation → Prop) (patterns patterns' : FrozenPatterns σ)
    (config config' : Config) : Prop where
  sweep : ∀ root, Fits root → link.Follows (sweep patterns config root)
    (sweep patterns' config' root)
  keeps : ∀ {root s swept s'}, Fits root →
    Returns (Greedy.sweep patterns config root >>= removeDead config) s swept s' → Fits swept.1
  limit : link.SameLimit config config'
  removeDeadOps : config'.removeDeadOps = config.removeDeadOps
  rewrites : ∀ {s t}, link.Linked s t → t.rewrites = s.rewrites

namespace FollowsSweeps

variable {Fits : Operation → Prop} (h : link.FollowsSweeps Fits patterns patterns' config config')

include h

theorem follows_iterate (remaining iteration : Nat) {progress : Progress}
    (hfits : Fits progress.root) :
    link.Follows (iterate patterns config remaining iteration progress)
      (iterate patterns' config' remaining iteration progress) := by
  induction remaining generalizing iteration progress with
  | zero => exact link.follows_pure progress
  | succ remaining ih =>
      rw [iterate_eq, iterate_eq]
      refine h.limit.follows_ite progress ?_
      refine (link.follows_modify (·.note _) (fun _ => rfl) fun hlinked => link.note hlinked _).bind
        fun _ => ?_
      refine link.follows_get_bind (fun hlinked => ?_) fun before => ?_
      · rw [h.rewrites hlinked]
      · refine ((h.sweep progress.root hfits).bind
          (link.follows_removeDead h.removeDeadOps)).bind_of_returns
          fun s swept s' hswept => ?_
        refine link.follows_get_bind (fun hlinked => ?_) fun after => ?_
        · rw [h.rewrites hlinked]
        · exact (link.follows_pure _).ite (ih (iteration + 1) (h.keeps hfits hswept)) _

theorem follows_rewrite (hiterations : config'.maxIterations = config.maxIterations)
    {root : Operation} (hfits : Fits root) :
    link.Follows (rewrite patterns config root) (rewrite patterns' config' root) := by
  unfold rewrite
  rw [hiterations]
  refine (h.follows_iterate _ 0 hfits).bind fun progress => ?_
  refine link.follows_get_bind (fun hlinked => ?_) fun s => ?_
  · rw [h.rewrites hlinked]
  · dsimp only
    cases progress.converged with
    | true => exact link.follows_pure _
    | false =>
        exact (link.follows_modify (·.note _) (fun _ => rfl) fun hlinked =>
          link.note hlinked _).bind fun _ => link.follows_pure _

/-- **Runs side by side.** If the first run is followed to its end, then the second ends in the same
way. -/
theorem ends_applyGreedily (hiterations : config'.maxIterations = config.maxIterations)
    {root : Operation} (hfits : Fits root) {context context' : Context} {memory memory' : σ}
    (hlinked : link.Linked { context, memory, names := namesFor root }
      { context := context', memory := memory', names := namesFor root })
    (hfollowed : ∀ n, link.Followed (applyGreedily patterns config root context memory).result.isOk n) :
    (applyGreedily patterns' config' root context' memory').result
        = (applyGreedily patterns config root context memory).result
      ∧ (applyGreedily patterns' config' root context' memory').op
        = (applyGreedily patterns config root context memory).op
      ∧ ∃ s t, link.Linked s t
        ∧ (applyGreedily patterns config root context memory).context = s.context
        ∧ (applyGreedily patterns config root context memory).memory = s.memory
        ∧ (applyGreedily patterns' config' root context' memory').context = t.context
        ∧ (applyGreedily patterns' config' root context' memory').memory = t.memory := by
  have hends := (h.follows_rewrite hiterations hfits).ends hlinked
  unfold applyGreedily at hfollowed ⊢
  unfold runFrom at hends
  revert hends hfollowed
  generalize (rewrite patterns config root).run.run
    { context, memory, names := namesFor root } = first
  generalize (rewrite patterns' config' root).run.run
    { context := context', memory := memory', names := namesFor root } = second
  intro hfollowed hends
  obtain ⟨error | ⟨outcome, op⟩, s⟩ := first
  · obtain ⟨hresult, hlinked'⟩ := hends (hfollowed _)
    obtain ⟨_ | _, t⟩ := second
    · cases hresult
      exact ⟨rfl, rfl, s, t, hlinked', rfl, rfl, rfl, rfl⟩
    · cases hresult
  · obtain ⟨hresult, hlinked'⟩ := hends (hfollowed _)
    obtain ⟨_ | _, t⟩ := second
    · cases hresult
    · cases hresult
      exact ⟨rfl, rfl, s, t, hlinked', rfl, rfl, rfl, rfl⟩

end FollowsSweeps

variable (link) in
/-- The runs do the same, as far as the first is followed, but for what trying patterns leaves
behind. -/
structure FollowsRuns (patterns patterns' : FrozenPatterns σ) (config config' : Config) : Prop
    extends link.FollowsPatterns patterns patterns' config config' where
  limit : link.SameLimit config config'
  removeDeadOps : config'.removeDeadOps = config.removeDeadOps
  rewrites : ∀ {s t}, link.Linked s t → t.rewrites = s.rewrites

/-- Every tree fits. -/
theorem FollowsRuns.followsSweeps (h : link.FollowsRuns patterns patterns' config config') :
    link.FollowsSweeps (fun _ => True) patterns patterns' config config' where
  sweep root _ := h.follows_sweep root
  keeps _ _ := trivial
  limit := h.limit
  removeDeadOps := h.removeDeadOps
  rewrites := h.rewrites

end Link

end DialectIR.Greedy
