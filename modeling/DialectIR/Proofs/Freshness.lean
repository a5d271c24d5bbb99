import DialectIR.Arith
import DialectIR.Proofs.DrawnNames
import DialectIR.Proofs.Traces

/-! Fresh names in the course of a run. The supply knows the numbers among the names of the tree at
the start, and how far it has counted. All other names come into the tree by matches that have drawn
them, so that a name is new in the tree as it is when the name is drawn. -/

namespace DialectIR

open Operation

variable {σ α β : Type}

/-- The operations that are recorded: the insertions, and what the matched operation becomes. -/
def Recording.operations (recording : Recording) : List Operation :=
  recording.inserted ++ match recording.action with
    | some (.update new) => [new]
    | some (.replace _) | some .erase | none => []

/-- The names of all results in what is recorded. -/
def Recording.definedNames (recording : Recording) : List String :=
  definedNamesOfAll recording.operations

/-- A name that a program draws, with those drawn before and what is recorded by then. -/
structure Draw where
  name : String
  earlier : List String
  recording : Recording

namespace Rewrite

/-- The draws of a program, behind some names that are drawn already. -/
def draws (site : Site) : Rewrite σ α → List String → Draft σ → List Draw
  | .done _, _, _ => []
  | .definingOp value next, earlier, draft =>
      (next (site.definition? draft.recording value.name)).draws site earlier draft
  | .freshName next, earlier, draft =>
      let (name, names) := draft.names.fresh
      ⟨name, earlier, draft.recording⟩ :: (next name).draws site (earlier ++ [name])
        { draft with names }
  | .create op next, earlier, draft =>
      next.draws site earlier { draft with recording := draft.recording.insert op }
  | .act action next, earlier, draft =>
      match draft.recording.act site.op action with
      | .ok recording => (next (.ok ())).draws site earlier { draft with recording }
      | .error refusal => (next (.error refusal)).draws site earlier draft
  | .context next, earlier, draft => (next site.context).draws site earlier draft
  | .readMemory next, earlier, draft => (next draft.memory).draws site earlier draft
  | .writeMemory memory next, earlier, draft => next.draws site earlier { draft with memory }

variable {site : Site}

theorem map_name_draws (program : Rewrite σ α) (earlier : List String) (draft : Draft σ) :
    (program.draws site earlier draft).map Draw.name = program.drawn site draft := by
  induction program generalizing earlier draft with
  | done result => rfl
  | definingOp value next ih => exact ih _ earlier draft
  | freshName next ih =>
      exact congrArg (_ :: ·) (ih _ _ { draft with names := draft.names.fresh.2 })
  | create op next ih => exact ih earlier { draft with recording := draft.recording.insert op }
  | act action next ih =>
      simp only [draws, drawn]
      cases draft.recording.act site.op action with
      | ok recording => exact ih _ earlier { draft with recording }
      | error refusal => exact ih _ earlier draft
  | context next ih => exact ih _ earlier draft
  | readMemory next ih => exact ih _ earlier draft
  | writeMemory memory next ih => exact ih earlier { draft with memory }

/-- A name is drawn from the supply behind those that are drawn earlier. -/
theorem exists_draws_of_mem {program : Rewrite σ α} {earlier : List String} {draft : Draft σ}
    {start : NameSupply} {draw : Draw} (h : start.Draws earlier draft.names)
    (hdraw : draw ∈ program.draws site earlier draft) :
    ∃ after, start.Draws (draw.earlier ++ [draw.name]) after := by
  induction program generalizing earlier draft with
  | done result => cases hdraw
  | definingOp value next ih => exact ih _ h hdraw
  | freshName next ih =>
      have hnext : start.Draws (earlier ++ [draft.names.fresh.1]) draft.names.fresh.2 :=
        h.append ⟨rfl, rfl⟩
      rcases List.mem_cons.1 hdraw with rfl | hdraw
      · exact ⟨_, hnext⟩
      · exact ih _ hnext hdraw
  | create op next ih =>
      rw [draws] at hdraw
      refine ih ?_ hdraw
      exact h
  | act action next ih =>
      rw [draws] at hdraw
      split at hdraw
      · refine ih _ ?_ hdraw
        exact h
      · exact ih _ h hdraw
  | context next ih => exact ih _ h hdraw
  | readMemory next ih => exact ih _ h hdraw
  | writeMemory memory next ih =>
      rw [draws] at hdraw
      refine ih ?_ hdraw
      exact h

end Rewrite

namespace Greedy

/-- The draws in the course of an attempt on an operation. -/
def Attempted.draws (a : Attempted σ) (op : Operation) : List Draw :=
  (a.pattern.rewrite op).run.draws (a.before.site op) [] a.before.draft

/-- What is recorded at the end of an attempt on an operation. -/
def Attempted.recorded (a : Attempted σ) (op : Operation) : Recording :=
  ((a.pattern.rewrite op).run.run (a.before.site op) a.before.draft).2.recording

/-- Whenever the attempt draws a name, and in the end, what is recorded defines names only that the
attempt has drawn by then, or names of the operation. -/
structure Attempted.NamesLocally (a : Attempted σ) (op : Operation) : Prop where
  draws : ∀ draw ∈ a.draws op, draw.recording.definedNames ⊆ draw.earlier ++ op.definedNames
  recorded : (a.recorded op).definedNames ⊆ (a.draws op).map Draw.name ++ op.definedNames

instance (a : Attempted σ) (op : Operation) : Decidable (a.NamesLocally op) :=
  decidable_of_iff
    ((∀ draw ∈ a.draws op, draw.recording.definedNames ⊆ draw.earlier ++ op.definedNames)
      ∧ (a.recorded op).definedNames ⊆ (a.draws op).map Draw.name ++ op.definedNames)
    ⟨fun h => ⟨h.1, h.2⟩, fun h => ⟨h.1, h.2⟩⟩

theorem recorded_of_returns {depth : Nat} {op : Operation} {pattern : Pattern σ} {s s' : State σ}
    {recording : Recording} (h : Returns (attempt depth op pattern) s (some recording) s') :
    Attempted.recorded ⟨pattern, s⟩ op = recording := by
  rw [Returns, runFrom_attempt] at h
  unfold Attempted.recorded
  dsimp only
  generalize (pattern.rewrite op).run.run (s.site op) s.draft = outcome at h ⊢
  obtain ⟨answer, draft⟩ := outcome
  unfold State.conclude at h
  rcases answer with cause | _ | _
  · cases h
  · cases h
  · dsimp only at h
    split at h
    · cases h
    · cases h
      rfl

/-- A match comes from one of the attempts. -/
theorem exists_attempted {depth : Nat} {op : Operation} {tried : List (Pattern σ)} {s s' : State σ}
    {recording : Recording} (h : Returns (attemptFirst depth op tried) s (some recording) s') :
    ∃ a ∈ attemptsOn depth op tried s, a.recorded op = recording
      ∧ (a.draws op).map Draw.name = drawnBy depth op tried s := by
  induction tried generalizing s with
  | nil => cases (Returns.pure_iff.1 h).1
  | cons pattern rest ih =>
      unfold attemptFirst at h
      obtain ⟨recording?, s₁, hreturns, h⟩ := Returns.bind_iff.1 h
      unfold attemptsOn drawnBy
      rw [afterwards_of_returns hreturns, hreturns]
      cases recording? with
      | some found =>
          obtain ⟨hfound, rfl⟩ := Returns.pure_iff.1 h
          cases hfound
          exact ⟨_, List.mem_cons_self, recorded_of_returns hreturns, Rewrite.map_name_draws _ _ _⟩
      | none =>
          obtain ⟨a, ha, hmade⟩ := ih h
          exact ⟨a, List.mem_cons_of_mem _ ha, hmade⟩

variable (patterns : FrozenPatterns σ) (config : Config)

/-- All attempts at the stops name values locally. -/
def NamesLocally (stops : List (Stop σ)) : Prop :=
  ∀ p ∈ pointsAt stops, ∀ a ∈ p.attempts patterns config, a.NamesLocally p.op

/-- The names that are drawn by the matches at some stops. -/
def drawnAt (stops : List (Stop σ)) : List String := drawnIn patterns config (encountersAt stops)

@[simp] theorem drawnAt_append (stops more : List (Stop σ)) :
    drawnAt patterns config (stops ++ more) = drawnAt patterns config stops
      ++ drawnAt patterns config more := by
  rw [drawnAt, encountersAt_append, drawnIn_append, drawnAt, drawnAt]

/-- The names of the operations are among those given and those that are drawn at the stops, one
after the other. -/
structure Covers (names : List String) (supply : NameSupply) (stops : List (Stop σ))
    (ops : List Operation)
    (supply' : NameSupply) : Prop where
  names : definedNamesOfAll ops ⊆ names ++ drawnAt patterns config stops
  draws : supply.Draws (drawnAt patterns config stops) supply'

/-- The step brings drawn names into the tree only: at each point on its way the names of the tree
are covered, and so are those of the operations in its result. -/
def Coins (names : List String) (step : Step σ α) (ops : α → List Operation) (stops : List (Stop σ))
    (s : State σ) : Prop :=
  NamesLocally patterns config stops →
    Along (fun before p => Covers patterns config names s.names before p.tree p.before.names) stops
      step s fun a s' =>
      Covers patterns config names s.names stops (ops a) s'.names

variable {patterns config} {names : List String} {stops more : List (Stop σ)}
  {supply between supply' : NameSupply} {s : State σ}

theorem NamesLocally.append : NamesLocally patterns config (stops ++ more)
    ↔ NamesLocally patterns config stops ∧ NamesLocally patterns config more := by
  rw [NamesLocally, pointsAt, List.filterMap_append]
  exact List.forall_mem_append

theorem Covers.append {ops : List Operation}
    (h : supply.Draws (drawnAt patterns config stops) between)
    (h' : Covers patterns config (names ++ drawnAt patterns config stops) between more ops supply') :
    Covers patterns config names supply (stops ++ more) ops supply' := by
  refine ⟨?_, ?_⟩
  · rw [drawnAt_append, ← List.append_assoc]
    exact h'.names
  · rw [drawnAt_append]
    exact h.append h'.draws

namespace Coins

/-- A step without stops. -/
theorem quiet {step : Step σ α} {ops : α → List Operation} (h : ∀ a s', Returns step s a s' →
    definedNamesOfAll (ops a) ⊆ names ∧ s'.names = s.names) :
    Coins patterns config names step ops [] s :=
  fun _ => ⟨.nil, fun a s' hreturns =>
    ⟨List.subset_append_of_subset_left _ (h a s' hreturns).1, (h a s' hreturns).2⟩⟩

theorem bind {step : Step σ α} {next : α → Step σ β} {ops : α → List Operation}
    {ops' : β → List Operation} {later : α → State σ → List (Stop σ)}
    (h : Coins patterns config names step ops stops s)
    (hnext : ∀ a s' names', Returns step s a s' → names ⊆ names' →
      definedNamesOfAll (ops a) ⊆ names' →
      Coins patterns config names' (next a) ops' (later a s') s') :
    Coins patterns config names (step >>= next) ops' (stops ++ afterwards step later s) s := by
  intro hlocal
  obtain ⟨hlocal, hlater⟩ := NamesLocally.append.1 hlocal
  refine (h hlocal).bind fun a s' hreturns hcovers => ?_
  rw [afterwards_of_returns hreturns] at hlater ⊢
  have halong := hnext a s' _ hreturns (List.subset_append_left _ _) hcovers.names hlater
  refine ⟨halong.points.mono fun before p => .append hcovers.draws, fun b s'' hreturns' => ?_⟩
  exact .append hcovers.draws (halong.result b s'' hreturns')

/-- A step without stops behind others. -/
theorem bind_quiet {step : Step σ α} {next : α → Step σ β} {ops : α → List Operation}
    {ops' : β → List Operation} (h : Coins patterns config names step ops stops s)
    (hnext : ∀ a s' names', Returns step s a s' → names ⊆ names' →
      definedNamesOfAll (ops a) ⊆ names' →
      ∀ b s'', Returns (next a) s' b s'' → definedNamesOfAll (ops' b) ⊆ names'
        ∧ s''.names = s'.names) :
    Coins patterns config names (step >>= next) ops' stops s := by
  have hbind := h.bind fun a s' names' hreturns hnames hops =>
    quiet (hnext a s' names' hreturns hnames hops)
  rw [afterwards_nil, List.append_nil] at hbind
  exact hbind

theorem modify_bind {f : State σ → State σ} {next : PUnit → Step σ β} {ops : β → List Operation}
    (h : Coins patterns config names (next ⟨⟩) ops stops (f s)) (hnames : (f s).names = s.names) :
    Coins patterns config names (modify f >>= next) ops stops s := by
  intro hlocal
  obtain ⟨hpoints, hresult⟩ := h hlocal
  rw [hnames] at hpoints hresult
  exact ⟨hpoints, fun b s' hreturns => hresult b s' (Returns.modify_bind_iff.1 hreturns)⟩

end Coins

/-! ### Visits -/

variable {outer : Place} {level : Level} {op : Operation} {ops : List Operation}

theorem definedNamesOfAll_singleton_subset :
    definedNamesOfAll [op] ⊆ names ↔ op.definedNames ⊆ names := by
  rw [definedNamesOfAll_cons, definedNamesOfAll_nil, List.append_nil]

theorem definedNamesOfAll_append_subset {more : List Operation} :
    definedNamesOfAll (ops ++ more) ⊆ names ↔ definedNamesOfAll ops ⊆ names
      ∧ definedNamesOfAll more ⊆ names := by
  rw [definedNamesOfAll_append, List.append_subset]

theorem names_behind_subset (h : Place.names (level :: outer) ⊆ names)
    (hops : definedNamesOfAll ops ⊆ names) :
    Place.names (level.behind ops :: outer) ⊆ names := by
  unfold Place.names at h ⊢
  simp only [List.flatMap_cons, Level.behind, List.append_subset, definedNamesOfAll_append] at h ⊢
  grind

theorem coins_substitute (hop : op.definedNames ⊆ names) :
    Coins patterns config names (substitute op) (fun op => [op]) [] s := by
  refine .quiet fun op' s' hreturns => ?_
  rw [definedNamesOfAll_singleton_subset]
  obtain ⟨rfl, rfl | rfl⟩ := returns_substitute hreturns
  · exact ⟨hop, rfl⟩
  · rw [Replacements.applyTo, definedNames_mapOperands]
    exact ⟨hop, rfl⟩

/-- What a match records defines names that it draws, or names of the operation. -/
theorem definedNames_recorded_subset {p : Point σ} {recording : Recording} {s' : State σ}
    (hlocal : NamesLocally patterns config [.tries p])
    (hreturns : Returns (applyPatterns patterns config p.depth p.op) p.before (some recording) s') :
    recording.definedNames ⊆ drawnAt patterns config [.tries p] ++ p.op.definedNames := by
  have hmatch : p.encounter.match? patterns config
      = some ⟨_, p.op, drawnBy p.depth p.op (patterns.patternsFor p.op.name) p.before, recording⟩ :=
    match?_of_returns patterns config hreturns
  have hdrawn : drawnAt patterns config [.tries p] = drawnBy p.depth p.op
    (patterns.patternsFor p.op.name) p.before := by
    show (List.filterMap _ [p.encounter]).flatMap _ = _
    rw [List.filterMap_cons_some hmatch]
    exact List.append_nil _
  have hpoint := hlocal p List.mem_cons_self
  unfold Point.attempts at hpoint
  unfold applyPatterns at hreturns
  rw [Returns.get_bind_iff, Returns.ite_iff] at hreturns
  by_cases hlimit : p.before.limitReached config = true
  · rw [if_pos hlimit] at hreturns
    cases (Returns.pure_iff.1 hreturns).1
  · rw [if_neg hlimit] at hpoint hreturns
    obtain ⟨a, ha, hrecorded, hdraws⟩ := exists_attempted hreturns
    rw [hdrawn, ← hdraws, ← hrecorded]
    exact (hpoint a ha).recorded

theorem coins_applyPatterns (p : Point σ) (hplace : p.place.names ⊆ names)
    (hop : p.op.definedNames ⊆ names) :
    Coins patterns config names (applyPatterns patterns config p.depth p.op)
      (fun recording? => (recording?.getD {}).operations)
      [.tries p] p.before := by
  refine fun hlocal => ⟨.tries ⟨fun name hname => List.mem_append_left _ ?_, rfl⟩,
    fun recording? s' hreturns =>
    ⟨?_, ((ensures_applyPatterns patterns config _ p.depth p.op p.before).of_returns hreturns).draws⟩⟩
  · rcases Place.mem_definedNamesOfAll_fill.1 hname with hname | hname
    · exact hplace hname
    · exact definedNamesOfAll_singleton_subset.2 hop hname
  · cases recording? with
    | none => exact List.nil_subset _
    | some recording =>
        refine List.Subset.trans (definedNames_recorded_subset hlocal hreturns)
          (List.append_subset.2 ⟨?_, ?_⟩)
        · exact List.subset_append_right _ _
        · exact List.subset_append_of_subset_left _ hop

/-- Visiting what an operation holds brings drawn names into the tree only. -/
def CoinsInside (patterns : FrozenPatterns σ) (config : Config)
    (within : Operation → Step σ Operation)
    (inside : Place → Operation → State σ → List (Stop σ)) : Prop :=
  ∀ (names : List String) (place : Place) (op : Operation) (s : State σ), place.names ⊆ names →
    op.definedNames ⊆ names →
    Coins patterns config names (within op) (fun op => [op]) (inside place op s) s

variable {within : Operation → Step σ Operation}
  {inside : Place → Operation → State σ → List (Stop σ)}

theorem CoinsInside.coins_ite (hwithin : CoinsInside patterns config within inside)
    (condition : Bool) {place : Place} (hplace : place.names ⊆ names)
    (hop : op.definedNames ⊆ names) (s : State σ) :
    Coins patterns config names (if condition then within op else pure op) (fun op => [op])
      (if condition then inside place op s else []) s := by
  cases condition with
  | true => exact hwithin names place op s hplace hop
  | false =>
      refine .quiet fun op' s' hreturns => ?_
      obtain ⟨rfl, rfl⟩ := Returns.pure_iff.1 hreturns
      exact ⟨definedNamesOfAll_singleton_subset.2 hop, rfl⟩

theorem definedNames_stays_subset {recording : Recording} {kept : Operation}
    (hstays : stays? op recording = some kept) (hop : op.definedNames ⊆ names)
    (hrecording : recording.definedNames ⊆ names) : kept.definedNames ⊆ names := by
  unfold stays? at hstays
  split at hstays
  next => cases hstays
  next => cases hstays
  next new haction =>
    cases hstays
    rw [Recording.definedNames, Recording.operations, haction,
      definedNamesOfAll_append_subset] at hrecording
    exact definedNamesOfAll_singleton_subset.1 hrecording.2
  next =>
    cases hstays
    exact hop

theorem coins_commit (hwithin : CoinsInside patterns config within inside) {recording : Recording}
    (hplace : Place.names (level :: outer) ⊆ names) (hop : op.definedNames ⊆ names)
    (hrecording : recording.definedNames ⊆ names) (s : State σ) :
    Coins patterns config names (commit config within op recording) id
      (innerStops config inside outer level op recording s) s := by
  have hinserted : definedNamesOfAll recording.inserted ⊆ names :=
    (definedNamesOfAll_append_subset.1 hrecording).1
  obtain ⟨hnames, -⟩ := names_register recording.inserted s
  obtain ⟨hnames', -⟩ := names_act (recording.inserted.foldl State.register s) op.results
    recording.action
  unfold commit innerStops
  refine .modify_bind ?_ (hnames'.trans hnames)
  cases hstays : stays? op recording with
  | none =>
      refine .quiet fun out s' hreturns => ?_
      obtain ⟨rfl, rfl⟩ := Returns.pure_iff.1 hreturns
      exact ⟨hinserted, rfl⟩
  | some kept =>
      dsimp only
      rw [act_of_stays hstays, settle_eq]
      refine (hwithin.coins_ite config.topDown (names_behind_subset hplace hinserted)
        (definedNames_stays_subset hstays hop hrecording) _).bind_quiet
          fun kept' s' names' _ hsub hkept out s'' hreturns => ?_
      rw [Returns.modify_bind_iff, Returns.pure_iff] at hreturns
      obtain ⟨rfl, rfl⟩ := hreturns
      exact ⟨definedNamesOfAll_append_subset.2 ⟨List.Subset.trans hinserted hsub, hkept⟩, rfl⟩

theorem coins_visit (hwithin : CoinsInside patterns config within inside) (depth : Nat)
    (hplace : Place.names (level :: outer) ⊆ names) (hop : op.definedNames ⊆ names) (s : State σ) :
    Coins patterns config names (visit patterns config within depth op) id
      (visitStops patterns config within inside depth outer level op s) s := by
  have hsubstitute : Coins patterns config names (substitute op) (fun op => [op]) [] s :=
    coins_substitute hop
  unfold visitStops
  rw [visit_eq, ← List.nil_append (afterwards (substitute op) _ s)]
  refine hsubstitute.bind fun op₁ s₁ names₁ _ hsub₁ hop₁ => ?_
  have hplace₁ := List.Subset.trans hplace hsub₁
  refine (hwithin.coins_ite (!config.topDown) hplace₁ (definedNamesOfAll_singleton_subset.1 hop₁) s₁).bind
    fun op₂ s₂ names₂ _ hsub₂ hop₂ => ?_
  have hplace₂ := List.Subset.trans hplace₁ hsub₂
  rw [definedNamesOfAll_singleton_subset] at hop₂
  refine (coins_applyPatterns ⟨level :: outer, depth, op₂, s₂⟩ hplace₂ hop₂).bind
    fun recording? s₃ names₃ _ hsub₃ hrecording => ?_
  exact coins_commit hwithin (List.Subset.trans hplace₂ hsub₃)
    (List.Subset.trans hop₂ hsub₃) hrecording s₃

theorem coins_visitAll (hwithin : CoinsInside patterns config within inside) (depth : Nat)
    {head : Head} {earlier : List Operation}
    (hplace : Place.names (⟨head, earlier, ops⟩ :: outer) ⊆ names) (s : State σ) :
    Coins patterns config names (visitAll patterns config within depth ops) id
      (visitAllStops patterns config within inside depth outer head earlier ops s) s := by
  induction ops generalizing earlier names s with
  | nil =>
      refine .quiet fun out s' hreturns => ?_
      obtain ⟨rfl, rfl⟩ := Returns.pure_iff.1 hreturns
      exact ⟨List.nil_subset _, rfl⟩
  | cons op ops ih =>
      have hsplit : op.definedNames ⊆ names ∧ Place.names
        (⟨head, earlier, ops⟩ :: outer) ⊆ names := by
        unfold Place.names at hplace ⊢
        simp only [List.flatMap_cons, List.append_subset, definedNamesOfAll_cons] at hplace ⊢
        grind
      obtain ⟨hop, hplace'⟩ := hsplit
      unfold visitAll visitAllStops
      refine (coins_visit hwithin depth hplace' hop s).bind fun first s' names' _ hsub hfirst => ?_
      refine (ih (names_behind_subset (List.Subset.trans hplace' hsub) hfirst) s').bind_quiet
        fun rest s'' names'' _ hsub' hrest out s₃ hreturns => ?_
      obtain ⟨rfl, rfl⟩ := Returns.pure_iff.1 hreturns
      exact ⟨definedNamesOfAll_append_subset.2 ⟨List.Subset.trans hfirst hsub', hrest⟩, rfl⟩

theorem coins_visitRegion (levels depth : Nat) :
    CoinsInside patterns config (visitRegion patterns config levels depth)
    (regionStops patterns config levels depth) := by
  induction levels generalizing depth with
  | zero =>
      rintro names place ⟨head, _ | ops⟩ s _ hop
      · refine .quiet fun op' s' hreturns => ?_
        obtain ⟨rfl, rfl⟩ := Returns.pure_iff.1 hreturns
        exact ⟨definedNamesOfAll_singleton_subset.2 hop, rfl⟩
      · exact .quiet fun op' s' hreturns => absurd hreturns Returns.throw_iff
  | succ levels ih =>
      rintro names place ⟨head, _ | ops⟩ s hplace hop
      · refine .quiet fun op' s' hreturns => ?_
        unfold visitRegion at hreturns
        obtain ⟨rfl, rfl⟩ := Returns.pure_iff.1 hreturns
        exact ⟨definedNamesOfAll_singleton_subset.2 hop, rfl⟩
      · rw [definedNames_node, List.append_subset] at hop
        have hinside : Place.names (⟨head, [], ops⟩ :: place) ⊆ names :=
          List.append_subset.2 ⟨List.append_subset.2 ⟨hop.1, hop.2⟩, hplace⟩
        unfold visitRegion regionStops
        refine (coins_visitAll (ih (depth + 1)) depth hinside s).bind
          fun out s' names' _ hsub hout =>
          fun _ => ⟨.leaves out, fun op' s'' hreturns => ?_⟩
        obtain ⟨rfl, rfl⟩ := Returns.pure_iff.1 hreturns
        refine ⟨?_, rfl⟩
        rw [definedNamesOfAll_singleton]
        exact List.subset_append_of_subset_left _
          (List.append_subset.2 ⟨List.Subset.trans hop.1 hsub, hout⟩)

/-! ### Runs -/

theorem coins_sweep {root : Operation} (hroot : root.definedNames ⊆ names) (s : State σ) :
    Coins patterns config names (sweep patterns config root) (fun op => [op])
      (sweepStops patterns config root s) s := by
  have hregion : CoinsInside patterns config
    (visitRegion patterns config (root.height + spareLevels) 0)
    (regionStops patterns config (root.height + spareLevels) 0) := coins_visitRegion _ 0
  rw [sweep_eq]
  refine .modify_bind ?_ rfl
  refine (hregion names [] root _ (List.nil_subset _) hroot).bind_quiet
    fun op s' names' _ _ hop op' s'' hreturns => ?_
  obtain ⟨rfl | rfl, rfl⟩ := returns_finish hreturns
  · exact ⟨hop, rfl⟩
  · rw [definedNamesOfAll_singleton_subset] at hop ⊢
    rw [Replacements.applyTo, definedNames_mapOperands]
    exact ⟨hop, rfl⟩

theorem coins_swept {root : Operation} (hroot : root.definedNames ⊆ names) (s : State σ) :
    Coins patterns config names (sweep patterns config root >>= removeDead config)
      (fun swept => [swept.1])
      (sweepStops patterns config root s) s := by
  refine (coins_sweep hroot s).bind_quiet fun op s' names' _ _ hop swept s'' hreturns => ?_
  rw [definedNamesOfAll_singleton_subset] at hop ⊢
  obtain ⟨rfl, rfl⟩ | ⟨rfl, rfl⟩ := returns_removeDead hreturns
  · have hprune (other : Operation) (context : Context) (_ : s'.context.SameDialects context)
        (hother : other.definedNames ⊆ names') : (other.prune
          (context.isDead other.usedNames)).definedNames ⊆ names' :=
      List.Subset.trans (definedNames_prune _ other).subset hother
    exact ⟨(removeDeadOps_induction s'.context hprune hop).1, rfl⟩
  · exact ⟨hop, rfl⟩

/-- **At each point of a run the names in the tree are those at the start and those that matches
have drawn by then.** -/
theorem covers_of_run (remaining iteration : Nat) {root : Operation}
    (hroot : root.definedNames ⊆ names)
    (hlocal : NamesLocally patterns config
      ((sweepStarts patterns config remaining iteration root s).flatMap fun start =>
      sweepStops patterns config start.1 start.2)) :
    AtEach (fun before p => Covers patterns config names s.names before p.tree p.before.names)
      ((sweepStarts patterns config remaining iteration root s).flatMap fun start =>
        sweepStops patterns config start.1 start.2) := by
  induction remaining generalizing iteration root s names with
  | zero => exact .nil
  | succ remaining ih =>
      unfold sweepStarts at hlocal ⊢
      by_cases hlimit : s.limitReached config = true
      · rw [if_pos hlimit]
        exact .nil
      · rw [if_neg hlimit] at hlocal ⊢
        dsimp only at hlocal ⊢
        rw [List.flatMap_cons, flatMap_afterwards] at hlocal ⊢
        obtain ⟨hlocal, hlater⟩ := NamesLocally.append.1 hlocal
        have hcoins : Coins patterns config names
          (sweep patterns config root >>= removeDead config) _ _ _ :=
          coins_swept hroot (s.note (.iteration iteration root.name.text))
        obtain ⟨hpoints, hresult⟩ := hcoins hlocal
        refine hpoints.append (.afterwards fun swept s' hreturns => ?_)
        obtain ⟨hnames, hdraws⟩ := hresult swept s' hreturns
        rw [afterwards_of_returns hreturns] at hlater
        by_cases hstop : (s'.rewrites = s.rewrites && swept.2 = 0) = true
        · rw [if_pos hstop]
          exact .nil
        · rw [if_neg hstop] at hlater ⊢
          refine (ih (iteration + 1) (definedNamesOfAll_singleton_subset.1 hnames) hlater).mono
            fun before p hcovers => ?_
          exact .append hdraws hcovers

/-- **Fresh names are fresh during a whole run.** Patterns define values under names only that they
draw in the same match, or that the matched operation and what it holds have already. Then a name
that is drawn, by any attempt at any point of a run, is not the name of a result in the tree as it
is then or in what the attempt has recorded by then, and it was not drawn before, neither in this
attempt nor by a match of the run; as long as there are fewer than `2 ^ 64` numbers among the names
at the start and those that were drawn. The points are those of the run: its matches are made at
them, and its sweeps are made in turn. -/
theorem fresh_of_mem_draws (patterns : FrozenPatterns σ) (config : Config) (root : Operation)
    (context : Context) (memory : σ)
    (hlocal : NamesLocally patterns config (stopsOf patterns config root context memory))
    {before after : List (Stop σ)} {p : Point σ}
    (hstops : stopsOf patterns config root context memory = before ++ .tries p :: after)
    {a : Attempted σ} (ha : a ∈ p.attempts patterns config) {draw : Draw}
    (hdraw : draw ∈ a.draws p.op)
    (hcount : (NameSupply.numbersIn root.definedNames).dedup.length
      + (drawnAt patterns config before).length + draw.earlier.length < 2 ^ 64) :
    Traced patterns config root context memory ∧ draw.name ∉ definedNamesOfAll p.tree
      ∧ draw.name ∉ draw.recording.definedNames ∧ draw.name ∉ draw.earlier
      ∧ draw.name ∉ drawnAt patterns config before := by
  obtain ⟨htree, hdraws⟩ := covers_of_run config.maxIterations 0 (List.Subset.refl _) hlocal before
    p after hstops
  have hattempt : p.before.names.Draws [] a.before.draft.names := (similar_of_mem_attempts ha).2
  obtain ⟨last, hlast⟩ := Rewrite.exists_draws_of_mem hattempt hdraw
  have hlength : (NameSupply.numbersIn root.definedNames).dedup.length
      + (drawnAt patterns config before ++ (draw.earlier ++ [draw.name])).length ≤ 2 ^ 64 := by
    rw [List.length_append, List.length_append, List.length_singleton]
    omega
  obtain ⟨hnodup, hnew⟩ := NameSupply.nodup_drawn (hdraws.append hlast) hlength
  obtain ⟨-, hnodup', hbefore⟩ := List.nodup_append.1 hnodup
  obtain ⟨-, -, hearlier⟩ := List.nodup_append.1 hnodup'
  have hroot : draw.name ∉ root.definedNames :=
    hnew draw.name (List.mem_append_right _ (List.mem_append_right _ List.mem_cons_self))
  have hnotBefore : draw.name ∉ drawnAt patterns config before :=
    fun hmem => hbefore draw.name hmem draw.name (List.mem_append_right _ List.mem_cons_self) rfl
  have hnotEarlier : draw.name ∉ draw.earlier := fun hmem =>
    hearlier draw.name hmem draw.name List.mem_cons_self rfl
  have hnotInTree : draw.name ∉ definedNamesOfAll p.tree :=
    fun hmem => (List.mem_append.1 (htree hmem)).elim hroot hnotBefore
  have hp : p ∈ pointsAt (stopsOf patterns config root context memory) := by
    rw [hstops]
    exact List.mem_filterMap.2 ⟨.tries p, List.mem_append_right _ List.mem_cons_self, rfl⟩
  refine ⟨traced_applyGreedily .., hnotInTree, fun hmem => ?_, hnotEarlier, hnotBefore⟩
  rcases List.mem_append.1 ((hlocal p hp a ha).draws draw hdraw hmem) with hmem | hmem
  · exact hnotEarlier hmem
  · refine hnotInTree (Place.mem_definedNamesOfAll_fill.2 (.inr ?_))
    rwa [definedNamesOfAll_cons, definedNamesOfAll_nil, List.append_nil]

/-- The numbers behind the largest name in the tree run out after one match, and zero is spelled
with two digits there. -/
theorem fresh_of_mem_draws_wrapped :
    ∃ (patterns : FrozenPatterns Unit) (root : Operation) (before after : List (Stop Unit))
    (p : Point Unit) (a : Attempted Unit) (draw : Draw),
      root.definedNames = ["18446744073709551614", "00", "x", "y"]
      ∧ stopsOf patterns {} root default () = before ++ .tries p :: after
      ∧ a ∈ p.attempts patterns {} ∧ draw ∈ a.draws p.op
      ∧ definedNamesOfAll p.tree = ["18446744073709551614", "00", "18446744073709551615", "y"]
      ∧ draw.name = "1" ∧ draw.name ∉ definedNamesOfAll p.tree := by
  let large : Value := ⟨"18446744073709551614", .int 8⟩
  let zero : Value := ⟨"00", .int 8⟩
  let x : Value := ⟨"x", .int 8⟩
  let y : Value := ⟨"y", .int 8⟩
  let root := Operation.module
    [{ name := "test.source", results := [large, zero] },
      { name := "arith.subi", operands := [large, large], results := [x] },
      { name := "arith.subi", operands := [zero, zero], results := [y] },
      { name := "test.sink", operands := [x, y] }]
  let patterns : FrozenPatterns Unit := ⟨[Arith.subSelf]⟩
  have hpoint : ∃ p ∈ pointsAt (stopsOf patterns {} root default ()), ∃ a ∈ p.attempts patterns {},
    ∃ draw ∈ a.draws p.op,
      definedNamesOfAll p.tree = ["18446744073709551614", "00", "18446744073709551615", "y"]
        ∧ draw.name = "1" ∧ draw.earlier.length = 0 := by decide +kernel
  obtain ⟨p, hp, a, ha, draw, hdraw, htree, hname, hearlier⟩ := hpoint
  obtain ⟨before, after, hstops⟩ := exists_of_mem_pointsAt hp
  have hlocal : NamesLocally patterns {} (stopsOf patterns {} root default ()) := by
    unfold NamesLocally
    decide +kernel
  have hdrawn : (drawnAt patterns {} (stopsOf patterns {} root default ())).length = 2 := by
    decide +kernel
  have hnumbers : (NameSupply.numbersIn root.definedNames).dedup.length = 2 := by decide +kernel
  rw [hstops, drawnAt_append, List.length_append] at hdrawn
  exact ⟨patterns, root, before, after, p, a, draw, rfl, hstops, ha, hdraw, htree, hname,
    (fresh_of_mem_draws patterns {} root default () hlocal hstops ha hdraw (by omega)).2.1⟩

end Greedy

end DialectIR
