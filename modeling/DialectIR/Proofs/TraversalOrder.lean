import DialectIR.Proofs.Composition
import DialectIR.Proofs.FailedMatches
import DialectIR.Proofs.Upkeep
import DialectIR.Proofs.Walk

/-! The order of traversal does not matter to patterns for arithmetic, if no arithmetic holds a
region. Both orders visit what other operations hold at the same time, for there is nothing to be
matched at these; and what is matched holds nothing that would have to be visited before or behind
that. -/

namespace DialectIR

variable {σ : Type}

namespace Operation

/-- If the operation is arithmetic, then it has no region. -/
def FlatArithmetic (op : Operation) : Prop := op.name.dialect = "arith" → op.region = none

instance (op : Operation) : Decidable op.FlatArithmetic :=
  inferInstanceAs (Decidable (op.name.dialect = "arith" → op.region = none))

theorem flatArithmetic_of_none {op : Operation} (h : op.region = none) : op.FlatArithmetic :=
  fun _ => h

theorem FlatArithmetic.mapOperands {op : Operation} (h : op.FlatArithmetic) (f : Value → Value) :
    (op.mapOperands f).FlatArithmetic := by
  obtain ⟨head, _ | ops⟩ := op
  · exact flatArithmetic_of_none rfl
  · exact fun harith => absurd (h harith) (Option.some_ne_none _)

theorem eachIn_append {P : Operation → Prop} {ops more : List Operation} :
    EachIn P (ops ++ more) ↔ EachIn P ops ∧ EachIn P more := by
  induction ops with
  | nil => exact ⟨fun h => ⟨trivial, h⟩, And.right⟩
  | cons op ops ih =>
      show P op ∧ EachNested P op ∧ EachIn P (ops ++ more) ↔ (P op ∧ EachNested P op ∧ EachIn P ops)
        ∧ EachIn P more
      rw [ih, and_assoc, and_assoc]

/-- Nothing is nested in operations without a region. -/
theorem eachIn_of_leaves {P : Operation → Prop} {ops : List Operation}
    (h : ∀ op ∈ ops, P op ∧ op.region = none) :
    EachIn P ops := by
  induction ops with
  | nil => trivial
  | cons op ops ih =>
      obtain ⟨⟨hop, hregion⟩, hops⟩ := List.forall_mem_cons.1 h
      refine ⟨hop, ?_, ih hops⟩
      obtain ⟨head, region⟩ := op
      cases hregion
      trivial

mutual

theorem eachNested_mapOperands {P : Operation → Prop} (f : Value → Value)
    (hP : ∀ op, P op → P (op.mapOperands f)) :
    (op : Operation) → op.EachNested P → (op.mapOperands f).EachNested P
  | ⟨_, none⟩, _ => trivial
  | ⟨_, some ops⟩, h => eachIn_mapOperands f hP ops h

theorem eachIn_mapOperands {P : Operation → Prop} (f : Value → Value)
    (hP : ∀ op, P op → P (op.mapOperands f)) :
    (ops : List Operation) → EachIn P ops → EachIn P (mapHeadsOfAll (Head.mapOperands f) ops)
  | [], _ => trivial
  | op :: ops, ⟨hop, hnested, hops⟩ =>
      ⟨hP op hop, eachNested_mapOperands f hP op hnested, eachIn_mapOperands f hP ops hops⟩

end

mutual

theorem eachNested_prune {P : Operation → Prop} (dead : Head → Bool)
    (hP : ∀ op, P op → P (op.prune dead)) :
    (op : Operation) → op.EachNested P → (op.prune dead).EachNested P
  | ⟨_, none⟩, _ => trivial
  | ⟨_, some ops⟩, h => eachIn_pruneAll dead hP ops h

theorem eachIn_pruneAll {P : Operation → Prop} (dead : Head → Bool)
    (hP : ∀ op, P op → P (op.prune dead)) :
    (ops : List Operation) → EachIn P ops → EachIn P (pruneAll dead ops)
  | [], _ => trivial
  | op :: ops, ⟨hop, hnested, hops⟩ => by
      rw [pruneAll]
      split
      · exact eachIn_pruneAll dead hP ops hops
      · exact ⟨hP op hop, eachNested_prune dead hP op hnested, eachIn_pruneAll dead hP ops hops⟩

end

theorem FlatArithmetic.prune {op : Operation} (h : op.FlatArithmetic) (dead : Head → Bool) :
    (op.prune dead).FlatArithmetic := by
  obtain ⟨head, _ | ops⟩ := op
  · exact flatArithmetic_of_none rfl
  · exact fun harith => absurd (h harith) (Option.some_ne_none _)

end Operation

/-- What a match leaves behind holds nothing: the operation is replaced, and what is inserted has no
region. -/
structure Recording.Flat (recording : Recording) : Prop where
  replaces : ∃ values, recording.action = some (.replace values)
  leaves : ∀ op ∈ recording.inserted, op.region = none

/-- The pattern exchanges arithmetic for operations without a region, and has nothing to do
elsewhere. -/
structure Pattern.Exchanges (pattern : Pattern σ) : Prop extends pattern.Arithmetic where
  flat : ∀ {op : Operation} {site : Site} {draft : Draft σ}, site.op = op → draft.recording = {} →
    pattern.appliesTo op.name = true →
    (pattern.rewrite op).Does site draft fun answer _ draft => answer = .ok true →
      draft.recording.Flat

theorem Arith.exchanges_simplifications :
    ∀ pattern ∈ simplifications (σ := σ), pattern.Exchanges := by
  refine fun pattern hpattern => ⟨arithmetic_simplifications pattern hpattern,
    fun {op site draft} hsite hrecording happlies => ?_⟩
  have houtcome := does_simplification hpattern happlies hsite hrecording
  unfold Attempt.Does at houtcome ⊢
  intro hanswer
  rw [hanswer] at houtcome
  have hsimplifies : Simplifies site.definitions op ((pattern.rewrite op).run.drawn site draft)
      ((pattern.rewrite op).run.run site draft).2.recording := houtcome
  generalize (pattern.rewrite op).run.drawn site draft = names at hsimplifies
  generalize ((pattern.rewrite op).run.run site draft).2.recording = recording at hsimplifies ⊢
  cases hsimplifies with
  | keep => exact ⟨⟨_, rfl⟩, nofun⟩
  | fold => exact ⟨⟨_, rfl⟩, List.forall_mem_singleton.2 rfl⟩

namespace Lowering

theorem flat_recordingOf (op : Operation) (new : Head) : (recordingOf op new).Flat :=
  ⟨⟨_, rfl⟩, List.forall_mem_singleton.2 rfl⟩

theorem exchanges_patterns : ∀ pattern ∈ patterns (σ := σ), pattern.Exchanges := by
  refine fun pattern hpattern =>
    ⟨arithmetic_patterns pattern hpattern, fun {op site draft} hsite hrecording _ => ?_⟩
  have hrename (name : OpName) (operands : List Value) : Attempt.Does site (do
      rename op name operands
      return true) draft fun answer _ draft => answer = .ok true → draft.recording.Flat := by
    obtain ⟨-, hmade⟩ := does_rename hsite hrecording name operands
    exact fun _ => hmade ▸ flat_recordingOf op _
  simp only [patterns, List.mem_cons, List.not_mem_nil, or_false] at hpattern
  rcases hpattern with rfl | rfl
  · exact hrename "llvm.mlir.constant" []
  · unfold binaryLowering
    dsimp only
    cases binary? op.name with
    | none =>
        intro hanswer
        cases hanswer
    | some name => exact hrename name op.operands

end Lowering

namespace Greedy

open Operation

variable {patterns : FrozenPatterns σ} {config : Config} {depth : Nat} {op root : Operation}
  {s s' : State σ}

theorem flat_of_returns_applyPatterns (hpatterns : ∀ pattern ∈ patterns.patterns, pattern.Exchanges)
    {recording : Recording}
    (h : Returns (applyPatterns patterns config depth op) s (some recording) s') :
    recording.Flat := by
  unfold applyPatterns at h
  rw [Returns.get_bind_iff, Returns.ite_iff] at h
  split at h
  · cases (Returns.pure_iff.1 h).1
  · obtain ⟨pattern, hpattern, site, draft, hsite, -, hrecording, hdoes⟩ :=
      (ensures_attemptFirst_does depth op _ s).of_returns h recording rfl
    obtain ⟨hmem, happlies⟩ := List.mem_filter.1 hpattern
    have hflat := (hpatterns pattern hmem).flat hsite hrecording happlies
    unfold Attempt.Does at hflat hdoes
    obtain ⟨hanswer, -, hmade⟩ := hdoes
    exact hmade ▸ hflat hanswer

/-- What stays was not matched. -/
theorem eq_none_of_stays (hpatterns : ∀ pattern ∈ patterns.patterns, pattern.Exchanges)
    {recording? : Option Recording}
    (h : Returns (applyPatterns patterns config depth op) s recording? s') {kept : Operation}
    (hstays : stays? op (recording?.getD {}) = some kept) : recording? = none ∧ kept = op := by
  cases recording? with
  | none => exact ⟨rfl, (Option.some.inj hstays).symm⟩
  | some recording =>
      obtain ⟨values, haction⟩ := (flat_of_returns_applyPatterns hpatterns h).replaces
      rw [Option.getD_some, stays?, haction] at hstays
      cases hstays

theorem leaves_of_returns_applyPatterns
    (hpatterns : ∀ pattern ∈ patterns.patterns, pattern.Exchanges) {recording? : Option Recording}
    (h : Returns (applyPatterns patterns config depth op) s recording? s') :
    ∀ new ∈ (recording?.getD {}).inserted, new.region = none := by
  cases recording? with
  | none => exact nofun
  | some recording => exact (flat_of_returns_applyPatterns hpatterns h).leaves

theorem ensures_attemptFirst_idle {tried : List (Pattern σ)}
    (hidle : ∀ pattern ∈ tried, ∀ (site : Site) (draft : Draft σ),
      site.op = op → draft.recording = {} → ((pattern.rewrite op).run.run site draft).1 = .ok false
        ∧ id ((pattern.rewrite op).run.run site draft).2.memory = id draft.memory) (depth : Nat)
    {s t : State σ} (hseen : s.SeenAlike id t) :
    Ensures (attemptFirst depth op tried) t
      (fun recording? t' => recording? = none ∧ s.SeenAlike id t') fun _ _ => False := by
  induction tried generalizing t with
  | nil => exact ⟨rfl, hseen⟩
  | cons pattern tried ih =>
      obtain ⟨hpattern, hrest⟩ := List.forall_mem_cons.1 hidle
      unfold attemptFirst
      apply (ends_attempt_of_idle hpattern depth hseen).bind
      rintro _ t' _ ⟨rfl, hseen'⟩
      exact ih hrest hseen'

/-- Where there is no arithmetic, nothing is done that could be seen. -/
theorem ensures_applyPatterns_idle (hpatterns : ∀ pattern ∈ patterns.patterns, pattern.Exchanges)
    (config : Config) (depth : Nat) (hother : op.name.dialect ≠ "arith") {s t : State σ}
    (hseen : s.SeenAlike id t) :
    Ensures (applyPatterns patterns config depth op) t
      (fun recording? t' => recording? = none ∧ s.SeenAlike id t')
      fun _ _ => False := by
  unfold applyPatterns
  rw [Ensures.get_bind_iff]
  split
  · exact ⟨rfl, hseen⟩
  · refine ensures_attemptFirst_idle (fun pattern hpattern site draft hsite hrecording => ?_)
      depth hseen
    obtain ⟨hmem, happlies⟩ := List.mem_filter.1 hpattern
    have hrun : Rewrite.RunAlike draft.memory draft.memory ((pattern.rewrite op).run.run site draft)
        ((pattern.rewrite op).run.run site draft) :=
          ((hpatterns pattern hmem).blind op).run rfl rfl draft draft rfl rfl
    exact ⟨((hpatterns pattern hmem).rests hother happlies site.definitions site draft hsite
      rfl hrecording).1, hrun.left⟩

theorem flatArithmetic_applyTo (replaced : Replacements) (h : op.FlatArithmetic) :
    (replaced.applyTo op).FlatArithmetic :=
  h.mapOperands _

theorem eachNested_applyTo (replaced : Replacements) (h : op.EachNested FlatArithmetic) :
    (replaced.applyTo op).EachNested FlatArithmetic :=
  eachNested_mapOperands _ (fun _ hop => hop.mapOperands _) op h

mutual

/-- Visits keep arithmetic flat: what is inserted has no region. -/
theorem WalkedAll.flatArithmetic (hpatterns : ∀ pattern ∈ patterns.patterns, pattern.Exchanges)
    {depth : Nat} {ops out : List Operation} {s s' : State σ} {offers : List (Offer σ)} :
    WalkedAll patterns config depth ops s offers out s' → EachIn FlatArithmetic ops →
      EachIn FlatArithmetic out
  | .nil _ _, h => h
  | .gone rfl _ hoffer _ hlater, ⟨_, _, hops⟩ => by
      refine eachIn_append.2 ⟨eachIn_of_leaves fun new hnew => ?_,
        hlater.flatArithmetic hpatterns hops⟩
      have hregion := leaves_of_returns_applyPatterns hpatterns hoffer new hnew
      exact ⟨flatArithmetic_of_none hregion, hregion⟩
  | .stays rfl hinner hoffer hstays hinside hlater, ⟨hop, hnested, hops⟩ => by
      obtain ⟨hnone, hkept⟩ := eq_none_of_stays hpatterns hoffer hstays
      obtain ⟨hnested₁, hop₁⟩ := hinner.flatArithmetic hpatterns (eachNested_applyTo _ hnested)
        (flatArithmetic_applyTo _ hop)
      obtain ⟨hnested₂, hop₂⟩ := hinside.flatArithmetic hpatterns (hkept ▸ hnested₁) (hkept ▸ hop₁)
      rw [Offer.changes, hnone]
      exact ⟨hop₂, hnested₂, hlater.flatArithmetic hpatterns hops⟩

theorem WalkedWithin.flatArithmetic (hpatterns : ∀ pattern ∈ patterns.patterns, pattern.Exchanges)
    {now : Bool} {depth : Nat} {op op' : Operation} {s s' : State σ} {offers : List (Offer σ)} :
    WalkedWithin patterns config now depth op s offers op' s' → op.EachNested FlatArithmetic →
      op.FlatArithmetic → op'.EachNested FlatArithmetic ∧ op'.FlatArithmetic
  | .skip _ _ _, hnested, hop => ⟨hnested, hop⟩
  | .leaf _ _ _, hnested, hop => ⟨hnested, hop⟩
  | .region hops, hnested, hop =>
      ⟨hops.flatArithmetic hpatterns hnested, fun harith =>
        absurd (hop harith) (Option.some_ne_none _)⟩

end

theorem eachNested_of_returns_swept (hpatterns : ∀ pattern ∈ patterns.patterns, pattern.Exchanges)
    {swept : Operation × Nat} (hroot : root.EachNested FlatArithmetic)
    (h : Returns (sweep patterns config root >>= removeDead config) s swept s') :
    swept.1.EachNested FlatArithmetic := by
  obtain ⟨root₁, s₁, hsweep, hremove⟩ := Returns.bind_iff.1 h
  obtain ⟨offers, visited, between, hwalked, rfl, -⟩ := exists_walked_of_returns_sweep hsweep
  have hvisited : visited.EachNested FlatArithmetic := by
    cases hwalked with
    | leaf => exact hroot
    | region hops => exact hops.flatArithmetic hpatterns hroot
  have hroot₁ := eachNested_applyTo between.replaced hvisited
  rcases returns_removeDead hremove with ⟨rfl, -⟩ | ⟨rfl, -⟩
  · exact (removeDeadOps_induction s₁.context
      (fun op other _ hop => eachNested_prune _ (fun _ hflat => hflat.prune _) op hop) hroot₁).1
  · exact hroot₁

/-! ### Both orders side by side -/

variable {within within' : Operation → Step σ Operation}

/-- What is visited within operations in both orders: the same, and nothing where there is no
region. -/
structure SameWithin (within within' : Operation → Step σ Operation) : Prop where
  follows : ∀ {op}, op.EachNested FlatArithmetic → (seenLink id).Follows (within op) (within' op)
  name : ∀ {op s op' s'}, Returns (within op) s op' s' → op'.name = op.name
  leaf : ∀ {op : Operation}, op.region = none → within op = pure op ∧ within' op = pure op

/-- An operation that stays without a match is met. -/
theorem commit_empty (config : Config) (within : Operation → Step σ Operation) (op : Operation) :
    commit config within op {} = (if config.topDown then within op else pure op) >>= fun op => do
      modify (·.register op)
      return [op] := by
  show visit.settle config within [] op = _
  rw [settle_eq]
  rfl

/-- Where nothing is visited behind a match, the order does not matter. -/
theorem commit_eq_of_leaf {op : Operation} {recording : Recording} (config : Config)
    (h : ∀ kept, stays? op recording = some kept → within kept = pure kept) :
    commit config within op recording = commit {} pure op recording := by
  unfold commit
  congr 1
  funext _
  cases hstays : stays? op recording with
  | none => rfl
  | some kept =>
      dsimp only
      rw [settle_eq, settle_eq, h kept hstays, ite_self]
      rfl

theorem follows_applyPatterns (config : Config) (topDown : Bool) (depth : Nat) (op : Operation) :
    (seenLink id).Follows (applyPatterns patterns config depth op)
    (applyPatterns patterns { config with topDown } depth op) := by
  have hlimit : (seenLink (σ := σ) id).SameLimit config { config with topDown } :=
    sameLimit_seenLink rfl
  exact hlimit.follows_ite none <| Link.follows_attemptFirst fun pattern _ =>
    follows_of_seesOnly pattern.seesOnly_id depth op

/-- **One visit in both orders.** Arithmetic holds nothing, and elsewhere there is nothing to be
matched. -/
theorem follows_visit_topDown (hpatterns : ∀ pattern ∈ patterns.patterns, pattern.Exchanges)
    (hbottom : config.topDown = false) (hwithin : SameWithin within within') (depth : Nat)
    (hop : op.FlatArithmetic) (hnested : op.EachNested FlatArithmetic) :
    (seenLink id).Follows (visit patterns config within depth op)
      (visit patterns { config with topDown := true } within' depth op) := by
  rw [visit_eq, visit_eq, hbottom]
  refine (Link.follows_substitute op).bind_of_returns fun s op₁ s' hsubstitute => ?_
  obtain ⟨rfl, -⟩ := eq_applyTo_of_returns_substitute hsubstitute
  have hflat := flatArithmetic_applyTo s.replaced hop
  have hnested₁ := eachNested_applyTo s.replaced hnested
  generalize s.replaced.applyTo op = op₁ at hflat hnested₁
  simp only [Bool.not_false, Bool.not_true, if_true, Bool.false_eq_true, if_false, pure_bind]
  by_cases harith : op₁.name.dialect = "arith"
  · have hregion := hflat harith
    rw [(hwithin.leaf hregion).1, pure_bind]
    refine (follows_applyPatterns config true depth op₁).bind_of_returns
      fun s recording? s' happly => ?_
    have hkept (kept : Operation)
      (hstays : stays? op₁ (recording?.getD {}) = some kept) : kept.region = none := by
      obtain ⟨-, rfl⟩ := eq_none_of_stays hpatterns happly hstays
      exact hregion
    rw [commit_eq_of_leaf config fun kept hstays => (hwithin.leaf (hkept kept hstays)).1,
      commit_eq_of_leaf { config with topDown := true } fun kept hstays =>
        (hwithin.leaf (hkept kept hstays)).2]
    exact Link.follows_commit (fun op => Link.follows_pure op) rfl op₁ _
  · -- The one order tries patterns in vain behind the visit within, the other before it.
    have hidle {op : Operation} (hother : op.name.dialect ≠ "arith") (config : Config)
      {s t : State σ} (hseen : s.SeenAlike id t) :=
      ensures_applyPatterns_idle hpatterns config depth hother hseen
    refine Link.Follows.skip_right (a := none) (fun s t hseen => hidle harith _ hseen) ?_
    rw [Option.getD_none, commit_empty, if_pos rfl]
    refine (hwithin.follows hnested₁).bind_of_returns fun s op₂ s' hreturns => ?_
    have hother : op₂.name.dialect ≠ "arith" := hwithin.name hreturns ▸ harith
    refine Link.Follows.skip_left (a := none)
      (fun s => (hidle hother config (.refl id s)).mono ?_) ?_
    · rintro _ s' _ ⟨rfl, hseen⟩
      exact ⟨rfl, hseen.rewrites, fun t ht => hseen.symm.trans ht⟩
    · rw [Option.getD_none, commit_empty, if_neg (ne_true_of_eq_false hbottom), pure_bind]
      refine (Link.follows_modify (·.register op₂) (fun _ => rfl) fun h =>
        Link.linked_register h op₂).bind fun _ => ?_
      exact Link.follows_pure _

theorem follows_visitAll_topDown (hpatterns : ∀ pattern ∈ patterns.patterns, pattern.Exchanges)
    (hbottom : config.topDown = false) (hwithin : SameWithin within within') (depth : Nat)
    {ops : List Operation} (hops : EachIn FlatArithmetic ops) :
    (seenLink id).Follows (visitAll patterns config within depth ops)
      (visitAll patterns { config with topDown := true } within' depth ops) := by
  induction ops with
  | nil => exact Link.follows_pure []
  | cons op ops ih =>
      obtain ⟨hop, hnested, hops⟩ := hops
      refine (follows_visit_topDown hpatterns hbottom hwithin depth hop hnested).bind
        fun first => ?_
      exact (ih hops).bind fun rest => Link.follows_pure _

theorem visitRegion_of_leaf (patterns : FrozenPatterns σ) (config : Config) (levels depth : Nat)
    (h : op.region = none) :
    visitRegion patterns config levels depth op = pure op := by
  unfold visitRegion
  rw [h]

theorem sameWithin_visitRegion (hpatterns : ∀ pattern ∈ patterns.patterns, pattern.Exchanges)
    (hbottom : config.topDown = false) (levels depth : Nat) :
    SameWithin (visitRegion patterns config levels depth)
      (visitRegion patterns { config with topDown := true } levels depth) := by
  induction levels generalizing depth with
  | zero =>
      refine ⟨fun {op} hnested => ?_, fun h =>
        congrArg Head.name (toHead_of_returns_visitRegion h), fun h =>
        ⟨visitRegion_of_leaf _ _ _ _ h, visitRegion_of_leaf _ _ _ _ h⟩⟩
      obtain ⟨head, _ | ops⟩ := op
      · exact Link.follows_pure _
      · exact Link.follows_throw _
  | succ levels ih =>
      refine ⟨fun {op} hnested => ?_, fun h =>
        congrArg Head.name (toHead_of_returns_visitRegion h), fun h =>
        ⟨visitRegion_of_leaf _ _ _ _ h, visitRegion_of_leaf _ _ _ _ h⟩⟩
      obtain ⟨head, _ | ops⟩ := op
      · exact Link.follows_pure _
      · unfold visitRegion
        exact (follows_visitAll_topDown hpatterns hbottom (ih (depth + 1)) depth hnested).bind
          fun ops => Link.follows_pure _

theorem followsSweeps_topDown (hpatterns : ∀ pattern ∈ patterns.patterns, pattern.Exchanges)
    (hbottom : config.topDown = false) :
    (seenLink (σ := σ) id).FollowsSweeps (fun root => root.EachNested FlatArithmetic) patterns
      patterns config
      { config with topDown := true } where
  sweep root hroot := by
    rw [sweep_eq, sweep_eq]
    have hdefinitions : (seenLink (σ := σ) id).Follows
      (modify fun s => { s with definitions := .empty })
        (modify fun s => { s with definitions := .empty }) :=
      Link.follows_modify _ (fun _ => rfl) fun h =>
        ⟨rfl, h.replaced, h.erased, h.names, h.rewrites, h.context, h.memory⟩
    exact hdefinitions.bind fun _ =>
      ((sameWithin_visitRegion hpatterns hbottom _ 0).follows hroot).bind Link.follows_finish
  keeps hroot h := eachNested_of_returns_swept hpatterns hroot h
  limit := sameLimit_seenLink rfl
  removeDeadOps := rfl
  rewrites hseen := hseen.rewrites

end Greedy

open Greedy

/-- **The order of traversal does not matter** to simplifications and lowerings of arithmetic, if no
arithmetic holds a region: the run ends in the same way and leaves the same tree, names included,
the same dialects loaded and the same memory. -/
theorem applyGreedily_topDown {patterns : FrozenPatterns σ}
    (hpatterns : ∀ pattern ∈ patterns.patterns, pattern ∈ Arith.simplifications
      ∨ pattern ∈ Lowering.patterns)
    (config : Config) (topDown : Bool) {root : Operation}
    (hroot : root.EachNested Operation.FlatArithmetic) (context : Context) (memory : σ) :
    let given := applyGreedily patterns config root context memory
    let other := applyGreedily patterns { config with topDown } root context memory
    other.result = given.result ∧ other.op = given.op
      ∧ other.context.withoutJournal = given.context.withoutJournal
      ∧ other.memory = given.memory := by
  have hexchanges : ∀ pattern ∈ patterns.patterns, pattern.Exchanges := fun pattern hpattern =>
    (hpatterns pattern hpattern).elim (Arith.exchanges_simplifications pattern)
      (Lowering.exchanges_patterns pattern)
  have hbelow (config : Config) (hbottom : config.topDown = false) :
      let given := applyGreedily patterns config root context memory
      let other := applyGreedily patterns { config with topDown := true } root context memory
      other.result = given.result ∧ other.op = given.op
        ∧ other.context.withoutJournal = given.context.withoutJournal
        ∧ other.memory = given.memory := by
    obtain ⟨hresult, hop, s, t, hseen, hs, hs', ht, ht'⟩ :=
      (followsSweeps_topDown hexchanges hbottom).ends_applyGreedily rfl hroot
      (State.SeenAlike.refl id { context, memory, names := namesFor root }) fun _ => trivial
    exact ⟨hresult, hop, by rw [hs, ht, hseen.context], by rw [hs', ht']; exact hseen.memory⟩
  cases hconfig : config.topDown with
  | false =>
      cases topDown with
      | false =>
          rw [← hconfig]
          exact ⟨rfl, rfl, rfl, rfl⟩
      | true => exact hbelow config hconfig
  | true =>
      cases topDown with
      | false =>
          obtain ⟨hresult, hop, hcontext, hmemory⟩ := hbelow { config with topDown := false } rfl
          dsimp only at hresult hop hcontext hmemory
          rw [← hconfig] at hresult hop hcontext hmemory
          exact ⟨hresult.symm, hop.symm, hcontext.symm, hmemory.symm⟩
      | true =>
          rw [← hconfig]
          exact ⟨rfl, rfl, rfl, rfl⟩

/-- In a region a product of constants is folded and behind it a sum is lowered, in both orders; a
difference is left, because the limit is reached. -/
theorem applyGreedily_topDown_scope :
    ∃ root : Operation, root.definedNames = ["a", "b", "c", "d", "e"]
    ∧ root.EachNested Operation.FlatArithmetic
    ∧ let patterns : FrozenPatterns Unit := ⟨Arith.simplifications ++ [Lowering.binaryLowering]⟩
      let below := applyGreedily patterns { maxRewrites := some 2 } root (.ofRegistry .standard) ()
      let above := applyGreedily patterns { maxRewrites := some 2, topDown := true } root
        (.ofRegistry .standard) ()
      below.result = .ok ⟨true, false, 2⟩ ∧ below.op.definedNames = ["a", "b", "0", "d", "e"]
        ∧ above.result = below.result
        ∧ above.op = below.op := by
  let a : Value := ⟨"a", .int 8⟩
  let b : Value := ⟨"b", .int 8⟩
  let c : Value := ⟨"c", .int 8⟩
  let d : Value := ⟨"d", .int 8⟩
  let e : Value := ⟨"e", .int 8⟩
  let root := Operation.module
    [.constant a 10,
      { name := "test.scope", results := [b],
        region := some [{ name := "arith.muli", operands := [a, a], results := [c] },
          { name := "test.sink", operands := [c] }] },
      { name := "arith.addi", operands := [b, a], results := [d] },
      { name := "arith.subi", operands := [d, d], results := [e] },
      { name := "test.sink", operands := [d, e] }]
  let patterns : FrozenPatterns Unit := ⟨Arith.simplifications ++ [Lowering.binaryLowering]⟩
  have hpatterns : ∀ pattern ∈ patterns.patterns, pattern ∈ Arith.simplifications
    ∨ pattern ∈ Lowering.patterns :=
    fun pattern hpattern => (List.mem_append.1 hpattern).imp_right (List.mem_cons_of_mem _)
  have hleaf (head : Head) : Operation.FlatArithmetic ⟨head, none⟩ :=
    Operation.flatArithmetic_of_none rfl
  have hflat : root.EachNested Operation.FlatArithmetic :=
    ⟨hleaf _, trivial, by decide +kernel, ⟨hleaf _, trivial, hleaf _, trivial, trivial⟩, hleaf _,
      trivial, hleaf _, trivial, hleaf _, trivial, trivial⟩
  obtain ⟨hresult, hop, -⟩ := applyGreedily_topDown hpatterns { maxRewrites := some 2 } true hflat
    (.ofRegistry .standard) ()
  exact ⟨root, by decide +kernel, hflat, eq_ok_of_toOption (by decide +kernel),
    by decide +kernel, hresult, hop⟩

end DialectIR
