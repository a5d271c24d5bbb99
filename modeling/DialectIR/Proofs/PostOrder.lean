import DialectIR.Proofs.Attempts
import DialectIR.Proofs.Redirected
import DialectIR.Proofs.Steps

/-! The order of a sweep. Bottom-up, a sweep offers each operation below its root to the patterns
once, behind the operations that it holds, and never an operation that was inserted. What comes of
an operation stands in its place. -/

namespace DialectIR

variable {σ α : Type}

namespace Operation

mutual

/-- All operations in a tree, each behind those that it holds. -/
def postOrder : Operation → List Operation
  | ⟨head, none⟩ => [⟨head, none⟩]
  | ⟨head, some ops⟩ => postOrderAll ops ++ [⟨head, some ops⟩]

def postOrderAll : List Operation → List Operation
  | [] => []
  | op :: ops => postOrder op ++ postOrderAll ops

end

theorem postOrder_eq (op : Operation) : op.postOrder = postOrderAll op.nested ++ [op] := by
  obtain ⟨head, _ | ops⟩ := op <;> rfl

mutual

theorem postOrder_mapHeads (f : Head → Head) :
    (op : Operation) → (op.mapHeads f).postOrder = op.postOrder.map (·.mapHeads f)
  | ⟨head, none⟩ => rfl
  | ⟨head, some ops⟩ => by
      rw [mapHeads, postOrder, postOrder, postOrderAll_mapHeadsOfAll f ops, List.map_append]
      rfl

theorem postOrderAll_mapHeadsOfAll (f : Head → Head) :
    (ops : List Operation) → postOrderAll (mapHeadsOfAll f ops)
      = (postOrderAll ops).map (·.mapHeads f)
  | [] => rfl
  | op :: ops => by
      rw [mapHeadsOfAll, postOrderAll, postOrderAll, List.map_append, postOrder_mapHeads f op,
        postOrderAll_mapHeadsOfAll f ops]

end

theorem mapHeadsOfAll_eq_map (f : Head → Head) (ops : List Operation) :
    mapHeadsOfAll f ops = ops.map (·.mapHeads f) := by
  induction ops with
  | nil => rfl
  | cons op ops ih => rw [mapHeadsOfAll, ih, List.map_cons]

/-- The head of the other operation is that of the operation, apart from the values that it uses. -/
def Counterpart (op other : Operation) : Prop :=
  ∃ f : Value → Value, other.toHead = op.toHead.mapOperands f

theorem Counterpart.of_mapOperands {f : Value → Value} {op other : Operation}
    (h : Counterpart (op.mapOperands f) other) :
    Counterpart op other := by
  obtain ⟨g, hg⟩ := h
  refine ⟨g ∘ f, ?_⟩
  rw [hg, mapOperands, toHead_mapHeads]
  simp [Head.mapOperands]

end Operation

/-- The operations that a program inserts, in the order of its requests. -/
def Rewrite.created (site : Site) : Rewrite σ α → Draft σ → List Operation
  | .done _, _ => []
  | .definingOp value next, draft =>
      (next (site.definition? draft.recording value.name)).created site draft
  | .freshName next, draft =>
      (next draft.names.fresh.1).created site { draft with names := draft.names.fresh.2 }
  | .create op next, draft =>
      op :: next.created site { draft with recording := draft.recording.insert op }
  | .act action next, draft =>
      match draft.recording.act site.op action with
      | .ok recording => (next (.ok ())).created site { draft with recording }
      | .error refusal => (next (.error refusal)).created site draft
  | .context next, draft => (next site.context).created site draft
  | .readMemory next, draft => (next draft.memory).created site draft
  | .writeMemory memory next, draft => next.created site { draft with memory }

theorem Recording.inserted_of_act {recording recording' : Recording} {op : Operation}
    {action : Action} (h : recording.act op action = .ok recording') :
    recording'.inserted = recording.inserted := by
  unfold Recording.act at h
  split at h
  next => cases h
  next =>
    split at h
    next => cases h
    next =>
      cases h
      rfl

/-- What is recorded for insertion is what was inserted, in order. -/
theorem Rewrite.inserted_run (site : Site) (program : Rewrite σ α) (draft : Draft σ) :
    (program.run site draft).2.recording.inserted = draft.recording.inserted
      ++ program.created site draft := by
  induction program generalizing draft with
  | done result => exact (List.append_nil _).symm
  | definingOp value next ih => exact ih _ draft
  | freshName next ih => exact ih _ { draft with names := draft.names.fresh.2 }
  | create op next ih =>
      rw [run, created, ih]
      exact List.append_assoc _ _ _
  | act action next ih =>
      rw [run, created]
      cases hact : draft.recording.act site.op action with
      | ok recording =>
          exact (ih _ { draft with recording }).trans
            (congrArg (· ++ _) (Recording.inserted_of_act hact))
      | error refusal => exact ih _ draft
  | context next ih => exact ih _ draft
  | readMemory next ih => exact ih _ draft
  | writeMemory memory next ih => exact ih { draft with memory }

/-- The pattern, tried on an operation that finds these definitions, has recorded this: what it
inserted, in the order of its requests, and what becomes of the operation. -/
def Pattern.Records (pattern : Pattern σ) (op : Operation) (definitions : Dict Operation)
    (recording : Recording) : Prop :=
  ∃ (site : Site) (draft : Draft σ), site.op = op ∧ site.definitions = definitions
    ∧ draft.recording = {}
    ∧ ((pattern.rewrite op).run.run site draft).1 = .ok true
    ∧ ((pattern.rewrite op).run.run site draft).2.recording = recording
    ∧ recording.inserted = (pattern.rewrite op).run.created site draft

namespace Greedy

open Operation

/-- What came of an operation that was offered to the patterns. -/
structure Offer (σ : Type) where
  depth : Nat
  op : Operation
  before : State σ
  recording? : Option Recording
  after : State σ

namespace Offer

/-- What stands in the place of the operation: what was inserted, and behind it the operation if it
stays, or its new version. -/
def out (offer : Offer σ) : List Operation :=
  match offer.recording? with
  | none => [offer.op]
  | some ⟨inserted, none⟩ => inserted ++ [offer.op]
  | some ⟨inserted, some (.update new)⟩ => inserted ++ [new]
  | some ⟨inserted, some (.replace _)⟩ | some ⟨inserted, some .erase⟩ => inserted

/-- The state in which the sweep goes on. -/
def next (offer : Offer σ) : State σ :=
  match offer.recording? with
  | none => offer.after.register offer.op
  | some ⟨inserted, none⟩ => (inserted.foldl State.register offer.after).register offer.op
  | some ⟨inserted, some (.update new)⟩ => (inserted.foldl State.register offer.after).register new
  | some ⟨inserted, some (.replace values)⟩ =>
      (inserted.foldl State.register offer.after).replace offer.op.results values
  | some ⟨inserted, some .erase⟩ =>
      (inserted.foldl State.register offer.after).erase offer.op.results

end Offer

mutual

/-- Visits of the operations in a list, bottom-up: what an operation holds is visited before the
operation is offered to the patterns, and what comes of that is settled before the next one is
visited. All offers are listed, and apart from them those of the operations in the list. -/
inductive VisitedAll (patterns : FrozenPatterns σ) (config : Config) :
    Nat → List Operation → State σ → List (Offer σ) → List (Offer σ) → State σ → Prop where
  | nil (depth : Nat) (s : State σ) : VisitedAll patterns config depth [] s [] [] s
  | cons {op : Operation} {ops : List Operation} {s s' : State σ} {offer : Offer σ}
      {inner later own : List (Offer σ)}
      (hinner : VisitedWithin patterns config (offer.depth + 1) (s.replaced.applyTo op) s inner
        offer.op offer.before)
      (hoffer : Returns (applyPatterns patterns config offer.depth offer.op) offer.before
        offer.recording? offer.after)
      (hlater : VisitedAll patterns config offer.depth ops offer.next later own s') :
      VisitedAll patterns config offer.depth (op :: ops) s (inner ++ offer :: later)
        (offer :: own) s'

/-- A visit of what an operation holds: what came of the operations in its region is
concatenated. -/
inductive VisitedWithin (patterns : FrozenPatterns σ) (config : Config) :
    Nat → Operation → State σ → List (Offer σ) → Operation → State σ → Prop where
  | leaf (depth : Nat) (head : Head) (s : State σ) : VisitedWithin patterns config depth
      ⟨head, none⟩ s [] ⟨head, none⟩ s
  | region {depth : Nat} {head : Head} {ops : List Operation} {s s' : State σ}
      {offers own : List (Offer σ)} (hops : VisitedAll patterns config depth ops s offers own s') :
      VisitedWithin patterns config depth ⟨head, some ops⟩ s offers
        ⟨head, some (own.flatMap Offer.out)⟩ s'

end

/-- What a sweep makes of an operation before it is offered: in its region what came of each
operation is concatenated. -/
structure Swept (offers : List (Offer σ)) (op other : Operation) : Prop where
  head : Counterpart op other
  leaf : op.region = none → other.region = none
  region : ∀ ops, op.region = some ops → ∃ own, own.Sublist offers
    ∧ List.Forall₂ (fun op offer => Counterpart op offer.op) ops own
    ∧ other.region = some (own.flatMap Offer.out)

namespace Swept

variable {offers more : List (Offer σ)} {op other : Operation}

theorem mono (h : Swept offers op other) (hmore : offers.Sublist more) : Swept more op other := by
  refine ⟨h.head, h.leaf, fun ops hops => ?_⟩
  obtain ⟨own, hown, hcounterparts, hregion⟩ := h.region ops hops
  exact ⟨own, hown.trans hmore, hcounterparts, hregion⟩

theorem of_mapOperands {f : Value → Value} (h : Swept offers (op.mapOperands f) other) :
    Swept offers op other := by
  refine ⟨h.head.of_mapOperands, fun hnone => h.leaf ?_, fun ops hops => ?_⟩
  · have hregion := region_mapHeads (Head.mapOperands f) op
    rw [hnone] at hregion
    exact Option.not_isSome_iff_eq_none.1 (ne_true_of_eq_false hregion)
  · have hmapped : (op.mapOperands f).region = some (mapHeadsOfAll (Head.mapOperands f) ops) := by
      obtain ⟨head, region⟩ := op
      subst hops
      rfl
    obtain ⟨own, hown, hcounterparts, hregion⟩ := h.region _ hmapped
    rw [mapHeadsOfAll_eq_map, List.forall₂_map_left_iff] at hcounterparts
    exact ⟨own, hown, hcounterparts.imp fun _ _ => Counterpart.of_mapOperands, hregion⟩

end Swept

mutual

/-- **Each operation is offered once, in post-order**, and those of a list in its order. -/
theorem VisitedAll.swept {patterns : FrozenPatterns σ} {config : Config} {depth : Nat}
    {ops : List Operation} {s s' : State σ} {offers own : List (Offer σ)} :
    VisitedAll patterns config depth ops s offers own s' →
      List.Forall₂ (fun op offer => Swept offers op offer.op) (postOrderAll ops) offers
        ∧ own.Sublist offers ∧ List.Forall₂ (fun op offer => Counterpart op offer.op) ops own
  | .nil _ _ => ⟨.nil, List.Sublist.refl _, .nil⟩
  | .cons hinner _ hlater => by
      obtain ⟨hinside, hself⟩ := hinner.swept
      obtain ⟨hrest, hsublist, hown⟩ := hlater.swept
      rw [Replacements.applyTo, Operation.mapOperands, nested_mapHeads, postOrderAll_mapHeadsOfAll,
        List.forall₂_map_left_iff] at hinside
      refine ⟨?_, ((List.Sublist.cons_cons _ hsublist).trans (List.sublist_append_right _ _)),
        .cons hself.head.of_mapOperands hown⟩
      rw [postOrderAll, postOrder_eq, List.append_assoc]
      refine List.rel_append (hinside.imp fun _ _ h => ?_)
        (.cons ?_ (hrest.imp fun _ _ h => h.mono ?_))
      · exact h.of_mapOperands.mono (List.sublist_append_left _ _)
      · exact hself.of_mapOperands.mono (List.sublist_append_left _ _)
      · exact (List.sublist_cons_self _ _).trans (List.sublist_append_right _ _)

/-- The operation itself is ready to be offered behind those that it holds. -/
theorem VisitedWithin.swept {patterns : FrozenPatterns σ} {config : Config} {depth : Nat}
    {op op' : Operation} {s s' : State σ} {offers : List (Offer σ)} :
    VisitedWithin patterns config depth op s offers op' s' →
      List.Forall₂ (fun op offer => Swept offers op offer.op) (postOrderAll op.nested) offers
        ∧ Swept offers op op'
  | .leaf _ _ _ => ⟨.nil, ⟨id, by simp [Head.mapOperands]⟩, fun _ => rfl, nofun⟩
  | .region hops => by
      obtain ⟨hoffers, hsublist, hown⟩ := hops.swept
      refine ⟨hoffers, ⟨id, by simp [Head.mapOperands]⟩, nofun, ?_⟩
      rintro _ ⟨⟩
      exact ⟨_, hsublist, hown, rfl⟩

end

mutual

theorem VisitedAll.returns {patterns : FrozenPatterns σ} {config : Config} {depth : Nat}
    {ops : List Operation} {s s' : State σ} {offers own : List (Offer σ)} :
    VisitedAll patterns config depth ops s offers own s' → ∀ offer ∈ offers,
      Returns (applyPatterns patterns config offer.depth offer.op) offer.before
        offer.recording? offer.after
  | .nil _ _ => nofun
  | .cons hinner hoffer hlater =>
      List.forall_mem_append.2 ⟨hinner.returns, List.forall_mem_cons.2 ⟨hoffer, hlater.returns⟩⟩

theorem VisitedWithin.returns {patterns : FrozenPatterns σ} {config : Config} {depth : Nat}
    {op op' : Operation} {s s' : State σ} {offers : List (Offer σ)} :
    VisitedWithin patterns config depth op s offers op' s' → ∀ offer ∈ offers,
      Returns (applyPatterns patterns config offer.depth offer.op) offer.before
        offer.recording? offer.after
  | .leaf _ _ _ => nofun
  | .region hops => hops.returns

end

/-! ### Sweeps -/

variable {patterns : FrozenPatterns σ} {config : Config} {depth : Nat}
  {op op' root root' : Operation} {ops out : List Operation} {s s' : State σ}

theorem applyTo_of_isEmpty {replaced : Replacements} (h : replaced.isEmpty = true)
    (op : Operation) : replaced.applyTo op = op := by
  refine mapHeads_of_forall fun head _ => Head.mapOperands_of_forall fun operand _ => ?_
  rw [Replacements.resolve?_of_none (Dict.get?_of_isEmpty h operand.name)]
  rfl

/-- Substitution follows all replacements. -/
theorem eq_applyTo_of_returns_substitute (h : Returns (substitute op) s op' s') :
    op' = s.replaced.applyTo op ∧ s' = s := by
  unfold substitute at h
  rw [Returns.get_bind_iff] at h
  dsimp only at h
  split at h
  next hempty =>
    obtain ⟨rfl, rfl⟩ := Returns.pure_iff.1 h
    exact ⟨(applyTo_of_isEmpty hempty op').symm, rfl⟩
  next =>
    split at h
    · exact absurd h Returns.throw_iff
    · exact Returns.pure_iff.1 h

theorem returns_settle {within : Operation → Step σ Operation} (hbottom : config.topDown = false)
    {inserted : List Operation} (h : Returns (visit.settle config within inserted op) s out s') :
    out = inserted ++ [op] ∧ s' = s.register op := by
  rw [settle_eq, hbottom] at h
  obtain ⟨op', s₁, hpure, hrest⟩ := Returns.bind_iff.1 h
  obtain ⟨rfl, rfl⟩ := Returns.pure_iff.1 hpure
  rw [Returns.modify_bind_iff] at hrest
  exact Returns.pure_iff.1 hrest

/-- At the end of a sweep all replacements are followed. -/
theorem eq_applyTo_of_returns_finish (h : Returns (finish op) s op' s') :
    op' = s.replaced.applyTo op := by
  unfold finish at h
  obtain ⟨op₁, s₁, hsubstitute, hrest⟩ := Returns.bind_iff.1 h
  obtain ⟨rfl, rfl⟩ := eq_applyTo_of_returns_substitute hsubstitute
  rw [Returns.modify_bind_iff, Returns.get_bind_iff] at hrest
  dsimp only at hrest
  rw [Returns.modify_bind_iff] at hrest
  split at hrest
  · exact absurd hrest Returns.throw_iff
  · exact (Returns.pure_iff.1 hrest).1

/-- A bottom-up visit offers the operation when what it holds has been visited, and leaves what
comes of that. -/
theorem exists_offer_of_returns_visit {within : Operation → Step σ Operation}
    (hbottom : config.topDown = false)
    (h : Returns (visit patterns config within depth op) s out s') :
    ∃ offer : Offer σ, offer.depth = depth ∧ Returns (within (s.replaced.applyTo op)) s
      offer.op offer.before
      ∧ Returns (applyPatterns patterns config depth offer.op) offer.before
        offer.recording? offer.after
      ∧ out = offer.out ∧ s' = offer.next := by
  rw [visit_eq, hbottom] at h
  obtain ⟨op₁, s₁, hsubstitute, h⟩ := Returns.bind_iff.1 h
  obtain ⟨rfl, rfl⟩ := eq_applyTo_of_returns_substitute hsubstitute
  obtain ⟨op₂, s₂, hwithin, h⟩ := Returns.bind_iff.1 h
  obtain ⟨recording?, s₃, happly, hcommit⟩ := Returns.bind_iff.1 h
  refine ⟨⟨depth, op₂, s₂, recording?, s₃⟩, rfl, hwithin, happly, ?_⟩
  unfold commit at hcommit
  rw [Returns.modify_bind_iff] at hcommit
  rcases recording? with _ | ⟨inserted, _ | (values | _ | new)⟩
  · exact returns_settle hbottom hcommit
  · exact returns_settle hbottom hcommit
  · exact Returns.pure_iff.1 hcommit
  · exact Returns.pure_iff.1 hcommit
  · exact returns_settle hbottom hcommit

theorem exists_visitedAll {within : Operation → Step σ Operation} (hbottom : config.topDown = false)
    (hwithin : ∀ op s op' s', Returns (within op) s op' s' →
      ∃ offers, VisitedWithin patterns config (depth + 1) op s offers op' s')
    (h : Returns (visitAll patterns config within depth ops) s out s') :
    ∃ offers own, VisitedAll patterns config depth ops s offers own s'
      ∧ out = own.flatMap Offer.out := by
  induction ops generalizing s out with
  | nil =>
      obtain ⟨rfl, rfl⟩ := Returns.pure_iff.1 h
      exact ⟨[], [], .nil depth s', rfl⟩
  | cons op ops ih =>
      unfold visitAll at h
      obtain ⟨first, s₁, hvisit, h⟩ := Returns.bind_iff.1 h
      obtain ⟨rest, s₂, hrest, h⟩ := Returns.bind_iff.1 h
      obtain ⟨rfl, rfl⟩ := Returns.pure_iff.1 h
      obtain ⟨offer, rfl, hinside, happly, rfl, rfl⟩ := exists_offer_of_returns_visit hbottom hvisit
      obtain ⟨inner, hinner⟩ := hwithin _ _ _ _ hinside
      obtain ⟨later, own, hlater, rfl⟩ := ih hrest
      exact ⟨inner ++ offer :: later, offer :: own, .cons hinner happly hlater, rfl⟩

/-- **A bottom-up sweep visits as described**, through any number of levels. -/
theorem exists_visitedWithin (hbottom : config.topDown = false) (levels depth : Nat)
    (h : Returns (visitRegion patterns config levels depth op) s op' s') :
    ∃ offers, VisitedWithin patterns config depth op s offers op' s' := by
  induction levels generalizing depth op s op' s' with
  | zero =>
      obtain ⟨head, _ | ops⟩ := op
      · obtain ⟨rfl, rfl⟩ := Returns.pure_iff.1 h
        exact ⟨[], .leaf depth head s'⟩
      · exact absurd h Returns.throw_iff
  | succ levels ih =>
      obtain ⟨head, _ | ops⟩ := op
      · unfold visitRegion at h
        obtain ⟨rfl, rfl⟩ := Returns.pure_iff.1 h
        exact ⟨[], .leaf depth head s'⟩
      · unfold visitRegion at h
        obtain ⟨out, s₁, hops, h⟩ := Returns.bind_iff.1 h
        obtain ⟨rfl, rfl⟩ := Returns.pure_iff.1 h
        obtain ⟨offers, own, hvisited, rfl⟩ :=
          exists_visitedAll hbottom (fun _ _ _ _ hwithin => ih (depth + 1) hwithin) hops
        exact ⟨offers, .region hvisited⟩

/-- Where another match is allowed, patterns are tried in order, and the first to match has recorded
what becomes of the operation. -/
theorem tried_of_returns {recording? : Option Recording} (hlimit : s.limitReached config = false)
    (h : Returns (applyPatterns patterns config depth op) s recording? s') :
    Returns (attemptFirst depth op (patterns.patternsFor op.name)) s recording? s'
      ∧ ∀ recording, recording? = some recording →
      ∃ pattern ∈ patterns.patternsFor op.name, pattern.Records op s.definitions recording := by
  unfold applyPatterns at h
  rw [Returns.get_bind_iff, if_neg (ne_true_of_eq_false hlimit)] at h
  refine ⟨h, fun recording hsome => ?_⟩
  obtain ⟨pattern, hpattern, site, draft, hsite, hdefinitions, hrecording, hdoes⟩ :=
    (ensures_attemptFirst_does depth op (patterns.patternsFor op.name) s).of_returns h
      recording hsome
  obtain ⟨hanswer, -, hmade⟩ := hdoes
  refine ⟨pattern, hpattern, site, draft, hsite, hdefinitions, hrecording, hanswer, hmade, ?_⟩
  rw [← hmade, Rewrite.inserted_run, hrecording]
  rfl

/-- **A sweep is a single pass in post-order.** The operations below the root are offered to the
patterns once each, and nothing else is; what came of the operations of a region stands in their
places there. -/
theorem sweep_postOrder (hbottom : config.topDown = false)
    (h : Returns (sweep patterns config root) s root' s') :
    ∃ offers swept between, VisitedWithin patterns config 0 root { s with definitions := .empty }
      offers swept between
      ∧ root' = between.replaced.applyTo swept
      ∧ s' = { between with replaced := .empty, erased := [] }
      ∧ List.Forall₂ (fun op offer => Swept offers op offer.op) (postOrderAll root.nested) offers
      ∧ Swept offers root swept
      ∧ ∀ offer ∈ offers, offer.before.limitReached config = false →
        Returns (attemptFirst offer.depth offer.op (patterns.patternsFor offer.op.name))
          offer.before offer.recording? offer.after
          ∧ ∀ recording, offer.recording? = some recording →
            ∃ pattern ∈ patterns.patternsFor offer.op.name,
              pattern.Records offer.op offer.before.definitions recording := by
  rw [sweep_eq, Returns.modify_bind_iff] at h
  obtain ⟨swept, between, hvisit, hfinish⟩ := Returns.bind_iff.1 h
  obtain ⟨offers, hvisited⟩ := exists_visitedWithin hbottom _ 0 hvisit
  obtain ⟨hoffers, hroot⟩ := hvisited.swept
  exact ⟨offers, swept, between, hvisited, eq_applyTo_of_returns_finish hfinish,
    (returns_finish hfinish).2, hoffers, hroot,
    fun offer hoffer hlimit => tried_of_returns hlimit (hvisited.returns offer hoffer)⟩

/-- Patterns that insert operations, replace an operation by a new one, update one and erase one. -/
def busyPatterns : FrozenPatterns Unit :=
  ⟨[{ name := "insert", root := some "test.late", rewrite := fun _ => do
        Attempt.insert { name := "test.first" }
        Attempt.insert { name := "test.second" }
        return true },
    { name := "replace", root := some "test.old", rewrite := fun _ => do
        Attempt.replaceWithNew { name := "test.new", results := [← Attempt.freshValue (.int 8)] }
        return true },
    { name := "update", root := some "test.plain", rewrite := fun op => do
        Attempt.act (.update { op with toHead := { op.toHead with name := "test.marked" } })
        return true },
    { name := "erase", root := some "test.gone", rewrite := fun _ => do
        Attempt.act .erase
        return true }]⟩

/-- An operation for each of these patterns, two of them in the region of another operation. -/
def busyModule : Operation :=
  let a : Value := ⟨"a", .int 8⟩
  .module
    [{ name := "test.holder",
        region := some [{ name := "test.late" }, { name := "test.old", results := [a] }] },
      { name := "test.plain", operands := [a] }, { name := "test.gone" }]

/-- What is left of them: the value in the place of the one that was replaced is fresh. -/
def busyModuleSwept : Operation :=
  let fresh : Value := ⟨"0", .int 8⟩
  .module
    [{ name := "test.holder",
        region := some [{ name := "test.first" }, { name := "test.second" },
          { name := "test.late" }, { name := "test.new", results := [fresh] }] },
      { name := "test.marked", operands := [fresh] }]

/-- They are offered in post-order, and of what is inserted nothing is offered. -/
theorem sweep_postOrder_busyModule : ∃ s', Returns (sweep busyPatterns {} busyModule)
      { context := .ofRegistry .standard, memory := () } busyModuleSwept s'
    ∧ (postOrderAll busyModule.nested).map (·.name.text)
      = ["test.late", "test.old", "test.holder", "test.plain", "test.gone"]
    ∧ ∃ (offers : List (Offer Unit)) (between : State Unit),
      List.Forall₂ (fun op offer => Swept offers op offer.op)
        (postOrderAll busyModule.nested) offers
        ∧ s' = { between with replaced := .empty, erased := [] } := by
  have hswept : (runFrom (sweep busyPatterns {} busyModule)
    { context := .ofRegistry .standard, memory := () }).1.toOption
      = some busyModuleSwept := by decide +kernel
  generalize hrun : runFrom (sweep busyPatterns {} busyModule) _ = ending at hswept
  obtain ⟨result, s'⟩ := ending
  obtain rfl := eq_ok_of_toOption hswept
  obtain ⟨offers, -, between, -, -, hs', hoffers, -⟩ := sweep_postOrder rfl hrun
  exact ⟨s', hrun, rfl, offers, between, hoffers, hs'⟩

end Greedy

end DialectIR
