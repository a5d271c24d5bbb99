import DialectIR.Proofs.Rewriting

/-! What every match keeps, a run keeps: a property of operations that does not depend on their
operands, and one of the values that are used. -/

namespace DialectIR.Greedy

open Operation

variable {σ : Type}

/-- The operation has a property, and so have all values that it uses. -/
structure Meets (good : Head → Prop) (fit : Value → Prop) (head : Head) : Prop where
  good : good head
  fit : ∀ operand ∈ head.operands, fit operand

/-- What is known in a state: the definitions have the property, and so have the values that replace
others. -/
structure State.Tended (good : Head → Prop) (fit : Value → Prop) (s : State σ) : Prop where
  definitions : ∀ name op, s.definitions.get? name = some op → good op.toHead
    ∧ name ∈ op.resultNames
  replaced : ∀ name value, s.replaced.get? name = some value → fit value

/-- The property holds of all that a match leaves. -/
structure Match.Upheld (good : Head → Prop) (fit : Value → Prop) (m : Match) : Prop where
  inserted : ∀ head ∈ headsOfAll m.recording.inserted, Meets good fit head
  values : ∀ values, m.recording.action = some (.replace values) → ∀ value ∈ values, fit value
  update : ∀ new, m.recording.action = some (.update new) → ∀ head ∈ new.heads, Meets good fit head

/-- Matches keep the property where it holds. -/
def Upholds (patterns : FrozenPatterns σ) (config : Config) (good : Head → Prop)
    (fit : Value → Prop) (encounters : List (Encounter σ)) : Prop :=
  ∀ e ∈ encounters, (∀ head ∈ e.op.heads, Meets good fit head) → e.before.Tended good fit →
    ∀ m, e.match? patterns config = some m → m.Upheld good fit

variable {patterns : FrozenPatterns σ} {config : Config} {good : Head → Prop} {fit : Value → Prop}
  {op : Operation} {ops : List Operation} {visible : List String} {s s' : State σ}

theorem Upholds.append {encounters more : List (Encounter σ)} :
    Upholds patterns config good fit (encounters ++ more)
      ↔ Upholds patterns config good fit encounters ∧ Upholds patterns config good fit more :=
  List.forall_mem_append

theorem State.Tended.of_similar (h : s.Tended good fit) (hsimilar : s.Similar s') :
    s'.Tended good fit :=
  ⟨hsimilar.definitions ▸ h.definitions, hsimilar.replaced ▸ h.replaced⟩

theorem State.Tended.register (h : s.Tended good fit) (hop : good op.toHead) :
    (s.register op).Tended good fit where
  definitions name found hfound := by
    rcases get?_foldl_insert hfound with ⟨rfl, hname⟩ | hfound
    · exact ⟨hop, hname⟩
    · exact h.definitions name found hfound
  replaced := h.replaced

theorem State.Tended.registerAll (h : s.Tended good fit) (hops : ∀ op ∈ ops, good op.toHead) :
    (ops.foldl State.register s).Tended good fit := by
  induction ops generalizing s with
  | nil => exact h
  | cons op ops ih =>
      rw [List.forall_mem_cons] at hops
      exact ih (h.register hops.1) hops.2

theorem State.Tended.act (h : s.Tended good fit) (results : List Value) {action : Option Action}
    (hvalues : ∀ values, action = some (.replace values) → ∀ value ∈ values, fit value) :
    (s.act results action).Tended good fit := by
  rcases action with _ | (values | _ | new)
  · exact h
  · refine ⟨fun name found hfound => h.definitions name found (get?_foldl_erase hfound),
      fun name value hvalue => ?_⟩
    rcases get?_foldl_replace hvalue with ⟨pair, hpair, -, rfl⟩ | hvalue
    · exact hvalues values rfl pair.2 (List.of_mem_zip (List.mem_filter.1 hpair).1).2
    · exact h.replaced name value hvalue
  · exact ⟨fun name found hfound => h.definitions name found (get?_foldl_erase hfound), h.replaced⟩
  · exact h

theorem State.Tended.follow? (h : s.Tended good fit) {steps : Nat} {value last : Value}
    (hvalue : fit value) (hlast : s.replaced.follow? steps value = some last) : fit last := by
  induction steps generalizing value with
  | zero =>
      unfold Replacements.follow? at hlast
      split at hlast
      · cases hlast
        exact hvalue
      · cases hlast
      · cases ‹0 = _ + 1›
  | succ steps ih =>
      unfold Replacements.follow? at hlast
      cases hget : s.replaced.get? value.name with
      | none =>
          rw [hget] at hlast
          cases hlast
          exact hvalue
      | some next =>
          rw [hget] at hlast
          exact ih (h.replaced value.name next hget) hlast

section

variable (hgood : ∀ head f, good head → good (head.mapOperands f))

include hgood

theorem State.Tended.applyTo (h : s.Tended good fit)
    (hop : ∀ head ∈ op.heads, Meets good fit head) :
    ∀ head ∈ (s.replaced.applyTo op).heads, Meets good fit head := by
  rw [Replacements.applyTo, mapOperands, heads_mapHeads]
  intro head hhead
  obtain ⟨before, hbefore, rfl⟩ := List.mem_map.1 hhead
  refine ⟨hgood before _ (hop before hbefore).good, fun operand hoperand => ?_⟩
  obtain ⟨value, hvalue, rfl⟩ := List.mem_map.1 hoperand
  have hfit := (hop before hbefore).fit value hvalue
  cases hresolve : s.replaced.resolve? value with
  | none => exact hfit
  | some last => exact h.follow? hfit hresolve

theorem ensures_substitute_tended (h : s.Tended good fit)
    (hop : ∀ head ∈ op.heads, Meets good fit head) :
    Ensures (substitute op) s (fun op' s' => (∀ head ∈ op'.heads, Meets good fit head)
      ∧ s'.Tended good fit) fun _ _ => True := by
  refine .of_forall_returns fun op' s' hreturns => ?_
  obtain ⟨rfl, rfl | rfl⟩ := returns_substitute hreturns
  · exact ⟨hop, h⟩
  · exact ⟨h.applyTo hgood hop, h⟩

theorem ensures_finish_tended (h : s.Tended good fit)
    (hop : ∀ head ∈ op.heads, Meets good fit head) :
    Ensures (finish op) s (fun op' s' => (∀ head ∈ op'.heads, Meets good fit head)
      ∧ s'.Tended good fit) fun _ _ => True := by
  refine .of_forall_returns fun op' s' hreturns => ?_
  obtain ⟨hop', rfl⟩ := returns_finish hreturns
  have hfinished : State.Tended good fit { s with replaced := .empty, erased := [] } := by
    refine ⟨h.definitions, fun name value hget => ?_⟩
    rw [Dict.get?_empty] at hget
    cases hget
  rcases hop' with rfl | rfl
  · exact ⟨hop, hfinished⟩
  · exact ⟨h.applyTo hgood hop, hfinished⟩

end

/-! ### Visits -/

variable {within : Operation → Step σ Operation}
  {inside : List String → Operation → State σ → List (Encounter σ)}

/-- Visiting what an operation holds keeps the property. -/
def TendsWithin (patterns : FrozenPatterns σ) (config : Config) (good : Head → Prop)
    (fit : Value → Prop) (within : Operation → Step σ Operation)
    (inside : List String → Operation → State σ → List (Encounter σ)) : Prop :=
  ∀ (visible : List String) (op : Operation) (s : State σ),
    Upholds patterns config good fit (inside visible op s) →
    (∀ head ∈ op.heads, Meets good fit head) → s.Tended good fit →
    Ensures (within op) s (fun op' s' => (∀ head ∈ op'.heads, Meets good fit head)
      ∧ s'.Tended good fit) fun _ _ => True

theorem TendsWithin.ensures_ite (hwithin : TendsWithin patterns config good fit within inside)
    (condition : Bool)
    (hupholds : Upholds patterns config good fit (if condition then inside visible op s else []))
    (hop : ∀ head ∈ op.heads, Meets good fit head) (h : s.Tended good fit) :
    Ensures (if condition then within op else pure op) s
      (fun op' s' => (∀ head ∈ op'.heads, Meets good fit head) ∧ s'.Tended good fit)
        fun _ _ => True := by
  cases condition with
  | true => exact hwithin visible op s hupholds hop h
  | false => exact ⟨hop, h⟩

theorem ensures_settle_tended (hwithin : TendsWithin patterns config good fit within inside)
    {inserted : List Operation}
    (hupholds : Upholds patterns config good fit (if config.topDown then inside visible op s else []))
    (hinserted : ∀ head ∈ headsOfAll inserted, Meets good fit head)
    (hop : ∀ head ∈ op.heads, Meets good fit head) (h : s.Tended good fit) :
    Ensures (visit.settle config within inserted op) s
      (fun out s' => (∀ head ∈ headsOfAll out, Meets good fit head) ∧ s'.Tended good fit)
        fun _ _ => True := by
  rw [settle_eq]
  apply (hwithin.ensures_ite config.topDown hupholds hop h).bind
  rintro op' s' _ ⟨hop', h'⟩
  refine ⟨?_, h'.register (hop' op'.toHead (heads_eq op' ▸ List.mem_cons_self)).good⟩
  rw [headsOfAll_append, headsOfAll_singleton]
  exact List.forall_mem_append.2 ⟨hinserted, hop'⟩

theorem heads_of_stays {m : Match} {kept : Operation} (hstays : stays? m.op m.recording = some kept)
    (hupheld : m.Upheld good fit) (hop : ∀ head ∈ m.op.heads, Meets good fit head) :
    ∀ head ∈ kept.heads, Meets good fit head := by
  unfold stays? at hstays
  split at hstays
  next => cases hstays
  next => cases hstays
  next haction =>
    cases hstays
    exact hupheld.update kept haction
  next =>
    cases hstays
    exact hop

/-- The changes of a match that keeps the property. -/
theorem ensures_commit_tended (hwithin : TendsWithin patterns config good fit within inside)
    {m : Match}
    (hupholds : Upholds patterns config good fit
      (innerEncounters config inside visible m.op m.recording s))
    (hupheld : m.Upheld good fit) (hop : ∀ head ∈ m.op.heads, Meets good fit head)
    (h : s.Tended good fit) :
    Ensures (commit config within m.op m.recording) s
      (fun out s' => (∀ head ∈ headsOfAll out, Meets good fit head) ∧ s'.Tended good fit)
        fun _ _ => True := by
  have hregister : ∀ op ∈ m.recording.inserted, good op.toHead :=
    fun op hinserted => (hupheld.inserted op.toHead (toHead_mem_headsOfAll hinserted)).good
  have hregistered := h.registerAll hregister
  unfold innerEncounters at hupholds
  unfold commit
  rw [Ensures.modify_bind_iff]
  cases hstays : stays? m.op m.recording with
  | none => exact ⟨hupheld.inserted, hregistered.act m.op.results hupheld.values⟩
  | some kept =>
      rw [hstays] at hupholds
      rw [act_of_stays hstays]
      exact ensures_settle_tended hwithin hupholds hupheld.inserted
        (heads_of_stays hstays hupheld hop) hregistered

theorem ensures_match_tended (hwithin : TendsWithin patterns config good fit within inside)
    (depth : Nat)
    (hupholds : Upholds patterns config good fit
      (encountersFrom patterns config inside depth visible op s))
    (hop : ∀ head ∈ op.heads, Meets good fit head) (h : s.Tended good fit) :
    Ensures (applyPatterns patterns config depth op >>= fun recording? =>
      commit config within op (recording?.getD {})) s
      (fun out s' => (∀ head ∈ headsOfAll out, Meets good fit head) ∧ s'.Tended good fit)
        fun _ _ => True := by
  refine Ensures.bind (.of_forall_returns fun _ _ hreturns => hreturns)
    fun recording? s' hreturns _ => ?_
  have htended := h.of_similar
    ((ensures_applyPatterns patterns config visible depth op s).of_returns hreturns).similar
  have hfrom := encountersFrom_of_returns inside visible hreturns
  rw [hfrom, Upholds.append] at hupholds
  have hmatch : ∃ m : Match, m.op = op ∧ m.recording = recording?.getD {} ∧ m.Upheld good fit := by
    cases recording? with
    | none => exact ⟨⟨visible, op, [], {}⟩, rfl, rfl, nofun, nofun, nofun⟩
    | some recording =>
        have hmatch : Encounter.match? patterns config ⟨visible, depth, op, s⟩
            = some ⟨visible, op, drawnBy depth op (patterns.patternsFor op.name) s, recording⟩ :=
          match?_of_returns patterns config hreturns
        exact ⟨_, rfl, rfl, hupholds.1 _ List.mem_cons_self hop h _ hmatch⟩
  obtain ⟨m, rfl, hrecording, hupheld⟩ := hmatch
  rw [← hrecording] at hupholds ⊢
  exact ensures_commit_tended hwithin hupholds.2 hupheld hop htended

section

variable (hgood : ∀ head f, good head → good (head.mapOperands f))

include hgood

theorem ensures_visit_tended (hwithin : TendsWithin patterns config good fit within inside)
    (depth : Nat)
    (hupholds : Upholds patterns config good fit
      (visitEncounters patterns config within inside depth visible op s))
    (hop : ∀ head ∈ op.heads, Meets good fit head) (h : s.Tended good fit) :
    Ensures (visit patterns config within depth op) s
      (fun out s' => (∀ head ∈ headsOfAll out, Meets good fit head) ∧ s'.Tended good fit)
        fun _ _ => True := by
  rw [visit_eq]
  apply (ensures_substitute_tended hgood h hop).bind
  rintro op₁ s₁ hreturns₁ ⟨hop₁, h₁⟩
  rw [visitEncounters_eq, afterwards_of_returns hreturns₁, Upholds.append] at hupholds
  apply (hwithin.ensures_ite _ hupholds.1 hop₁ h₁).bind
  rintro op₂ s₂ hreturns₂ ⟨hop₂, h₂⟩
  rw [afterwards_of_returns hreturns₂] at hupholds
  exact ensures_match_tended hwithin depth hupholds.2 hop₂ h₂

theorem ensures_visitAll_tended (hwithin : TendsWithin patterns config good fit within inside)
    (depth : Nat)
    (hupholds : Upholds patterns config good fit
      (visitAllEncounters patterns config within inside depth visible ops s))
    (hops : ∀ head ∈ headsOfAll ops, Meets good fit head) (h : s.Tended good fit) :
    Ensures (visitAll patterns config within depth ops) s
      (fun out s' => (∀ head ∈ headsOfAll out, Meets good fit head) ∧ s'.Tended good fit)
        fun _ _ => True := by
  induction ops generalizing visible s with
  | nil => exact ⟨List.forall_mem_nil _, h⟩
  | cons op ops ih =>
      rw [visitAllEncounters, Upholds.append] at hupholds
      rw [headsOfAll, List.forall_mem_append] at hops
      apply (ensures_visit_tended hgood hwithin depth hupholds.1 hops.1 h).bind
      rintro first s₁ hreturns ⟨hfirst, h₁⟩
      rw [afterwards_of_returns hreturns] at hupholds
      apply (ih hupholds.2 hops.2 h₁).bind
      rintro rest s₂ _ ⟨hrest, h₂⟩
      refine ⟨?_, h₂⟩
      rw [headsOfAll_append]
      exact List.forall_mem_append.2 ⟨hfirst, hrest⟩

theorem tendsWithin_visitRegion (levels depth : Nat) :
    TendsWithin patterns config good fit (visitRegion patterns config levels depth)
      (regionEncounters patterns config levels depth) := by
  induction levels generalizing depth with
  | zero =>
      rintro visible ⟨head, _ | ops⟩ s _ hop h
      · exact ⟨hop, h⟩
      · trivial
  | succ levels ih =>
      rintro visible ⟨head, _ | ops⟩ s hupholds hop h
      · unfold visitRegion
        exact ⟨hop, h⟩
      · unfold visitRegion
        rw [heads, List.forall_mem_cons] at hop
        apply (ensures_visitAll_tended hgood (ih (depth + 1)) depth hupholds hop.2 h).bind
        rintro out s' _ ⟨hout, h'⟩
        exact ⟨List.forall_mem_cons.2 ⟨hop.1, hout⟩, h'⟩

/-- **What every match keeps, a sweep keeps.** -/
theorem ensures_sweep_tended
    (hupholds : Upholds patterns config good fit (sweepEncounters patterns config op s))
    (hop : ∀ head ∈ op.heads, Meets good fit head)
    (h : ∀ name value, s.replaced.get? name = some value → fit value) :
    Ensures (sweep patterns config op) s
      (fun op' s' => (∀ head ∈ op'.heads, Meets good fit head) ∧ s'.Tended good fit)
      fun _ _ => True := by
  rw [sweep_eq, Ensures.modify_bind_iff]
  have hstart : State.Tended good fit { s with definitions := .empty } := by
    refine ⟨fun name found hget => ?_, h⟩
    rw [Dict.get?_empty] at hget
    cases hget
  have hregion : TendsWithin patterns config good fit
    (visitRegion patterns config (op.height + spareLevels) 0)
      (regionEncounters patterns config (op.height + spareLevels) 0) :=
        tendsWithin_visitRegion hgood _ 0
  apply (hregion [] op _ hupholds hop hstart).bind
  rintro op₁ s₁ _ ⟨hop₁, h₁⟩
  exact ensures_finish_tended hgood h₁ hop₁

theorem ensures_iterate_tended (remaining iteration : Nat) {progress : Progress}
    (hupholds : Upholds patterns config good fit
      (iterateEncounters patterns config remaining iteration progress.root s))
    (hroot : ∀ head ∈ progress.root.heads, Meets good fit head) (h : s.Tended good fit) :
    Ensures (iterate patterns config remaining iteration progress) s
      (fun progress' _ => ∀ head ∈ progress'.root.heads, Meets good fit head) fun _ _ => True := by
  induction remaining generalizing iteration progress s with
  | zero => exact hroot
  | succ remaining ih =>
      rw [iterate_eq, Ensures.get_bind_iff]
      unfold iterateEncounters at hupholds
      split
      · exact hroot
      next hlimit =>
        rw [if_neg hlimit, Upholds.append] at hupholds
        rw [Ensures.modify_bind_iff, Ensures.get_bind_iff]
        have hnoted : (s.note (.iteration iteration progress.root.name.text)).Tended good fit :=
          ⟨h.definitions, h.replaced⟩
        have hswept : Ensures (sweep patterns config progress.root >>= removeDead config)
            (s.note (.iteration iteration progress.root.name.text))
            (fun swept s' => (∀ head ∈ swept.1.heads, Meets good fit head) ∧ s'.Tended good fit)
              fun _ _ => True := by
          apply (ensures_sweep_tended hgood hupholds.1 hroot hnoted.replaced).bind
          rintro root s' _ ⟨hswept, h'⟩
          refine .of_forall_returns fun removed s'' hreturns => ?_
          rcases returns_removeDead hreturns with ⟨rfl, rfl⟩ | ⟨rfl, rfl⟩
          · refine ⟨fun head hhead => hswept head ?_, h'.definitions, h'.replaced⟩
            exact (heads_removeDeadOps s'.context root).subset hhead
          · exact ⟨hswept, h'⟩
        apply hswept.bind
        rintro swept s' hreturns ⟨hroot', h'⟩
        obtain ⟨root, removed⟩ := swept
        rw [afterwards_of_returns hreturns] at hupholds
        rw [Ensures.get_bind_iff]
        show Ensures (if s'.rewrites = s.rewrites && removed = 0 then _ else _) s' _ _
        by_cases hstop : (s'.rewrites = s.rewrites && removed = 0) = true
        · rw [if_pos hstop]
          exact hroot'
        · have hrest := hupholds.2
          dsimp only at hrest
          rw [if_neg hstop] at hrest ⊢
          exact ih (iteration + 1) hrest hroot' h'

end

theorem toHead_of_returns_visitRegion {levels depth : Nat} {op' : Operation}
    (h : Returns (visitRegion patterns config levels depth op) s op' s') :
    op'.toHead = op.toHead := by
  obtain ⟨head, _ | ops⟩ := op
  · unfold visitRegion at h
    obtain ⟨rfl, -⟩ := Returns.pure_iff.1 h
    rfl
  · cases levels with
    | zero => exact absurd h Returns.throw_iff
    | succ levels =>
        unfold visitRegion at h
        obtain ⟨out, s₁, -, h⟩ := Returns.bind_iff.1 h
        obtain ⟨rfl, -⟩ := Returns.pure_iff.1 h
        rfl

theorem toHead_of_returns_swept {swept : Operation × Nat}
    (h : Returns (sweep patterns config op >>= removeDead config) s swept s') :
    ∃ f, swept.1.toHead = op.toHead.mapOperands f := by
  rw [sweep_eq] at h
  obtain ⟨root, s₁, hsweep, hremove⟩ := Returns.bind_iff.1 h
  rw [Returns.modify_bind_iff] at hsweep
  obtain ⟨op₁, s₂, hregion, hfinish⟩ := Returns.bind_iff.1 hsweep
  have hroot : ∃ f, root.toHead = op.toHead.mapOperands f := by
    rw [← toHead_of_returns_visitRegion hregion]
    obtain ⟨rfl | rfl, -⟩ := returns_finish hfinish
    · exact ⟨id, by rw [Head.mapOperands, List.map_id]⟩
    · exact ⟨_, toHead_mapHeads _ _⟩
  rcases returns_removeDead hremove with ⟨rfl, -⟩ | ⟨rfl, -⟩
  · have hprune (op : Operation) (other : Context) (_ : s₁.context.SameDialects other)
      (hop : op.toHead = root.toHead) :
        (op.prune (other.isDead op.usedNames)).toHead = root.toHead := by
      rw [toHead_prune, hop]
    rw [(removeDeadOps_induction s₁.context hprune rfl).1]
    exact hroot
  · exact hroot

/-- A run keeps the operation that holds everything, but for the values that it uses. -/
theorem toHead_of_returns_iterate {remaining iteration : Nat} {progress progress' : Progress}
    (h : Returns (iterate patterns config remaining iteration progress) s progress' s') :
    ∃ f, progress'.root.toHead = progress.root.toHead.mapOperands f := by
  have hrefl (head : Head) : ∃ f, head = head.mapOperands f :=
    ⟨id, by rw [Head.mapOperands, List.map_id]⟩
  induction remaining generalizing iteration progress s with
  | zero =>
      obtain ⟨rfl, -⟩ := Returns.pure_iff.1 h
      exact hrefl _
  | succ remaining ih =>
      rw [iterate_eq, Returns.get_bind_iff] at h
      split at h
      · obtain ⟨rfl, -⟩ := Returns.pure_iff.1 h
        exact hrefl _
      · rw [Returns.modify_bind_iff, Returns.get_bind_iff] at h
        obtain ⟨⟨root, removed⟩, s₁, hswept, h⟩ := Returns.bind_iff.1 h
        rw [Returns.get_bind_iff] at h
        obtain ⟨f, hroot⟩ : ∃ f, root.toHead = progress.root.toHead.mapOperands f :=
          toHead_of_returns_swept hswept
        dsimp only at h
        split at h
        · obtain ⟨rfl, -⟩ := Returns.pure_iff.1 h
          exact ⟨f, hroot⟩
        · obtain ⟨g, hrest⟩ := ih h
          exact ⟨g ∘ f, by
            rw [hrest, hroot, Head.mapOperands, Head.mapOperands, Head.mapOperands, List.map_map]⟩

theorem name_of_returns_iterate {remaining iteration : Nat} {progress progress' : Progress}
    (h : Returns (iterate patterns config remaining iteration progress) s progress' s') :
    progress'.root.name = progress.root.name := by
  obtain ⟨f, hroot⟩ := toHead_of_returns_iterate h
  rw [hroot, Head.mapOperands]

end DialectIR.Greedy
