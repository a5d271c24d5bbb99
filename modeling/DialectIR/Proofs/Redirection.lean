import DialectIR.Proofs.Redirected

/-! Where the uses of replaced results lead to. A sweep leaves what its matches insert and keeps the
rest of the tree, with all uses redirected to the values that were asked for. Replacements are kept
by name, so that this fails where a value has the name of another result that is replaced. -/

namespace DialectIR.Greedy

open Operation

variable {σ : Type} {patterns : FrozenPatterns σ} {config : Config}
  {old new drawn drawn' : List String} {op : Operation}
  {out : List Operation} {ms ms' : List Match} {s s' s'' : State σ}

theorem tracks_replace {m : Match} {values : List Value}
    (h : Entry (new ++ s.erasedNames) new [m.op] (m.drawn ++ drawn') s)
    (hsound : m.SoundIn (new ++ s.erasedNames))
    (haction : m.recording.action = some (.replace values)) (hsuits : m.recording.Suits m.op) :
    Tracks (claimed [m.op] (m.drawn ++ drawn'))
      (sight new [m.op] (m.drawn ++ drawn') s) m.redirects s
      (s.replace m.op.results values) := by
  have hexit := exit_of_replace h hsound haction hsuits
  have hlength := hsuits.length_eq haction
  have hredirects : m.redirects = m.op.results.zip values := by rw [Match.redirects, haction]
  rw [hredirects]
  have hvisible {pair : Value × Value} (hpair : pair ∈ m.op.results.zip values) :=
    hsound.values values haction pair.2 (List.of_mem_zip hpair).2
  have hown {pair : Value × Value} (hpair : pair ∈ m.op.results.zip values) : pair.1.name
    ∈ m.op.resultNames :=
    List.mem_map_of_mem (List.of_mem_zip hpair).1
  refine ⟨fun pair hpair => ?_, fun pair hpair => ?_, fun pair hpair => ?_, fun pair hpair => ?_,
    fun name hname => ?_⟩
  · exact resultNames_subset_claimed [m.op] _
      (List.mem_flatMap.2 ⟨m.op, List.mem_cons_self, hown hpair⟩)
  · rcases mem_visibleAfter.1 (hvisible hpair) with hinserted | hbefore
    · exact List.mem_append_right _ (hexit.names (resultNames_subset_definedNamesOfAll _ hinserted))
    · exact List.mem_append_left _ hbefore
  · exact get?_replace h.nodup_results hlength hpair (h.unused_of_result (hown hpair)).replaced
  · apply hexit.linked.final
    have hvalue := hvisible hpair
    rw [visibleAfter_append_left] at hvalue
    exact hvalue
  · refine get?_replace_of_not_mem fun hmem => ?_
    obtain ⟨pair, hpair, heq⟩ := exists_mem_zip hlength hmem
    exact hname pair hpair heq

/-- What a match replaces that does not keep its operation. -/
theorem tracks_of_gone {m : Match}
    (h : Entry (new ++ s.erasedNames) new [m.op] (m.drawn ++ drawn') s)
    (hsound : m.SoundIn (new ++ s.erasedNames)) (hsuits : m.recording.Suits m.op)
    (hgone : stays? m.op m.recording = none) :
    Tracks (claimed [m.op] (m.drawn ++ drawn')) (sight new [m.op] (m.drawn ++ drawn') s)
      m.redirects s (s.act m.op.results m.recording.action) := by
  unfold stays? at hgone
  split at hgone
  next values haction =>
    rw [haction]
    exact tracks_replace h hsound haction hsuits
  next haction =>
    have hnone : m.redirects = [] := by rw [Match.redirects, haction]
    rw [haction, hnone]
    exact .nil rfl
  next => cases hgone
  next => cases hgone

/-- An operation that stays, behind what a match inserts if there is one. -/
theorem redirected_stays {m : Match} {kept op' source : Operation} {before inner : List Match}
    {lookup : Value → Value} (hms : ms = [m] ∨ ms = [] ∧ m.recording = {})
    (hstays : stays? m.op m.recording = some kept) (hhead : op'.toHead = kept.toHead)
    (hmet : m.op.toHead = source.toHead.mapOperands lookup)
    (hregion : op'.region.isSome = source.region.isSome)
    (hnested : Redirected lookup (before ++ (ms ++ inner)) source.nested op'.nested) :
    Redirected lookup (before ++ (ms ++ inner)) [source] (m.recording.inserted ++ [op']) := by
  rcases hms with rfl | ⟨rfl, hnothing⟩
  · exact .stays (List.mem_append_right _ List.mem_cons_self) hmet hstays hhead hregion hnested .nil
  · rw [hnothing] at hstays ⊢
    cases hstays
    exact .kept (hhead.trans hmet) hregion hnested .nil

/-- What is replaced and left where a match is committed. What the operation holds is done before or
comes `later`. -/
structure RedirectsFrom (later : Bool) (new : List String) (op : Operation)
    (drawn : List String) (s : State σ)
    (ms : List Match) (out : List Operation) (s' : State σ) : Prop where
  tracks : Tracks (claimed [op] drawn) (sight new [op] drawn s) (ms.flatMap Match.redirects) s s'
  tree : ∀ replaced : Replacements,
    (∀ name ∈ sight new [op] drawn s, replaced.get? name = s'.replaced.get? name) →
    ∀ (before : List Match) (source : Operation), op.toHead
      = source.toHead.mapOperands replaced.lookup → source.region.isSome = op.region.isSome →
      (if later then source.nested = op.nested
        else Redirected replaced.lookup before source.nested op.nested) →
      Redirected replaced.lookup (before ++ ms) [source] out

theorem sight_congr (h : s.Agrees s') (new : List String) (ops : List Operation)
    (drawn : List String) :
    sight new ops drawn s' = sight new ops drawn s := by
  rw [sight, h.erasedNames, sight]

theorem RedirectsFrom.congr {later : Bool} {t t' : State σ}
    (h : RedirectsFrom later new op drawn s ms out s') (hs : t.Agrees s) (hs' : s'.Agrees t') :
    RedirectsFrom later new op drawn t ms out t' := by
  obtain ⟨htracks, htree⟩ := h
  rw [sight_congr hs] at htracks htree
  exact ⟨htracks.congr hs hs', fun replaced hreplaced => htree replaced (hs'.1 ▸ hreplaced)⟩

/-! ### Visits -/

variable (patterns config)

/-- Visiting what an operation holds, through a number of levels, redirects uses. -/
def RedirectsInto (levels : Nat) (within : Operation → Step σ Operation)
    (inside : List String → Operation → State σ → List (Encounter σ)) : Prop :=
  ∀ (new : List String) (op op' : Operation) (s s' : State σ), op.height ≤ levels →
    Sound patterns config (inside new op s) →
    Entry (new ++ s.erasedNames) new op.nested (drawnIn patterns config (inside new op s)) s →
      Returns (within op) s op' s' →
    op'.region.isSome = op.region.isSome
      ∧ Redirects (new ++ s.erasedNames) new op.nested (drawnIn patterns config (inside new op s)) s
        (matchesIn patterns config (inside new op s)) op'.nested s'

variable {patterns config} {levels : Nat} {within : Operation → Step σ Operation}
  {inside : List String → Operation → State σ → List (Encounter σ)}

/-- Visiting what an operation holds, or leaving it for later. -/
theorem RedirectsInto.of_ite {op' : Operation}
    (hinto : RedirectsInto patterns config levels within inside) (condition : Bool)
    (hheight : condition = true → op.height ≤ levels)
    (hsound : Sound patterns config (if condition then inside new op s else []))
    (h : Entry (new ++ s.erasedNames) new [op]
      (drawnIn patterns config (if condition then inside new op s else [])) s)
    (hreturns : Returns (if condition then within op else pure op) s op' s') :
    op'.region.isSome = op.region.isSome
      ∧ Redirects (new ++ s.erasedNames) new op.nested
        (drawnIn patterns config (if condition then inside new op s else [])) s
        (matchesIn patterns config (if condition then inside new op s else [])) op'.nested s' := by
  cases condition with
  | true => exact hinto new op op' s s' (hheight rfl) hsound h.nested hreturns
  | false =>
      obtain ⟨rfl, rfl⟩ := Returns.pure_iff.1 hreturns
      exact ⟨rfl, .refl h.nested⟩

/-- The operation that stays behind what was inserted. -/
theorem redirects_settle (hwalks : WalksInto patterns config levels within inside)
    (hinto : RedirectsInto patterns config levels within inside) {inserted : List Operation}
    {kept : Operation} (hheight : config.topDown = true → kept.height ≤ levels)
    (hsound : Sound patterns config (if config.topDown
      then inside (visibleAfter new inserted) kept s else []))
    (h : Entry (new ++ s.erasedNames) new (inserted ++ [kept])
      (drawnIn patterns config (if config.topDown
        then inside (visibleAfter new inserted) kept s else [])) s)
    (hreturns : Returns (visit.settle config within inserted kept) s out s') :
    ∃ op', out = inserted ++ [op'] ∧ op'.toHead = kept.toHead
      ∧ op'.region.isSome = kept.region.isSome
      ∧ (config.topDown = false → op' = kept)
      ∧ Redirects (visibleAfter new inserted ++ s.erasedNames)
        (visibleAfter new inserted) kept.nested
        (drawnIn patterns config (if config.topDown
          then inside (visibleAfter new inserted) kept s else [])) s
        (matchesIn patterns config (if config.topDown then inside (visibleAfter new inserted) kept s
          else [])) op'.nested s' := by
  have hentry : Entry (new ++ s.erasedNames) new (inserted ++ [kept]) ([] ++
      drawnIn patterns config (if config.topDown then inside (visibleAfter new inserted) kept s
        else [])) s := h
  have hkept := hentry.right (Exit.refl hentry.left)
  rw [visibleAfter_append_left] at hkept
  rw [settle_eq] at hreturns
  obtain ⟨op', s₁, hwithin, hreturns⟩ := Returns.bind_iff.1 hreturns
  rw [Returns.modify_bind_iff] at hreturns
  obtain ⟨rfl, rfl⟩ := Returns.pure_iff.1 hreturns
  obtain ⟨hhead, -⟩ := (hwalks.ensures_ite config.topDown hheight hsound hkept).of_returns hwithin
  obtain ⟨hregion, hredirects⟩ := hinto.of_ite config.topDown hheight hsound hkept hwithin
  refine ⟨op', rfl, hhead, hregion, fun hbottomUp => ?_,
    hredirects.tracks.congr ⟨rfl, rfl⟩ ⟨rfl, rfl⟩, hredirects.tree⟩
  rw [hbottomUp] at hwithin
  exact (Returns.pure_iff.1 hwithin).1

/-- The changes of a match, or none. -/
theorem redirects_commit (hwalks : WalksInto patterns config levels within inside)
    (hinto : RedirectsInto patterns config levels within inside) {m : Match}
    (hms : ms = [m] ∨ ms = [] ∧ m.recording = {})
    (hheight : config.topDown = true → m.op.height ≤ levels)
    (hvalid : m.SoundIn (new ++ s.erasedNames)) (hsuits : m.recording.Suits m.op)
    (hsound : Sound patterns config (innerEncounters config inside new m.op m.recording s))
    (h : Entry (new ++ s.erasedNames) new [m.op]
      (m.drawn ++ drawnIn patterns config (innerEncounters config inside new m.op m.recording s)) s)
    (hreturns : Returns (commit config within m.op m.recording) s out s') :
    RedirectsFrom config.topDown new m.op
      (m.drawn ++ drawnIn patterns config (innerEncounters config inside new m.op m.recording s)) s
      (ms ++ matchesIn patterns config (innerEncounters config inside new m.op m.recording s)) out
        s' := by
  generalize hregistered : m.recording.inserted.foldl State.register s = s₁
  have hagrees : s.Agrees s₁ := hregistered ▸ agrees_register m.recording.inserted s
  refine RedirectsFrom.congr (s := s₁) ?_ hagrees ⟨rfl, rfl⟩
  have hentry := h.congr hagrees
  rw [← hagrees.erasedNames] at hentry hvalid
  have hredirects : ms.flatMap Match.redirects = m.redirects := by
    rcases hms with rfl | ⟨rfl, hnothing⟩
    · exact List.flatMap_singleton _ _
    · rw [Match.redirects, hnothing]
      rfl
  unfold commit at hreturns
  rw [Returns.modify_bind_iff, hregistered] at hreturns
  unfold innerEncounters at hsound hentry ⊢
  rw [hregistered] at hsound hentry ⊢
  cases hstays : stays? m.op m.recording with
  | none =>
      rw [hstays] at hreturns hentry
      obtain ⟨rfl, rfl⟩ := Returns.pure_iff.1 hreturns
      have hmem : m ∈ ms := by
        rcases hms with rfl | ⟨-, hnothing⟩
        · exact List.mem_singleton_self m
        · rw [hnothing] at hstays
          cases hstays
      rw [matchesIn, List.filterMap_nil, List.append_nil]
      refine ⟨?_, fun replaced _ before source hmet _ _ => ?_⟩
      · rw [hredirects]
        exact tracks_of_gone hentry hvalid hsuits hstays
      · rw [← List.append_nil m.recording.inserted]
        exact .gone (List.mem_append_right _ hmem) hmet hstays .nil
  | some kept =>
      rw [hstays] at hreturns hentry hsound
      obtain ⟨hinserted, hclaimed, -, hregion⟩ := entry_of_stays hentry hvalid hsuits hstays
      rw [act_of_stays hstays] at hreturns
      rw [← height_of_region hregion] at hheight
      obtain ⟨op', rfl, hhead, hregion', hbottomUp, htracks, htree⟩ :=
        redirects_settle hwalks hinto hheight hsound hinserted hreturns
      have hnested : kept.nested = m.op.nested := by
        rw [Operation.nested, hregion, Operation.nested]
      rw [hnested] at htracks htree
      have hown := claimed_nested_subset m.op (List.subset_append_right m.drawn
        (drawnIn patterns config (if config.topDown
          then inside (visibleAfter new m.recording.inserted) kept s₁ else [])))
      have hvisible {name : String}
        (hname : name ∈ visibleAfter new m.recording.inserted ++ s₁.erasedNames) :
          name ∈ sight new [m.op] (m.drawn ++ drawnIn patterns config
            (if config.topDown then inside (visibleAfter new m.recording.inserted) kept s₁ else []))
              s₁ := by
        rw [List.mem_append, mem_visibleAfter, or_assoc, ← List.mem_append] at hname
        refine hname.elim (fun hresult => List.mem_append_right _ (hclaimed ?_))
          (List.mem_append_left _)
        rw [mem_claimed, definedNamesOfAll_append]
        exact .inl (List.mem_append_left _ (resultNames_subset_definedNamesOfAll _ hresult))
      refine ⟨?_, fun replaced hreplaced before source hmet hsource hsourceNested => ?_⟩
      · rw [List.flatMap_append, hredirects, Match.redirects_of_stays hstays, List.nil_append]
        refine htracks.mono hown fun name hname => ?_
        exact (List.mem_append.1 hname).elim hvisible fun hmem =>
          List.mem_append_right _ (hown hmem)
      · have hinside := htree replaced fun name hname => by
          refine hreplaced name ((List.mem_append.1 hname).elim hvisible fun hmem => ?_)
          exact (List.mem_append.1 hmem).elim hvisible fun hinside =>
            List.mem_append_right _ (hown hinside)
        generalize matchesIn patterns config _ = inner at hinside ⊢
        have hdone : Redirected replaced.lookup (before ++ (ms ++ inner)) source.nested
          op'.nested := by
          cases htopDown : config.topDown with
          | true =>
              rw [htopDown, if_pos rfl] at hsourceNested
              rw [hsourceNested]
              exact hinside.mono
                (List.Subset.trans (List.subset_append_right _ _) (List.subset_append_right _ _))
          | false =>
              rw [htopDown, if_neg Bool.false_ne_true] at hsourceNested
              rw [hbottomUp htopDown, hnested]
              exact hsourceNested.mono (List.subset_append_left _ _)
        have hregions : op'.region.isSome = source.region.isSome := by
          rw [hregion', hregion, hsource]
        exact redirected_stays hms hstays hhead hmet hregions hdone

/-- Trying patterns and committing the match. -/
theorem redirects_match (hwalks : WalksInto patterns config levels within inside)
    (hinto : RedirectsInto patterns config levels within inside) (depth : Nat)
    (hheight : config.topDown = true → op.height ≤ levels)
    (hsound : Sound patterns config (encountersFrom patterns config inside depth new op s))
    (h : Entry (new ++ s.erasedNames) new [op]
      (drawnIn patterns config (encountersFrom patterns config inside depth new op s)) s)
    (hreturns : Returns (applyPatterns patterns config depth op >>= fun recording? =>
      commit config within op (recording?.getD {})) s out s') :
    RedirectsFrom config.topDown new op
      (drawnIn patterns config (encountersFrom patterns config inside depth new op s)) s
      (matchesIn patterns config (encountersFrom patterns config inside depth new op s)) out
        s' := by
  obtain ⟨recording?, s₁, htry, hcommit⟩ := Returns.bind_iff.1 hreturns
  have htried := (ensures_applyPatterns patterns config new depth op s).of_returns htry
  have hagrees := htried.similar.agrees
  have hfrom := encountersFrom_of_returns inside new htry
  rw [hfrom, Sound.append] at hsound
  rw [hfrom, drawnIn_append] at h
  rw [hfrom, drawnIn_append, matchesIn_append]
  refine RedirectsFrom.congr (s := s₁) ?_ hagrees ⟨rfl, rfl⟩
  have hentry := h.congr hagrees
  rw [← hagrees.erasedNames] at hentry
  cases recording? with
  | none =>
      have hmatches : matchesIn patterns config [⟨new, depth, op, s⟩] = [] :=
        matchesIn_of_returns patterns config htry
      rw [hmatches]
      have hnothing : Match.SoundIn ⟨new, op, drawnIn patterns config [⟨new, depth, op, s⟩], {}⟩
        (new ++ s₁.erasedNames) :=
        .none _ _ _ _
      exact redirects_commit hwalks hinto (.inr ⟨rfl, rfl⟩) hheight hnothing nofun hsound.2
        hentry hcommit
  | some recording =>
      have hmatch : Encounter.match? patterns config ⟨new, depth, op, s⟩
          = some ⟨new, op, drawnBy depth op (patterns.patternsFor op.name) s, recording⟩ :=
        match?_of_returns patterns config htry
      generalize hm : Match.mk new op (drawnBy depth op (patterns.patternsFor op.name) s)
        recording = m at hmatch
      have hmatches : matchesIn patterns config [⟨new, depth, op, s⟩] = [m] :=
        hm ▸ matchesIn_of_returns patterns config htry
      have hdrawn : drawnIn patterns config [⟨new, depth, op, s⟩] = m.drawn :=
        hm ▸ drawnIn_of_returns patterns config htry
      have hvalid := hsound.1 _ List.mem_cons_self (scopedAll_singleton.1 h.uses) m hmatch
      rw [← hagrees.erasedNames] at hvalid
      subst hm
      rw [hdrawn] at hentry ⊢
      rw [hmatches]
      exact redirects_commit hwalks hinto (.inl rfl) hheight hvalid (htried.suits recording rfl)
        hsound.2 hentry hcommit

/-- What an operation holds has nothing to do with its own results. -/
theorem Entry.not_mem_sight (h : Entry (new ++ s.erasedNames) new [op] (drawn ++ drawn') s)
    {name : String} (hname : name ∈ op.resultNames) : name ∉ sight new op.nested drawn s := by
  have hunused := h.unused_of_result hname
  intro hmem
  rcases List.mem_append.1 hmem with hmem | hinside
  · exact (List.mem_append.1 hmem).elim hunused.new hunused.erased
  · have hnodup := h.nodup
    rw [claimed_nested] at hnodup
    refine (List.nodup_append.1 hnodup).2.2 name hname name ?_ rfl
    rw [mem_claimed, List.mem_append]
    exact (mem_claimed.1 hinside).imp_right .inl

theorem fst_mem_of_bottomUp (hbottomUp : config.topDown = false) {depth : Nat}
    {pair : Value × Value}
    (h : pair
      ∈ (matchesIn patterns config (encountersFrom patterns config inside depth new op s)).flatMap
        Match.redirects) :
    pair.1.name ∈ op.resultNames := by
  have hinner : (fun (recording? : Option Recording) s =>
    innerEncounters config inside new op (recording?.getD {}) s)
      = fun _ _ => [] := by
    funext recording? s
    unfold innerEncounters
    rw [hbottomUp]
    cases stays? op (recording?.getD {}) <;> rfl
  obtain ⟨m, hm, hpair⟩ := List.mem_flatMap.1 h
  obtain ⟨e, he, hmatch⟩ := List.mem_filterMap.1 hm
  unfold encountersFrom at he
  rw [hinner, afterwards_nil, List.mem_singleton] at he
  subst he
  have hop : m.op = op := by
    unfold Encounter.match? at hmatch
    split at hmatch
    · cases hmatch
      rfl
    · cases hmatch
  rw [← hop]
  exact List.mem_map_of_mem (Match.fst_mem_of_redirects hpair)

/-- What an operation holds is visited before or behind the match, never both. -/
theorem Redirects.of_match {op' : Operation} {later : Bool}
    (h : Entry (new ++ s.erasedNames) new [op] (drawn ++ drawn') s)
    (hexit : Exit (new ++ s.erasedNames) new [op] drawn s [op'] s') (hhead : op'.toHead = op.toHead)
    (hregion : op'.region.isSome = op.region.isSome)
    (hinner : Redirects (new ++ s.erasedNames) new op.nested drawn s ms op'.nested s')
    (hmatch : RedirectsFrom later new op' drawn' s' ms' out s'')
    (hearlier : later = true → op' = op ∧ ms = [])
    (hlater : later = false → ∀ pair ∈ ms'.flatMap Match.redirects, pair.1.name ∈ op'.resultNames)
    (hfinal : ∀ name ∈ new ++ s.erasedNames, s''.replaced.get? name = none) :
    Redirects (new ++ s.erasedNames) new [op] (drawn ++ drawn') s (ms ++ ms') out s'' := by
  have hapart (hnotLater : later = false) : ∀ pair ∈ ms'.flatMap Match.redirects,
    pair.1.name ∉ sight new op.nested drawn s := by
    intro pair hpair
    have hresults : op'.resultNames = op.resultNames := congrArg Head.resultNames hhead
    exact h.not_mem_sight (hresults ▸ hlater hnotLater pair hpair)
  have hnested : claimed op.nested drawn ⊆ claimed [op] (drawn ++ drawn') :=
    claimed_nested_subset op (List.subset_append_left _ _)
  have hsightNested : sight new op.nested drawn s ⊆ sight new [op] (drawn ++ drawn') s :=
    fun _ hname => List.mem_append.2 ((List.mem_append.1 hname).imp_right (hnested ·))
  have hclaimed : claimed [op'] drawn' ⊆ claimed [op] (drawn ++ drawn') := by
    intro name hname
    rw [mem_claimed, List.mem_append, ← or_assoc, ← mem_claimed]
    exact (mem_claimed.1 hname).imp_left (hexit.names ·)
  have hsight : sight new [op'] drawn' s' ⊆ sight new [op] (drawn ++ drawn') s := by
    refine List.append_subset.2 ⟨fun name hname => ?_, fun name hname =>
      List.mem_append_right _ (hclaimed hname)⟩
    rcases List.mem_append.1 (hexit.sight_subset hname) with hbefore | hown
    · exact List.mem_append_left _ hbefore
    · refine List.mem_append_right _ ?_
      rw [mem_claimed, List.mem_append, ← or_assoc, ← mem_claimed]
      exact .inl hown
  refine ⟨?_, fun replaced hreplaced => ?_⟩
  · rw [List.flatMap_append]
    refine (hinner.tracks.mono hnested hsightNested).append (hmatch.tracks.mono hclaimed hsight)
      fun pair hpair other hother => ?_
    cases later with
    | true =>
        rw [(hearlier rfl).2] at hpair
        cases hpair
    | false =>
        have hother' := hapart rfl other hother
        refine ⟨fun heq => hother' ?_, fun heq => hother' (heq ▸ hinner.tracks.scope pair hpair)⟩
        exact heq ▸ List.mem_append_right _ (hinner.tracks.keys pair hpair)
  · have hsame (name : String) (hname : name ∈ sight new [op] (drawn ++ drawn') s) :
        replaced.get? name = s''.replaced.get? name :=
          hreplaced name (List.mem_append_right _ hname)
    refine hmatch.tree replaced (fun name hname => hsame name (hsight hname)) ms op ?_
      hregion.symm ?_
    · rw [hhead, Head.mapOperands_of_forall]
      intro operand hoperand
      have hvisible := (scoped_iff.1 (scopedAll_singleton.1 h.uses)).1 operand hoperand
      apply Replacements.lookup_of_none
      rw [hreplaced _ (List.mem_append_left _ hvisible)]
      exact hfinal _ hvisible
    · cases later with
      | true =>
          rw [if_pos rfl, (hearlier rfl).1]
      | false =>
          rw [if_neg Bool.false_ne_true]
          refine hinner.tree replaced fun name hname => ?_
          have hmem : name ∈ sight new op.nested drawn s :=
            (List.mem_append.1 hname).elim (List.mem_append_left _) id
          rw [hsame name (hsightNested hmem), hmatch.tracks.elsewhere]
          rintro pair hpair rfl
          exact hapart rfl pair hpair hmem

/-- A visit redirects uses. -/
theorem redirects_visit (hwalks : WalksInto patterns config levels within inside)
    (hinto : RedirectsInto patterns config levels within inside) (depth : Nat)
    (hheight : op.height ≤ levels)
    (hsound : Sound patterns config (visitEncounters patterns config within inside depth new op s))
    (h : Entry old new [op]
      (drawnIn patterns config (visitEncounters patterns config within inside depth new op s)) s)
    (hreturns : Returns (visit patterns config within depth op) s out s') :
    Redirects old new [op]
      (drawnIn patterns config (visitEncounters patterns config within inside depth new op s)) s
      (matchesIn patterns config (visitEncounters patterns config within inside depth new op s)) out
        s' := by
  have hexit := (ensures_visit hwalks depth hheight hsound h).of_returns hreturns
  rw [visit_eq] at hreturns
  obtain ⟨op₁, s₁, hsubstitute, hvisit⟩ := Returns.bind_iff.1 hreturns
  obtain ⟨op₂, s₂, hwithin, hcommit⟩ := Returns.bind_iff.1 hvisit
  obtain ⟨rfl, hsubstituted⟩ := (ensures_substitute h fun _ _ => True).of_returns hsubstitute
  obtain ⟨-, hop₁⟩ := returns_substitute hsubstitute
  rw [visitEncounters_eq, afterwards_of_returns hsubstitute,
    afterwards_of_returns hwithin] at hsound hexit hsubstituted h ⊢
  rw [Sound.append] at hsound
  rw [drawnIn_append] at hexit hsubstituted h ⊢
  rw [matchesIn_append]
  refine .of_substitute h hsubstituted hop₁ hexit ?_
  have hentry := hsubstituted.entry
  have hheight₁ : op₁.height ≤ levels := hsubstituted.height ▸ hheight
  obtain ⟨hhead, hexit₂⟩ :=
    (hwalks.ensures_ite _ (fun _ => hheight₁) hsound.1 hentry.fewer).of_returns hwithin
  obtain ⟨hregion, hinner⟩ := hinto.of_ite _ (fun _ => hheight₁) hsound.1 hentry.fewer hwithin
  have hearlier (htopDown : config.topDown = true) : op₂ = op₁ := by
    rw [htopDown] at hwithin
    exact (Returns.pure_iff.1 hwithin).1
  have hmatch := redirects_match hwalks hinto depth
    (fun htopDown => hearlier htopDown ▸ hheight₁) hsound.2
    (hexit₂.again hentry) hcommit
  refine .of_match hentry hexit₂ hhead hregion hinner hmatch
    (fun htopDown => ⟨hearlier htopDown, ?_⟩)
    (fun hbottomUp pair hpair => fst_mem_of_bottomUp hbottomUp hpair) fun name hname => ?_
  · rw [htopDown]
    rfl
  · apply hexit.linked.final
    rw [List.mem_append, mem_visibleAfter]
    exact (List.mem_append.1 hname).imp .inr (hexit.erased ·)

theorem redirects_visitAll (hwalks : WalksInto patterns config levels within inside)
    (hinto : RedirectsInto patterns config levels within inside) (depth : Nat)
    (ops : List Operation) (hheight : ∀ op ∈ ops, op.height ≤ levels)
    (hsound : Sound patterns config (visitAllEncounters patterns config within inside depth new ops s))
    (h : Entry old new ops (drawnIn patterns config
      (visitAllEncounters patterns config within inside depth new ops s)) s)
    (hreturns : Returns (visitAll patterns config within depth ops) s out s') :
    Redirects old new ops
      (drawnIn patterns config (visitAllEncounters patterns config within inside depth new ops s)) s
      (matchesIn patterns config (visitAllEncounters patterns config within inside depth new ops s))
        out s' := by
  induction ops generalizing old new s out with
  | nil =>
      obtain ⟨rfl, rfl⟩ := Returns.pure_iff.1 hreturns
      exact .nil
  | cons op ops ih =>
      unfold visitAll at hreturns
      obtain ⟨first, s₁, hfirst, hreturns⟩ := Returns.bind_iff.1 hreturns
      obtain ⟨rest, s₂, hrest, hreturns⟩ := Returns.bind_iff.1 hreturns
      obtain ⟨rfl, rfl⟩ := Returns.pure_iff.1 hreturns
      rw [visitAllEncounters, afterwards_of_returns hfirst] at hsound h ⊢
      rw [Sound.append] at hsound
      rw [drawnIn_append] at h ⊢
      rw [matchesIn_append]
      rw [List.forall_mem_cons] at hheight
      have hentry : Entry old new ([op] ++ ops) _ s := h
      have hexit := (ensures_visit hwalks depth hheight.1 hsound.1 hentry.left).of_returns hfirst
      exact .append hentry hexit
        (redirects_visit hwalks hinto depth hheight.1 hsound.1 hentry.left hfirst)
        (ih hheight.2 hsound.2 (hentry.right hexit) hrest)

theorem redirectsInto_visitRegion (patterns : FrozenPatterns σ) (config : Config)
    (levels depth : Nat) :
    RedirectsInto patterns config levels (visitRegion patterns config levels depth)
      (regionEncounters patterns config levels depth) := by
  induction levels generalizing depth with
  | zero =>
      intro new op op' s s' hheight
      have hpos := op.height_pos
      omega
  | succ levels ih =>
      rintro new ⟨head, _ | ops⟩ op' s s' hheight hsound h hreturns
      · unfold visitRegion at hreturns
        obtain ⟨rfl, rfl⟩ := Returns.pure_iff.1 hreturns
        exact ⟨rfl, .nil⟩
      · unfold visitRegion at hreturns
        obtain ⟨out, s₁, hvisit, hreturns⟩ := Returns.bind_iff.1 hreturns
        obtain ⟨rfl, rfl⟩ := Returns.pure_iff.1 hreturns
        have hbelow : heightOfAll ops ≤ levels := Nat.le_of_succ_le_succ hheight
        refine ⟨rfl, redirects_visitAll (walksInto_visitRegion patterns config levels (depth + 1))
          (ih (depth + 1)) depth ops
          (fun op hop => Nat.le_trans (height_le_heightOfAll hop) hbelow) hsound h hvisit⟩

/-! ### Sweeps -/

/-- A sweep with the given matches made one tree of another, and redirected all uses by a
function. -/
structure RedirectedBy (f : Value → Value) (ms : List Match) (root root' : Operation) : Prop where
  redirects : ∀ m ∈ ms, ∀ pair ∈ m.redirects, ∀ operand : Value, operand.name = pair.1.name →
    (f operand).name = pair.2.name
  /-- No other match replaces a value that stands for a result. -/
  values : ∀ m ∈ ms, ∀ pair ∈ m.redirects, f pair.2 = pair.2
  others : ∀ operand : Value, (∀ m ∈ ms, ∀ pair ∈ m.redirects, pair.1.name ≠ operand.name) →
    f operand = operand
  head : root'.toHead = root.toHead
  region : root'.region.isSome = root.region.isSome
  nested : Redirected f ms root.nested root'.nested
  /-- What was replaced is not in use any more. -/
  done : ∀ head ∈ root'.heads, head.mapOperands f = head

/-- **Uses of replaced results are redirected to the right values.** -/
theorem ensures_sweep_redirected {root : Operation}
    (h : Between root (drawnIn patterns config (sweepEncounters patterns config root s)) s)
    (hsound : ∀ m ∈ matchesIn patterns config (sweepEncounters patterns config root s),
      m.SoundIn m.visible) :
    Ensures (sweep patterns config root) s (fun root' _ =>
      ∃ f, RedirectedBy f (matchesIn patterns config (sweepEncounters patterns config root s))
        root root')
      fun error _ => Blamable error := by
  have hsound' := sound_of_soundIn hsound
  refine (ensures_sweep_of_between h hsound').mono fun root' s' hreturns _ => ?_
  rw [sweep_eq, Returns.modify_bind_iff] at hreturns
  obtain ⟨root₁, s₁, hregion, hfinish⟩ := Returns.bind_iff.1 hreturns
  have hagrees : s.Agrees { s with definitions := .empty } := ⟨rfl, rfl⟩
  have hentry := h.entry.congr hagrees
  have hwalks := walksInto_visitRegion patterns config (root.height + spareLevels) 0
  have hinto := redirectsInto_visitRegion patterns config (root.height + spareLevels) 0
  obtain ⟨hhead, hexit⟩ :=
    (hwalks [] root _ (Nat.le_add_right _ _) hsound' hentry.nested).of_returns hregion
  obtain ⟨hregion', htracks, htree⟩ := hinto [] root _ _ _ (Nat.le_add_right _ _) hsound'
    hentry.nested hregion
  have hdone : ∀ head ∈ root₁.heads, ∀ operand ∈ head.operands,
    s₁.replaced.get? operand.name = none := by
    intro head hmem operand hoperand
    rw [← headsOfAll_singleton] at hmem
    exact (Exit.node hentry hhead hexit).get?_of_operand hmem hoperand
  have hsame : root' = root₁ := by
    rcases (returns_finish hfinish).1 with hop | hop
    · exact hop
    · refine hop.trans (mapHeads_of_forall fun head hmem =>
        Head.mapOperands_of_forall fun operand hoperand => ?_)
      rw [Replacements.resolve?_of_none (hdone head hmem operand hoperand), Option.getD_some]
  subst hsame
  refine ⟨s₁.replaced.lookup, fun m hm pair hpair operand hname => ?_, fun m hm pair hpair => ?_,
    fun operand hothers => ?_,
    hhead, hregion', htree s₁.replaced fun _ _ => rfl, fun head hmem => ?_⟩
  · have hget := htracks.get? pair (List.mem_flatMap.2 ⟨m, hm, hpair⟩)
    rw [← hname] at hget
    split at hget
    next heq => rw [Replacements.lookup_of_none hget, heq]
    next => rw [Replacements.lookup_of_some hget]
  · exact Replacements.lookup_of_none (htracks.final pair (List.mem_flatMap.2 ⟨m, hm, hpair⟩))
  · have hnone := htracks.elsewhere operand.name fun pair hpair => by
      obtain ⟨m, hm, hpair⟩ := List.mem_flatMap.1 hpair
      exact hothers m hm pair hpair
    apply Replacements.lookup_of_none
    rw [hnone]
    show s.replaced.get? operand.name = none
    rw [h.replaced, Dict.get?_empty]
  · exact Head.mapOperands_of_forall fun operand hoperand =>
      Replacements.lookup_of_none (hdone head hmem operand hoperand)

/-- Replaces a pair by a new one with the given results, which are chosen among those of the pair
and a fresh one. -/
def newPair (results : Value → Value → Value → List Value) : Pattern σ where
  name := "newPair"
  root := some "test.pair"
  rewrite op :=
    match op.results with
    | [first, second] => do
        let fresh ← Attempt.freshValue second.ty
        Attempt.replaceWithNew { name := "test.new", results := results first second fresh }
        return true
    | _ => return false

/-- A result may keep its name. -/
theorem ensures_sweep_redirected_pair :
    ∃ (patterns : FrozenPatterns Unit) (root : Operation) (s : State Unit) (a b fresh : Value),
    (matchesIn patterns {} (sweepEncounters patterns {} root s)).map Match.redirects
      = [[(a, fresh), (b, b)]]
      ∧ Ensures (sweep patterns {} root) s (fun root' _ =>
        ∃ f, RedirectedBy f (matchesIn patterns {} (sweepEncounters patterns {} root s)) root root')
          fun error _ => Blamable error := by
  let patterns : FrozenPatterns Unit := ⟨[newPair fun _ second fresh => [fresh, second]]⟩
  let a : Value := ⟨"a", .int 8⟩
  let b : Value := ⟨"b", .int 8⟩
  let root := Operation.module
    [{ name := "test.pair", results := [a, b] }, { name := "test.sink", operands := [a, b] }]
  let s : State Unit := { context := default, memory := (), names := namesFor root }
  have hvalid : ∀ m ∈ matchesIn patterns {} (sweepEncounters patterns {} root s),
    m.LocallyValid := by decide +kernel
  exact ⟨patterns, root, s, a, b, ⟨"0", .int 8⟩, by decide +kernel,
    ensures_sweep_redirected ⟨(verify_eq_ok_iff.1 rfl).1, by decide +kernel, rfl, rfl⟩ fun m hm =>
      Match.ValidIn.soundIn (hvalid m hm)⟩

theorem Replacements.get?_of_follow? {replaced : Replacements} {steps : Nat} {value last : Value}
    (h : replaced.follow? steps value = some last) : replaced.get? last.name = none := by
  induction steps generalizing value with
  | zero =>
      unfold Replacements.follow? at h
      split at h
      next hnone =>
        cases h
        exact hnone
      · cases h
      · cases ‹0 = _ + 1›
  | succ steps ih =>
      unfold Replacements.follow? at h
      cases hget : replaced.get? value.name with
      | none =>
          rw [hget] at h
          cases h
          exact hget
      | some next =>
          rw [hget] at h
          exact ih h

/-- **A replacement redirects the uses of all results to the right values** just if no value has the
name of a result that gets another name. -/
theorem resolve?_replace_iff {results values : List Value} (hnodup : (results.map Value.name).Nodup)
    (hlength : values.length = results.length)
    (hresults : ∀ result ∈ results, s.replaced.get? result.name = none)
    (hvalues : ∀ value ∈ values, s.replaced.get? value.name = none) :
    (∀ pair ∈ results.zip values,
        ((s.replace results values).replaced.resolve? pair.1).map Value.name = some pair.2.name)
      ↔ ∀ pair ∈ results.zip values, ∀ other ∈ results.zip values,
        other.1.name = pair.2.name → other.1.name = other.2.name := by
  have hget {pair : Value × Value} (hpair : pair ∈ results.zip values) :
      (s.replace results values).replaced.get? pair.1.name = if pair.1.name = pair.2.name then none
        else some pair.2 :=
    get?_replace hnodup hlength hpair (hresults _ (List.of_mem_zip hpair).1)
  constructor
  · intro h pair hpair other hother hname
    obtain ⟨last, hlast, hlastName⟩ := Option.map_eq_some_iff.1 (h pair hpair)
    have hnone := Replacements.get?_of_follow? hlast
    rw [hlastName, ← hname, hget hother] at hnone
    by_contra hne
    rw [if_neg hne] at hnone
    cases hnone
  · intro h pair hpair
    have hfirst := hget hpair
    by_cases hsame : pair.1.name = pair.2.name
    · rw [if_pos hsame] at hfirst
      rw [Replacements.resolve?_of_none hfirst, Option.map_some, hsame]
    · rw [if_neg hsame] at hfirst
      have hfinal : (s.replace results values).replaced.get? pair.2.name = none := by
        by_cases hmem : pair.2.name ∈ results.map Value.name
        · obtain ⟨other, hother, hname⟩ := exists_mem_zip hlength hmem
          rw [← hname, hget hother, if_pos (h pair hpair other hother hname)]
        · rw [get?_replace_of_not_mem hmem]
          exact hvalues _ (List.of_mem_zip hpair).2
      rw [Replacements.resolve?_of_some hfirst hfinal, Option.map_some]

/-- A result that gets the name of the other must not be replaced by yet another value. -/
theorem exists_misdirected :
    ∃ (patterns : FrozenPatterns Unit) (root : Operation) (a b fresh : Value), root.verify = .ok ()
    ∧ (committed patterns {} root default ()).map Match.redirects = [[(a, b), (b, fresh)]]
    ∧ (committed patterns {} root default ()).map (·.recording.inserted.map (·.results))
      = [[[b, fresh]]]
    ∧ root.heads.map (·.operands) = [[], [], [a, b]] ∧ fresh ≠ b
    ∧ (applyGreedily patterns {} root default ()).op.heads.map (·.operands)
      = [[], [], [fresh, fresh]] := by
  let a : Value := ⟨"a", .int 8⟩
  let b : Value := ⟨"b", .int 8⟩
  let root := Operation.module
    [{ name := "test.pair", results := [a, b] }, { name := "test.sink", operands := [a, b] }]
  exact ⟨⟨[newPair fun _ second fresh => [second, fresh]]⟩, root, a, b, ⟨"0", .int 8⟩, rfl,
    by decide +kernel, by decide +kernel, rfl, by decide, by decide +kernel⟩

end DialectIR.Greedy
