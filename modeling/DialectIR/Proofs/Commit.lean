import DialectIR.Proofs.Sweep

/-! The changes of a match: what stands in the place of the matched operation when they are made. -/

namespace DialectIR.Greedy

open Operation

variable {σ : Type}

theorem get?_foldl_insert_eq (results : List Value) (op : Operation) (known : Dict Operation)
    (name : String) :
    (results.foldl (fun known result => known.insert result.name op) known).get? name
      = if name ∈ results.map Value.name then some op else known.get? name := by
  induction results generalizing known with
  | nil => rfl
  | cons result results ih =>
      rw [List.foldl_cons, ih, Dict.get?_insert, List.map_cons]
      by_cases hmem : name ∈ results.map Value.name
      · rw [if_pos hmem, if_pos (List.mem_cons_of_mem _ hmem)]
      · simp only [hmem, List.mem_cons, or_false, if_false]

theorem get?_foldl_erase_eq (results : List Value) (known : Dict Operation) (name : String) :
    (results.foldl (fun known result => known.erase result.name) known).get? name
      = if name ∈ results.map Value.name then none else known.get? name := by
  induction results generalizing known with
  | nil => rfl
  | cons result results ih =>
      rw [List.foldl_cons, ih, Dict.get?_erase, List.map_cons]
      by_cases hmem : name ∈ results.map Value.name
      · rw [if_pos hmem, if_pos (List.mem_cons_of_mem _ hmem)]
      · simp only [hmem, List.mem_cons, or_false, if_false]

theorem get?_foldl_insert {results : List Value} {op : Operation} {known : Dict Operation}
    {name : String} {found : Operation}
    (h : (results.foldl (fun known result => known.insert result.name op) known).get? name
      = some found) :
    found = op ∧ name ∈ results.map Value.name ∨ known.get? name = some found := by
  rw [get?_foldl_insert_eq] at h
  split at h
  next hname =>
    cases h
    exact .inl ⟨rfl, hname⟩
  next => exact .inr h

theorem get?_foldl_erase {results : List Value} {known : Dict Operation} {name : String}
    {found : Operation}
    (h : (results.foldl (fun known result => known.erase result.name) known).get? name
      = some found) :
    known.get? name = some found := by
  rw [get?_foldl_erase_eq, Option.ite_none_left_eq_some] at h
  exact h.2

theorem agrees_register (inserted : List Operation) (s : State σ) :
    s.Agrees (inserted.foldl State.register s) := by
  induction inserted generalizing s with
  | nil => exact ⟨rfl, rfl⟩
  | cons op ops ih => exact ih (s.register op)

theorem get?_foldl_replace {pairs : List (Value × Value)} {replaced : Replacements} {name : String}
    {value : Value}
    (h : (pairs.foldl (fun replaced pair => replaced.insert pair.1.name pair.2) replaced).get? name
      = some value) :
    (∃ pair ∈ pairs, pair.1.name = name ∧ pair.2 = value) ∨ replaced.get? name = some value := by
  induction pairs generalizing replaced with
  | nil => exact .inr h
  | cons pair pairs ih =>
      rcases ih h with ⟨other, hother, hvalue⟩ | hget
      · exact .inl ⟨other, List.mem_cons_of_mem _ hother, hvalue⟩
      · rw [Dict.get?_insert] at hget
        split at hget
        next hname => exact .inl ⟨pair, List.mem_cons_self, hname.symm, Option.some.inj hget⟩
        next => exact .inr hget

/-- What is looked up when some values are inserted that have nothing to do with the key. -/
theorem get?_foldl_of_forall {pairs : List (Value × Value)} {name : String}
    (h : ∀ pair ∈ pairs, pair.1.name ≠ name) (replaced : Replacements) :
    (pairs.foldl (fun replaced pair => replaced.insert pair.1.name pair.2) replaced).get? name
      = replaced.get? name := by
  induction pairs generalizing replaced with
  | nil => rfl
  | cons pair pairs ih =>
      rw [List.foldl_cons, ih fun other hother => h other (List.mem_cons_of_mem _ hother),
        Dict.get?_insert, if_neg (h pair List.mem_cons_self).symm]

theorem get?_foldl_of_mem {pairs : List (Value × Value)}
    (hnodup : (pairs.map fun pair => pair.1.name).Nodup) {pair : Value × Value} (h : pair ∈ pairs)
    (replaced : Replacements) :
    (pairs.foldl (fun replaced pair => replaced.insert pair.1.name pair.2) replaced).get?
      pair.1.name = some pair.2 := by
  induction pairs generalizing replaced with
  | nil => cases h
  | cons first pairs ih =>
      rw [List.map_cons, List.nodup_cons] at hnodup
      rw [List.foldl_cons]
      rcases List.mem_cons.1 h with rfl | h
      · rw [get?_foldl_of_forall, Dict.get?_insert, if_pos rfl]
        intro other hother heq
        exact hnodup.1 (heq ▸ List.mem_map_of_mem hother)
      · exact ih hnodup.2 h _

theorem get?_replace_of_not_mem {s : State σ} {results values : List Value} {name : String}
    (h : name ∉ results.map Value.name) :
    (s.replace results values).replaced.get? name = s.replaced.get? name := by
  refine get?_foldl_of_forall (fun pair hpair heq => h ?_) _
  have hzip := (List.mem_filter.1 hpair).1
  rw [← heq]
  exact List.mem_map_of_mem (List.of_mem_zip hzip).1

theorem nodup_map_zip {results values : List Value} (hnodup : (results.map Value.name).Nodup)
    (hlength : values.length = results.length) :
    ((results.zip values).map fun pair => pair.1.name).Nodup := by
  have hfst : (results.zip values).map Prod.fst = results :=
    List.map_fst_zip (Nat.le_of_eq hlength.symm)
  rw [← hfst, List.map_map] at hnodup
  exact hnodup

theorem get?_replace {s : State σ} {results values : List Value}
    (hnodup : (results.map Value.name).Nodup) (hlength : values.length = results.length)
    {pair : Value × Value} (hpair : pair ∈ results.zip values)
    (hnone : s.replaced.get? pair.1.name = none) :
    (s.replace results values).replaced.get? pair.1.name
      = if pair.1.name = pair.2.name then none else some pair.2 := by
  have hpairs := nodup_map_zip hnodup hlength
  unfold State.replace
  dsimp only
  split
  next hsame =>
    rw [get?_foldl_of_forall _ s.replaced]
    · exact hnone
    · intro other hother heq
      obtain ⟨hzip, hother⟩ := List.mem_filter.1 hother
      have hsame' : other = pair := List.inj_on_of_nodup_map hpairs hzip hpair heq
      rw [hsame'] at hother
      simp [hsame] at hother
  next hne =>
    refine get?_foldl_of_mem (hpairs.sublist (List.filter_sublist.map _))
      (List.mem_filter.2 ⟨hpair, ?_⟩) s.replaced
    simpa using hne

variable {patterns : FrozenPatterns σ} {config : Config} {old new drawn drawn' : List String}
  {op : Operation} {inserted : List Operation} {s s' : State σ}

/-- An operation that goes: its results stand for what is visible behind the insertions, or are
erased. -/
theorem Exit.gone (h : Entry (new ++ s.erasedNames) new [op] drawn s)
    (huses : ScopedAll (new ++ s.erasedNames) inserted)
    (hnodup : (definedNamesOfAll inserted).Nodup)
    (hnames : ∀ name ∈ definedNamesOfAll inserted, name ∈ drawn
      ∨ name ∈ op.resultNames ∧ s'.replaced.get? name = none ∧ name ∉ s'.erasedNames)
    (hstands : ∀ name ∈ op.resultNames, s'.replaced.standIn name ∈ visibleAfter new inserted
      ++ s'.erasedNames)
    (hlost : ∀ name ∈ op.resultNames, name ∈ s'.erasedNames → s'.replaced.get? name = none)
    (helsewhere : ∀ name ∉ op.resultNames, s'.replaced.get? name = s.replaced.get? name)
    (herased : s.erasedNames ⊆ s'.erasedNames)
    (herasedOnly : s'.erasedNames ⊆ s.erasedNames ++ op.resultNames) :
    Exit (new ++ s.erasedNames) new [op] drawn s inserted s' := by
  have hresult : ∀ name ∈ op.resultNames, name ∈ claimed [op] drawn := fun name hname =>
    resultNames_subset_claimed [op] drawn (List.mem_flatMap.2 ⟨op, List.mem_cons_self, hname⟩)
  have hother : ∀ name ∈ new ++ s.erasedNames, name ∉ op.resultNames := by
    intro name hname hinside
    have hunused := h.unused name (hresult name hinside)
    exact (List.mem_append.1 hname).elim hunused.new hunused.erased
  have hdrawn : ∀ name ∈ drawn, name ∉ op.resultNames := by
    intro name hname hinside
    have hmem : name ∈ definedNamesOfAll [op] := by
      rw [definedNamesOfAll_singleton]
      exact List.mem_append_left _ hinside
    exact (List.nodup_append.1 h.nodup).2.2 name hmem name hname rfl
  have hfinal : ∀ name ∈ definedNamesOfAll inserted, s'.replaced.get? name = none
    ∧ name ∉ s'.erasedNames := by
    intro name hname
    rcases hnames name hname with hname | ⟨-, hkept⟩
    · have hunused := h.unused name (List.mem_append_right _ hname)
      rw [helsewhere name (hdrawn name hname)]
      refine ⟨hunused.replaced, fun hmem => ?_⟩
      exact (List.mem_append.1 (herasedOnly hmem)).elim hunused.erased (hdrawn name hname)
    · exact hkept
  have hkept : ∀ name ∈ new ++ s.erasedNames, s'.replaced.get? name = none := by
    intro name hname
    rw [helsewhere name (hother name hname)]
    exact h.linked.final name hname
  refine ⟨huses.mono fun name hname => ?_, hnodup, fun name hname => ?_, hfinal,
    ⟨fun name hname => ?_, fun name hname => ?_⟩,
    herased, fun name hname => ?_, fun name hname => ?_⟩
  · exact (List.mem_append.1 hname).elim (List.mem_append_left _) fun hmem =>
      List.mem_append_right _ (herased hmem)
  · exact (hnames name hname).elim (List.mem_append_right _) fun hown => hresult name hown.1
  · rcases List.mem_append.1 hname with hname | hname
    · exact hstands name hname
    · rw [Replacements.standIn_of_none (hkept name hname), List.mem_append, mem_visibleAfter]
      exact (List.mem_append.1 hname).imp .inr (herased ·)
  · rw [List.mem_append, mem_visibleAfter] at hname
    rcases hname with (hinserted | hnew) | hmem
    · exact (hfinal name (resultNames_subset_definedNamesOfAll inserted hinserted)).1
    · exact hkept name (List.mem_append_left _ hnew)
    · rcases List.mem_append.1 (herasedOnly hmem) with hbefore | hown
      · exact hkept name (List.mem_append_right _ hbefore)
      · exact hlost name hown hmem
  · exact (List.mem_append.1 (herasedOnly hname)).elim (List.mem_append_left _) fun hown =>
      List.mem_append_right _ (hresult name hown)
  · exact helsewhere name fun hown => hname (hresult name hown)

theorem definedNamesOfAll_kept {kept : Operation} (hresults : kept.resultNames = op.resultNames)
    (hregion : kept.region = op.region) : definedNamesOfAll [kept] = definedNamesOfAll [op] := by
  rw [definedNamesOfAll_singleton, definedNamesOfAll_singleton, hresults, nested, nested, hregion]

theorem claimed_insert {kept : Operation} (hnames : definedNamesOfAll inserted ⊆ drawn)
    (hresults : kept.resultNames = op.resultNames) (hregion : kept.region = op.region) :
    claimed (inserted ++ [kept]) drawn' ⊆ claimed [op] (drawn ++ drawn') := by
  intro name hname
  rw [mem_claimed, definedNamesOfAll_append, definedNamesOfAll_kept hresults hregion,
    List.mem_append] at hname
  rw [mem_claimed, List.mem_append]
  rcases hname with (hinserted | hown) | hdrawn
  · exact .inr (.inl (hnames hinserted))
  · exact .inl hown
  · exact .inr (.inr hdrawn)

/-- The insertions, and the operation behind them, if it keeps its results and its region. -/
theorem Entry.insert {kept : Operation}
    (h : Entry (new ++ s.erasedNames) new [op] (drawn ++ drawn') s)
    (huses : ScopedAll (new ++ s.erasedNames) inserted)
    (hnodup : (definedNamesOfAll inserted).Nodup) (hnames : definedNamesOfAll inserted ⊆ drawn)
    (hresults : kept.resultNames = op.resultNames) (hregion : kept.region = op.region)
    (hoperands : ∀ operand ∈ kept.operands, operand.name
      ∈ visibleAfter (new ++ s.erasedNames) inserted) :
    Entry (new ++ s.erasedNames) new (inserted ++ [kept]) drawn' s := by
  have hclaimed : claimed (inserted ++ [kept]) drawn' ⊆ claimed [op] (drawn ++ drawn') :=
    claimed_insert hnames hresults hregion
  refine ⟨scopedAll_append.2 ⟨huses, scopedAll_singleton.2 (scoped_iff.2 ⟨hoperands, ?_⟩)⟩,
    h.linked, ?_, fun name hname => h.unused name (hclaimed hname)⟩
  · rw [Operation.nested, hregion, ← Operation.nested]
    apply (scoped_iff.1 (scopedAll_singleton.1 h.uses)).2.mono
    intro name hname
    exact mem_visibleAfter.2 (.inr hname)
  · obtain ⟨hown, hmore, hapart⟩ := List.nodup_append.1 h.nodup
    obtain ⟨-, hlater, hapart'⟩ := List.nodup_append.1 hmore
    unfold claimed
    rw [definedNamesOfAll_append, definedNamesOfAll_kept hresults hregion, List.append_assoc]
    refine List.nodup_append.2
      ⟨hnodup, List.nodup_append.2 ⟨hown, hlater, fun name hname other hother heq => ?_⟩,
      fun name hname other hother heq => ?_⟩
    · exact hapart name hname other (List.mem_append_right _ hother) heq
    · rcases List.mem_append.1 hother with hother | hother
      · exact hapart other hother name (List.mem_append_left _ (hnames hname)) heq.symm
      · exact hapart' name (hnames hname) other hother heq

/-! ### Matches -/

theorem definedNamesOfAll_of_flat (hflat : ∀ op ∈ inserted, op.region = none) :
    definedNamesOfAll inserted = inserted.flatMap (·.resultNames) := by
  induction inserted with
  | nil => rfl
  | cons op ops ih =>
      have hnested : op.nested = [] := by
        rw [nested, hflat op List.mem_cons_self]
        rfl
      rw [definedNamesOfAll_cons, ih fun other hother =>
        hflat other (List.mem_cons_of_mem _ hother), definedNames_eq,
        hnested, definedNamesOfAll_nil, List.append_nil, List.flatMap_cons]

/-- The match is valid, except that the operations that it inserts may hold others. -/
structure Match.SoundIn (m : Match) (visible : List String) : Prop where
  named : ∀ name ∈ definedNamesOfAll m.recording.inserted, name ∈ m.drawn ∨ m.KeepsName name
  nodup : (definedNamesOfAll m.recording.inserted).Nodup
  uses : ScopedAll visible m.recording.inserted
  values : ∀ values, m.recording.action = some (.replace values) →
    ∀ value ∈ values, value.name ∈ visibleAfter visible m.recording.inserted
  update : ∀ new, m.recording.action = some (.update new) → new.region = m.op.region
    ∧ ∀ operand ∈ new.operands, operand.name ∈ visibleAfter visible m.recording.inserted

theorem Match.ValidIn.soundIn {m : Match} {visible : List String} (h : m.ValidIn visible) :
    m.SoundIn visible := by
  refine ⟨fun name hname => ?_, ?_, h.uses, h.values, h.update⟩
  · rw [definedNamesOfAll_of_flat h.flat, List.mem_flatMap] at hname
    obtain ⟨op, hop, hname⟩ := hname
    exact h.named op hop name hname
  · rw [definedNamesOfAll_of_flat h.flat]
    exact h.nodup

theorem Match.SoundIn.mono {m : Match} {visible visible' : List String} (h : m.SoundIn visible)
    (hsub : visible ⊆ visible') :
    m.SoundIn visible' := by
  have hafter : visibleAfter visible m.recording.inserted
    ⊆ visibleAfter visible' m.recording.inserted :=
    fun name hname => mem_visibleAfter.2 ((mem_visibleAfter.1 hname).imp_right (hsub ·))
  refine ⟨h.named, h.nodup, h.uses.mono hsub, fun values haction value hvalue => ?_,
    fun new haction => ?_⟩
  · exact hafter (h.values values haction value hvalue)
  · exact ⟨(h.update new haction).1, fun operand hoperand =>
      hafter ((h.update new haction).2 operand hoperand)⟩

/-- Nothing happens. -/
theorem Match.SoundIn.none (visible visible' : List String) (op : Operation) (drawn : List String) :
    Match.SoundIn ⟨visible', op, drawn, {}⟩ visible where
  named := nofun
  nodup := .nil
  uses := trivial
  values := nofun
  update := nofun

theorem exists_mem_zip {results values : List Value} (hlength : values.length = results.length)
    {name : String} (h : name ∈ results.map Value.name) :
    ∃ pair ∈ results.zip values, pair.1.name = name := by
  rw [← List.map_fst_zip (Nat.le_of_eq hlength.symm), List.map_map] at h
  exact List.mem_map.1 h

theorem Entry.nodup_results (h : Entry old new [op] drawn s) :
    (op.results.map Value.name).Nodup := by
  have hnodup := (List.nodup_append.1 h.nodup).1
  rw [definedNamesOfAll_singleton] at hnodup
  exact (List.nodup_append.1 hnodup).1

theorem Entry.unused_of_result (h : Entry old new [op] drawn s) {name : String}
    (hname : name ∈ op.resultNames) :
    Unused old new s name :=
  h.unused name
    (resultNames_subset_claimed [op] drawn (List.mem_flatMap.2 ⟨op, List.mem_cons_self, hname⟩))

/-- A match that replaces the operation. -/
theorem exit_of_replace {m : Match} {values : List Value}
    (h : Entry (new ++ s.erasedNames) new [m.op] (m.drawn ++ drawn') s)
    (hvalid : m.SoundIn (new ++ s.erasedNames))
    (haction : m.recording.action = some (.replace values)) (hsuits : m.recording.Suits m.op) :
    Exit (new ++ s.erasedNames) new [m.op] (m.drawn ++ drawn') s m.recording.inserted
      (s.replace m.op.results values) := by
  have hlength := hsuits.length_eq haction
  have hunused : ∀ name ∈ m.op.resultNames, Unused (new ++ s.erasedNames) new s name :=
    fun _ => h.unused_of_result
  have hget : ∀ pair ∈ m.op.results.zip values,
    (s.replace m.op.results values).replaced.get? pair.1.name
      = if pair.1.name = pair.2.name then none else some pair.2 := by
    intro pair hmem
    have hname : pair.1.name ∈ m.op.resultNames := List.mem_map_of_mem (List.of_mem_zip hmem).1
    exact get?_replace h.nodup_results hlength hmem (hunused _ hname).replaced
  refine Exit.gone h hvalid.uses ?_ (fun name hname => ?_) (fun name hname => ?_)
    (fun name hname hmem => ?_)
    (fun name hname => get?_replace_of_not_mem hname) (List.Subset.refl _)
      (List.subset_append_left _ _)
  · exact hvalid.nodup
  · rcases hvalid.named name hname with hdrawn | ⟨values', haction', pair, hmem, hfst, hsnd⟩
    · exact .inl (List.mem_append_left _ hdrawn)
    · rw [haction] at haction'
      cases haction'
      have hown : name ∈ m.op.resultNames := by
        rw [← hfst]
        exact List.mem_map_of_mem (List.of_mem_zip hmem).1
      have hgone := hget pair hmem
      rw [hfst, hsnd, if_pos rfl] at hgone
      exact .inr ⟨hown, hgone, (hunused name hown).erased⟩
  · obtain ⟨pair, hmem, rfl⟩ := exists_mem_zip hlength hname
    have hvalue := hvalid.values values haction pair.2 (List.of_mem_zip hmem).2
    have hstands : (s.replace m.op.results values).replaced.standIn pair.1.name = pair.2.name := by
      rw [Replacements.standIn, hget pair hmem]
      split
      next hsame => exact hsame
      next => rfl
    rw [hstands, List.mem_append, mem_visibleAfter]
    rw [mem_visibleAfter, List.mem_append, ← or_assoc] at hvalue
    exact hvalue
  · exact absurd hmem (hunused name hname).erased

theorem resultNames_subset_of_action {m : Match} (hvalid : m.SoundIn old)
    (haction : ∀ values, m.recording.action ≠ some (.replace values)) :
    definedNamesOfAll m.recording.inserted ⊆ m.drawn := by
  intro name hname
  rcases hvalid.named name hname with hdrawn | ⟨values, haction', -⟩
  · exact hdrawn
  · exact absurd haction' (haction values)

/-- A match that erases the operation. -/
theorem exit_of_erase {m : Match}
    (h : Entry (new ++ s.erasedNames) new [m.op] (m.drawn ++ drawn') s)
    (hvalid : m.SoundIn (new ++ s.erasedNames)) (haction : m.recording.action = some .erase) :
    Exit (new ++ s.erasedNames) new [m.op] (m.drawn ++ drawn') s m.recording.inserted
      (s.erase m.op.results) := by
  have herased : (s.erase m.op.results).erasedNames = s.erasedNames ++ m.op.resultNames :=
    List.map_append
  have hunused : ∀ name ∈ m.op.resultNames, s.replaced.get? name = none :=
    fun _ hname => (h.unused_of_result hname).replaced
  have hnames := resultNames_subset_of_action hvalid (by simp [haction])
  refine Exit.gone h hvalid.uses ?_ (fun name hname => .inl (List.mem_append_left _ (hnames hname)))
    (fun name hname => ?_) (fun name hname _ => hunused name hname) (fun _ _ => rfl) ?_
      (herased ▸ List.Subset.refl _)
  · exact hvalid.nodup
  · have hkept : (s.erase m.op.results).replaced.get? name = none := hunused name hname
    rw [Replacements.standIn_of_none hkept, herased]
    exact List.mem_append_right _ (List.mem_append_right _ hname)
  · rw [herased]
    exact List.subset_append_left _ _

/-- A match behind which an operation stays. -/
theorem entry_of_stays {m : Match} {kept : Operation}
    (h : Entry (new ++ s.erasedNames) new [m.op] (m.drawn ++ drawn') s)
    (hvalid : m.SoundIn (new ++ s.erasedNames)) (hsuits : m.recording.Suits m.op)
    (hstays : stays? m.op m.recording = some kept) :
    Entry (new ++ s.erasedNames) new (m.recording.inserted ++ [kept]) drawn' s
      ∧ claimed (m.recording.inserted ++ [kept]) drawn' ⊆ claimed [m.op] (m.drawn ++ drawn')
      ∧ kept.resultNames = m.op.resultNames ∧ kept.region = m.op.region := by
  have hkept : (∀ values, m.recording.action ≠ some (.replace values))
    ∧ kept.resultNames = m.op.resultNames
      ∧ kept.region = m.op.region
      ∧ ∀ operand ∈ kept.operands, operand.name ∈ visibleAfter (new ++ s.erasedNames)
        m.recording.inserted := by
    unfold stays? at hstays
    split at hstays
    next => cases hstays
    next => cases hstays
    next haction =>
      cases hstays
      have hresults : kept.results = m.op.results := by
        by_contra hne
        have hmismatch := hsuits _ haction
        rw [Action.mismatch?, if_neg hne] at hmismatch
        cases hmismatch
      obtain ⟨hregion, hoperands⟩ := hvalid.update kept haction
      exact ⟨by simp [haction], congrArg (List.map Value.name) hresults, hregion, hoperands⟩
    next haction =>
      cases hstays
      refine ⟨by simp [haction], rfl, rfl, fun operand hoperand => ?_⟩
      exact mem_visibleAfter.2
        (.inr ((scoped_iff.1 (scopedAll_singleton.1 h.uses)).1 operand hoperand))
  obtain ⟨haction, hresults, hregion, hoperands⟩ := hkept
  have hnames := resultNames_subset_of_action hvalid haction
  exact ⟨h.insert hvalid.uses hvalid.nodup hnames hresults hregion hoperands,
    claimed_insert hnames hresults hregion, hresults, hregion⟩

end DialectIR.Greedy
