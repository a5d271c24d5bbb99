import DialectIR.Proofs.Rewriting
import DialectIR.Proofs.Traces

/-! What a pattern is told when it asks for the operation that defines a value. A sweep keeps the
operations that it meets by the names of their results. At each point these are the operations in
view, as they stand in the tree, but also those of the regions that the sweep has left: they are not
forgotten, although nothing behind the region sees them. -/

namespace DialectIR.Greedy

open Operation

variable {σ : Type} {patterns : FrozenPatterns σ} {config : Config}

/-- The definitions of the state are the operations of the list, each under the names of its
results. -/
def State.Knows (s : State σ) (known : List Operation) : Prop :=
  ∀ name op, s.definitions.get? name = some op ↔ op ∈ known ∧ name ∈ op.resultNames

/-- None of the operations has one of the names for a result. -/
def Apart (ops : List Operation) (names : List String) : Prop :=
  ∀ op ∈ ops, ∀ name ∈ op.resultNames, name ∉ names

namespace Apart

variable {ops more : List Operation} {names names' : List String}

theorem mono (h : Apart ops names) (hnames : names' ⊆ names) : Apart ops names' :=
  fun op hop name hname hmem => h op hop name hname (hnames hmem)

theorem append : Apart (ops ++ more) names ↔ Apart ops names ∧ Apart more names :=
  List.forall_mem_append

theorem append_right : Apart ops (names ++ names') ↔ Apart ops names ∧ Apart ops names' := by
  simp only [Apart, List.mem_append, not_or, forall_and]

theorem nil : Apart [] names := nofun

/-- Names of which none is among the others keep operations apart that define no others. -/
theorem of_subset (h : ∀ op ∈ ops, op.resultNames ⊆ names)
    (hdisjoint : ∀ name ∈ names, name ∉ names') : Apart ops names' :=
  fun op hop name hname => hdisjoint name (h op hop hname)

end Apart

namespace State.Knows

variable {s s' : State σ} {known known' : List Operation}

theorem congr (h : s.Knows known) (hknown : ∀ op, op ∈ known' ↔ op ∈ known)
    (hs : s'.definitions = s.definitions) :
    s'.Knows known' := by
  intro name op
  rw [hs, hknown]
  exact h name op

theorem register {op : Operation} (h : s.Knows known) (hapart : Apart known op.resultNames) :
    (s.register op).Knows (known ++ [op]) := by
  intro name found
  rw [State.register, get?_foldl_insert_eq, List.mem_append, List.mem_singleton]
  split
  next hname =>
    constructor
    · rintro ⟨⟩
      exact ⟨.inr rfl, hname⟩
    · rintro ⟨hfound | rfl, hname'⟩
      · exact absurd hname (hapart found hfound name hname')
      · rfl
  next hname =>
    rw [h name found]
    refine and_congr_left fun hname' => (or_iff_left ?_).symm
    rintro rfl
    exact hname hname'

theorem registerAll {inserted : List Operation} (h : s.Knows known)
    (hnodup : (inserted.flatMap (·.resultNames)).Nodup)
    (hapart : Apart known (inserted.flatMap (·.resultNames))) :
    (inserted.foldl State.register s).Knows (known ++ inserted) := by
  induction inserted generalizing s known with
  | nil =>
      rw [List.append_nil]
      exact h
  | cons op inserted ih =>
      rw [List.flatMap_cons] at hnodup hapart
      obtain ⟨hop, hinserted⟩ := Apart.append_right.1 hapart
      obtain ⟨-, hrest, hdisjoint⟩ := List.nodup_append.1 hnodup
      rw [List.foldl_cons, List.append_cons]
      refine ih (h.register hop) hrest (Apart.append.2 ⟨hinserted, ?_⟩)
      rintro other hother name hname hmem
      rw [List.mem_singleton] at hother
      subst hother
      exact hdisjoint name hname name hmem rfl

theorem forget {results : List Value} (h : s.Knows known)
    (hapart : Apart known (results.map Value.name)) :
    (s.forget results).Knows known := by
  intro name op
  rw [State.forget, get?_foldl_erase_eq]
  split
  next hname =>
    refine ⟨fun hnone => ?_, fun hop => absurd hname (hapart op hop.1 name hop.2)⟩
    cases hnone
  next => exact h name op

end State.Knows

/-- The operations in view are known, and those of the regions that were left; these are not in
view, and do not have names that are still to come. -/
structure Informed (place : Place) (left : List Operation) (names : List String)
    (s : State σ) : Prop where
  knows : s.Knows (place.inView ++ left)
  hidden : Apart left place.visible
  apart : Apart left names

/-- What is known at a place behind some stops. -/
structure Learned (place : Place) (left : List Operation) (stops : List (Stop σ))
    (names : List String) (s : State σ) : Prop where
  knows : s.Knows (place.inView ++ (left ++ leftIn stops))
  names : ∀ op ∈ leftIn stops, op.resultNames ⊆ names

/-- What is known behind the operations that now stand behind a place. -/
structure Passed (level : Level) (outer : Place) (left : List Operation) (stops : List (Stop σ))
    (names : List String) (out : List Operation) (s : State σ) : Prop
    extends Learned (level.behind out :: outer) left stops names s where
  hidden : Apart (leftIn stops) (out.flatMap (·.resultNames))

/-- What a pattern is told at a point: the operations in view, and those of the regions that were
left. -/
def Answered (left : List Operation) (before : List (Stop σ)) (p : Point σ) : Prop :=
  p.before.Knows (p.place.inView ++ (left ++ leftIn before))
    ∧ Apart (left ++ leftIn before) p.place.visible

/-- The names that come up from an operation on, what it holds being done before unless it comes
later. -/
def ahead (later : Bool) (op : Operation) (drawn : List String) : List String :=
  op.resultNames ++ (if later then claimed op.nested drawn else drawn)

variable {place outer : Place} {level : Level} {left ops out : List Operation} {op : Operation}
  {old new drawn drawn' names : List String} {s s' s₁ : State σ} {stops more : List (Stop σ)}

theorem append_subset_append_left {first rest more : List String} (h : rest ⊆ more) :
    first ++ rest ⊆ first ++ more :=
  List.append_subset.2 ⟨List.subset_append_left _ _, List.subset_append_of_subset_right _ h⟩

theorem claimed_subset_claimed (hsub : drawn ⊆ drawn') : claimed ops drawn ⊆ claimed ops drawn' :=
  append_subset_append_left hsub

theorem claimed_nested_subset_claimed (op : Operation) (drawn : List String) :
    claimed op.nested drawn ⊆ claimed [op] drawn := by
  rw [claimed_nested]
  exact List.subset_append_right _ _

theorem ahead_subset_claimed (later : Bool) (op : Operation) (drawn : List String) :
    ahead later op drawn ⊆ claimed [op] drawn := by
  rw [ahead, claimed_nested]
  cases later with
  | true => exact List.Subset.refl _
  | false => exact append_subset_append_left (List.subset_append_right _ _)

theorem subset_ahead (later : Bool) (op : Operation) (drawn : List String) :
    op.resultNames ++ drawn ⊆ ahead later op drawn := by
  rw [ahead]
  cases later with
  | true => exact append_subset_append_left (List.subset_append_right _ _)
  | false => exact List.Subset.refl _

theorem resultNames_sublist (ops : List Operation) :
    (ops.flatMap (·.resultNames)).Sublist (definedNamesOfAll ops) := by
  induction ops with
  | nil => exact List.Sublist.refl _
  | cons op ops ih =>
      rw [List.flatMap_cons, definedNamesOfAll_cons, definedNames_eq]
      exact (List.sublist_append_left _ _).append ih

/-- Names that come up are not those of the operations in view. -/
theorem Entry.apart_inView (h : Entry old place.visible ops drawn s) :
    Apart place.inView (claimed ops drawn) :=
  fun op hop name hname hmem => (h.unused name hmem).new (Place.mem_visible.2 ⟨op, hop, hname⟩)

theorem Informed.answered (h : Informed place left names s) : s.Knows (place.inView ++ (left ++ []))
    ∧ Apart (left ++ []) place.visible := by
  rw [List.append_nil]
  exact ⟨h.knows, h.hidden⟩

theorem Informed.learned (h : Informed place left names s) :
    Learned place left ([] : List (Stop σ)) names s :=
  ⟨h.answered.1, nofun⟩

theorem Informed.mono (h : Informed place left names s) (hsub : drawn ⊆ names) :
    Informed place left drawn s :=
  ⟨h.knows, h.hidden, h.apart.mono hsub⟩

theorem Informed.congr (h : Informed place left names s) (hs : s'.definitions = s.definitions) :
    Informed place left names s' :=
  ⟨h.knows.congr (fun _ => .rfl) hs, h.hidden, h.apart⟩

theorem Learned.mono (h : Learned place left stops drawn s) (hsub : drawn ⊆ names) :
    Learned place left stops names s :=
  ⟨h.knows, fun op hop => List.Subset.trans (h.names op hop) hsub⟩

theorem Learned.tries {p : Point σ} (h : Learned place left stops names s) :
    Learned place left (.tries p :: stops) names s :=
  ⟨h.knows, h.names⟩

/-- What is known behind one part of the stops of a visit and then another is known behind both. -/
theorem Learned.append (h : ∀ other ∈ leftIn stops, other.resultNames ⊆ names)
    (h' : Learned place (left ++ leftIn stops) more names s) :
    Learned place left (stops ++ more) names s := by
  refine ⟨h'.knows.congr (fun other => ?_) rfl, ?_⟩
  · rw [leftIn_append, List.append_assoc]
  · rw [leftIn_append]
    exact List.forall_mem_append.2 ⟨h, h'.names⟩

section Along

variable {α β : Type} {step : Step σ α} {next : α → Step σ β} {later : α → State σ → List (Stop σ)}
  {post : α → State σ → Prop} {post' : β → State σ → Prop}

/-- Behind the first step the regions that it has left are left. -/
theorem along_bind (h : Along (Answered left) stops step s post)
    (hnext : ∀ a s', Returns step s a s' → post a s' →
      Along (Answered (left ++ leftIn stops)) (later a s') (next a) s' post') :
    Along (Answered left) (stops ++ afterwards step later s) (step >>= next) s post' := by
  refine h.bind fun a s' hreturns hpost => (hnext a s' hreturns hpost).mono
    fun before p hanswered => ?_
  unfold Answered at hanswered ⊢
  rw [leftIn_append, ← List.append_assoc left]
  exact hanswered

/-- At a point no region is left. -/
theorem along_tries {p : Point σ} (h : Answered left [] p) (hnext : ∀ a s', Returns step s a s' →
      Along (Answered left) (later a s') (next a) s' post') :
    Along (Answered left) (.tries p :: afterwards step later s) (step >>= next) s post' := by
  have htries : Along (Answered left) [.tries p] step s fun _ _ => True :=
    ⟨.tries h, fun _ _ _ => trivial⟩
  refine along_bind htries fun a s' hreturns _ => ?_
  show Along (Answered (left ++ [])) _ _ _ _
  rw [List.append_nil]
  exact hnext a s' hreturns

end Along

variable (patterns config)

/-- Visiting what an operation holds, through a number of levels, keeps known what is in view and
what was left. -/
def InformsInto (levels : Nat) (within : Operation → Step σ Operation)
    (inside : List String → Operation → State σ → List (Encounter σ))
    (stopsInside : Place → Operation → State σ → List (Stop σ)) : Prop :=
  ∀ (place : Place) (left : List Operation) (op : Operation) (s : State σ), op.height ≤ levels →
    Sound patterns config (inside place.visible op s) →
    Entry (place.visible ++ s.erasedNames) place.visible op.nested
      (drawnIn patterns config (inside place.visible op s)) s →
    Informed place left (claimed op.nested (drawnIn patterns config (inside place.visible op s)))
      s →
    Along (Answered left) (stopsInside place op s) (within op) s fun _ =>
      Learned place left (stopsInside place op s)
      (claimed op.nested (drawnIn patterns config (inside place.visible op s)))

variable {patterns config} {levels : Nat} {within : Operation → Step σ Operation}
  {inside : List String → Operation → State σ → List (Encounter σ)}
  {stopsInside : Place → Operation → State σ → List (Stop σ)}

/-- Visiting what an operation holds, or leaving it for later. -/
theorem InformsInto.of_ite (hinto : InformsInto patterns config levels within inside stopsInside)
    (condition : Bool) (hheight : condition = true → op.height ≤ levels)
    (hsound : Sound patterns config (if condition then inside place.visible op s else []))
    (h : Entry (place.visible ++ s.erasedNames) place.visible [op]
      (drawnIn patterns config (if condition then inside place.visible op s else [])) s)
    (hinformed : condition = true → Informed place left (claimed op.nested
      (drawnIn patterns config (inside place.visible op s))) s)
    (hknows : s.Knows (place.inView ++ left)) :
    Along (Answered left) (if condition then stopsInside place op s else [])
      (if condition then within op else pure op) s fun _ =>
      Learned place left (if condition then stopsInside place op s else [])
        (claimed op.nested
          (drawnIn patterns config (if condition then inside place.visible op s else []))) := by
  cases condition with
  | true => exact hinto place left op s (hheight rfl) hsound h.nested (hinformed rfl)
  | false =>
      refine ⟨.nil, fun op' s' hreturns => ?_⟩
      obtain ⟨rfl, rfl⟩ := Returns.pure_iff.1 hreturns
      refine ⟨?_, nofun⟩
      show s'.Knows (place.inView ++ (left ++ []))
      rwa [List.append_nil]

/-! ### Matches -/

/-- The insertions of a match are known. -/
theorem knows_inserted {m : Match} (h : Entry old place.visible [m.op] (m.drawn ++ drawn') s)
    (hvalid : m.SoundIn new)
    (hinformed : Informed place left (ahead config.topDown m.op (m.drawn ++ drawn')) s) :
    (m.recording.inserted.foldl State.register s).Knows
      (place.inView ++ left ++ m.recording.inserted)
      ∧ Apart (place.inView ++ left) (m.op.resultNames ++ m.drawn)
      ∧ m.recording.inserted.flatMap (·.resultNames) ⊆ m.op.resultNames ++ m.drawn := by
  have hnames : m.recording.inserted.flatMap (·.resultNames) ⊆ m.op.resultNames ++ m.drawn := by
    intro name hname
    rcases hvalid.named name (resultNames_subset_definedNamesOfAll _ hname) with hdrawn
      | ⟨values, -, pair, hpair, rfl, -⟩
    · exact List.mem_append_right _ hdrawn
    · exact List.mem_append_left _ (List.mem_map_of_mem (List.of_mem_zip hpair).1)
  have hahead : m.op.resultNames ++ m.drawn ⊆ ahead config.topDown m.op (m.drawn ++ drawn') :=
    List.Subset.trans (append_subset_append_left (List.subset_append_left _ _)) (subset_ahead _ _ _)
  have hapart : Apart (place.inView ++ left) (m.op.resultNames ++ m.drawn) := by
    refine Apart.append.2 ⟨h.apart_inView.mono ?_, hinformed.apart.mono hahead⟩
    exact List.Subset.trans hahead (ahead_subset_claimed _ _ _)
  exact ⟨hinformed.knows.registerAll (hvalid.nodup.sublist (resultNames_sublist _))
    (hapart.mono hnames), hapart, hnames⟩

/-- Drawn names are not those of the results. -/
theorem Entry.not_mem_resultNames {m : Match} (h : Entry old new [m.op] (m.drawn ++ drawn') s)
    {name : String} (hdrawn : name ∈ m.drawn) : name ∉ m.op.resultNames := by
  intro hresult
  have hmem : name ∈ definedNamesOfAll [m.op] := by
    rw [definedNamesOfAll_singleton]
    exact List.mem_append_left _ hresult
  exact (List.nodup_append.1 h.nodup).2.2 name hmem name (List.mem_append_left _ hdrawn) rfl

/-- The names of what an operation holds are not those of its results. -/
theorem Entry.not_mem_resultNames_of_nested (h : Entry old new [op] drawn s) {name : String}
    (hnested : name ∈ claimed op.nested drawn) : name ∉ op.resultNames := by
  have hnodup := h.nodup
  rw [claimed_nested] at hnodup
  exact fun hresult => (List.nodup_append.1 hnodup).2.2 name hresult name hnested rfl

/-- Names that come up for what an operation holds do not come up for the operation itself,
whichever are drawn first. -/
theorem Entry.not_mem_of_nested (h : Entry old new [op] (drawn ++ drawn') s) {name : String} :
    (name ∈ claimed op.nested drawn → name ∉ op.resultNames ++ drawn')
      ∧ (name ∈ claimed op.nested drawn' → name ∉ op.resultNames ++ drawn) := by
  have hnodup := h.nodup
  rw [claimed, definedNamesOfAll_singleton] at hnodup
  simp only [List.nodup_append, List.mem_append] at hnodup
  simp only [mem_claimed, List.mem_append]
  grind

/-- A match that makes the operation go forgets the results that are replaced by other names or
erased, and no insertion. -/
theorem knows_act {m : Match} {known : List Operation} {t : State σ}
    (h : Entry old new [m.op] (m.drawn ++ drawn') s) (hvalid : m.SoundIn names)
    (hsuits : m.recording.Suits m.op) (hgone : stays? m.op m.recording = none)
    (hknows : t.Knows (known ++ m.recording.inserted)) (hapart : Apart known m.op.resultNames) :
    (t.act m.op.results m.recording.action).Knows (known ++ m.recording.inserted) := by
  have hnamed {name : String} {op : Operation} (hop : op ∈ m.recording.inserted)
    (hname : name ∈ op.resultNames) :=
    hvalid.named name (resultNames_subset_definedNamesOfAll _ (List.mem_flatMap.2 ⟨op, hop, hname⟩))
  unfold stays? at hgone
  split at hgone
  next values haction =>
    rw [haction]
    -- An insertion has a drawn name or that of a result that keeps it, and neither of these is
    -- forgotten.
    have hforgotten : Apart (known ++ m.recording.inserted)
        ((((m.op.results.zip values).filter fun pair => pair.1.name ≠ pair.2.name).map Prod.fst).map
          Value.name) := by
      rw [List.map_map]
      refine Apart.append.2 ⟨hapart.mono fun name hname => ?_,
        fun op hop name hname hforgotten => ?_⟩
      · obtain ⟨pair, hpair, rfl⟩ := List.mem_map.1 hname
        exact List.mem_map_of_mem (List.of_mem_zip (List.mem_filter.1 hpair).1).1
      · obtain ⟨pair, hpair, rfl⟩ := List.mem_map.1 hforgotten
        obtain ⟨hpair, hother⟩ := List.mem_filter.1 hpair
        rcases hnamed hop hname with hdrawn | ⟨values', haction', kept, hkept, hfst, hsnd⟩
        · exact h.not_mem_resultNames hdrawn (List.mem_map_of_mem (List.of_mem_zip hpair).1)
        · rw [haction] at haction'
          cases haction'
          have hsame : kept = pair :=
            List.inj_on_of_nodup_map (nodup_map_zip h.nodup_results (hsuits.length_eq haction))
              hkept hpair hfst
          rw [hsame] at hsnd
          simp [hsnd] at hother
    exact (hknows.forget hforgotten).congr (fun _ => .rfl) rfl
  next haction =>
    rw [haction]
    refine (hknows.forget (Apart.append.2 ⟨hapart, fun op hop name hname => ?_⟩)).congr
      (fun _ => .rfl) rfl
    rcases hnamed hop hname with hdrawn | ⟨values, haction', -⟩
    · exact h.not_mem_resultNames hdrawn
    · rw [haction] at haction'
      cases haction'
  next => cases hgone
  next => cases hgone

/-- An operation that stays behind what was inserted. -/
theorem informs_settle (hwalks : WalksInto patterns config levels within inside)
    (hinto : InformsInto patterns config levels within inside stopsInside)
    {inserted : List Operation} {kept : Operation}
    (hheight : config.topDown = true → kept.height ≤ levels)
    (hsound : Sound patterns config (if config.topDown then
      inside (Place.visible (level.behind inserted :: outer)) kept s else []))
    (h : Entry (Place.visible (level :: outer) ++ s.erasedNames) (Place.visible (level :: outer))
      (inserted ++ [kept])
      (drawnIn patterns config (if config.topDown then
        inside (Place.visible (level.behind inserted :: outer)) kept s else [])) s)
    (hinformed : config.topDown = true →
      Informed (level.behind inserted :: outer) left (claimed kept.nested
      (drawnIn patterns config (inside (Place.visible (level.behind inserted :: outer)) kept s))) s)
    (hknows : s.Knows (Place.inView (level.behind inserted :: outer) ++ left))
    (hapart : Apart (Place.inView (level.behind inserted :: outer) ++ left) kept.resultNames) :
    Along (Answered left)
      (if config.topDown then stopsInside (level.behind inserted :: outer) kept s else [])
      (visit.settle config within inserted kept) s fun out s' =>
        Learned (level.behind out :: outer) left
            (if config.topDown then stopsInside (level.behind inserted :: outer) kept s else [])
            (claimed kept.nested (drawnIn patterns config (if config.topDown then
              inside (Place.visible (level.behind inserted :: outer)) kept s else []))) s'
          ∧ out.flatMap (·.resultNames) = inserted.flatMap (·.resultNames) ++ kept.resultNames := by
  have hentry : Entry (Place.visible (level :: outer) ++ s.erasedNames)
    (Place.visible (level :: outer))
      (inserted ++ [kept]) ([] ++ _) s := h
  have hkept := hentry.right (Exit.refl hentry.left)
  rw [visibleAfter_append_left, ← Place.visible_behind] at hkept
  obtain ⟨hanswered, hlearned⟩ := hinto.of_ite config.topDown hheight hsound hkept hinformed hknows
  refine ⟨hanswered, fun out s' hreturns => ?_⟩
  rw [settle_eq] at hreturns
  obtain ⟨op', s₁, hwithin, hreturns⟩ := Returns.bind_iff.1 hreturns
  rw [Returns.modify_bind_iff] at hreturns
  obtain ⟨rfl, rfl⟩ := Returns.pure_iff.1 hreturns
  obtain ⟨hhead, -⟩ := (hwalks.ensures_ite config.topDown hheight hsound hkept).of_returns hwithin
  have hresults : op'.resultNames = kept.resultNames := congrArg Head.resultNames hhead
  obtain ⟨hknows', hnames⟩ := hlearned op' s₁ hwithin
  refine ⟨⟨(hknows'.register ?_).congr (fun other => ?_) rfl, hnames⟩, ?_⟩
  · rw [hresults, ← List.append_assoc]
    exact Apart.append.2 ⟨hapart, .of_subset hnames fun name => hkept.not_mem_resultNames_of_nested⟩
  · simp only [Place.inView_cons, Level.behind, List.mem_append]
    grind
  · rw [List.flatMap_append, List.flatMap_singleton, hresults]

/-- The changes of a match, or none. -/
theorem informs_commit (hwalks : WalksInto patterns config levels within inside)
    (hinto : InformsInto patterns config levels within inside stopsInside) {m : Match}
    (hheight : config.topDown = true → m.op.height ≤ levels)
    (hvalid : m.SoundIn (Place.visible (level :: outer) ++ s.erasedNames))
    (hsuits : m.recording.Suits m.op)
    (hsound : Sound patterns config
      (innerEncounters config inside (Place.visible (level :: outer)) m.op m.recording s))
    (h : Entry (Place.visible (level :: outer) ++ s.erasedNames) (Place.visible (level :: outer))
      [m.op] (m.drawn ++ drawnIn patterns config
        (innerEncounters config inside (Place.visible (level :: outer)) m.op m.recording s)) s)
    (hinformed : Informed (level :: outer) left (ahead config.topDown m.op (m.drawn ++
      drawnIn patterns config
        (innerEncounters config inside (Place.visible (level :: outer)) m.op m.recording s))) s) :
    Along (Answered left) (innerStops config stopsInside outer level m.op m.recording s)
      (commit config within m.op m.recording) s
      fun out s' => Learned (level.behind out :: outer)
        left (innerStops config stopsInside outer level m.op m.recording s)
          (claimed m.op.nested
            (drawnIn patterns config (innerEncounters config inside (Place.visible (level :: outer))
              m.op m.recording s))) s'
        ∧ out.flatMap (·.resultNames) ⊆ m.op.resultNames ++ m.drawn := by
  obtain ⟨hknows, hapart, hnames⟩ := knows_inserted h hvalid hinformed
  generalize hregistered : m.recording.inserted.foldl State.register s = s₁ at hknows
  have hagrees : s.Agrees s₁ := hregistered ▸ agrees_register m.recording.inserted s
  have hentry := h.congr hagrees
  rw [← hagrees.erasedNames] at hentry hvalid
  unfold commit innerStops
  unfold innerEncounters at hsound hentry hinformed ⊢
  rw [hregistered] at hsound hentry hinformed ⊢
  obtain ⟨hown, -⟩ := Apart.append_right.1 hapart
  cases hstays : stays? m.op m.recording with
  | none =>
      refine ⟨.nil, fun out s' hreturns => ?_⟩
      rw [Returns.modify_bind_iff, hregistered] at hreturns
      obtain ⟨rfl, rfl⟩ := Returns.pure_iff.1 hreturns
      refine ⟨⟨(knows_act h hvalid hsuits hstays hknows hown).congr (fun other => ?_) rfl, nofun⟩, hnames⟩
      simp only [Place.inView_cons, Level.behind, List.mem_append, leftIn, List.flatMap_nil,
        List.append_nil]
      grind
  | some kept =>
      rw [hstays] at hsound hentry hinformed
      dsimp only at hsound hentry hinformed ⊢
      rw [← Place.visible_behind] at hsound hentry hinformed ⊢
      obtain ⟨hinserted, -, hresults, hregion⟩ := entry_of_stays hentry hvalid hsuits hstays
      have hnested : kept.nested = m.op.nested := by
        rw [Operation.nested, hregion, Operation.nested]
      have haction : ∀ values, m.recording.action ≠ some (.replace values) := by
        rintro values haction
        rw [stays?, haction] at hstays
        cases hstays
      have hdrawn := resultNames_subset_of_action hvalid haction
      have hknows' : s₁.Knows (Place.inView (level.behind m.recording.inserted :: outer)
        ++ left) := by
        refine hknows.congr (fun other => ?_) rfl
        simp only [Place.inView_cons, Level.behind, List.mem_append]
        grind
      have hinformed' : config.topDown = true →
        Informed (level.behind m.recording.inserted :: outer) left (claimed kept.nested
          (drawnIn patterns config
            (inside (Place.visible (level.behind m.recording.inserted :: outer)) kept s₁))) s₁ := by
        intro htopDown
        rw [htopDown, ahead, if_pos rfl, if_pos rfl, ← hnested] at hinformed
        refine ⟨hknows', fun other hother name hname hmem => ?_, hinformed.apart.mono ?_⟩
        · rw [Place.visible_behind, mem_visibleAfter] at hmem
          refine hmem.elim (fun hinside => ?_) (hinformed.hidden other hother name hname)
          exact (Apart.append.1 hapart).2 other hother name hname (hnames hinside)
        · refine List.subset_append_of_subset_right _ (append_subset_append_left ?_)
          exact List.subset_append_right _ _
      have hapart' : Apart (Place.inView (level.behind m.recording.inserted :: outer) ++ left)
        kept.resultNames := by
        rw [hresults]
        intro other hother name hname
        simp only [Place.inView_cons, Level.behind, List.mem_append] at hother
        rcases hother with ((hother | hother) | hother) | hother
        · exact hown other (List.mem_append_left _ (List.mem_append_left _ hother)) name hname
        · refine h.not_mem_resultNames (hdrawn (resultNames_subset_definedNamesOfAll _ ?_))
          exact List.mem_flatMap.2 ⟨other, hother, hname⟩
        · exact hown other (List.mem_append_left _ (List.mem_append_right _ hother)) name hname
        · exact hown other (List.mem_append_right _ hother) name hname
      rw [← height_of_region hregion] at hheight
      obtain ⟨hanswered, hlearned⟩ := informs_settle hwalks hinto hheight hsound hinserted
        hinformed' hknows' hapart'
      refine ⟨hanswered, fun out s' hreturns => ?_⟩
      rw [Returns.modify_bind_iff, hregistered, act_of_stays hstays] at hreturns
      obtain ⟨hlearned, hout⟩ := hlearned out s' hreturns
      rw [hnested] at hlearned
      rw [hout, hresults]
      exact ⟨hlearned, List.append_subset.2 ⟨hnames, List.subset_append_left _ _⟩⟩

/-- Trying patterns and committing the match. -/
theorem informs_match (hwalks : WalksInto patterns config levels within inside)
    (hinto : InformsInto patterns config levels within inside stopsInside) (depth : Nat)
    (hheight : config.topDown = true → op.height ≤ levels)
    (hsound : Sound patterns config
      (encountersFrom patterns config inside depth (Place.visible (level :: outer)) op s))
    (h : Entry (Place.visible (level :: outer) ++ s.erasedNames) (Place.visible (level :: outer)) [op]
      (drawnIn patterns config
        (encountersFrom patterns config inside depth (Place.visible (level :: outer)) op s)) s)
    (hinformed : Informed (level :: outer) left (ahead config.topDown op
      (drawnIn patterns config
        (encountersFrom patterns config inside depth (Place.visible (level :: outer)) op s))) s) :
    Along (Answered left) (stopsFrom patterns config stopsInside depth outer level op s)
      (applyPatterns patterns config depth op >>= fun recording? =>
        commit config within op (recording?.getD {})) s fun out s' =>
        Passed level outer left (stopsFrom patterns config stopsInside depth outer level op s)
          (claimed op.nested
            (drawnIn patterns config (encountersFrom patterns config inside depth
              (Place.visible (level :: outer)) op s))) out s'
          ∧ out.flatMap (·.resultNames) ⊆ op.resultNames
            ++ drawnIn patterns config
              (encountersFrom patterns config inside depth (Place.visible (level :: outer)) op s) := by
  unfold stopsFrom
  refine along_tries hinformed.answered fun recording? s₁ hreturns => ?_
  rw [afterwards_of_returns hreturns]
  have htried :=
    (ensures_applyPatterns patterns config (Place.visible (level :: outer)) depth op s).of_returns
      hreturns
  have hagrees := htried.similar.agrees
  have hfrom := encountersFrom_of_returns inside (Place.visible (level :: outer)) hreturns
  rw [hfrom, Sound.append] at hsound
  rw [hfrom, drawnIn_append] at h hinformed ⊢
  obtain ⟨m, rfl, hdrawn, hrecording, hvalid, hsuits⟩ :=
    exists_match hreturns (scopedAll_singleton.1 h.uses) hsound.1
  rw [← hrecording] at hsound h hinformed ⊢
  rw [← hdrawn] at h hinformed ⊢
  have hentry := h.congr hagrees
  rw [← hagrees.erasedNames] at hentry
  obtain ⟨hanswered, hcommit⟩ := informs_commit hwalks hinto hheight hvalid hsuits hsound.2 hentry
    (hinformed.congr htried.similar.definitions)
  refine ⟨hanswered, fun out s' hreturns => ?_⟩
  obtain ⟨hlearned, hout⟩ := hcommit out s' hreturns
  refine ⟨⟨(hlearned.mono (claimed_subset_claimed (List.subset_append_right _ _))).tries, ?_⟩,
    List.Subset.trans hout (append_subset_append_left (List.subset_append_left _ _))⟩
  exact .of_subset hlearned.names fun name hname hmem => h.not_mem_of_nested.2 hname (hout hmem)

/-! ### Visits -/

/-- What an operation holds is visited, or left for later, before patterns are tried on the
operation. -/
theorem informs_within (hwalks : WalksInto patterns config levels within inside)
    (hinto : InformsInto patterns config levels within inside stopsInside)
    (hheight : op.height ≤ levels) {first : List (Encounter σ)}
    (hfirst : first = if !config.topDown then inside place.visible op s else [])
    (hstops : stops = if !config.topDown then stopsInside place op s else [])
    (hsound : Sound patterns config first)
    (h : Entry (place.visible ++ s.erasedNames) place.visible [op]
      (drawnIn patterns config first ++ drawn) s)
    (hinformed : Informed place left (claimed [op] (drawnIn patterns config first ++ drawn)) s) :
    Along (Answered left) stops (if !config.topDown then within op else pure op) s fun op' s' =>
      (∀ other ∈ leftIn stops, other.resultNames ⊆ claimed op.nested (drawnIn patterns config first))
        ∧ op'.resultNames = op.resultNames ∧ (config.topDown = true → op' = op)
        ∧ claimed [op'] drawn ⊆ claimed [op] (drawnIn patterns config first ++ drawn)
        ∧ Entry (place.visible ++ s'.erasedNames) place.visible [op'] drawn s'
        ∧ Informed place (left ++ leftIn stops) (ahead config.topDown op' drawn) s' := by
  subst hfirst hstops
  have hinside : (!config.topDown) = true → Informed place left
      (claimed op.nested (drawnIn patterns config (inside place.visible op s))) s := by
    intro hbottomUp
    rw [hbottomUp, if_pos rfl] at hinformed
    refine hinformed.mono (List.Subset.trans (claimed_nested_subset_claimed op _) ?_)
    exact claimed_subset_claimed (List.subset_append_left _ _)
  obtain ⟨hanswered, hlearned⟩ := hinto.of_ite (!config.topDown) (fun _ => hheight) hsound h.fewer
    hinside hinformed.knows
  refine ⟨hanswered, fun op' s' hreturns => ?_⟩
  obtain ⟨hhead, hexit⟩ :=
    (hwalks.ensures_ite (!config.topDown) (fun _ => hheight) hsound h.fewer).of_returns hreturns
  obtain ⟨hknows, hnames⟩ := hlearned op' s' hreturns
  have hresults : op'.resultNames = op.resultNames := congrArg Head.resultNames hhead
  have hsame : config.topDown = true → op' = op := by
    intro htopDown
    rw [htopDown] at hreturns
    exact (Returns.pure_iff.1 hreturns).1
  have hclaimed : claimed [op'] drawn ⊆ claimed [op]
      (drawnIn patterns config (if !config.topDown then inside place.visible op s else [])
        ++ drawn) := by
    refine List.append_subset.2
      ⟨List.Subset.trans hexit.names (claimed_subset_claimed (List.subset_append_left _ _)), ?_⟩
    exact List.subset_append_of_subset_right _ (List.subset_append_right _ _)
  refine ⟨hnames, hresults, hsame, hclaimed, hexit.again h, hknows,
    Apart.append.2 ⟨hinformed.hidden, ?_⟩, Apart.append.2
      ⟨hinformed.apart.mono (List.Subset.trans (ahead_subset_claimed _ _ _) hclaimed), ?_⟩⟩
  · refine .of_subset hnames fun name hname => (h.unused name ?_).new
    exact claimed_subset_claimed (List.subset_append_left _ _)
      (claimed_nested_subset_claimed op _ hname)
  · cases htopDown : config.topDown with
    | true => exact .nil
    | false =>
        rw [htopDown] at hnames h
        rw [ahead, if_neg Bool.false_ne_true, hresults]
        exact .of_subset hnames fun name => h.not_mem_of_nested.1

/-- A visit of an operation whose operands are substituted. -/
theorem informs_substituted (hwalks : WalksInto patterns config levels within inside)
    (hinto : InformsInto patterns config levels within inside stopsInside) (depth : Nat)
    (hheight : op.height ≤ levels) {first later : List (Encounter σ)}
    (hfirst : first = if !config.topDown then inside (Place.visible (level :: outer)) op s else [])
    (hlater : later = afterwards (if !config.topDown then within op else pure op)
      (encountersFrom patterns config inside depth (Place.visible (level :: outer))) s)
    (hstops : stops = (if !config.topDown then stopsInside (level :: outer) op s else [])
      ++ afterwards (if !config.topDown then within op else pure op)
        (stopsFrom patterns config stopsInside depth outer level) s)
    (hsound : Sound patterns config (first ++ later))
    (h : Entry (Place.visible (level :: outer) ++ s.erasedNames) (Place.visible (level :: outer)) [op]
      (drawnIn patterns config first ++ drawnIn patterns config later) s)
    (hinformed : Informed (level :: outer) left (claimed [op]
      (drawnIn patterns config first ++ drawnIn patterns config later)) s) :
    Along (Answered left) stops ((if !config.topDown then within op else pure op) >>= fun op =>
      applyPatterns patterns config depth op >>= fun recording? =>
        commit config within op (recording?.getD {})) s
      (Passed level outer left stops
        (claimed [op] (drawnIn patterns config first ++ drawnIn patterns config later))) := by
  obtain ⟨hsound, hsound'⟩ := Sound.append.1 hsound
  subst hstops
  refine along_bind (informs_within hwalks hinto hheight hfirst rfl hsound h hinformed)
    fun op' s' hreturns hwithin => ?_
  obtain ⟨hnames, hresults, hsame, hclaimed, hentry, hinformed'⟩ := hwithin
  rw [afterwards_of_returns hreturns] at hlater ⊢
  rw [hlater] at hentry hinformed' hsound'
  obtain ⟨hanswered, hmatch⟩ := informs_match hwalks hinto depth
    (fun htopDown => hsame htopDown ▸ hheight) hsound' hentry hinformed'
  refine ⟨hanswered, fun out s'' hcommit => ?_⟩
  obtain ⟨⟨hlearned, hhidden⟩, hout⟩ := hmatch out s'' hcommit
  rw [← hlater] at hlearned hout
  refine ⟨.append (fun other hother => ?_) (hlearned.mono ?_), ?_⟩
  · refine List.Subset.trans (hnames other hother)
      (List.Subset.trans (claimed_nested_subset_claimed op _) ?_)
    exact claimed_subset_claimed (List.subset_append_left _ _)
  · exact List.Subset.trans (claimed_nested_subset_claimed op' _) hclaimed
  · rw [leftIn_append]
    refine Apart.append.2 ⟨.of_subset hnames fun name hname hmem =>
      h.not_mem_of_nested.1 hname ?_, hhidden⟩
    rw [← hresults]
    exact hout hmem

theorem informs_visit (hwalks : WalksInto patterns config levels within inside)
    (hinto : InformsInto patterns config levels within inside stopsInside) (depth : Nat)
    (hheight : op.height ≤ levels) {encounters : List (Encounter σ)}
    (hencounters : encounters = visitEncounters patterns config within inside depth
      (Place.visible (level :: outer)) op s)
    (hsound : Sound patterns config encounters)
    (h : Entry old (Place.visible (level :: outer)) [op] (drawnIn patterns config encounters) s)
    (hinformed : Informed (level :: outer) left (claimed [op] (drawnIn patterns config encounters)) s) :
    Along (Answered left) (visitStops patterns config within stopsInside depth outer level op s)
      (visit patterns config within depth op) s
        (Passed level outer left (visitStops patterns config within stopsInside depth outer level op s)
        (claimed [op] (drawnIn patterns config encounters))) := by
  obtain ⟨op', s', hreturns, rfl, hsubstituted⟩ :=
    (ensures_substitute h fun _ _ => False).exists_returns
  have hclaimed : claimed [op'] (drawnIn patterns config encounters)
    = claimed [op] (drawnIn patterns config encounters) := by
    rw [claimed, definedNamesOfAll_cons, hsubstituted.names, ← definedNamesOfAll_cons, ← claimed]
  have hentry := hsubstituted.entry
  unfold visitStops
  rw [visit_eq]
  rw [visitEncounters_eq, afterwards_of_returns hreturns] at hencounters
  rw [afterwards_of_returns hreturns, ← hclaimed]
  rw [← hclaimed] at hinformed
  rw [hencounters] at hsound
  rw [hencounters, drawnIn_append] at hentry hinformed ⊢
  obtain ⟨hanswered, hvisit⟩ := informs_substituted hwalks hinto depth
    (hsubstituted.height ▸ hheight) rfl rfl rfl hsound hentry hinformed
  refine ⟨hanswered, fun out s'' hvisited => ?_⟩
  obtain ⟨op'', s₁, hreturns', hvisited⟩ := Returns.bind_iff.1 hvisited
  cases hreturns.symm.trans hreturns'
  exact hvisit out s'' hvisited

/-- What is known behind an operation, in view of the operations behind it. -/
theorem Passed.informed
    (h : Entry old (Place.visible (level :: outer)) ([op] ++ ops) (drawn ++ drawn') s)
    (hinformed : Informed (level :: outer) left (claimed ([op] ++ ops) (drawn ++ drawn')) s)
    (hexit : Exit old (Place.visible (level :: outer)) [op] drawn s out s')
    (hpassed : Passed level outer left stops (claimed [op] drawn) out s') :
    Informed (level.behind out :: outer) (left ++ leftIn stops) (claimed ops drawn') s' := by
  have hperm := claimed_append [op] ops drawn drawn'
  have hfirst : out.flatMap (·.resultNames) ⊆ claimed [op] drawn :=
    List.Subset.trans (resultNames_subset_definedNamesOfAll out) hexit.names
  refine ⟨hpassed.knows, ?_, Apart.append.2 ⟨hinformed.apart.mono fun name hname => ?_, ?_⟩⟩
  · intro other hother name hname hmem
    rw [Place.visible_behind, mem_visibleAfter] at hmem
    rcases List.mem_append.1 hother with hother | hother
    · refine hmem.elim (fun hinside => ?_) (hinformed.hidden other hother name hname)
      exact hinformed.apart other hother name hname
        (hperm.mem_iff.2 (List.mem_append_left _ (hfirst hinside)))
    · refine hmem.elim (hpassed.hidden other hother name hname) (h.unused name ?_).new
      exact hperm.mem_iff.2 (List.mem_append_left _ (hpassed.names other hother hname))
  · exact hperm.mem_iff.2 (List.mem_append_right _ hname)
  · exact .of_subset hpassed.names fun name hname hmem => h.disjoint hmem hname

/-- What is known behind an operation and then behind those behind it is known behind all of
them. -/
theorem Passed.append {rest : List Operation}
    (h : Entry old (Place.visible (level :: outer)) ([op] ++ ops) (drawn ++ drawn') s)
    (hfirst : Passed level outer left stops (claimed [op] drawn) out s₁)
    (hrest : Passed (level.behind out) outer (left ++ leftIn stops) more (claimed ops drawn') rest s')
    (hout : out.flatMap (·.resultNames) ⊆ claimed [op] drawn)
    (hmore : rest.flatMap (·.resultNames) ⊆ claimed ops drawn') :
    Passed level outer left (stops ++ more) (claimed ([op] ++ ops) (drawn ++ drawn'))
      (out ++ rest) s' := by
  have hperm := claimed_append [op] ops drawn drawn'
  have hleft : claimed [op] drawn ⊆ claimed ([op] ++ ops) (drawn ++ drawn') :=
    fun name hname => hperm.mem_iff.2 (List.mem_append_left _ hname)
  have hright : claimed ops drawn' ⊆ claimed ([op] ++ ops) (drawn ++ drawn') :=
    fun name hname => hperm.mem_iff.2 (List.mem_append_right _ hname)
  have hbehind : (level.behind out).behind rest = level.behind (out ++ rest) := by
    rw [Level.behind, Level.behind, Level.behind, List.append_assoc]
  have hlearned := hrest.toLearned
  rw [hbehind] at hlearned
  refine ⟨.append (fun other hother => List.Subset.trans (hfirst.names other hother) hleft)
    (hlearned.mono hright), ?_⟩
  rw [leftIn_append, List.flatMap_append, Apart.append, Apart.append_right, Apart.append_right]
  refine ⟨⟨hfirst.hidden, ?_⟩, ?_, hrest.hidden⟩
  · exact .of_subset hfirst.names fun name hname hmem => h.disjoint (hmore hmem) hname
  · exact .of_subset hrest.names fun name hname hmem => h.disjoint hname (hout hmem)

theorem informs_visitAll (hwalks : WalksInto patterns config levels within inside)
    (hinto : InformsInto patterns config levels within inside stopsInside) (depth : Nat)
    {head : Head} {earlier : List Operation} (ops : List Operation)
    (hheight : ∀ op ∈ ops, op.height ≤ levels) {encounters : List (Encounter σ)}
    (hencounters : encounters
      = visitAllEncounters patterns config within inside depth
        (Place.visible (⟨head, earlier, ops⟩ :: outer)) ops s)
    (hsound : Sound patterns config encounters)
    (h : Entry old (Place.visible (⟨head, earlier, ops⟩ :: outer)) ops
      (drawnIn patterns config encounters) s)
    (hinformed : Informed (⟨head, earlier, ops⟩ :: outer)
      left (claimed ops (drawnIn patterns config encounters)) s) :
    Along (Answered left)
      (visitAllStops patterns config within stopsInside depth outer head earlier ops s)
      (visitAll patterns config within depth ops) s
      (Passed ⟨head, earlier, ops⟩ outer
        left (visitAllStops patterns config within stopsInside depth outer head earlier ops s)
        (claimed ops (drawnIn patterns config encounters))) := by
  induction ops generalizing earlier old left s encounters with
  | nil =>
      refine ⟨.nil, fun out s' hreturns => ?_⟩
      obtain ⟨rfl, rfl⟩ := Returns.pure_iff.1 hreturns
      refine ⟨⟨hinformed.learned.knows.congr (fun other => ?_) rfl, nofun⟩, .nil⟩
      rw [Place.inView_cons, Level.behind, List.append_nil]
      rfl
  | cons op ops ih =>
      rw [List.forall_mem_cons] at hheight
      rw [visitAllEncounters] at hencounters
      generalize hfirst : visitEncounters patterns config within inside depth _ op s
        = first at hencounters
      generalize hlater : afterwards (visit patterns config within depth op) _ s
        = later at hencounters
      subst hencounters
      rw [Sound.append] at hsound
      rw [drawnIn_append] at h hinformed ⊢
      have hentry : Entry old (Place.visible (⟨head, earlier, ops⟩ :: outer)) ([op] ++ ops)
        (drawnIn patterns config first ++ drawnIn patterns config later) s := h
      have hinformed' : Informed (⟨head, earlier, ops⟩ :: outer) left (claimed ([op] ++ ops)
          (drawnIn patterns config first ++ drawnIn patterns config later)) s :=
        ⟨hinformed.knows, hinformed.hidden, hinformed.apart⟩
      have hfirst' : first = visitEncounters patterns config within inside depth
        (Place.visible (⟨head, earlier, ops⟩ :: outer)) op s := hfirst.symm
      have hvisited := ensures_visit hwalks depth hheight.1 (hfirst' ▸ hsound.1)
        (hfirst' ▸ hentry.left)
      rw [← hfirst'] at hvisited
      have hperm := claimed_append [op] ops (drawnIn patterns config first)
        (drawnIn patterns config later)
      have hvisit := informs_visit hwalks hinto depth hheight.1 hfirst' hsound.1 hentry.left
        (hinformed'.mono fun name hname => hperm.mem_iff.2 (List.mem_append_left _ hname))
      rw [visitAllStops]
      refine along_bind hvisit fun out s' hreturns hpassed => ?_
      have hexit := hvisited.of_returns hreturns
      have hentry' := hentry.right hexit
      rw [← Place.visible_behind] at hentry'
      have hlater' : later = visitAllEncounters patterns config within inside depth
          (Place.visible (⟨head, earlier ++ out, ops⟩ :: outer)) ops s' := by
        rw [← hlater, afterwards_of_returns hreturns]
        exact congrArg (visitAllEncounters patterns config within inside depth · ops s')
          (Place.visible_behind ⟨head, earlier, ops⟩ out outer).symm
      obtain ⟨hanswered, hrest⟩ := ih hheight.2 hlater' hsound.2 hentry'
        (hpassed.informed hentry hinformed' hexit)
      rw [afterwards_of_returns hreturns]
      refine ⟨hanswered, fun both s'' hreturns' => ?_⟩
      obtain ⟨rest, s₁, hreturns', hboth⟩ := Returns.bind_iff.1 hreturns'
      obtain ⟨rfl, rfl⟩ := Returns.pure_iff.1 hboth
      have hexit' :=
        (ensures_visitAll hwalks depth ops hheight.2 (hlater' ▸ hsound.2)
          (hlater' ▸ hentry')).of_returns hreturns'
      rw [← hlater'] at hexit'
      have hboth := Passed.append hentry hpassed (hrest rest s'' hreturns')
        (List.Subset.trans (resultNames_subset_definedNamesOfAll out) hexit.names)
        (List.Subset.trans (resultNames_subset_definedNamesOfAll rest) hexit'.names)
      exact ⟨⟨hboth.knows, hboth.names⟩, hboth.hidden⟩

/-- The end of a region: its operations are not in view any more. -/
theorem informsInto_visitRegion (levels depth : Nat) :
    InformsInto patterns config levels (visitRegion patterns config levels depth)
      (regionEncounters patterns config levels depth)
      (regionStops patterns config levels depth) := by
  induction levels generalizing depth with
  | zero =>
      intro place left op s hheight
      have hpos := op.height_pos
      omega
  | succ levels ih =>
      rintro place left ⟨head, _ | ops⟩ s hheight hsound h hinformed
      · refine ⟨.nil, fun op' s' hreturns => ?_⟩
        unfold visitRegion at hreturns
        obtain ⟨rfl, rfl⟩ := Returns.pure_iff.1 hreturns
        exact hinformed.learned
      · have hbelow : ∀ op ∈ ops, op.height ≤ levels :=
          fun op hop => Nat.le_trans (height_le_heightOfAll hop) (Nat.le_of_succ_le_succ hheight)
        have hwalks := walksInto_visitRegion patterns config levels (depth + 1)
        have hinside : Informed (⟨head, [], ops⟩ :: place) left _ s :=
          ⟨hinformed.knows, hinformed.hidden, hinformed.apart⟩
        have hvisit : Along (Answered left)
          (visitAllStops patterns config (visitRegion patterns config levels (depth + 1))
            (regionStops patterns config levels (depth + 1)) depth place head [] ops s) _ s _ :=
          informs_visitAll hwalks (ih (depth + 1)) depth ops hbelow rfl hsound h hinside
        unfold visitRegion regionStops
        refine along_bind hvisit fun out s' hreturns hpassed => ⟨.leaves out, fun op' s'' hop => ?_⟩
        obtain ⟨rfl, rfl⟩ := Returns.pure_iff.1 hop
        have hexit := (ensures_visitAll hwalks depth ops hbelow hsound h).of_returns hreturns
        have hleft (stops : List (Stop σ)) : leftIn (stops ++ [.leaves out])
          = leftIn stops ++ out :=
          (leftIn_append stops _).trans (congrArg (leftIn stops ++ ·) (List.append_nil out))
        dsimp only
        rw [afterwards_of_returns hreturns]
        refine ⟨hpassed.knows.congr (fun other => ?_) rfl, ?_⟩
        · rw [hleft, Place.inView_cons, Level.behind, List.nil_append]
          simp only [List.mem_append]
          grind
        · rw [hleft]
          refine List.forall_mem_append.2
            ⟨hpassed.names, fun other hother => List.Subset.trans ?_ hexit.names⟩
          exact List.Subset.trans (fun name hname => List.mem_flatMap.2 ⟨other, hother, hname⟩)
            (resultNames_subset_definedNamesOfAll out)

/-! ### Sweeps -/

/-- At each stop of a sweep what is known are the operations in view and those of the regions that
were left. -/
theorem informs_sweep {root : Operation}
    (h : Between root (drawnIn patterns config (sweepEncounters patterns config root s)) s)
    (hsound : Sound patterns config (sweepEncounters patterns config root s)) :
    AtEach (Answered []) (sweepStops patterns config root s) := by
  have hheight : root.height ≤ root.height + spareLevels := Nat.le_add_right _ _
  unfold sweepEncounters at h hsound
  unfold sweepStops
  generalize root.height + spareLevels = levels at h hsound hheight
  have hagrees : s.Agrees { s with definitions := .empty } := ⟨rfl, rfl⟩
  have hentry := (h.entry.congr hagrees).nested
  have hknows : State.Knows { s with definitions := .empty } [] := by
    intro name op
    rw [Dict.get?_empty]
    exact ⟨nofun, nofun⟩
  exact (informsInto_visitRegion levels 0 [] [] root _ hheight hsound hentry ⟨hknows, .nil, .nil⟩).1

/-- Each sweep of a run starts from a scoped tree, and its matches are valid. -/
theorem between_of_mem_sweepStarts (remaining iteration : Nat) {root : Operation}
    (hsound : Sound patterns config (iterateEncounters patterns config remaining iteration root s))
    (h : Between root
      (drawnIn patterns config (iterateEncounters patterns config remaining iteration root s)) s)
    {start : Operation × State σ}
    (hstart : start ∈ sweepStarts patterns config remaining iteration root s) :
    Between start.1 (drawnIn patterns config (sweepEncounters patterns config start.1 start.2))
      start.2
      ∧ Sound patterns config (sweepEncounters patterns config start.1 start.2) := by
  induction remaining generalizing iteration root s with
  | zero => cases hstart
  | succ remaining ih =>
      unfold iterateEncounters at hsound h
      unfold sweepStarts at hstart
      by_cases hlimit : s.limitReached config = true
      · rw [if_pos hlimit] at hstart
        cases hstart
      · rw [if_neg hlimit, Sound.append] at hsound
        rw [if_neg hlimit, drawnIn_append] at h
        rw [if_neg hlimit] at hstart
        have hnoted : Between root _ (s.note (.iteration iteration root.name.text)) :=
          ⟨h.uses, h.nodup, h.replaced, h.erased⟩
        rcases List.mem_cons.1 hstart with rfl | hstart
        · refine ⟨⟨h.uses, h.nodup.sublist ?_, h.replaced, h.erased⟩, hsound.1⟩
          exact (List.Sublist.refl _).append (List.sublist_append_left _ _)
        · have hswept : Ensures (sweep patterns config root >>= removeDead config) _ _ _ :=
            (ensures_sweep hnoted hsound.1).bind fun root s' _ => ensures_removeDead
          obtain ⟨⟨root', removed⟩, after, hreturns, hstart⟩ := exists_returns_of_mem hstart
          have hbetween := hswept.of_returns hreturns
          have hlater := hsound.2
          rw [afterwards_of_returns hreturns] at hlater hbetween
          dsimp only at hstart hlater hbetween
          by_cases hstop : (after.rewrites = s.rewrites && removed = 0) = true
          · rw [if_pos hstop] at hstart
            cases hstart
          · rw [if_neg hstop] at hlater hbetween hstart
            exact ih (iteration + 1) hlater hbetween hstart

/-- What a pattern is told that asks for the operation that defines a value, in the course of an
attempt at a point. -/
def Attempted.definition? (a : Attempted σ) (p : Point σ) (draft : Draft σ) (value : Value) :
    Except Error (Option Operation) :=
  ((Attempt.definition? value).run.run (a.before.site p.op) draft).1

/-- What is known is what a pattern is told, as long as it has inserted nothing. -/
theorem definition?_eq_ok_iff {known : List Operation} {p : Point σ} {a : Attempted σ}
    {draft : Draft σ} (ha : a ∈ p.attempts patterns config) (hknows : p.before.Knows known)
    (hinserted : draft.recording.inserted = []) (value : Value) (d : Operation) :
    a.definition? p draft value = .ok (some d) ↔ d ∈ known ∧ value.name ∈ d.resultNames := by
  have hdefinitions := (similar_of_mem_attempts ha).1.definitions
  have hanswer : a.definition? p draft value = .ok (p.before.definitions.get? value.name) := by
    show Except.ok
      ((draft.recording.definition? value.name).or (a.before.definitions.get? value.name)) = _
    rw [Recording.definition?, hinserted, hdefinitions]
    rfl
  rw [hanswer, Except.ok.injEq]
  exact hknows value.name d

/-- **What a pattern is told about the definition of a value.** Take a scoped tree, sound matches
and enough names, and in any sweep a point at which a pattern is tried. A pattern that asks for the
definition of a value, and has inserted nothing before, is told `d` just if `d` defines the value
and is in view, an operation before the matched one or before one that holds it, or belongs to a
region that the sweep has left before. So it is told right about values that are visible; but about
a value that is not, it is told the operation that defines it in a region behind. The sweeps are
those of the run, each made of what the one before has left. -/
theorem definition?_iff (patterns : FrozenPatterns σ) (config : Config) {root : Operation}
    (context : Context) (memory : σ) (hroot : root.verify = .ok ())
    (hsound : ∀ m ∈ committed patterns config root context memory, m.SoundIn m.visible)
    (hnames : root.definedNames.length
      + ((committed patterns config root context memory).flatMap (·.drawn)).length ≤ 2 ^ 64)
    {start : Operation × State σ} (hstart : start ∈ sweepsOf patterns config root context memory)
    {before after : List (Stop σ)} {p : Point σ}
    (hstops : sweepStops patterns config start.1 start.2 = before ++ .tries p :: after)
    {a : Attempted σ} (ha : a ∈ p.attempts patterns config) {draft : Draft σ}
    (hinserted : draft.recording.inserted = []) (value : Value) (d : Operation) :
    Traced patterns config root context memory
      ∧ (a.definition? p draft value = .ok (some d) ↔ (d ∈ p.place.inView ∨ d ∈ leftIn before)
        ∧ value.name ∈ d.resultNames)
      ∧ (value.name ∈ p.place.visible →
        (a.definition? p draft value = .ok (some d) ↔ d ∈ p.place.inView
          ∧ value.name ∈ d.resultNames))
      ∧ (value.name ∉ p.place.visible →
        (a.definition? p draft value = .ok (some d) ↔ d ∈ leftIn before
          ∧ value.name ∈ d.resultNames)) := by
  obtain ⟨huses, hnodup⟩ := verify_eq_ok_iff.1 hroot
  have haccounts : Accounts patterns config (fun _ => 0)
    (iterate patterns config config.maxIterations 0 { root }) _ _ _
    { context, memory, names := namesFor root } :=
      accounts_iterate config.maxIterations 0 { root } _
  obtain ⟨last, hdraws⟩ := haccounts.draws
  obtain ⟨hbetween, hvalid⟩ := between_of_mem_sweepStarts config.maxIterations 0
    (sound_of_soundIn hsound)
    ⟨huses, NameSupply.nodup_append_drawn hdraws hnodup hnames, rfl, rfl⟩ hstart
  obtain ⟨hknows, hhidden⟩ := informs_sweep hbetween hvalid before p after hstops
  rw [List.nil_append] at hknows hhidden
  have htold := definition?_eq_ok_iff ha hknows hinserted value d
  rw [List.mem_append] at htold
  refine ⟨traced_applyGreedily .., htold, fun hvisible =>
    htold.trans (and_congr_left fun hname => or_iff_left fun hleft => ?_),
    fun hinvisible => htold.trans (and_congr_left fun hname => or_iff_right fun hinView => ?_)⟩
  · exact hhidden d hleft value.name hname hvisible
  · exact hinvisible (Place.mem_visible.2 ⟨d, hinView, hname⟩)

/-- A pattern that asks for the definition of a value, and does not match. -/
def askFor (value : Value) : Pattern Unit where
  name := "test::Look"
  root := some "test.use"
  rewrite _ := do
    let _ ← Attempt.definition? value
    return false

/-- Behind the region of an operation, after a match, the pattern asks for what the region
defines. -/
theorem definition?_iff_behindRegion :
    ∃ (x : Value) (inner : Operation) (patterns : FrozenPatterns Unit) (root : Operation)
    (start : Operation × State Unit) (before after : List (Stop Unit)) (p : Point Unit)
    (a : Attempted Unit), root.verify = .ok ()
      ∧ (committed patterns {} root default ()).length = 1
      ∧ sweepStops patterns {} start.1 start.2 = before ++ .tries p :: after
      ∧ a ∈ p.attempts patterns {}
      ∧ p.place.inView.map (·.name) = ["test.holder", "test.source", "arith.constant"]
      ∧ (a.definition? p a.before.draft x = .ok (some inner) ↔ inner ∈ leftIn before
        ∧ x.name ∈ inner.resultNames) := by
  let a : Value := ⟨"a", .int 8⟩
  let b : Value := ⟨"b", .int 8⟩
  let x : Value := ⟨"x", .int 8⟩
  let inner : Operation := { name := "test.inner", results := [x] }
  let root := Operation.module
    [{ name := "test.holder", region := some [inner] }, { name := "test.source", results := [a] },
      { name := "arith.subi", operands := [a, a], results := [b] },
      { name := "test.use", operands := [b] }]
  let patterns : FrozenPatterns Unit := ⟨[Arith.subSelf, askFor x]⟩
  have hpoint : ∃ start ∈ sweepsOf patterns {} root default (),
    ∃ p ∈ pointsAt (sweepStops patterns {} start.1 start.2),
      ∃ a ∈ p.attempts patterns {}, p.place.inView.map (·.name)
        = ["test.holder", "test.source", "arith.constant"]
        ∧ x.name ∉ p.place.visible := by decide +kernel
  obtain ⟨start, hstart, p, hp, a, ha, hinView, hinvisible⟩ := hpoint
  obtain ⟨before, after, hstops⟩ := exists_of_mem_pointsAt hp
  have hvalid : ∀ m ∈ committed patterns {} root default (), m.LocallyValid := by decide +kernel
  have hempty : a.before.draft.recording.inserted = [] := rfl
  have htold := definition?_iff patterns {} default () rfl (fun m hm => (hvalid m hm).soundIn)
    (by decide +kernel) hstart hstops ha hempty x inner
  exact ⟨x, inner, patterns, root, start, before, after, p, a, rfl, by decide +kernel, hstops, ha,
    hinView, htold.2.2.2 hinvisible⟩

/-- A pattern is told about a definition that the matched operation does not see. -/
theorem exists_definition_not_inView :
    ∃ (x : Value) (inner : Operation) (patterns : FrozenPatterns Unit) (root : Operation)
    (start : Operation × State Unit) (p : Point Unit) (a : Attempted Unit), root.verify = .ok ()
      ∧ (∀ m ∈ committed patterns {} root default (), m.LocallyValid)
      ∧ start ∈ sweepsOf patterns {} root default ()
      ∧ p ∈ pointsAt (sweepStops patterns {} start.1 start.2)
      ∧ a ∈ p.attempts patterns {} ∧ a.definition? p a.before.draft x = .ok (some inner)
      ∧ inner ∉ p.place.inView ∧ x.name ∉ p.place.visible := by
  let x : Value := ⟨"x", .int 8⟩
  let inner : Operation := { name := "test.inner", results := [x] }
  let root := Operation.module
    [{ name := "test.holder", region := some [inner] }, { name := "test.use" }]
  let patterns : FrozenPatterns Unit := ⟨[askFor x]⟩
  have hpoint : ∃ start ∈ sweepsOf patterns {} root default (),
    ∃ p ∈ pointsAt (sweepStops patterns {} start.1 start.2),
      ∃ a ∈ p.attempts patterns {}, a.before.definitions.get? x.name = some inner
        ∧ inner ∉ p.place.inView
        ∧ x.name ∉ p.place.visible := by decide +kernel
  obtain ⟨start, hstart, p, hp, a, ha, hfound, hhidden⟩ := hpoint
  exact ⟨x, inner, patterns, root, start, p, a, rfl, by decide +kernel, hstart, hp, ha,
    congrArg Except.ok hfound, hhidden⟩

end DialectIR.Greedy
