import DialectIR.Proofs.Commit
import DialectIR.Proofs.Steps

/-! Visits of operations and of what they hold: what is left in the place of scoped operations is
scoped, if the matches that are committed are valid. -/

namespace DialectIR.Greedy

open Operation

variable {σ : Type}

variable (patterns : FrozenPatterns σ) (config : Config)

/-- Matches on scoped operations are valid in view of what was visible or erased. -/
def Sound (encounters : List (Encounter σ)) : Prop :=
  ∀ e ∈ encounters, e.op.Scoped (e.visible ++ e.before.erasedNames) →
    ∀ m, e.match? patterns config = some m → m.SoundIn (e.visible ++ e.before.erasedNames)

/-- Visiting what an operation holds, through a number of levels, keeps the rules of scoping. -/
def WalksInto (levels : Nat) (within : Operation → Step σ Operation)
    (inside : List String → Operation → State σ → List (Encounter σ)) : Prop :=
  ∀ (new : List String) (op : Operation) (s : State σ), op.height ≤ levels →
    Sound patterns config (inside new op s) →
    Entry (new ++ s.erasedNames) new op.nested (drawnIn patterns config (inside new op s)) s →
    Ensures (within op) s (fun op' s' => op'.toHead = op.toHead
      ∧ Exit (new ++ s.erasedNames) new op.nested (drawnIn patterns config (inside new op s)) s
        op'.nested s')
      fun error _ => BlamesPattern error

variable {patterns config} {old new drawn : List String} {op : Operation} {s : State σ}
  {levels : Nat} {within : Operation → Step σ Operation}
  {inside : List String → Operation → State σ → List (Encounter σ)}

theorem Sound.append {encounters more : List (Encounter σ)} :
    Sound patterns config (encounters ++ more) ↔ Sound patterns config encounters
      ∧ Sound patterns config more := by
  simp only [Sound, List.mem_append, or_imp, forall_and]

/-- Visiting what an operation holds, or leaving it for later. -/
theorem WalksInto.ensures_ite (hwithin : WalksInto patterns config levels within inside)
    (condition : Bool) (hheight : condition = true → op.height ≤ levels)
    (hsound : Sound patterns config (if condition then inside new op s else []))
    (h : Entry (new ++ s.erasedNames) new [op]
      (drawnIn patterns config (if condition then inside new op s else [])) s) :
    Ensures (if condition then within op else pure op) s (fun op' s' => op'.toHead = op.toHead
      ∧ Exit (new ++ s.erasedNames) new [op]
        (drawnIn patterns config (if condition then inside new op s else [])) s [op'] s')
      fun error _ => BlamesPattern error := by
  cases condition with
  | true =>
      apply (hwithin new op s (hheight rfl) hsound h.nested).mono
      intro op' s' _ hwalked
      exact ⟨hwalked.1, .node h hwalked.1 hwalked.2⟩
  | false => exact ⟨rfl, Exit.refl h⟩

/-- An operation that stays behind what is inserted before it. -/
theorem ensures_settle (hwithin : WalksInto patterns config levels within inside)
    {inserted : List Operation} {kept : Operation}
    (hheight : config.topDown = true → kept.height ≤ levels)
    (hsound : Sound patterns config (if config.topDown
      then inside (visibleAfter new inserted) kept s else []))
    (h : Entry (new ++ s.erasedNames) new (inserted ++ [kept])
      (drawnIn patterns config (if config.topDown then inside (visibleAfter new inserted) kept s
        else [])) s) :
    Ensures (visit.settle config within inserted kept) s
      (Exit (new ++ s.erasedNames) new (inserted ++ [kept])
        (drawnIn patterns config (if config.topDown
          then inside (visibleAfter new inserted) kept s else [])) s)
      fun error _ => BlamesPattern error := by
  have hentry : Entry (new ++ s.erasedNames) new (inserted ++ [kept]) ([] ++
      drawnIn patterns config (if config.topDown then inside (visibleAfter new inserted) kept s
        else [])) s := h
  have hinserted := Exit.refl hentry.left
  have hkept := hentry.right hinserted
  rw [visibleAfter_append_left] at hkept
  rw [settle_eq]
  apply (hwithin.ensures_ite config.topDown hheight hsound hkept).bind
  intro kept' s' _ hwalked
  have hexit := hwalked.2
  rw [← visibleAfter_append_left] at hexit
  exact (Exit.append hentry hinserted hexit).congr ⟨rfl, rfl⟩ ⟨rfl, rfl⟩

theorem height_of_region {op op' : Operation} (h : op'.region = op.region) :
    op'.height = op.height := by
  obtain ⟨head, region⟩ := op
  obtain ⟨head', region'⟩ := op'
  cases h
  cases region <;> rfl

/-- The changes of a valid match keep the rules of scoping. -/
theorem ensures_commit (hwithin : WalksInto patterns config levels within inside) {m : Match}
    (hheight : config.topDown = true → m.op.height ≤ levels)
    (hvalid : m.SoundIn (new ++ s.erasedNames)) (hsuits : m.recording.Suits m.op)
    (hsound : Sound patterns config (innerEncounters config inside new m.op m.recording s))
    (h : Entry (new ++ s.erasedNames) new [m.op]
      (m.drawn ++ drawnIn patterns config (innerEncounters config inside new m.op m.recording s))
        s) :
    Ensures (commit config within m.op m.recording) s
      (Exit (new ++ s.erasedNames) new [m.op]
        (m.drawn ++ drawnIn patterns config (innerEncounters config inside new m.op m.recording s))
          s)
      fun error _ => BlamesPattern error := by
  generalize hregistered : m.recording.inserted.foldl State.register s = s₁
  have hagrees : s.Agrees s₁ := hregistered ▸ agrees_register m.recording.inserted s
  have hentry := h.congr hagrees
  rw [← hagrees.erasedNames] at hentry hvalid ⊢
  unfold innerEncounters at hsound hentry ⊢
  unfold commit
  rw [Ensures.modify_bind_iff, hregistered]
  rw [hregistered] at hsound hentry
  cases hstays : stays? m.op m.recording with
  | none =>
      rw [hstays] at hentry
      unfold stays? at hstays
      split at hstays
      next values haction =>
        rw [haction]
        exact (exit_of_replace hentry hvalid haction hsuits).congr hagrees ⟨rfl, rfl⟩
      next haction =>
        rw [haction]
        exact (exit_of_erase hentry hvalid haction).congr hagrees ⟨rfl, rfl⟩
      next => cases hstays
      next => cases hstays
  | some kept =>
      rw [hstays] at hentry hsound
      obtain ⟨hinserted, hclaimed, hresults, hregion⟩ := entry_of_stays hentry hvalid hsuits hstays
      have hact : s₁.act m.op.results m.recording.action = s₁ := act_of_stays hstays
      rw [← height_of_region hregion] at hheight
      rw [hact]
      apply (ensures_settle hwithin hheight hsound hinserted).mono
      intro out s' _ hexit
      refine (hexit.weaken hclaimed ?_).congr hagrees ⟨rfl, rfl⟩
      rw [List.flatMap_singleton, List.flatMap_append, List.flatMap_singleton, hresults]
      exact List.subset_append_right _ _

/-- The match that trying patterns comes to, or one without changes. -/
theorem exists_match {depth : Nat} {recording? : Option Recording} {s' : State σ}
    (hreturns : Returns (applyPatterns patterns config depth op) s recording? s')
    (hscoped : op.Scoped (new ++ s.erasedNames))
    (hsound : Sound patterns config [⟨new, depth, op, s⟩]) : ∃ m : Match, m.op = op
      ∧ m.drawn = drawnIn patterns config [⟨new, depth, op, s⟩] ∧ m.recording = recording?.getD {}
      ∧ m.SoundIn (new ++ s'.erasedNames) ∧ m.recording.Suits op := by
  have htried := (ensures_applyPatterns patterns config new depth op s).of_returns hreturns
  cases recording? with
  | none => exact ⟨⟨new, op, _, {}⟩, rfl, rfl, rfl, .none _ _ _ _, nofun⟩
  | some recording =>
      refine ⟨⟨new, op, drawnBy depth op (patterns.patternsFor op.name) s, recording⟩, rfl,
        (drawnIn_of_returns patterns config hreturns).symm, rfl, ?_, htried.suits recording rfl⟩
      rw [htried.similar.agrees.erasedNames]
      exact hsound _ List.mem_cons_self hscoped _ (match?_of_returns patterns config hreturns)

/-- Trying patterns and committing the match keeps the rules of scoping. -/
theorem ensures_match (hwithin : WalksInto patterns config levels within inside) (depth : Nat)
    (hheight : config.topDown = true → op.height ≤ levels)
    (hsound : Sound patterns config (encountersFrom patterns config inside depth new op s))
    (h : Entry (new ++ s.erasedNames) new [op]
      (drawnIn patterns config (encountersFrom patterns config inside depth new op s)) s) :
    Ensures (applyPatterns patterns config depth op >>= fun recording? =>
      commit config within op (recording?.getD {})) s
      (Exit (new ++ s.erasedNames) new [op]
        (drawnIn patterns config (encountersFrom patterns config inside depth new op s)) s)
      fun error _ => BlamesPattern error := by
  refine (ensures_applyPatterns patterns config new depth op s).bind
    fun recording? s' hreturns htried => ?_
  have hagrees := htried.similar.agrees
  have hfrom := encountersFrom_of_returns inside new hreturns
  rw [hfrom, Sound.append] at hsound
  rw [hfrom, drawnIn_append] at h ⊢
  obtain ⟨m, rfl, hdrawn, hrecording, hvalid, hsuits⟩ :=
    exists_match hreturns (scopedAll_singleton.1 h.uses) hsound.1
  rw [← hrecording] at hsound h ⊢
  rw [← hdrawn, ← hagrees.erasedNames] at h ⊢
  apply (ensures_commit hwithin hheight hvalid hsuits hsound.2 (h.congr hagrees)).mono
  intro out s'' _ hexit
  exact hexit.congr hagrees ⟨rfl, rfl⟩

/-- A visit keeps the rules of scoping, if the matches in it are valid. -/
theorem ensures_visit (hwithin : WalksInto patterns config levels within inside) (depth : Nat)
    (hheight : op.height ≤ levels)
    (hsound : Sound patterns config (visitEncounters patterns config within inside depth new op s))
    (h : Entry old new [op]
      (drawnIn patterns config (visitEncounters patterns config within inside depth new op s)) s) :
    Ensures (visit patterns config within depth op) s
      (Exit old new [op]
        (drawnIn patterns config (visitEncounters patterns config within inside depth new op s)) s)
      fun error _ => BlamesPattern error := by
  rw [visit_eq]
  apply (ensures_substitute h _).bind
  intro op₁ s₁ hreturns₁ hpost
  obtain ⟨rfl, hsubstituted⟩ := hpost
  rw [visitEncounters_eq, afterwards_of_returns hreturns₁, drawnIn_append] at h hsubstituted ⊢
  rw [visitEncounters_eq, afterwards_of_returns hreturns₁, Sound.append] at hsound
  have hheight₁ : op₁.height ≤ levels := hsubstituted.height ▸ hheight
  apply (hwithin.ensures_ite _ (fun _ => hheight₁) hsound.1 hsubstituted.entry.fewer).bind
  intro op₂ s₂ hreturns₂ hwalked
  obtain ⟨hhead, hexit₂⟩ := hwalked
  have hagain := hexit₂.again hsubstituted.entry
  rw [afterwards_of_returns hreturns₂] at h hsubstituted hagain hsound ⊢
  refine (ensures_match hwithin depth (fun htopDown => ?_) hsound.2 hagain).mono
    fun out s' _ hexit => ?_
  · rw [htopDown] at hreturns₂
    obtain ⟨rfl, -⟩ := Returns.pure_iff.1 hreturns₂
    exact hheight₁
  · refine hsubstituted.exit h (hexit₂.trans hexit ?_ (List.Subset.refl _))
    rw [List.flatMap_singleton, List.flatMap_singleton, hhead]
    exact List.Subset.refl _

theorem ensures_visitAll (hwithin : WalksInto patterns config levels within inside) (depth : Nat)
    (ops : List Operation) (hheight : ∀ op ∈ ops, op.height ≤ levels)
    (hsound : Sound patterns config (visitAllEncounters patterns config within inside depth new ops s))
    (h : Entry old new ops (drawnIn patterns config
      (visitAllEncounters patterns config within inside depth new ops s)) s) :
    Ensures (visitAll patterns config within depth ops) s
      (Exit old new ops (drawnIn patterns config
        (visitAllEncounters patterns config within inside depth new ops s)) s)
      fun error _ => BlamesPattern error := by
  induction ops generalizing old new s with
  | nil => exact Exit.nil h.linked
  | cons op ops ih =>
      rw [visitAllEncounters, drawnIn_append] at h ⊢
      rw [visitAllEncounters, Sound.append] at hsound
      have hentry : Entry old new ([op] ++ ops) _ s := h
      have hfirst := ensures_visit hwithin depth (hheight op List.mem_cons_self)
        hsound.1 hentry.left
      apply hfirst.bind
      intro first s' hreturns hexit
      rw [afterwards_of_returns hreturns] at hsound h ⊢
      have hrest := ih (fun other hother => hheight other (List.mem_cons_of_mem _ hother)) hsound.2
        (Entry.right h hexit)
      exact hrest.bind fun rest s'' _ hexit' => Exit.append h hexit hexit'

theorem height_le_heightOfAll {op : Operation} :
    {ops : List Operation} → op ∈ ops → op.height ≤ heightOfAll ops
  | first :: ops, h => by
      rw [heightOfAll]
      rcases List.mem_cons.1 h with rfl | h
      · exact Nat.le_max_left _ _
      · exact Nat.le_trans (height_le_heightOfAll h) (Nat.le_max_right _ _)

/-- Visiting what an operation holds keeps the rules of scoping, if there are enough levels. -/
theorem walksInto_visitRegion (patterns : FrozenPatterns σ) (config : Config) (levels depth : Nat) :
    WalksInto patterns config levels (visitRegion patterns config levels depth)
      (regionEncounters patterns config levels depth) := by
  induction levels generalizing depth with
  | zero =>
      intro new op s hheight
      have hpos := op.height_pos
      omega
  | succ levels ih =>
      rintro new ⟨head, _ | ops⟩ s hheight hsound h
      · unfold visitRegion
        exact ⟨rfl, Exit.refl h⟩
      · unfold visitRegion
        have hbelow : heightOfAll ops ≤ levels := Nat.le_of_succ_le_succ hheight
        have hall := ensures_visitAll (ih (depth + 1)) depth ops
          (fun op hop => Nat.le_trans (height_le_heightOfAll hop) hbelow) hsound h
        exact hall.bind fun out s' _ hexit => ⟨rfl, hexit⟩

end DialectIR.Greedy
