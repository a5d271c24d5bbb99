import DialectIR.Arith
import DialectIR.Proofs.DrawnNames
import DialectIR.Proofs.Visit

/-! Runs of greedy rewriting keep the rules of scoping: every sweep does, and so does the removal of
dead operations. -/

namespace DialectIR

namespace Operation

mutual

/-- What no operand uses does not have to be visible. -/
theorem Scoped.of_unused {visible gone : List String} :
    {op : Operation} → op.Scoped (visible ++ gone) →
    (∀ name ∈ op.usedNames, name ∉ gone) → op.Scoped visible
  | ⟨head, none⟩, h, hunused => by
      intro operand hoperand
      refine (List.mem_append.1 (h operand hoperand)).resolve_right (hunused operand.name ?_)
      rw [usedNames, heads, List.flatMap_singleton]
      exact List.mem_map_of_mem hoperand
  | ⟨head, some ops⟩, h, hunused => by
      rw [usedNames, heads, List.flatMap_cons] at hunused
      refine ⟨fun operand hoperand => ?_, ScopedAll.of_unused h.2 fun name hname =>
        hunused name (List.mem_append_right _ hname)⟩
      refine (List.mem_append.1 (h.1 operand hoperand)).resolve_right (hunused operand.name ?_)
      exact List.mem_append_left _ (List.mem_map_of_mem hoperand)

theorem ScopedAll.of_unused {visible gone : List String} :
    {ops : List Operation} → ScopedAll (visible ++ gone) ops →
    (∀ name ∈ (headsOfAll ops).flatMap fun head => head.operands.map Value.name, name ∉ gone) →
      ScopedAll visible ops
  | [], _, _ => trivial
  | op :: ops, h, hunused => by
      rw [headsOfAll, List.flatMap_append] at hunused
      refine ⟨Scoped.of_unused h.1 fun name hname =>
        hunused name (List.mem_append_left _ hname), ?_⟩
      refine ScopedAll.of_unused ?_ fun name hname => hunused name (List.mem_append_right _ hname)
      rw [List.append_assoc]
      exact h.2

end

theorem not_mem_usedNames {op : Operation} {value : Value} (h : op.usesOf value = 0) :
    value.name ∉ op.usedNames := by
  intro hmem
  obtain ⟨head, hhead, hname⟩ := List.mem_flatMap.1 hmem
  obtain ⟨operand, hoperand, hname⟩ := List.mem_map.1 hname
  have hnone := List.countP_eq_zero.1 h operand (List.mem_flatMap.2 ⟨head, hhead, hoperand⟩)
  simp [hname] at hnone

end Operation

namespace Greedy

open Operation

variable {σ : Type} {patterns : FrozenPatterns σ} {config : Config} {drawn drawn' : List String}
  {root : Operation} {s : State σ}

/-- A tree before a sweep or behind one, and the names that will be drawn for it. -/
structure Between (root : Operation) (drawn : List String) (s : State σ) : Prop where
  uses : root.Scoped []
  nodup : (root.definedNames ++ drawn).Nodup
  replaced : s.replaced = .empty
  erased : s.erased = []

/-- A pattern is to blame for the error, or it erased a result that is in use. -/
def Blamable (error : Error) : Prop := BlamesPattern error ∨ ∃ result, error = .erasedInUse result

theorem Between.entry (h : Between root drawn s) :
    Entry ([] ++ s.erasedNames) [] [root] drawn s := by
  have hnames : s.erasedNames = [] := by rw [State.erasedNames, h.erased, List.map_nil]
  have hnone (name : String) : s.replaced.get? name = none := by rw [h.replaced, Dict.get?_empty]
  have hclaimed : claimed [root] drawn = root.definedNames ++ drawn := by
    rw [claimed, definedNamesOfAll_cons, definedNamesOfAll_nil, List.append_nil]
  rw [hnames]
  refine ⟨scopedAll_singleton.2 h.uses, .of_forall (fun name _ => hnone name) (List.nil_subset _),
    hclaimed ▸ h.nodup, fun name _ => ⟨List.not_mem_nil, List.not_mem_nil, ?_, hnone name⟩⟩
  rw [hnames]
  exact List.not_mem_nil

/-- The end of a sweep: what is left of replaced results is replaced, and what was erased is not in
use. -/
theorem ensures_finish (h : Entry ([] ++ s.erasedNames) [] [root] drawn s) :
    Ensures (finish root) s (Between · drawn ·) fun error _ => Blamable error := by
  unfold finish
  apply (ensures_substitute h _).bind
  intro root' s' _ hpost
  obtain ⟨rfl, hsubstituted⟩ := hpost
  rw [Ensures.modify_bind_iff, Ensures.get_bind_iff]
  dsimp only
  rw [Ensures.modify_bind_iff]
  split
  next result _ => exact .inr ⟨result, rfl⟩
  next hfind =>
    have hentry := hsubstituted.entry
    refine ⟨?_, ?_, rfl, rfl⟩
    · apply Scoped.of_unused (scopedAll_singleton.1 hentry.uses)
      intro name hname hmem
      obtain ⟨result, hresult, rfl⟩ := List.mem_map.1 hmem
      have huses := List.find?_eq_none.1 hfind result hresult
      exact not_mem_usedNames (by simpa using huses) hname
    · have hnodup := hentry.nodup
      rw [claimed, definedNamesOfAll_cons, definedNamesOfAll_nil, List.append_nil] at hnodup
      exact hnodup

/-- **A sweep keeps the rules of scoping**, if its matches are valid. -/
theorem ensures_sweep
    (h : Between root (drawnIn patterns config (sweepEncounters patterns config root s) ++ drawn) s)
    (hsound : Sound patterns config (sweepEncounters patterns config root s)) :
    Ensures (sweep patterns config root) s (Between · drawn ·) fun error _ => Blamable error := by
  rw [sweep_eq, Ensures.modify_bind_iff]
  have hagrees : s.Agrees { s with definitions := .empty } := ⟨rfl, rfl⟩
  have hentry := h.entry.congr hagrees
  have hwalks := walksInto_visitRegion patterns config (root.height + spareLevels) 0 [] root _
    (Nat.le_add_right _ _) hsound hentry.fewer.nested
  apply (hwalks.weaken fun error _ => .inl).bind
  intro root' s' _ hwalked
  exact ensures_finish ((Exit.node hentry.fewer hwalked.1 hwalked.2).again hentry)

theorem ensures_sweep_of_between
    (h : Between root (drawnIn patterns config (sweepEncounters patterns config root s)) s)
    (hsound : Sound patterns config (sweepEncounters patterns config root s)) :
    Ensures (sweep patterns config root) s (Between · [] ·) fun error _ => Blamable error := by
  apply ensures_sweep _ hsound
  rw [List.append_nil]
  exact h

theorem ensures_removeDead (h : Between root drawn s) :
    Ensures (removeDead config root) s (fun swept s' => Between swept.1 drawn s') fun error _ =>
      Blamable error := by
  unfold removeDead
  split
  · rw [Ensures.get_bind_iff]
    dsimp only
    rw [Ensures.modify_bind_iff, Ensures.pure_iff]
    have hprune (op : Operation) (other : Context) (_ : s.context.SameDialects other)
        (hop : op.Scoped [] ∧ op.definedNames.Sublist root.definedNames) :
        (op.prune (other.isDead op.usedNames)).Scoped []
          ∧ (op.prune (other.isDead op.usedNames)).definedNames.Sublist root.definedNames :=
      ⟨scoped_prune hop.1, (definedNames_prune _ op).trans hop.2⟩
    obtain ⟨⟨huses, hnames⟩, -⟩ := removeDeadOps_induction s.context hprune
      ⟨h.uses, List.Sublist.refl _⟩
    exact ⟨huses, h.nodup.sublist (hnames.append (List.Sublist.refl _)), h.replaced, h.erased⟩
  · exact h

/-- **A run keeps the rules of scoping**, if its matches are valid and the names that it draws are
new. -/
theorem ensures_iterate (remaining iteration : Nat) {progress : Progress}
    (hsound : Sound patterns config
      (iterateEncounters patterns config remaining iteration progress.root s))
    (h : Between progress.root
      (drawnIn patterns config
        (iterateEncounters patterns config remaining iteration progress.root s)) s) :
    Ensures (iterate patterns config remaining iteration progress) s
      (fun progress' _ => progress'.root.verify = .ok ())
      fun error _ => Blamable error := by
  induction remaining generalizing iteration progress s with
  | zero => exact verify_eq_ok_iff.2 ⟨h.uses, (List.nodup_append.1 h.nodup).1⟩
  | succ remaining ih =>
      rw [iterate_eq, Ensures.get_bind_iff]
      unfold iterateEncounters at hsound h
      split
      · exact verify_eq_ok_iff.2 ⟨h.uses, (List.nodup_append.1 h.nodup).1⟩
      next hlimit =>
        rw [if_neg hlimit, Sound.append] at hsound
        rw [if_neg hlimit, drawnIn_append] at h
        rw [Ensures.modify_bind_iff, Ensures.get_bind_iff]
        have hnoted : Between progress.root _
          (s.note (.iteration iteration progress.root.name.text)) :=
          ⟨h.uses, h.nodup, h.replaced, h.erased⟩
        have hswept : Ensures (sweep patterns config progress.root >>= removeDead config) _ _ _ :=
          (ensures_sweep hnoted hsound.1).bind fun root s' _ => ensures_removeDead
        apply hswept.bind
        intro swept s' hreturns hbetween
        obtain ⟨root, removed⟩ := swept
        rw [afterwards_of_returns hreturns] at hsound hbetween
        rw [Ensures.get_bind_iff]
        show Ensures (if s'.rewrites = s.rewrites && removed = 0 then _ else _) s' _ _
        by_cases hstop : (s'.rewrites = s.rewrites && removed = 0) = true
        · rw [if_pos hstop]
          exact verify_eq_ok_iff.2 ⟨hbetween.uses, (List.nodup_append.1 hbetween.nodup).1⟩
        · have hrest := hsound.2
          dsimp only at hrest hbetween
          rw [if_neg hstop] at hrest hbetween ⊢
          exact ih (iteration + 1) hrest hbetween

/-! ### Locally valid matches -/

theorem sound_of_soundIn {encounters : List (Encounter σ)}
    (h : ∀ m ∈ encounters.filterMap (Encounter.match? patterns config), m.SoundIn m.visible) :
    Sound patterns config encounters := by
  intro e he _ m hmatch
  have hvisible : m.visible = e.visible := by
    unfold Encounter.match? at hmatch
    split at hmatch
    · cases hmatch
      rfl
    · cases hmatch
  have hsound := h m (List.mem_filterMap.2 ⟨e, he, hmatch⟩)
  exact hsound.mono (hvisible ▸ List.subset_append_left _ _)

theorem sound_of_locallyValid {encounters : List (Encounter σ)}
    (h : ∀ m ∈ encounters.filterMap (Encounter.match? patterns config), m.LocallyValid) :
    Sound patterns config encounters :=
  sound_of_soundIn fun m hm => Match.ValidIn.soundIn (h m hm)

/-- The end of a run: a tree without changes is given back as it was. -/
theorem ensures_rewrite (post : Operation → Prop) {fails : Error → Prop} (hroot : post root)
    (h : Ensures (iterate patterns config config.maxIterations 0 { root }) s
      (fun progress _ => post progress.root)
      fun error _ => fails error) :
    Ensures (rewrite patterns config root) s (fun out _ => post out.2) fun error _ =>
      fails error := by
  apply h.bind
  intro progress s' _ hprogress
  have hout : post (if progress.changed then progress.root else root) := by
    split
    · exact hprogress
    · exact hroot
  rw [Ensures.get_bind_iff]
  cases progress.converged with
  | true => exact hout
  | false => exact hout

end Greedy

open Greedy

variable {σ : Type}

/-- What a run of rewriting leaves, in view of all that it can do. -/
theorem applyGreedily_cases {patterns : FrozenPatterns σ} {config : Config} {root : Operation}
    {context : Context} {memory : σ} (post : Operation → Prop) {fails : Error → Prop}
    (h : Ensures (rewrite patterns config root) { context, memory, names := namesFor root }
      (fun out _ => post out.2)
      fun error _ => fails error) :
    (∃ outcome, (applyGreedily patterns config root context memory).result = .ok outcome
        ∧ post (applyGreedily patterns config root context memory).op)
      ∨ ∃ error, (applyGreedily patterns config root context memory).result
        = .error error ∧ fails error
        ∧ (applyGreedily patterns config root context memory).op = root := by
  unfold applyGreedily
  unfold Ensures runFrom at h
  split
  next outcome op after hrun =>
    rw [hrun] at h
    exact .inl ⟨outcome, rfl, h⟩
  next error after hrun =>
    rw [hrun] at h
    exact .inr ⟨error, rfl, h, rfl⟩

/-- A run changes no answer of the context. -/
theorem sameDialects_applyGreedily {patterns : FrozenPatterns σ} {config : Config}
    {root : Operation} {context : Context} {memory : σ} {outcome : Outcome}
    (h : (applyGreedily patterns config root context memory).result = .ok outcome) :
    context.SameDialects (applyGreedily patterns config root context memory).context := by
  have haccounts : Accounts patterns config (fun _ => 0)
    (iterate patterns config config.maxIterations 0 { root }) _ _ _
    { context, memory, names := namesFor root } :=
      accounts_iterate config.maxIterations 0 { root } _
  have hrewrite : Ensures (rewrite patterns config root) { context, memory, names := namesFor root }
      (fun _ s' => context.SameDialects s'.context) fun _ _ => True := by
    apply (Ensures.of_forall_returns haccounts.dialects).bind
    intro progress s' _ hsame
    rw [Ensures.get_bind_iff]
    cases progress.converged with
    | true => exact hsame
    | false => exact hsame.trans (sameDialects_note _ _)
  unfold applyGreedily at h ⊢
  unfold Ensures runFrom at hrewrite
  split at h
  next outcome' op after hrun =>
    rw [hrun] at hrewrite
    exact hrewrite
  next => cases h

/-- **Locally valid patterns keep the rules of scoping.** A tree in which every value is defined
once and used only behind its definition is still such a tree when it was rewritten, as long as
there are numbers of 64 bits for all names. -/
theorem verify_applyGreedily (patterns : FrozenPatterns σ) (config : Config) {root : Operation}
    (context : Context) (memory : σ) (hroot : root.verify = .ok ())
    (hvalid : ∀ m ∈ committed patterns config root context memory, m.LocallyValid)
    (hnames : root.definedNames.length
      + ((committed patterns config root context memory).flatMap (·.drawn)).length ≤ 2 ^ 64) :
    (applyGreedily patterns config root context memory).op.verify = .ok () := by
  obtain ⟨huses, hnodup⟩ := Operation.verify_eq_ok_iff.1 hroot
  have haccounts : Accounts patterns config (fun _ => 0)
    (iterate patterns config config.maxIterations 0 { root }) _ _ _
    { context, memory, names := namesFor root } :=
      accounts_iterate config.maxIterations 0 { root } _
  obtain ⟨after, hdraws⟩ := haccounts.draws
  have hbetween : Between root _ { context, memory, names := namesFor root } :=
    ⟨huses, NameSupply.nodup_append_drawn hdraws hnodup hnames, rfl, rfl⟩
  have hsound : Sound patterns config (iterateEncounters patterns config config.maxIterations 0 root
      { context, memory, names := namesFor root }) := sound_of_locallyValid hvalid
  have hiterate : Ensures (iterate patterns config config.maxIterations 0 { root }) _ _ _ :=
    ensures_iterate config.maxIterations 0 hsound hbetween
  rcases applyGreedily_cases (·.verify = .ok ())
    (ensures_rewrite (·.verify = .ok ()) hroot hiterate) with ⟨_, _, hop⟩ | ⟨_, _, _, hop⟩
  · exact hop
  · rw [hop]
    exact hroot

/-- The difference of a value and itself becomes zero under a new name. -/
theorem verify_applyGreedily_difference : ∃ root : Operation, root.definedNames = ["a", "b"]
    ∧ (committed (σ := Unit) ⟨[Arith.subSelf]⟩ {} root default ()).length = 1
    ∧ (applyGreedily (σ := Unit) ⟨[Arith.subSelf]⟩ {} root default ()).op.verify = .ok () := by
  let a : Value := ⟨"a", .int 8⟩
  let b : Value := ⟨"b", .int 8⟩
  let root := Operation.module
    [{ name := "test.source", results := [a] },
      { name := "arith.subi", operands := [a, a], results := [b] },
      { name := "test.sink", operands := [b] }]
  exact ⟨root, by decide +kernel, by decide +kernel,
    verify_applyGreedily _ _ _ _ rfl (by decide +kernel) (by decide +kernel)⟩

end DialectIR
