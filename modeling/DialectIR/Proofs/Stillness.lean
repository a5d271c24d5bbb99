import DialectIR.Proofs.Attempts
import DialectIR.Proofs.DeadCode
import DialectIR.Proofs.Steps

/-! Sweeps without a match. Where no pattern has anything to do, a sweep leaves the tree as it is;
and a sweep that has counted no match has changed nothing. -/

namespace DialectIR

variable {σ α : Type}

/-- What the pattern records on an operation that finds the given definitions, nothing if it does
not match. -/
def Pattern.Yields (pattern : Pattern σ) (op : Operation) (definitions : Dict Operation)
    (recording? : Option Recording) : Prop :=
  ∀ (site : Site) (draft : Draft σ), site.op = op → site.definitions = definitions →
    draft.recording = {} →
    (pattern.rewrite op).Does site draft fun answer _ draft =>
      answer = .ok recording?.isSome ∧ ∀ recording, recording? = some recording →
        draft.recording = recording

namespace Greedy

open Operation

/-- The state behind a number of matches that leave no result to be replaced or erased. -/
structure State.Advances (n : Nat) (s s' : State σ) : Prop where
  replaced : s'.replaced = s.replaced
  erased : s'.erased = s.erased
  rewrites : s'.rewrites = s.rewrites + n
  dialects : s.context.SameDialects s'.context

theorem State.Advances.refl (s : State σ) : s.Advances 0 s := ⟨rfl, rfl, rfl, .refl _⟩

theorem State.Advances.trans {a b c : State σ} {m n : Nat} (h : a.Advances m b)
    (h' : b.Advances n c) : a.Advances (m + n) c where
  replaced := h'.replaced.trans h.replaced
  erased := h'.erased.trans h.erased
  rewrites := by rw [h'.rewrites, h.rewrites, Nat.add_assoc]
  dialects := h.dialects.trans h'.dialects

theorem State.advances_register (inserted : List Operation) (s : State σ) :
    s.Advances 0 (inserted.foldl State.register s) := by
  induction inserted generalizing s with
  | nil => exact .refl s
  | cons op ops ih =>
      have hop : s.Advances 0 (s.register op) := ⟨rfl, rfl, rfl, .refl _⟩
      exact hop.trans (ih (s.register op))

variable {patterns : FrozenPatterns σ} {config : Config} {op : Operation} {ops : List Operation}
  {s s' s'' : State σ}

theorem ensures_attempt_of_yields {pattern : Pattern σ} {recording? : Option Recording}
    (depth : Nat) (hyields : pattern.Yields op s.definitions recording?)
    (hmade : ∀ recording, recording? = some recording → recording.isEmpty = false) :
    Ensures (attempt depth op pattern) s
      (fun made? s' => made? = recording? ∧ s'.definitions = s.definitions
      ∧ s.Advances recording?.toList.length s') fun _ _ => False := by
  have hdoes := hyields (s.site op) s.draft rfl rfl rfl
  have hnote := sameDialects_note s.context (.matching depth op.name.text pattern.name)
  unfold attempt
  rw [Ensures.modify_bind_iff, Ensures.get_bind_iff, Ensures.set_bind_iff]
  generalize hrun : Rewrite.run _ _ _ = outcome
  obtain ⟨answer, draft⟩ := outcome
  have hrun' : (pattern.rewrite op).run.run (s.site op) s.draft = (answer, draft) := hrun
  unfold Attempt.Does at hdoes
  rw [hrun'] at hdoes
  obtain ⟨rfl, hrecording⟩ := hdoes
  cases recording? with
  | none => exact ⟨rfl, rfl, rfl, rfl, rfl, hnote⟩
  | some recording =>
      have hmade := hmade recording rfl
      rw [← hrecording recording rfl] at hmade ⊢
      dsimp only [Option.isSome]
      rw [if_neg (Bool.eq_false_iff.1 hmade), Ensures.modify_bind_iff, Ensures.modify_bind_iff]
      exact ⟨rfl, rfl, rfl, rfl, rfl, hnote.trans (sameDialects_note _ _)⟩

theorem ensures_attemptFirst_of_none (depth : Nat) (patterns : List (Pattern σ))
    (hyields : ∀ pattern ∈ patterns, pattern.Yields op s.definitions none) :
    Ensures (attemptFirst depth op patterns) s
      (fun made? s' => made? = none ∧ s'.definitions = s.definitions
      ∧ s.Advances 0 s') fun _ _ => False := by
  induction patterns generalizing s with
  | nil => exact ⟨rfl, rfl, .refl s⟩
  | cons pattern rest ih =>
      rw [List.forall_mem_cons] at hyields
      unfold attemptFirst
      apply (ensures_attempt_of_yields depth hyields.1 fun _ h => by cases h).bind
      rintro _ s' _ ⟨rfl, hdefinitions, hadvances⟩
      rw [← hdefinitions] at hyields ⊢
      apply (ih hyields.2).mono
      rintro made? s'' _ ⟨hnone, hdefinitions', hadvances'⟩
      exact ⟨hnone, hdefinitions', hadvances.trans hadvances'⟩

theorem limitReached_iff :
    s.limitReached config = true ↔ ∃ most, config.maxRewrites = some most ∧ most ≤ s.rewrites := by
  unfold State.limitReached
  rw [Option.any_eq_true]
  exact exists_congr fun most => and_congr_right fun _ => decide_eq_true_iff

theorem limitReached_of_none (hlimit : config.maxRewrites = none) (s : State σ) :
    s.limitReached config = false := by
  rw [State.limitReached, hlimit, Option.any_none]

/-- The first pattern for an operation is tried first. -/
theorem ensures_applyPatterns_of_first {pattern : Pattern σ} {rest : List (Pattern σ)}
    {recording : Recording} (depth : Nat) (hlimit : config.maxRewrites = none)
    (hfirst : patterns.patternsFor op.name = pattern :: rest)
    (hyields : pattern.Yields op s.definitions (some recording))
    (hmade : recording.isEmpty = false) :
    Ensures (applyPatterns patterns config depth op) s
      (fun made? s' => made? = some recording ∧ s.Advances 1 s')
      fun _ _ => False := by
  unfold applyPatterns
  rw [Ensures.get_bind_iff, limitReached_of_none hlimit, if_neg Bool.false_ne_true, hfirst]
  unfold attemptFirst
  apply (ensures_attempt_of_yields depth hyields (by rintro _ ⟨⟩; exact hmade)).bind
  rintro _ s' _ ⟨rfl, -, hadvances⟩
  exact ⟨rfl, hadvances⟩

theorem ensures_applyPatterns_of_none (depth : Nat)
    (hyields : ∀ pattern ∈ patterns.patternsFor op.name, pattern.Yields op s.definitions none) :
    Ensures (applyPatterns patterns config depth op) s
      (fun made? s' => made? = none ∧ s'.definitions = s.definitions
      ∧ s.Advances 0 s') fun _ _ => False := by
  unfold applyPatterns
  rw [Ensures.get_bind_iff]
  split
  · exact ⟨rfl, rfl, .refl s⟩
  · exact ensures_attemptFirst_of_none depth _ hyields

theorem ensures_substitute_of_empty (h : s.replaced = .empty) (fails : Error → State σ → Prop) :
    Ensures (substitute op) s (fun op' s' => op' = op ∧ s' = s) fails := by
  unfold substitute
  rw [Ensures.get_bind_iff, h]
  exact ⟨rfl, rfl⟩

theorem ensures_finish_of_empty (hreplaced : s.replaced = .empty) (herased : s.erased = [])
    (fails : Error → State σ → Prop) :
    Ensures (finish op) s (fun op' s' => op' = op ∧ s.Advances 0 s') fails := by
  unfold finish
  apply (ensures_substitute_of_empty hreplaced fails).bind
  rintro _ _ _ ⟨rfl, rfl⟩
  rw [Ensures.modify_bind_iff, Ensures.get_bind_iff]
  dsimp only
  rw [Ensures.modify_bind_iff, herased]
  exact ⟨rfl, hreplaced.symm, herased.symm, rfl, .refl _⟩

/-- Dead operations are removed if the configuration asks for it. -/
theorem ensures_removeDead_eq (hremove : config.removeDeadOps = true)
    (fails : Error → State σ → Prop) :
    Ensures (removeDead config op) s (fun swept s' =>
      swept = ((op.removeDeadOps s.context).op, (op.removeDeadOps s.context).removed)
        ∧ s.Advances 0 s') fails := by
  have hsame : s.context.SameDialects (op.removeDeadOps s.context).context :=
    (removeDeadOps_induction (P := fun _ => True) s.context (fun _ _ _ h => h) trivial).2
  unfold removeDead
  rw [if_pos hremove, Ensures.get_bind_iff]
  dsimp only
  rw [Ensures.modify_bind_iff]
  exact ⟨rfl, rfl, rfl, rfl, hsame⟩

/-- No pattern matches the operation in view of definitions as described, and these stay as
described when it is met. -/
structure Rests (patterns : FrozenPatterns σ) (Known : Dict Operation → Prop)
    (op : Operation) : Prop where
  yields : ∀ definitions, Known definitions → ∀ pattern ∈ patterns.patternsFor op.name,
    pattern.Yields op definitions none
  keeps : ∀ s : State σ, Known s.definitions → Known (s.register op).definitions

variable {Known : Dict Operation → Prop} {within : Operation → Step σ Operation}

theorem ensures_visit_of_rests (depth : Nat)
    (hwithin : ∀ s, s.replaced = .empty → Known s.definitions →
      Ensures (within op) s (fun op' s' => op' = op ∧ Known s'.definitions ∧ s.Advances 0 s')
        fun _ _ => False)
    (hop : Rests patterns Known op) (hreplaced : s.replaced = .empty)
    (hknown : Known s.definitions) :
    Ensures (visit patterns config within depth op) s
      (fun out s' => out = [op] ∧ Known s'.definitions ∧ s.Advances 0 s') fun _ _ => False := by
  have hite (condition : Bool) (s : State σ) (hreplaced : s.replaced = .empty)
    (hknown : Known s.definitions) :
      Ensures (if condition then within op else pure op) s
        (fun op' s' => op' = op ∧ Known s'.definitions ∧ s.Advances 0 s') fun _ _ => False := by
    cases condition with
    | true => exact hwithin s hreplaced hknown
    | false => exact ⟨rfl, hknown, .refl s⟩
  rw [visit_eq]
  apply (ensures_substitute_of_empty hreplaced _).bind
  rintro _ _ _ ⟨rfl, rfl⟩
  apply (hite _ _ hreplaced hknown).bind
  rintro _ s₁ _ ⟨rfl, hknown₁, h₁⟩
  apply (ensures_applyPatterns_of_none depth (hop.yields _ hknown₁)).bind
  rintro _ s₂ _ ⟨rfl, hdefinitions, h₂⟩
  rw [← hdefinitions] at hknown₁
  unfold commit
  rw [Ensures.modify_bind_iff]
  show Ensures (visit.settle config within [] _) s₂ _ _
  rw [settle_eq]
  apply (hite _ _ (h₂.replaced.trans (h₁.replaced.trans hreplaced)) hknown₁).bind
  rintro _ s₃ _ ⟨rfl, hknown₃, h₃⟩
  have hadvances := h₁.trans (h₂.trans h₃)
  exact ⟨rfl, hop.keeps s₃ hknown₃, hadvances.replaced, hadvances.erased, hadvances.rewrites,
    hadvances.dialects⟩

end Greedy

namespace Operation

mutual

/-- All that is nested in the tree has a property. -/
def EachNested (P : Operation → Prop) : Operation → Prop
  | ⟨_, none⟩ => True
  | ⟨_, some ops⟩ => EachIn P ops

/-- All operations of a list and all that is nested in them have a property. -/
def EachIn (P : Operation → Prop) : List Operation → Prop
  | [] => True
  | op :: ops => P op ∧ EachNested P op ∧ EachIn P ops

end

mutual

theorem eachNested_of_heads {P : Operation → Prop} : {op : Operation} →
    (∀ other : Operation, other.toHead ∈ headsOfAll op.nested → P other) → op.EachNested P
  | ⟨_, none⟩, _ => trivial
  | ⟨_, some _⟩, h => eachIn_of_heads h

theorem eachIn_of_heads {P : Operation → Prop} : {ops : List Operation} →
    (∀ other : Operation, other.toHead ∈ headsOfAll ops → P other) → EachIn P ops
  | [], _ => trivial
  | op :: ops, h => by
      rw [headsOfAll, heads_eq] at h
      refine ⟨h op (List.mem_append_left _ List.mem_cons_self),
        eachNested_of_heads fun other hother => ?_,
        eachIn_of_heads fun other hother => h other (List.mem_append_right _ hother)⟩
      exact h other (List.mem_append_left _ (List.mem_cons_of_mem _ hother))

end

end Operation

namespace Greedy

open Operation

variable {patterns : FrozenPatterns σ} {config : Config} {op : Operation} {ops : List Operation}
  {s s' s'' : State σ} {Known : Dict Operation → Prop} {within : Operation → Step σ Operation}

/-- Visiting what an operation holds, through a number of levels, changes nothing where no pattern
matches. -/
def RestsWithin (patterns : FrozenPatterns σ) (Known : Dict Operation → Prop) (levels : Nat)
    (within : Operation → Step σ Operation) : Prop :=
  ∀ (op : Operation) (s : State σ), op.height ≤ levels → op.EachNested (Rests patterns Known) →
    s.replaced = .empty → Known s.definitions →
    Ensures (within op) s (fun op' s' => op' = op ∧ Known s'.definitions ∧ s.Advances 0 s')
      fun _ _ => False

theorem ensures_visitAll_of_rests {levels : Nat}
    (hwithin : RestsWithin patterns Known levels within) (depth : Nat)
    (hheight : heightOfAll ops ≤ levels) (hops : EachIn (Rests patterns Known) ops)
    (hreplaced : s.replaced = .empty) (hknown : Known s.definitions) :
    Ensures (visitAll patterns config within depth ops) s
      (fun out s' => out = ops ∧ Known s'.definitions ∧ s.Advances 0 s') fun _ _ => False := by
  induction ops generalizing s with
  | nil => exact ⟨rfl, hknown, .refl s⟩
  | cons op ops ih =>
      obtain ⟨hop, hnested, hops⟩ := hops
      obtain ⟨hfirst, hrest⟩ := Nat.max_le.1 hheight
      apply (ensures_visit_of_rests depth (fun s => hwithin op s hfirst hnested) hop
        hreplaced hknown).bind
      rintro _ s₁ _ ⟨rfl, hknown₁, h₁⟩
      apply (ih hrest hops (h₁.replaced.trans hreplaced) hknown₁).bind
      rintro _ s₂ _ ⟨rfl, hknown₂, h₂⟩
      exact ⟨rfl, hknown₂, h₁.trans h₂⟩

theorem restsWithin_visitRegion (levels depth : Nat) :
    RestsWithin patterns Known levels (visitRegion patterns config levels depth) := by
  induction levels generalizing depth with
  | zero =>
      intro op s hheight
      have hpos := op.height_pos
      omega
  | succ levels ih =>
      rintro ⟨head, _ | ops⟩ s hheight hop hreplaced hknown
      · unfold visitRegion
        exact ⟨rfl, hknown, .refl s⟩
      · unfold visitRegion
        apply (ensures_visitAll_of_rests (ih (depth + 1)) depth (Nat.le_of_succ_le_succ hheight) hop
          hreplaced hknown).bind
        rintro _ s' _ ⟨rfl, hknown', h⟩
        exact ⟨rfl, hknown', h⟩

/-- **Where nothing matches, a sweep changes nothing.** -/
theorem ensures_sweep_of_rests (hop : op.EachNested (Rests patterns Known)) (hknown : Known .empty)
    (hreplaced : s.replaced = .empty) (herased : s.erased = []) :
    Ensures (sweep patterns config op) s (fun op' s' => op' = op ∧ s.Advances 0 s')
      fun _ _ => False := by
  rw [sweep_eq, Ensures.modify_bind_iff]
  have hregion : RestsWithin patterns Known (op.height + spareLevels)
    (visitRegion patterns config _ 0) :=
    restsWithin_visitRegion _ 0
  apply (hregion op { s with definitions := .empty } (Nat.le_add_right _ _) hop hreplaced hknown).bind
  rintro _ s₁ _ ⟨rfl, -, h₁⟩
  apply (ensures_finish_of_empty (h₁.replaced.trans hreplaced) (h₁.erased.trans herased) _).mono
  rintro _ s₂ _ ⟨rfl, h₂⟩
  have hadvances := h₁.trans h₂
  exact ⟨rfl, hadvances.replaced, hadvances.erased, hadvances.rewrites, hadvances.dialects⟩

/-! ### Sweeps that count no match -/

/-- No match is uncounted, and without one the result is as described and no value is to be replaced
or erased. -/
structure Counts (s s' : State σ) (same : Prop) : Prop where
  le : s.rewrites ≤ s'.rewrites
  same : s'.rewrites = s.rewrites → s.replaced = .empty → same ∧ s'.replaced = .empty
    ∧ s'.erased = s.erased

theorem Counts.refl {same : Prop} (h : same) : Counts s s same :=
  ⟨Nat.le_refl _, fun _ hreplaced => ⟨h, hreplaced, rfl⟩⟩

theorem Counts.trans {p q r : Prop} (h : Counts s s' p) (h' : Counts s' s'' q) (hsame : p → q → r) :
    Counts s s'' r where
  le := Nat.le_trans h.le h'.le
  same hrewrites hreplaced := by
    have hle := h.le
    have hle' := h'.le
    obtain ⟨hp, hreplaced', herased⟩ := h.same (by omega) hreplaced
    obtain ⟨hq, hreplaced'', herased'⟩ := h'.same (by omega) hreplaced'
    exact ⟨hsame hp hq, hreplaced'', herased'.trans herased⟩

theorem ensures_attempt_counts (depth : Nat) (op : Operation) (pattern : Pattern σ) (s : State σ) :
    Ensures (attempt depth op pattern) s
      (fun recording? s' => s'.rewrites = s.rewrites + recording?.toList.length
      ∧ s'.replaced = s.replaced ∧ s'.erased = s.erased) fun _ _ => True := by
  unfold attempt
  rw [Ensures.modify_bind_iff, Ensures.get_bind_iff, Ensures.set_bind_iff]
  generalize Rewrite.run _ _ _ = outcome
  obtain ⟨answer, draft⟩ := outcome
  rcases answer with cause | _ | _
  · trivial
  · exact ⟨rfl, rfl, rfl⟩
  · dsimp only
    split
    · trivial
    · exact ⟨rfl, rfl, rfl⟩

theorem ensures_attemptFirst_counts (depth : Nat) (op : Operation) (patterns : List (Pattern σ))
    (s : State σ) :
    Ensures (attemptFirst depth op patterns) s
      (fun recording? s' => s'.rewrites = s.rewrites + recording?.toList.length
      ∧ s'.replaced = s.replaced ∧ s'.erased = s.erased) fun _ _ => True := by
  induction patterns generalizing s with
  | nil => exact ⟨rfl, rfl, rfl⟩
  | cons pattern rest ih =>
      unfold attemptFirst
      apply (ensures_attempt_counts depth op pattern s).bind
      intro recording? s' _ hcounts
      cases recording? with
      | some recording => exact hcounts
      | none =>
          obtain ⟨hrewrites, hreplaced, herased⟩ := hcounts
          apply (ih s').mono
          rintro recording? s'' _ ⟨hrewrites', hreplaced', herased'⟩
          exact ⟨hrewrites'.trans (congrArg (· + _) hrewrites), hreplaced'.trans hreplaced,
            herased'.trans herased⟩

/-- A match counts. -/
theorem counts_applyPatterns (depth : Nat) (op : Operation) (s : State σ) :
    Ensures (applyPatterns patterns config depth op) s
      (fun recording? s' => Counts s s' (recording? = none)) fun _ _ => True := by
  have hcounts : Ensures (applyPatterns patterns config depth op) s (fun recording? s' =>
      s'.rewrites = s.rewrites + recording?.toList.length ∧ s'.replaced = s.replaced
        ∧ s'.erased = s.erased)
      fun _ _ => True := by
    unfold applyPatterns
    rw [Ensures.get_bind_iff]
    split
    · exact ⟨rfl, rfl, rfl⟩
    · exact ensures_attemptFirst_counts depth op _ s
  apply hcounts.mono
  rintro recording? s' _ ⟨hrewrites, hreplaced, herased⟩
  refine ⟨by omega, fun hsame hempty => ⟨?_, hreplaced.trans hempty, herased⟩⟩
  cases recording? with
  | none => rfl
  | some recording =>
      rw [hrewrites] at hsame
      exact absurd hsame (Nat.succ_ne_self _)

/-- Visiting what an operation holds counts its matches. -/
def CountsWithin (within : Operation → Step σ Operation) : Prop :=
  ∀ (op : Operation) (s : State σ), Ensures (within op) s (fun op' s' => Counts s s' (op' = op))
    fun _ _ => True

theorem rewrites_act (s : State σ) (results : List Value) (action : Option Action) :
    (s.act results action).rewrites = s.rewrites := by
  rcases action with _ | (values | _ | new)
  · rfl
  · rfl
  · rfl
  · rfl

theorem CountsWithin.ensures_ite (hwithin : CountsWithin within) (condition : Bool) (op : Operation)
    (s : State σ) :
    Ensures (if condition then within op else pure op) s (fun op' s' => Counts s s' (op' = op))
      fun _ _ => True := by
  cases condition with
  | true => exact hwithin op s
  | false => exact Counts.refl rfl

theorem counts_settle (hwithin : CountsWithin within) (inserted : List Operation) (op : Operation)
    (s : State σ) :
    Ensures (visit.settle config within inserted op) s
      (fun out s' => Counts s s' (out = inserted ++ [op])) fun _ _ => True := by
  rw [settle_eq]
  apply (hwithin.ensures_ite config.topDown op s).bind
  intro op' s' _ hcounts
  exact ⟨hcounts.le, fun hrewrites hreplaced =>
    (hcounts.same hrewrites hreplaced).imp_left fun hsame => by rw [hsame]⟩

theorem counts_commit (hwithin : CountsWithin within) (op : Operation) (recording : Recording)
    (s : State σ) :
    Ensures (commit config within op recording) s (fun _ s' => s.rewrites ≤ s'.rewrites)
      fun _ _ => True := by
  unfold commit
  rw [Ensures.modify_bind_iff]
  have hrewrites : ((recording.inserted.foldl State.register s).act op.results
    recording.action).rewrites = s.rewrites :=
    (rewrites_act _ _ _).trans (s.advances_register recording.inserted).rewrites
  cases stays? op recording with
  | none => exact Nat.le_of_eq hrewrites.symm
  | some kept =>
      apply (counts_settle hwithin recording.inserted kept _).mono
      intro out s' _ hcounts
      exact hrewrites ▸ hcounts.le

theorem counts_visit (hwithin : CountsWithin within) (depth : Nat) (op : Operation) (s : State σ) :
    Ensures (visit patterns config within depth op) s (fun out s' => Counts s s' (out = [op]))
      fun _ _ => True := by
  have hsubstitute : Ensures (substitute op) s (fun op' s' => Counts s s' (op' = op))
    fun _ _ => True := by
    by_cases hreplaced : s.replaced = .empty
    · apply (ensures_substitute_of_empty hreplaced _).mono
      rintro _ _ _ ⟨rfl, rfl⟩
      exact .refl rfl
    · unfold Ensures
      split
      next op' s' hrun =>
        obtain ⟨rfl, -⟩ := returns_substitute hrun
        exact ⟨Nat.le_refl _, fun _ hempty => absurd hempty hreplaced⟩
      next => trivial
  rw [visit_eq]
  apply hsubstitute.bind
  intro op₁ s₁ _ h₁
  apply (hwithin.ensures_ite _ op₁ s₁).bind
  intro op₂ s₂ _ h₂
  apply (counts_applyPatterns depth op₂ s₂).bind
  intro recording? s₃ _ h₃
  have hbefore := h₁.trans (h₂.trans h₃ And.intro) And.intro
  cases recording? with
  | some recording =>
      apply (counts_commit hwithin op₂ recording s₃).mono
      intro out s' _ hle
      have hnone : ¬ s₃.rewrites = s.rewrites ∨ ¬ s.replaced = .empty := by
        by_contra hboth
        simp only [not_or, not_not] at hboth
        cases (hbefore.same hboth.1 hboth.2).1.2.2
      refine ⟨Nat.le_trans hbefore.le hle, fun hrewrites hreplaced => ?_⟩
      have hle' := hbefore.le
      exact absurd hreplaced (hnone.resolve_left (not_not.2 (by omega)))
  | none =>
      unfold commit
      rw [Ensures.modify_bind_iff]
      apply (counts_settle hwithin [] op₂ s₃).mono
      intro out s' _ hsettled
      refine hbefore.trans hsettled ?_
      rintro ⟨rfl, rfl, -⟩ rfl
      rfl

theorem counts_visitAll (hwithin : CountsWithin within) (depth : Nat) (ops : List Operation)
    (s : State σ) :
    Ensures (visitAll patterns config within depth ops) s (fun out s' => Counts s s' (out = ops))
      fun _ _ => True := by
  induction ops generalizing s with
  | nil => exact Counts.refl rfl
  | cons op ops ih =>
      apply (counts_visit hwithin depth op s).bind
      intro first s₁ _ h₁
      apply (ih s₁).bind
      intro rest s₂ _ h₂
      refine h₁.trans h₂ ?_
      rintro rfl rfl
      rfl

theorem countsWithin_visitRegion (levels depth : Nat) :
    CountsWithin (visitRegion patterns config levels depth) := by
  induction levels generalizing depth with
  | zero =>
      rintro ⟨head, _ | ops⟩ s
      · exact Counts.refl rfl
      · trivial
  | succ levels ih =>
      rintro ⟨head, _ | ops⟩ s
      · unfold visitRegion
        exact Counts.refl rfl
      · unfold visitRegion
        apply (counts_visitAll (ih (depth + 1)) depth ops s).bind
        intro out s' _ hcounts
        exact ⟨hcounts.le, fun hrewrites hreplaced =>
          (hcounts.same hrewrites hreplaced).imp_left fun hsame => by rw [hsame]⟩

/-- **A sweep that counts no match leaves the tree as it was.** -/
theorem ensures_sweep_counts (hreplaced : s.replaced = .empty) (herased : s.erased = []) :
    Ensures (sweep patterns config op) s
      (fun op' s' => s.rewrites ≤ s'.rewrites ∧ (s'.rewrites = s.rewrites → op' = op))
      fun _ _ => True := by
  rw [sweep_eq, Ensures.modify_bind_iff]
  have hregion : CountsWithin (visitRegion patterns config (op.height + spareLevels) 0) :=
    countsWithin_visitRegion _ 0
  apply (hregion op { s with definitions := .empty }).bind
  intro op₁ s₁ _ h₁
  by_cases hsame : s₁.rewrites = s.rewrites
  · obtain ⟨rfl, hreplaced₁, herased₁⟩ := h₁.same hsame hreplaced
    apply (ensures_finish_of_empty hreplaced₁ (herased₁.trans herased) _).mono
    rintro _ s₂ _ ⟨rfl, h₂⟩
    exact ⟨h₂.rewrites ▸ h₁.le, fun _ => rfl⟩
  · unfold Ensures
    split
    next op₂ s₂ hrun =>
      obtain ⟨-, rfl⟩ := returns_finish hrun
      exact ⟨h₁.le, fun hrewrites => absurd hrewrites hsame⟩
    next => trivial

/-! ### Runs of two sweeps -/

/-- Nothing is left to do in a tree: no pattern matches, and no operation is dead. -/
structure Settled (patterns : FrozenPatterns σ) (context : Context) (root : Operation) : Prop where
  rests : ∃ Known, Known .empty ∧ root.EachNested (Rests patterns Known)
  alive : ∀ head ∈ headsOfAll root.nested, context.isDead root.usedNames head = false

theorem Settled.congr {context other : Context} {root : Operation}
    (h : Settled patterns context root) (hsame : context.SameDialects other) :
    Settled patterns other root :=
  ⟨h.rests, fun head hhead => by rw [isDead_congr hsame, h.alive head hhead]⟩

/-- A run that starts where nothing is left to do ends at once. -/
theorem ensures_iterate_of_settled (remaining iteration : Nat) {progress : Progress}
    (hremove : config.removeDeadOps = true) (hlimit : config.maxRewrites = none)
    (hroot : Settled patterns s.context progress.root) (hreplaced : s.replaced = .empty)
    (herased : s.erased = []) :
    Ensures (iterate patterns config (remaining + 1) iteration progress) s
      (fun progress' s' => progress' = { progress with converged := true }
        ∧ s'.rewrites = s.rewrites) fun _ _ => False := by
  have hnoted : s.Advances 0 (s.note (.iteration iteration progress.root.name.text)) :=
    ⟨rfl, rfl, rfl, sameDialects_note _ _⟩
  obtain ⟨Known, hknown, hrests⟩ := hroot.rests
  have hswept : Ensures (sweep patterns config progress.root >>= removeDead config)
      (s.note (.iteration iteration progress.root.name.text))
      (fun swept s' => swept = (progress.root, 0) ∧ s'.rewrites = s.rewrites) fun _ _ => False := by
    apply (ensures_sweep_of_rests (s := s.note _) hrests hknown hreplaced herased).bind
    rintro _ s₁ _ ⟨rfl, h₁⟩
    have hsame := hnoted.trans h₁
    obtain ⟨hop, hremoved⟩ := removeDeadOps_of_alive (hroot.congr hsame.dialects).alive
    apply (ensures_removeDead_eq hremove _).mono
    rintro _ s₂ _ ⟨rfl, h₂⟩
    rw [hop, hremoved]
    exact ⟨rfl, (hsame.trans h₂).rewrites⟩
  rw [iterate_eq, Ensures.get_bind_iff, limitReached_of_none hlimit, if_neg Bool.false_ne_true,
    Ensures.modify_bind_iff, Ensures.get_bind_iff]
  apply hswept.bind
  rintro _ s' _ ⟨rfl, hrewrites⟩
  rw [Ensures.get_bind_iff]
  show Ensures (if s'.rewrites = s.rewrites && (0 : Nat) = 0 then _ else _) s' _ _
  have hstop : (s'.rewrites = s.rewrites && (0 : Nat) = 0) = true := by simp [hrewrites]
  rw [if_pos hstop]
  exact ⟨rfl, hrewrites⟩

/-- What a first sweep leaves that leaves nothing to do, but for dead operations. -/
structure Settles (patterns : FrozenPatterns σ) (context : Context) (root : Operation)
    (s : State σ) : Prop where
  replaced : s.replaced = .empty
  erased : s.erased = []
  dialects : context.SameDialects s.context
  settled : Settled patterns context (root.removeDeadOps context).op

/-- How a run ended in view of what its first sweep left: the number of matches tells whether it
made changes. -/
structure Ended (context : Context) (swept : Operation) (count : Nat) (outcome : Outcome)
    (op : Operation) : Prop where
  converged : outcome.converged = true
  rewrites : outcome.rewrites = count
  changed : outcome.changed = true ↔ 0 < count ∨ 0 < (swept.removeDeadOps context).removed
  op : op = (swept.removeDeadOps context).op

/-- **Two sweeps are enough** if nothing is left to do behind the first. -/
theorem ensures_iterate_of_settles {root : Operation} {fails : Error → State σ → Prop}
    {P : Operation → Nat → Prop} (remaining iteration : Nat) (hremove : config.removeDeadOps = true)
    (hlimit : config.maxRewrites = none) (hreplaced : s.replaced = .empty) (herased : s.erased = [])
    (hrewrites : s.rewrites = 0)
    (h : Ensures (sweep patterns config root) (s.note (.iteration iteration root.name.text))
      (fun swept s' => Settles patterns s.context swept s' ∧ P swept s'.rewrites) fails) :
    Ensures (iterate patterns config (remaining + 2) iteration { root }) s
      (fun progress s' => ∃ swept, P swept s'.rewrites
      ∧ Ended s.context swept s'.rewrites ⟨progress.changed, progress.converged, s'.rewrites⟩
        (if progress.changed then progress.root else root)) fails := by
  have hcounts :=
    (ensures_sweep_counts (s := s.note (.iteration iteration root.name.text)) hreplaced herased).and
      h
  have hswept : Ensures (sweep patterns config root >>= removeDead config)
    (s.note (.iteration iteration root.name.text))
      (fun removed s' => ∃ swept, P swept s'.rewrites ∧ (s'.rewrites = 0 → swept = root)
        ∧ removed = ((swept.removeDeadOps s.context).op, (swept.removeDeadOps s.context).removed)
        ∧ s'.replaced = .empty ∧ s'.erased = [] ∧ Settled patterns s'.context removed.1) fails := by
    apply (hcounts.weaken fun _ _ hboth => hboth.2).bind
    rintro swept s₁ _ ⟨⟨_, hsame⟩, hsettles, hpost⟩
    obtain ⟨hop, hremoved⟩ := removeDeadOps_congr hsettles.dialects swept
    apply (ensures_removeDead_eq hremove _).mono
    rintro _ s₂ _ ⟨rfl, hadvances⟩
    rw [hop, hremoved, hadvances.rewrites, hadvances.replaced, hadvances.erased]
    refine ⟨swept, hpost, fun hzero => hsame (hzero.trans hrewrites.symm), rfl, hsettles.replaced,
      hsettles.erased, ?_⟩
    exact hsettles.settled.congr (hsettles.dialects.trans hadvances.dialects)
  rw [iterate_eq, Ensures.get_bind_iff, limitReached_of_none hlimit, if_neg Bool.false_ne_true,
    Ensures.modify_bind_iff, Ensures.get_bind_iff]
  apply hswept.bind
  rintro _ s₁ _ ⟨swept, hpost, hsame, rfl, hreplaced₁, herased₁, hsettled⟩
  rw [Ensures.get_bind_iff]
  show Ensures (if s₁.rewrites = s.rewrites && (swept.removeDeadOps s.context).removed = 0 then _
    else _) s₁ _ _
  rw [hrewrites]
  by_cases hstop : (s₁.rewrites = 0 && (swept.removeDeadOps s.context).removed = 0) = true
  · rw [if_pos hstop]
    simp only [Bool.and_eq_true, decide_eq_true_eq] at hstop
    have hroot := hsame hstop.1
    subst hroot
    refine ⟨swept, hpost, rfl, rfl, ?_, (op_eq_of_removed_eq_zero hstop.2).symm⟩
    simp [hstop]
  · rw [if_neg hstop]
    apply ((ensures_iterate_of_settled remaining (iteration + 1) hremove hlimit hsettled hreplaced₁
      herased₁).weaken
      fun _ _ => False.elim).mono
    rintro _ s₂ _ ⟨rfl, hrewrites₂⟩
    refine ⟨swept, hrewrites₂ ▸ hpost, rfl, rfl, ?_, rfl⟩
    simp only [Bool.and_eq_true, decide_eq_true_eq, not_and_or] at hstop
    simp only [true_iff]
    omega

/-- The state that the first sweep of a run starts in. -/
structure State.Begins (root : Operation) (context : Context) (s : State σ) : Prop where
  names : s.names = namesFor root
  rewrites : s.rewrites = 0
  replaced : s.replaced = .empty
  erased : s.erased = []
  dialects : context.SameDialects s.context

end Greedy

open Greedy

/-- **Runs of two sweeps.** If nothing is left to do behind the first sweep, then a run ends with
what that left, without dead operations. -/
theorem applyGreedily_of_settles {patterns : FrozenPatterns σ} {config : Config} {root : Operation}
    {context : Context} (memory : σ) {fails : Error → Prop} {P : Operation → Nat → Prop}
    (hremove : config.removeDeadOps = true) (hlimit : config.maxRewrites = none)
    (hiterations : 2 ≤ config.maxIterations)
    (h : ∀ s : State σ, s.Begins root context → Ensures (sweep patterns config root) s
      (fun swept s' => Settles patterns context swept s' ∧ P swept s'.rewrites) fun error _ =>
        fails error) :
    (∃ outcome swept rewrites, (applyGreedily patterns config root context memory).result
      = .ok outcome ∧ P swept rewrites
        ∧ Ended context swept rewrites outcome
          (applyGreedily patterns config root context memory).op)
      ∨ ∃ error, (applyGreedily patterns config root context memory).result = .error error
        ∧ fails error := by
  obtain ⟨remaining, hremaining⟩ := Nat.exists_eq_add_of_le' hiterations
  have hiterate := ensures_iterate_of_settles
    (s := ({ context, memory, names := namesFor root } : State σ)) remaining 0 hremove
    hlimit rfl rfl rfl (h _ ⟨rfl, rfl, rfl, rfl, sameDialects_note _ _⟩)
  have hrun : Ensures (rewrite patterns config root)
    ({ context, memory, names := namesFor root } : State σ)
      (fun out _ => ∃ swept rewrites, P swept rewrites ∧ Ended context swept rewrites out.1 out.2)
      fun error _ => fails error := by
    unfold rewrite
    rw [hremaining]
    apply hiterate.bind
    rintro progress s' _ ⟨swept, hpost, hended⟩
    rw [Ensures.get_bind_iff]
    dsimp only
    have hconverged : progress.converged = true := hended.converged
    rw [hconverged] at hended ⊢
    exact ⟨swept, s'.rewrites, hpost, hended⟩
  unfold applyGreedily
  unfold Ensures runFrom at hrun
  split
  next outcome op after heq =>
    rw [heq] at hrun
    obtain ⟨swept, rewrites, hpost, hended⟩ := hrun
    exact .inl ⟨outcome, swept, rewrites, rfl, hpost, hended⟩
  next error after heq =>
    rw [heq] at hrun
    exact .inr ⟨error, rfl, hrun⟩

/-- **Where nothing matches, a run takes away what is dead** and does nothing else. -/
theorem applyGreedily_of_rests {patterns : FrozenPatterns σ} {config : Config} {root : Operation}
    {context : Context} (memory : σ) (hremove : config.removeDeadOps = true)
    (hlimit : config.maxRewrites = none) (hiterations : 2 ≤ config.maxIterations)
    (h : ∀ op : Operation, op.toHead ∈ Operation.headsOfAll root.nested →
      Rests patterns (fun _ => True) op) :
    ∃ outcome, (applyGreedily patterns config root context memory).result = .ok outcome
      ∧ Ended context root 0 outcome (applyGreedily patterns config root context memory).op := by
  have hsettled : Settled patterns context (root.removeDeadOps context).op :=
    ⟨⟨fun _ => True, trivial, Operation.eachNested_of_heads fun op hop =>
        h op ((Operation.heads_nested_removeDeadOps context root).subset hop)⟩,
      Operation.alive_removeDeadOps context root⟩
  have hsweep (s : State σ) (hs : s.Begins root context) : Ensures (sweep patterns config root) s
      (fun swept s' => Settles patterns context swept s' ∧ swept = root ∧ s'.rewrites = 0)
        fun _ _ => False := by
    apply (ensures_sweep_of_rests (Operation.eachNested_of_heads h) trivial hs.replaced hs.erased).mono
    rintro _ s' _ ⟨rfl, h'⟩
    exact ⟨⟨h'.replaced.trans hs.replaced, h'.erased.trans hs.erased, hs.dialects.trans h'.dialects,
      hsettled⟩, rfl, h'.rewrites.trans hs.rewrites⟩
  obtain ⟨outcome, _, _, hresult, ⟨rfl, rfl⟩, hended⟩ | ⟨_, _, hfails⟩ := applyGreedily_of_settles
    (P := fun swept count => swept = root ∧ count = 0) memory hremove hlimit hiterations hsweep
  · exact ⟨outcome, hresult, hended⟩
  · exact hfails.elim

end DialectIR
