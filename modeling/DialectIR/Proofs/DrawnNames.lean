import DialectIR.Proofs.Matching
import DialectIR.Proofs.Pruning
import DialectIR.Proofs.Steps
import DialectIR.Proofs.Substitution
import Mathlib.Algebra.GroupWithZero.Nat
import Mathlib.Algebra.Order.BigOperators.Group.List
import Mathlib.Algebra.Order.Group.Nat

/-! The names that a run draws. They are drawn one after the other, whatever the run ends with, and
there are no more of them than a tree has weight, if every match pays for its names with the weight
of what it removes. -/

namespace DialectIR.Greedy

open Operation

variable {σ α β : Type}

/-- The sum of the weights of all operations in a tree. -/
def weight (w : OpName → Nat) (op : Operation) : Nat := (op.heads.map fun head => w head.name).sum

def weightOfAll (w : OpName → Nat) (ops : List Operation) : Nat :=
  ((headsOfAll ops).map fun head => w head.name).sum

variable {w : OpName → Nat}

theorem weight_eq (op : Operation) : weight w op = w op.name + weightOfAll w op.nested := by
  rw [weight, heads_eq, List.map_cons, List.sum_cons, weightOfAll]

@[simp] theorem weightOfAll_nil : weightOfAll w [] = 0 := rfl

theorem weightOfAll_cons (op : Operation) (ops : List Operation) :
    weightOfAll w (op :: ops) = weight w op + weightOfAll w ops := by
  rw [weightOfAll, headsOfAll, List.map_append, List.sum_append]
  rfl

theorem weightOfAll_append (ops more : List Operation) :
    weightOfAll w (ops ++ more) = weightOfAll w ops + weightOfAll w more := by
  induction ops with
  | nil => rw [List.nil_append, weightOfAll_nil, Nat.zero_add]
  | cons op ops ih => rw [List.cons_append, weightOfAll_cons, weightOfAll_cons, ih, Nat.add_assoc]

theorem weightOfAll_singleton (op : Operation) : weightOfAll w [op] = weight w op := by
  rw [weightOfAll_cons, weightOfAll_nil, Nat.add_zero]

theorem weight_mapOperands (f : Value → Value) (op : Operation) :
    weight w (op.mapOperands f) = weight w op := by
  rw [weight, mapOperands, heads_mapHeads, List.map_map]
  rfl

theorem weight_prune (dead : Head → Bool) (op : Operation) :
    weight w (op.prune dead) ≤ weight w op := by
  have hsublist := (heads_prune dead op).map fun head : Head => w head.name
  exact hsublist.sum_le_sum fun _ _ => Nat.zero_le _

variable (patterns : FrozenPatterns σ) (config : Config)

/-- Matches draw no more names than they take away weight. -/
def Thrifty (w : OpName → Nat) (encounters : List (Encounter σ)) : Prop :=
  ∀ e ∈ encounters, ∀ m, e.match? patterns config = some m →
    m.drawn.length + weightOfAll w (m.recording.inserted ++ (stays? m.op m.recording).toList)
      ≤ weight w m.op

/-- The step draws the names of the matches at the encounters, within the budget that its result
leaves. -/
structure Accounts (w : OpName → Nat) (step : Step σ α) (size : α → Nat) (budget : Nat)
    (encounters : List (Encounter σ)) (s : State σ) : Prop where
  draws : ∃ after, s.names.Draws (drawnIn patterns config encounters) after
  bounded : Thrifty patterns config w encounters →
    (drawnIn patterns config encounters).length ≤ budget
  names : ∀ a s', Returns step s a s' → s.names.Draws (drawnIn patterns config encounters) s'.names
  size : ∀ a s', Returns step s a s' → Thrifty patterns config w encounters →
    (drawnIn patterns config encounters).length + size a ≤ budget
  dialects : ∀ a s', Returns step s a s' → s.context.SameDialects s'.context

variable {patterns config} {encounters more : List (Encounter σ)} {s : State σ}

theorem Thrifty.append : Thrifty patterns config w (encounters ++ more)
    ↔ Thrifty patterns config w encounters ∧ Thrifty patterns config w more := by
  simp only [Thrifty, List.mem_append, or_imp, forall_and]

namespace Accounts

/-- A step without encounters. -/
theorem quiet {step : Step σ α} {size : α → Nat} {budget : Nat} (h : ∀ a s', Returns step s a s' →
    s'.names = s.names ∧ s.context.SameDialects s'.context ∧ size a ≤ budget) :
    Accounts patterns config w step size budget [] s where
  draws := ⟨s.names, rfl⟩
  bounded _ := Nat.zero_le _
  names a s' hreturns := (h a s' hreturns).1
  size a s' hreturns _ := by
    rw [drawnIn_nil, List.length_nil, Nat.zero_add]
    exact (h a s' hreturns).2.2
  dialects a s' hreturns := (h a s' hreturns).2.1

theorem bind {step : Step σ α} {next : α → Step σ β} {size : α → Nat} {size' : β → Nat}
    {budget extra : Nat} {later : α → State σ → List (Encounter σ)}
    (h : Accounts patterns config w step size budget encounters s)
    (hnext : ∀ a s', Returns step s a s' →
      Accounts patterns config w (next a) size' (size a + extra) (later a s') s') :
    Accounts patterns config w (step >>= next) size' (budget + extra)
      (encounters ++ afterwards step later s) s := by
  rcases hrun : runFrom step s with ⟨error | a, s₁⟩
  · have hnone : afterwards step later s = [] := by
      unfold afterwards
      rw [hrun]
    have hfails : ∀ b s', ¬ Returns (step >>= next) s b s' := by
      intro b s' hreturns
      obtain ⟨a, s₂, hfirst, -⟩ := Returns.bind_iff.1 hreturns
      rw [Returns, hrun] at hfirst
      cases hfirst
    rw [hnone, List.append_nil]
    exact ⟨h.draws, fun hthrifty => Nat.le_add_right_of_le (h.bounded hthrifty),
      fun b s' hreturns => absurd hreturns (hfails b s'),
      fun b s' hreturns => absurd hreturns (hfails b s'), fun b s' hreturns =>
        absurd hreturns (hfails b s')⟩
  · have hstep : Returns step s a s₁ := hrun
    have hlater := hnext a s₁ hstep
    have hsplit : ∀ b s', Returns (step >>= next) s b s' → Returns (next a) s₁ b s' := by
      intro b s' hreturns
      obtain ⟨a', s₂, hfirst, hrest⟩ := Returns.bind_iff.1 hreturns
      rw [Returns, hrun] at hfirst
      cases hfirst
      exact hrest
    rw [afterwards_of_returns hstep]
    refine ⟨?_, fun hthrifty => ?_, fun b s' hreturns => ?_, fun b s' hreturns hthrifty => ?_,
      fun b s' hreturns => ?_⟩
    · obtain ⟨after, hdraws⟩ := hlater.draws
      rw [drawnIn_append]
      exact ⟨after, (h.names a s₁ hstep).append hdraws⟩
    · obtain ⟨hthrifty, hthrifty'⟩ := Thrifty.append.1 hthrifty
      have hfirst := h.size a s₁ hstep hthrifty
      have hrest := hlater.bounded hthrifty'
      rw [drawnIn_append, List.length_append]
      omega
    · rw [drawnIn_append]
      exact (h.names a s₁ hstep).append (hlater.names b s' (hsplit b s' hreturns))
    · obtain ⟨hthrifty, hthrifty'⟩ := Thrifty.append.1 hthrifty
      have hfirst := h.size a s₁ hstep hthrifty
      have hrest := hlater.size b s' (hsplit b s' hreturns) hthrifty'
      rw [drawnIn_append, List.length_append]
      omega
    · exact (h.dialects a s₁ hstep).trans (hlater.dialects b s' (hsplit b s' hreturns))

/-- The result of the first step is the budget of the next. -/
theorem seq {step : Step σ α} {next : α → Step σ β} {size : α → Nat} {size' : β → Nat}
    {budget : Nat} {later : α → State σ → List (Encounter σ)}
    (h : Accounts patterns config w step size budget encounters s)
    (hnext : ∀ a s', Returns step s a s' →
      Accounts patterns config w (next a) size' (size a) (later a s') s') :
    Accounts patterns config w (step >>= next) size' budget
      (encounters ++ afterwards step later s) s := by
  have hbind : Accounts patterns config w (step >>= next) size' (budget + 0)
    (encounters ++ afterwards step later s) s :=
    h.bind hnext
  exact hbind

/-- A step without encounters behind others. -/
theorem bind_quiet {step : Step σ α} {next : α → Step σ β} {size : α → Nat} {size' : β → Nat}
    {budget extra : Nat} (h : Accounts patterns config w step size budget encounters s)
    (hnext : ∀ a s', Returns step s a s' → ∀ b s'', Returns (next a) s' b s'' →
      s''.names = s'.names ∧ s'.context.SameDialects s''.context ∧ size' b ≤ size a + extra) :
    Accounts patterns config w (step >>= next) size' (budget + extra) encounters s := by
  have hbind := h.bind fun a s' hreturns => quiet (hnext a s' hreturns)
  rw [afterwards_nil, List.append_nil] at hbind
  exact hbind

theorem seq_quiet {step : Step σ α} {next : α → Step σ β} {size : α → Nat} {size' : β → Nat}
    {budget : Nat} (h : Accounts patterns config w step size budget encounters s)
    (hnext : ∀ a s', Returns step s a s' → ∀ b s'', Returns (next a) s' b s'' →
      s''.names = s'.names ∧ s'.context.SameDialects s''.context ∧ size' b ≤ size a) :
    Accounts patterns config w (step >>= next) size' budget encounters s := by
  have hbind : Accounts patterns config w (step >>= next) size' (budget + 0) encounters s :=
    h.bind_quiet hnext
  exact hbind

theorem get_bind {next : State σ → Step σ β} {size : β → Nat} {budget : Nat}
    (h : Accounts patterns config w (next s) size budget encounters s) :
    Accounts patterns config w (get >>= next) size budget encounters s where
  draws := h.draws
  bounded := h.bounded
  names a s' hreturns := h.names a s' (Returns.get_bind_iff.1 hreturns)
  size a s' hreturns := h.size a s' (Returns.get_bind_iff.1 hreturns)
  dialects a s' hreturns := h.dialects a s' (Returns.get_bind_iff.1 hreturns)

theorem modify_bind {f : State σ → State σ} {next : PUnit → Step σ β} {size : β → Nat}
    {budget : Nat} (h : Accounts patterns config w (next ⟨⟩) size budget encounters (f s))
    (hnames : (f s).names = s.names) (hcontext : s.context.SameDialects (f s).context) :
    Accounts patterns config w (modify f >>= next) size budget encounters s where
  draws := hnames ▸ h.draws
  bounded := h.bounded
  names a s' hreturns := hnames ▸ h.names a s' (Returns.modify_bind_iff.1 hreturns)
  size a s' hreturns := h.size a s' (Returns.modify_bind_iff.1 hreturns)
  dialects a s' hreturns := hcontext.trans (h.dialects a s' (Returns.modify_bind_iff.1 hreturns))

end Accounts

/-! ### Visits -/

/-- What visiting the operations within an operation draws is paid for by their weight. -/
def PaysInside (patterns : FrozenPatterns σ) (config : Config) (w : OpName → Nat)
    (within : Operation → Step σ Operation)
    (inside : List String → Operation → State σ → List (Encounter σ)) : Prop :=
  ∀ (visible : List String) (op : Operation) (s : State σ),
    Accounts patterns config w (within op) (weight w) (weight w op) (inside visible op s) s

/-- What is left for a match that is not made yet: the operations that it inserts and the one that
stays. -/
def left (op : Operation) (recording? : Option Recording) : List Operation :=
  (recording?.getD {}).inserted ++ (stays? op (recording?.getD {})).toList

theorem accounts_applyPatterns (depth : Nat) (visible : List String) (op : Operation) :
    Accounts patterns config w (applyPatterns patterns config depth op)
      (fun recording? => weightOfAll w (left op recording?))
      (weight w op) [⟨visible, depth, op, s⟩] s := by
  have htried := ensures_applyPatterns patterns config visible depth op s
  have hmatch : Thrifty patterns config w [⟨visible, depth, op, s⟩] → ∀ recording? s',
      Returns (applyPatterns patterns config depth op) s recording? s' →
      (drawnIn patterns config [⟨visible, depth, op, s⟩]).length
        + weightOfAll w (left op recording?) ≤ weight w op := by
    intro hthrifty recording? s' hreturns
    cases recording? with
    | none =>
        rw [drawnIn_of_returns patterns config hreturns]
        simp [left, stays?, weightOfAll_singleton]
    | some recording =>
        have hsome : Encounter.match? patterns config ⟨visible, depth, op, s⟩ = some _ :=
          match?_of_returns patterns config hreturns
        have hpaid := hthrifty _ List.mem_cons_self _ hsome
        simpa [drawnIn, hsome, left] using hpaid
  have hnames : ∀ recording? s', Returns (applyPatterns patterns config depth op) s recording? s' →
      s.names.Draws (drawnIn patterns config [⟨visible, depth, op, s⟩]) s'.names :=
    fun recording? s' hreturns => (htried.of_returns hreturns).draws
  refine ⟨?_, fun hthrifty => ?_, hnames, fun recording? s' hreturns hthrifty =>
    hmatch hthrifty recording? s' hreturns,
    fun recording? s' hreturns => (htried.of_returns hreturns).similar.dialects⟩
  · rcases hrun : runFrom (applyPatterns patterns config depth op) s with ⟨error | recording?, s'⟩
    · exact ⟨s.names, by simp [drawnIn, Encounter.match?, hrun, NameSupply.Draws]⟩
    · exact ⟨s'.names, hnames recording? s' hrun⟩
  · rcases hrun : runFrom (applyPatterns patterns config depth op) s with ⟨error | recording?, s'⟩
    · simp [drawnIn, Encounter.match?, hrun]
    · exact Nat.le_of_add_right_le (hmatch hthrifty recording? s' hrun)

variable {within : Operation → Step σ Operation}
  {inside : List String → Operation → State σ → List (Encounter σ)}

theorem PaysInside.accounts_ite (hwithin : PaysInside patterns config w within inside)
    (condition : Bool) (visible : List String) (op : Operation) (s : State σ) :
    Accounts patterns config w (if condition then within op else pure op) (weight w) (weight w op)
      (if condition then inside visible op s else []) s := by
  cases condition with
  | true => exact hwithin visible op s
  | false =>
      refine .quiet fun a s' hreturns => ?_
      obtain ⟨rfl, rfl⟩ := Returns.pure_iff.1 hreturns
      exact ⟨rfl, .refl _, Nat.le_refl _⟩

theorem names_act (s : State σ) (results : List Value) (action : Option Action) :
    (s.act results action).names = s.names ∧ (s.act results action).context = s.context := by
  rcases action with _ | (values | _ | new)
  · exact ⟨rfl, rfl⟩
  · exact ⟨rfl, rfl⟩
  · exact ⟨rfl, rfl⟩
  · exact ⟨rfl, rfl⟩

theorem names_register (inserted : List Operation) (s : State σ) :
    (inserted.foldl State.register s).names = s.names
      ∧ (inserted.foldl State.register s).context = s.context := by
  induction inserted generalizing s with
  | nil => exact ⟨rfl, rfl⟩
  | cons op ops ih => exact ih (s.register op)

theorem accounts_commit (hwithin : PaysInside patterns config w within inside)
    (visible : List String) (op : Operation) (recording : Recording) (s : State σ) :
    Accounts patterns config w (commit config within op recording) (weightOfAll w)
      (weightOfAll w (left op (some recording)))
      (innerEncounters config inside visible op recording s) s := by
  unfold commit left innerEncounters
  obtain ⟨hnames, hcontext⟩ := names_register recording.inserted s
  obtain ⟨hnames', hcontext'⟩ := names_act (recording.inserted.foldl State.register s) op.results
    recording.action
  rw [Option.getD_some]
  refine .modify_bind ?_ (hnames'.trans hnames) (hcontext'.trans hcontext ▸ .refl _)
  cases hstays : stays? op recording with
  | none =>
      refine .quiet fun out s' hreturns => ?_
      obtain ⟨rfl, rfl⟩ := Returns.pure_iff.1 hreturns
      rw [Option.toList_none, List.append_nil]
      exact ⟨rfl, .refl _, Nat.le_refl _⟩
  | some kept =>
      have hact : (recording.inserted.foldl State.register s).act op.results recording.action
          = recording.inserted.foldl State.register s := act_of_stays hstays
      dsimp only
      rw [hact, settle_eq, Option.toList_some, weightOfAll_append,
        weightOfAll_singleton, Nat.add_comm]
      apply (hwithin.accounts_ite config.topDown _ kept _).bind_quiet
      intro kept' s' _ out s'' hreturns
      rw [Returns.modify_bind_iff, Returns.pure_iff] at hreturns
      obtain ⟨rfl, rfl⟩ := hreturns
      rw [weightOfAll_append, weightOfAll_singleton, Nat.add_comm]
      exact ⟨rfl, .refl _, Nat.le_refl _⟩

theorem accounts_substitute (op : Operation) (s : State σ) :
    Accounts patterns config w (substitute op) (weight w) (weight w op) [] s := by
  refine .quiet fun op' s' hreturns => ?_
  obtain ⟨rfl, rfl | rfl⟩ := returns_substitute hreturns
  · exact ⟨rfl, .refl _, Nat.le_refl _⟩
  · exact ⟨rfl, .refl _, Nat.le_of_eq (weight_mapOperands _ op)⟩

/-- A visit draws the names of the matches in it. -/
theorem accounts_visit (hwithin : PaysInside patterns config w within inside) (depth : Nat)
    (visible : List String) (op : Operation) (s : State σ) :
    Accounts patterns config w (visit patterns config within depth op) (weightOfAll w) (weight w op)
      (visitEncounters patterns config within inside depth visible op s) s := by
  rw [visit_eq, visitEncounters_eq, ← List.nil_append (afterwards (substitute op) _ s)]
  apply (accounts_substitute op s).seq
  intro op₁ s₁ _
  apply (hwithin.accounts_ite (!config.topDown) visible op₁ s₁).seq
  intro op₂ s₂ _
  refine (accounts_applyPatterns depth visible op₂).seq fun recording? s₃ _ => ?_
  exact accounts_commit hwithin visible op₂ (recording?.getD {}) s₃

theorem accounts_visitAll (hwithin : PaysInside patterns config w within inside) (depth : Nat)
    (visible : List String) (ops : List Operation) (s : State σ) :
    Accounts patterns config w (visitAll patterns config within depth ops) (weightOfAll w)
      (weightOfAll w ops)
      (visitAllEncounters patterns config within inside depth visible ops s) s := by
  induction ops generalizing visible s with
  | nil =>
      refine .quiet fun out s' hreturns => ?_
      obtain ⟨rfl, rfl⟩ := Returns.pure_iff.1 hreturns
      exact ⟨rfl, .refl _, Nat.le_refl _⟩
  | cons op ops ih =>
      rw [weightOfAll_cons]
      apply (accounts_visit hwithin depth visible op s).bind
      intro first s' _
      rw [Nat.add_comm]
      apply (ih (visibleAfter visible first) s').bind_quiet
      intro rest s'' _ out s₃ hreturns
      obtain ⟨rfl, rfl⟩ := Returns.pure_iff.1 hreturns
      rw [weightOfAll_append, Nat.add_comm]
      exact ⟨rfl, .refl _, Nat.le_refl _⟩

theorem paysInside_visitRegion (levels depth : Nat) :
    PaysInside patterns config w (visitRegion patterns config levels depth)
    (regionEncounters patterns config levels depth) := by
  induction levels generalizing depth with
  | zero =>
      rintro visible ⟨head, _ | ops⟩ s
      · refine .quiet fun op' s' hreturns => ?_
        obtain ⟨rfl, rfl⟩ := Returns.pure_iff.1 hreturns
        exact ⟨rfl, .refl _, Nat.le_refl _⟩
      · exact .quiet fun op' s' hreturns => absurd hreturns Returns.throw_iff
  | succ levels ih =>
      rintro visible ⟨head, _ | ops⟩ s
      · refine .quiet fun op' s' hreturns => ?_
        unfold visitRegion at hreturns
        obtain ⟨rfl, rfl⟩ := Returns.pure_iff.1 hreturns
        exact ⟨rfl, .refl _, Nat.le_refl _⟩
      · have hweight (ops : List Operation) : weight w ⟨head, some ops⟩
          = weightOfAll w ops + w head.name := by
          rw [weight_eq, Nat.add_comm]
          rfl
        rw [hweight]
        unfold visitRegion
        apply (accounts_visitAll (ih (depth + 1)) depth visible ops s).bind_quiet
        intro out s' _ op' s'' hreturns
        obtain ⟨rfl, rfl⟩ := Returns.pure_iff.1 hreturns
        exact ⟨rfl, .refl _, Nat.le_of_eq (hweight out)⟩

theorem accounts_sweep (root : Operation) (s : State σ) :
    Accounts patterns config w (sweep patterns config root) (weight w) (weight w root)
      (sweepEncounters patterns config root s) s := by
  rw [sweep_eq]
  refine .modify_bind ?_ rfl (.refl _)
  have hregion : PaysInside patterns config w
    (visitRegion patterns config (root.height + spareLevels) 0)
      (regionEncounters patterns config (root.height + spareLevels) 0) := paysInside_visitRegion _ 0
  apply (hregion [] root _).seq_quiet
  intro out s' _ out' s'' hreturns
  obtain ⟨hout, rfl⟩ := returns_finish hreturns
  rcases hout with rfl | rfl
  · exact ⟨rfl, .refl _, Nat.le_refl _⟩
  · exact ⟨rfl, .refl _, Nat.le_of_eq (weight_mapOperands _ out)⟩

theorem accounts_removeDead (root : Operation) (s : State σ) :
    Accounts patterns config w (removeDead config root) (fun removed => weight w removed.1)
      (weight w root) [] s := by
  refine .quiet fun removed s' hreturns => ?_
  obtain ⟨rfl, rfl⟩ | ⟨rfl, rfl⟩ := returns_removeDead hreturns
  · have hless (op : Operation) (other : Context) (_ : s.context.SameDialects other)
      (hop : weight w op ≤ weight w root) :
        weight w (op.prune (other.isDead op.usedNames)) ≤ weight w root :=
          Nat.le_trans (weight_prune _ op) hop
    obtain ⟨hweight, hsame⟩ := removeDeadOps_induction s.context hless (Nat.le_refl _)
    exact ⟨rfl, hsame, hweight⟩
  · exact ⟨rfl, .refl _, Nat.le_refl _⟩

theorem accounts_swept (root : Operation) (s : State σ) :
    Accounts patterns config w (sweep patterns config root >>= removeDead config)
      (fun swept => weight w swept.1)
      (weight w root) (sweepEncounters patterns config root s) s := by
  have hsweep : Accounts patterns config w (sweep patterns config root) (weight w) (weight w root)
      (sweepEncounters patterns config root s) s := accounts_sweep root s
  have hremoved := hsweep.seq fun root s' _ => accounts_removeDead root s'
  rw [afterwards_nil, List.append_nil] at hremoved
  exact hremoved

theorem sameDialects_sweep {root root' : Operation} {s s' : State σ}
    (h : Returns (sweep patterns config root) s root' s') :
    s.context.SameDialects s'.context := by
  have haccounts : Accounts patterns config (fun _ => 0) (sweep patterns config root) _ _ _ s :=
    accounts_sweep root s
  exact haccounts.dialects root' s' h

theorem sameDialects_swept {root : Operation} {swept : Operation × Nat} {s s' : State σ}
    (h : Returns (sweep patterns config root >>= removeDead config) s swept s') :
    s.context.SameDialects s'.context := by
  have haccounts : Accounts patterns config (fun _ => 0)
    (sweep patterns config root >>= removeDead config) _ _ _ s :=
    accounts_swept root s
  exact haccounts.dialects swept s' h

/-- **The names of a run.** They are drawn one after the other for the matches that are
committed. -/
theorem accounts_iterate (remaining iteration : Nat) (progress : Progress) (s : State σ) :
    Accounts patterns config w (iterate patterns config remaining iteration progress)
      (fun progress' => weight w progress'.root) (weight w progress.root)
      (iterateEncounters patterns config remaining iteration progress.root s) s := by
  induction remaining generalizing iteration progress s with
  | zero =>
      refine .quiet fun out s' hreturns => ?_
      obtain ⟨rfl, rfl⟩ := Returns.pure_iff.1 hreturns
      exact ⟨rfl, .refl _, Nat.le_refl _⟩
  | succ remaining ih =>
      rw [iterate_eq]
      unfold iterateEncounters
      refine .get_bind ?_
      split
      · refine .quiet fun out s' hreturns => ?_
        obtain ⟨rfl, rfl⟩ := Returns.pure_iff.1 hreturns
        exact ⟨rfl, .refl _, Nat.le_refl _⟩
      · refine .modify_bind (.get_bind ?_) rfl (sameDialects_note _ _)
        refine (accounts_swept progress.root _).seq fun ⟨root, removed⟩ s' _ => .get_bind ?_
        show Accounts patterns config w
          (if s'.rewrites = s.rewrites && removed = 0 then _ else _) _ _
          (if s'.rewrites = s.rewrites && removed = 0 then _ else _) s'
        by_cases hstop : (s'.rewrites = s.rewrites && removed = 0) = true
        · rw [if_pos hstop, if_pos hstop]
          refine .quiet fun out s'' hreturns => ?_
          obtain ⟨rfl, rfl⟩ := Returns.pure_iff.1 hreturns
          exact ⟨rfl, .refl _, Nat.le_refl _⟩
        · rw [if_neg hstop, if_neg hstop]
          exact ih (iteration + 1) { root, changed := true } s'

end DialectIR.Greedy
