import DialectIR.Proofs.Blind
import DialectIR.Proofs.Canonicalization
import DialectIR.Proofs.Interleaving
import DialectIR.Proofs.Lockstep

/-! Matches that fail leave no trace. A run with patterns that never match, wherever they stand
among the others, goes side by side with the run without them: an attempt that declines gives its
names back, and what it recorded is lost. -/

namespace DialectIR

variable {σ τ : Type}

theorem Interleaved.freeze {kept idle all : List (Pattern σ)} (h : Interleaved kept idle all) :
    Interleaved (PatternSet.mk kept).freeze.patterns (PatternSet.mk idle).freeze.patterns
      (PatternSet.mk all).freeze.patterns := by
  refine h.mergeSort (fun a b c hab hbc => ?_) fun a b => ?_
  · rw [decide_eq_true_eq] at hab hbc ⊢
    exact Nat.le_trans hbc hab
  · rw [Bool.or_eq_true, decide_eq_true_eq, decide_eq_true_eq]
    exact Nat.le_total _ _

namespace Pattern

/-- What the pattern does depends on what is seen of the memory only, and so does what is seen of it
afterwards. -/
def SeesOnly (view : σ → τ) (pattern : Pattern σ) : Prop :=
  ∀ (op : Operation) (site : Site) (draft draft' : Draft σ)
    (outcome outcome' : Except Error Bool × Draft σ), site.op = op →
    draft.recording = {} → draft'.recording = {} → draft'.names = draft.names →
      view draft'.memory = view draft.memory →
    (pattern.rewrite op).run.run site draft = outcome →
      (pattern.rewrite op).run.run site draft' = outcome' →
    outcome'.1 = outcome.1 ∧ outcome'.2.names = outcome.2.names
      ∧ outcome'.2.recording = outcome.2.recording
      ∧ view outcome'.2.memory = view outcome.2.memory

/-- The pattern never matches and changes nothing that is seen of the memory, whatever else it
does. -/
def Idle (view : σ → τ) (pattern : Pattern σ) : Prop :=
  ∀ (op : Operation) (site : Site) (draft : Draft σ), site.op = op → draft.recording = {} →
    ((pattern.rewrite op).run.run site draft).1 = .ok false
      ∧ view ((pattern.rewrite op).run.run site draft).2.memory = view draft.memory

/-- A pattern may see all of the memory. -/
theorem seesOnly_id (pattern : Pattern σ) : pattern.SeesOnly id := by
  rintro op site ⟨names, memory, _⟩ ⟨names', memory', _⟩ outcome outcome' - rfl rfl rfl rfl rfl rfl
  exact ⟨rfl, rfl, rfl, rfl⟩

theorem Blind.seesOnly {pattern : Pattern σ} (h : pattern.Blind) (view : σ → τ) :
    pattern.SeesOnly view := by
  rintro op site draft draft' _ _ - hrecording hrecording' hnames hmemory rfl rfl
  have hrun : Rewrite.RunAlike draft.memory draft'.memory ((pattern.rewrite op).run.run site draft)
      ((pattern.rewrite op).run.run site draft') :=
    (h op).run rfl rfl draft draft' hnames (hrecording'.trans hrecording.symm)
  refine ⟨hrun.result, hrun.names, hrun.recording, ?_⟩
  rw [hrun.left, hrun.right, hmemory]

end Pattern

namespace Context

variable {context other : Context}

theorem isPure_withoutJournal (h : other.withoutJournal = context.withoutJournal) :
    other.isPure = context.isPure := by
  show other.withoutJournal.isPure = context.withoutJournal.isPure
  rw [h]

theorem judge_withoutJournal (h : other.withoutJournal = context.withoutJournal)
    (used : List String) (head : Head) :
    (other.judge used head).withoutJournal = (context.judge used head).withoutJournal := by
  have hload := load_withoutJournal h head.name.dialect
  have hpure := congrFun (isPure_withoutJournal hload) head.name
  unfold judge
  split
  · dsimp only
    rw [hpure]
    split
    · exact hload
    · exact hload
  · exact h

theorem foldl_judge_withoutJournal (h : other.withoutJournal = context.withoutJournal)
    (used : List String) (heads : List Head) :
    (heads.foldl (·.judge used ·) other).withoutJournal
      = (heads.foldl (·.judge used ·) context).withoutJournal := by
  induction heads generalizing context other with
  | nil => exact h
  | cons head heads ih => exact ih (judge_withoutJournal h used head)

/-- Removing dead operations asks for the same dialects whatever happened before. -/
theorem removeDeadOps_withoutJournal (h : other.withoutJournal = context.withoutJournal)
    (op : Operation) :
    (op.removeDeadOps other).context.withoutJournal
      = (op.removeDeadOps context).context.withoutJournal := by
  have hrounds (rounds : Nat) : (op.removeDeadRounds rounds other).context.withoutJournal
      = (op.removeDeadRounds rounds context).context.withoutJournal := by
    induction rounds generalizing context other op with
    | zero => exact h
    | succ rounds ih =>
        have hdead (used : List String) : other.isDead used = context.isDead used := by
          funext head
          rw [isDead, isDead, isPure_withoutJournal h]
        rw [Operation.removeDeadRounds, Operation.removeDeadRounds, hdead]
        dsimp only
        have hjudged := foldl_judge_withoutJournal h op.usedNames
          (op.judged (context.isDead op.usedNames))
        split
        · exact hjudged
        · exact ih hjudged _
  exact hrounds _

end Context

/-! ### Runs -/

namespace Greedy

/-- The states differ in their journals only, and in what is not seen of the memory. -/
structure State.SeenAlike (view : σ → τ) (s t : State σ) : Prop where
  definitions : t.definitions = s.definitions
  replaced : t.replaced = s.replaced
  erased : t.erased = s.erased
  names : t.names = s.names
  rewrites : t.rewrites = s.rewrites
  context : t.context.withoutJournal = s.context.withoutJournal
  memory : view t.memory = view s.memory

theorem State.SeenAlike.similar {view : σ → τ} {s t : State σ} (h : s.SeenAlike view t) :
    s.Similar t := by
  have hdialects : s.context.withoutJournal.SameDialects t.context.withoutJournal :=
    h.context ▸ .refl _
  exact ⟨h.definitions, h.replaced, h.erased, hdialects.dialect, hdialects.allows⟩

theorem State.SeenAlike.refl (view : σ → τ) (s : State σ) : s.SeenAlike view s :=
  ⟨rfl, rfl, rfl, rfl, rfl, rfl, rfl⟩

theorem State.SeenAlike.symm {view : σ → τ} {s t : State σ} (h : s.SeenAlike view t) :
    t.SeenAlike view s :=
  ⟨h.definitions.symm, h.replaced.symm, h.erased.symm, h.names.symm, h.rewrites.symm,
    h.context.symm, h.memory.symm⟩

theorem State.SeenAlike.trans {view : σ → τ} {s t u : State σ} (h : s.SeenAlike view t)
    (h' : t.SeenAlike view u) :
    s.SeenAlike view u :=
  ⟨h'.definitions.trans h.definitions, h'.replaced.trans h.replaced, h'.erased.trans h.erased,
    h'.names.trans h.names,
    h'.rewrites.trans h.rewrites, h'.context.trans h.context, h'.memory.trans h.memory⟩

/-- Runs whose states differ in their journals only, and in what is not seen of the memory. -/
def seenLink (view : σ → τ) : Link σ where
  Linked := State.SeenAlike view
  Followed _ _ := True
  followed_before _ _ := trivial
  similar h := h.similar
  learn h _ _ _ := ⟨rfl, rfl, rfl, h.names, h.rewrites, h.context, h.memory⟩
  note h _ := ⟨h.definitions, h.replaced, h.erased, h.names, h.rewrites, h.context, h.memory⟩
  prune h op := ⟨h.definitions, h.replaced, h.erased, h.names, h.rewrites,
    Context.removeDeadOps_withoutJournal h.context op, h.memory⟩

variable {view : σ → τ}

theorem sameLimit_seenLink {config config' : Config}
    (hmost : config'.maxRewrites = config.maxRewrites) :
    (seenLink view).SameLimit config config' := by
  intro s t hseen _
  rw [State.limitReached, State.limitReached, hmost, hseen.rewrites]

theorem follows_of_seesOnly {pattern : Pattern σ} (h : pattern.SeesOnly view) (depth : Nat)
    (op : Operation) :
    (seenLink view).Follows (attempt depth op pattern) (attempt depth op pattern) := by
  refine Link.follows_attempt fun {s t concluded} hlinked hconcluded _ => ?_
  subst hconcluded
  have hsite : t.site op = s.site op := by
    unfold State.site
    rw [hlinked.context, hlinked.definitions]
  rw [hsite]
  have hsame := h op (s.site op) s.draft t.draft _ _ rfl rfl rfl hlinked.names
    hlinked.memory rfl rfl
  generalize (pattern.rewrite op).run.run (s.site op) s.draft = outcome at hsame ⊢
  generalize (pattern.rewrite op).run.run (s.site op) t.draft = outcome' at hsame ⊢
  obtain ⟨answer, draft⟩ := outcome
  obtain ⟨answer', draft'⟩ := outcome'
  obtain ⟨rfl, hnames, hrecording, hmemory⟩ := hsame
  dsimp only at hnames hrecording hmemory
  rcases answer' with cause | _ | _
  · exact ⟨rfl, hlinked.definitions, hlinked.replaced, hlinked.erased, hnames, hlinked.rewrites,
      hlinked.context, hmemory⟩
  · exact ⟨rfl, hlinked.definitions, hlinked.replaced, hlinked.erased, hlinked.names,
      hlinked.rewrites, hlinked.context, hmemory⟩
  · unfold State.conclude
    dsimp only
    rw [hrecording, hlinked.rewrites]
    split
    · exact ⟨rfl, hlinked.definitions, hlinked.replaced, hlinked.erased, hnames, hlinked.rewrites,
        hlinked.context, hmemory⟩
    · exact ⟨rfl, hlinked.definitions, hlinked.replaced, hlinked.erased, hnames, rfl,
        hlinked.context, hmemory⟩

/-- An attempt that declines leaves nothing behind that is seen. -/
theorem ends_attempt_of_idle {pattern : Pattern σ} {op : Operation}
    (h : ∀ (site : Site) (draft : Draft σ), site.op = op →
      draft.recording = {} → ((pattern.rewrite op).run.run site draft).1 = .ok false
        ∧ view ((pattern.rewrite op).run.run site draft).2.memory = view draft.memory) (depth : Nat)
    {s t : State σ} (hseen : s.SeenAlike view t) :
    Ensures (attempt depth op pattern) t
      (fun recording? t' => recording? = none ∧ s.SeenAlike view t') fun _ _ => False := by
  obtain ⟨hanswer, hmemory⟩ := h (t.site op) t.draft rfl rfl
  unfold Ensures
  rw [runFrom_attempt]
  generalize (pattern.rewrite op).run.run (t.site op) t.draft = outcome at hanswer hmemory ⊢
  obtain ⟨answer, draft⟩ := outcome
  obtain rfl : answer = .ok false := hanswer
  exact ⟨rfl, hseen.definitions, hseen.replaced, hseen.erased, hseen.names, hseen.rewrites,
    hseen.context, hmemory.trans hseen.memory⟩

theorem follows_attemptFirst_interleaved {kept idle all : List (Pattern σ)}
    (h : Interleaved kept idle all) (hkept : ∀ pattern ∈ kept, pattern.SeesOnly view)
    (hidle : ∀ pattern ∈ idle, pattern.Idle view) (depth : Nat) (op : Operation) :
    (seenLink view).Follows (attemptFirst depth op kept) (attemptFirst depth op all) := by
  induction h with
  | nil => exact Link.follows_pure none
  | @left pattern kept idle all h ih =>
      obtain ⟨hpattern, hkept⟩ := List.forall_mem_cons.1 hkept
      refine (follows_of_seesOnly hpattern depth op).bind fun recording? => ?_
      cases recording? with
      | some recording => exact Link.follows_pure _
      | none => exact ih hkept hidle
  | @right pattern kept idle all h ih =>
      obtain ⟨hpattern, hidle⟩ := List.forall_mem_cons.1 hidle
      exact (ih hkept hidle).skip_right fun s t hseen =>
        ends_attempt_of_idle (hpattern op) depth hseen

end Greedy

open Greedy

/-- **Failed matches leave no trace.** Patterns that never match may stand among others wherever
they like: the run ends in the same way and leaves the same tree, names included, the same dialects
loaded and the same memory, as far as the other patterns see it. -/
theorem applyGreedily_interleaved {view : σ → τ} {kept idle all : List (Pattern σ)}
    (hall : Interleaved kept idle all) (hkept : ∀ pattern ∈ kept, pattern.SeesOnly view)
    (hidle : ∀ pattern ∈ idle, pattern.Idle view) (config : Config) (root : Operation)
    (context : Context) (memory : σ) :
    let alone := applyGreedily (PatternSet.mk kept).freeze config root context memory
    let together := applyGreedily (PatternSet.mk all).freeze config root context memory
    together.result = alone.result ∧ together.op = alone.op
      ∧ together.context.withoutJournal = alone.context.withoutJournal
      ∧ view together.memory = view alone.memory := by
  have hlimit : (seenLink view).SameLimit config config := sameLimit_seenLink rfl
  have hfrozen := hall.freeze
  have hruns : (seenLink view).FollowsRuns (PatternSet.mk kept).freeze (PatternSet.mk all).freeze
    config config :=
    { topDown := rfl
      applyPatterns := fun depth op => hlimit.follows_ite none <| follows_attemptFirst_interleaved (hfrozen.filter _)
        (fun pattern hpattern => hkept pattern (List.mem_mergeSort.1 (List.mem_filter.1 hpattern).1))
        (fun pattern hpattern =>
          hidle pattern (List.mem_mergeSort.1 (List.mem_filter.1 hpattern).1)) depth op
      limit := hlimit
      removeDeadOps := rfl
      rewrites := fun hseen => hseen.rewrites }
  have hstart : ({ context, memory, names := namesFor root } : State σ).SeenAlike view
    { context, memory, names := namesFor root } :=
    ⟨rfl, rfl, rfl, rfl, rfl, rfl, rfl⟩
  obtain ⟨hresult, hop, s, t, hseen, hs, hs', ht, ht'⟩ :=
    hruns.followsSweeps.ends_applyGreedily rfl trivial hstart fun _ => trivial
  refine ⟨hresult, hop, ?_, ?_⟩
  · rw [hs, ht, hseen.context]
  · rw [hs', ht', hseen.memory]

/-- A pattern that counts its attempts, draws a name, inserts a constant and erases what it is tried
on, all in vain, may stand behind the pattern that is tried first. -/
theorem applyGreedily_interleaved_scribble : ∃ (scribble : Pattern (Nat × Nat)) (root : Operation),
    let all := Arith.foldBinary :: scribble
        :: [Arith.addZero, Arith.subZero, Arith.subSelf, Arith.mulOne, Arith.mulZero]
    let alone := applyGreedily (PatternSet.mk Arith.simplifications).freeze {} root
        (.ofRegistry .standard) (0, 0)
    let together := applyGreedily (PatternSet.mk all).freeze {} root (.ofRegistry .standard) (0, 0)
    alone.op.definedNames = ["a", "0"] ∧ together.result = alone.result ∧ together.op = alone.op
      ∧ together.context.withoutJournal = alone.context.withoutJournal
      ∧ together.memory.1 = alone.memory.1 := by
  let scribble : Pattern (Nat × Nat) :=
    { name := "test::Scribble"
      benefit := 3
      rewrite := fun _ => do
        Attempt.modifyMemory fun (seen, count) => (seen, count + 1)
        let value ← Attempt.freshValue (.int 8)
        Attempt.insert (.constant value 7)
        Attempt.act .erase
        return false }
  let a : Value := ⟨"a", .int 8⟩
  let b : Value := ⟨"b", .int 8⟩
  let root := Operation.module
    [{ name := "test.source", results := [a] },
      { name := "arith.subi", operands := [a, a], results := [b] },
      { name := "test.sink", operands := [a, b] }]
  have hidle : ∀ pattern ∈ [scribble], pattern.Idle Prod.fst := by
    intro pattern hpattern
    obtain rfl := List.mem_singleton.1 hpattern
    rintro op site ⟨names, memory, _⟩ - rfl
    exact ⟨rfl, rfl⟩
  have hnames : (applyGreedily (PatternSet.mk Arith.simplifications).freeze {} root
    (.ofRegistry .standard) (0, 0)).op.definedNames
      = ["a", "0"] := by
    rw [Arith.freeze_simplifications]
    decide +kernel
  exact ⟨scribble, root, hnames, applyGreedily_interleaved
    (.left (.right (.left (.left (.left (.left (.left .nil)))))))
    (fun pattern hpattern => (Arith.blind_simplifications pattern hpattern).seesOnly Prod.fst)
      hidle {} root _ _⟩

end DialectIR
