import DialectIR.Proofs.Irreducible

/-! What can be found out about values by going through a tree once: which integer a value stands
for when all is simplified, or which other value. The first simplification that has something to
make of an operation, and what it makes, are determined by what is known of the operands. -/

namespace DialectIR

namespace Arith

open Greedy

variable {σ : Type} {op : Operation} {head head' : Head} {known known' : Value → Finding}

namespace Reduction

/-- Two values of which the same is known make zero. -/
def same : Reduction :=
  fun known lhs rhs => if known lhs = known rhs then some (.constant 0) else none

/-- The reduct of the first of two reductions that has one. -/
def or (reduction other : Reduction) : Reduction := fun known lhs rhs =>
  (reduction known lhs rhs).or (other known lhs rhs)

/-- What the first simplification makes of an operation that makes anything of it. Values of which
the same is known are one value by the time that they are compared. -/
def first (name : OpName) : Reduction :=
  (fold name).or <|
    if name = "arith.addi" then keep 0
    else if name = "arith.subi" then keepLeft.or same
    else if name = "arith.muli" then (keep 1).or absorb
    else fun _ _ _ => none

end Reduction

/-- What simplifications put in the place of an operation, if anything. -/
def reduct? (known : Value → Finding) (head : Head) : Option Reduct :=
  (Reduction.first head.name).ofOperands known head.operands

/-- What is known of the reduct of an operation with a result of the type. -/
def Reduct.finding (known : Value → Finding) (ty : Ty) : Reduct → Finding
  | .operand value => known value
  | .constant x => .integer (ty.truncate x)

namespace Reduction

/-- What the reduct stands for depends on what is known of the two values. -/
def Uniform (reduction : Reduction) : Prop :=
  ∀ (known known' : Value → Finding) (lhs rhs lhs' rhs' : Value), known lhs = known' lhs' →
    known rhs = known' rhs' →
    ∀ ty, (reduction known lhs rhs).map (·.finding known ty)
      = (reduction known' lhs' rhs').map (·.finding known' ty)

theorem uniform_constant (condition : Finding → Finding → Prop) [∀ x y, Decidable (condition x y)] :
    Uniform fun known lhs rhs => if condition (known lhs) (known rhs) then some (.constant 0)
      else none := by
  intro known known' lhs rhs lhs' rhs' hlhs hrhs ty
  dsimp only
  rw [hlhs, hrhs]
  split
  · rfl
  · rfl

theorem uniform_fold (name : OpName) : (fold name).Uniform := by
  intro known known' lhs rhs lhs' rhs' hlhs hrhs ty
  unfold fold
  rw [hlhs, hrhs]
  split
  · rw [Option.map_map, Option.map_map]
    rfl
  · rfl

theorem uniform_keep (neutral : Int64) : (keep neutral).Uniform := by
  intro known known' lhs rhs lhs' rhs' hlhs hrhs ty
  unfold keep
  rw [hlhs, hrhs]
  split_ifs
  · exact congrArg some hlhs
  · exact congrArg some hrhs
  · rfl

theorem uniform_keepLeft : keepLeft.Uniform := by
  intro known known' lhs rhs lhs' rhs' hlhs hrhs ty
  unfold keepLeft
  rw [hrhs]
  split
  · exact congrArg some hlhs
  · rfl

theorem Uniform.or {reduction other : Reduction} (h : reduction.Uniform) (hother : other.Uniform) :
    (reduction.or other).Uniform := by
  intro known known' lhs rhs lhs' rhs' hlhs hrhs ty
  unfold Reduction.or
  rw [Option.map_or, Option.map_or, h known known' lhs rhs lhs' rhs' hlhs hrhs ty,
    hother known known' lhs rhs lhs' rhs' hlhs hrhs ty]

theorem uniform_first (name : OpName) : (first name).Uniform := by
  refine (uniform_fold name).or ?_
  split_ifs
  · exact uniform_keep 0
  · exact uniform_keepLeft.or (uniform_constant fun x y => x = y)
  · exact (uniform_keep 1).or (uniform_constant fun x y => x = .integer 0 ∨ y = .integer 0)
  · exact fun _ _ _ _ _ _ _ _ _ => rfl

theorem Uniform.ofOperands {reduction : Reduction} (h : reduction.Uniform)
    {operands operands' : List Value} (hoperands : operands.map known = operands'.map known')
    (ty : Ty) :
    (reduction.ofOperands known operands).map (·.finding known ty)
      = (reduction.ofOperands known' operands').map (·.finding known' ty) := by
  match operands, operands' with
  | [lhs, rhs], [lhs', rhs'] =>
      simp only [List.map_cons, List.map_nil, List.cons.injEq, and_true] at hoperands
      exact h known known' lhs rhs lhs' rhs' hoperands.1 hoperands.2 ty
  | [], [] | [_], [_] | _ :: _ :: _ :: _, _ :: _ :: _ :: _ => rfl
  | [], _ :: _ | _ :: _, [] | [_], _ :: _ :: _ | _ :: _ :: _, [_] | [_, _], _ :: _ :: _ :: _
  | _ :: _ :: _ :: _, [_, _] => simp at hoperands

end Reduction

/-- **What matters is what is known of the operands.** -/
theorem map_finding_reduct? (hname : head.name = head'.name)
    (h : head.operands.map known = head'.operands.map known') (ty : Ty) :
    (reduct? known head).map (·.finding known ty) = (reduct? known' head').map
      (·.finding known' ty) := by
  unfold reduct?
  rw [hname]
  exact (Reduction.uniform_first head'.name).ofOperands h ty

theorem isSome_reduct?_congr (hname : head.name = head'.name)
    (h : head.operands.map known = head'.operands.map known') :
    (reduct? known head).isSome = (reduct? known' head').isSome := by
  have hmap := congrArg Option.isSome (map_finding_reduct? hname h .none)
  rwa [Option.isSome_map, Option.isSome_map] at hmap

theorem reduct?_congr (h : head.operands.map known = head.operands.map known') :
    reduct? known head = reduct? known' head := by
  unfold reduct? Reduction.ofOperands
  split
  next lhs rhs hoperands =>
    rw [hoperands] at h
    simp only [List.map_cons, List.map_nil, List.cons.injEq, and_true] at h
    obtain ⟨hlhs, hrhs⟩ := h
    unfold Reduction.first Reduction.or
    split_ifs
    · simp only [Reduction.fold, Reduction.keep, hlhs, hrhs]
    · simp only [Reduction.fold, Reduction.keepLeft, Reduction.same, hlhs, hrhs]
    · simp only [Reduction.fold, Reduction.keep, Reduction.absorb, hlhs, hrhs]
    · simp only [Reduction.fold, hlhs, hrhs]
  next => rfl

section

variable {lhs rhs : Value} {neutral : Int64}

theorem Reduction.isSome_or {reduction other : Reduction} :
    (reduction.or other known lhs rhs).isSome
    ↔ (reduction known lhs rhs).isSome ∨ (other known lhs rhs).isSome := by
  unfold Reduction.or
  rw [Option.isSome_or, Bool.or_eq_true_iff]

theorem Reduction.isSome_fold {name : OpName} : (fold name known lhs rhs).isSome
    ↔ IsBinary name ∧ ∃ x y, known lhs = .integer x ∧ known rhs = .integer y := by
  unfold fold
  split
  next x y hx hy =>
    rw [Option.isSome_map, Option.isSome_iff_ne_none, ne_eq, fold?_eq_none_iff, not_not]
    exact ⟨fun hbinary => ⟨hbinary, x, y, hx, hy⟩, And.left⟩
  next hother =>
    refine ⟨fun hsome => (Bool.false_ne_true hsome).elim, ?_⟩
    rintro ⟨-, x, y, hx, hy⟩
    exact (hother x y hx hy).elim

theorem Reduction.isSome_keep :
    (keep neutral known lhs rhs).isSome ↔ known lhs = .integer neutral
      ∨ known rhs = .integer neutral := by
  unfold keep
  split_ifs with hrhs hlhs
  · simp [hrhs]
  · simp [hlhs]
  · simp [hrhs, hlhs]

theorem Reduction.isSome_keepLeft : (keepLeft known lhs rhs).isSome ↔ known rhs = .integer 0 := by
  simp [keepLeft]

theorem Reduction.isSome_same : (same known lhs rhs).isSome ↔ known lhs = known rhs := by
  simp [same]

theorem Reduction.isSome_absorb :
    (absorb known lhs rhs).isSome ↔ known lhs = .integer 0 ∨ known rhs = .integer 0 := by
  simp [absorb]

/-- When there is a reduct. -/
theorem Reduction.isSome_first {name : OpName} : (first name known lhs rhs).isSome
    ↔ (IsBinary name ∧ ∃ x y, known lhs = .integer x ∧ known rhs = .integer y)
      ∨ name = "arith.addi" ∧ (known lhs = .integer 0 ∨ known rhs = .integer 0)
      ∨ name = "arith.subi" ∧ (known rhs = .integer 0 ∨ known lhs = known rhs)
      ∨ name = "arith.muli" ∧ ((known lhs = .integer 1 ∨ known rhs = .integer 1)
        ∨ (known lhs = .integer 0 ∨ known rhs = .integer 0)) := by
  unfold first
  rw [isSome_or, isSome_fold]
  refine or_congr_right ?_
  split_ifs with hadd hsub hmul
  · simp [isSome_keep, hadd]
  · simp [isSome_or, isSome_keepLeft, isSome_same, hsub]
  · simp [isSome_or, isSome_keep, isSome_absorb, hmul]
  · simp [hadd, hsub, hmul]

end

theorem isBinary_of_reduct? {reduct : Reduct} (h : reduct? known head = some reduct) :
    IsBinary head.name := by
  unfold reduct? Reduction.ofOperands at h
  split at h
  next lhs rhs _ =>
    have hsome : (Reduction.first head.name known lhs rhs).isSome := by
      rw [h]
      rfl
    rcases Reduction.isSome_first.1 hsome with ⟨hbinary, -⟩ | ⟨hname, -⟩ | ⟨hname, -⟩ | ⟨hname, -⟩
    · exact hbinary
    · exact .inl hname
    · exact .inr (.inl hname)
    · exact .inr (.inr hname)
  next => cases h

/-- What can be simplified has a reduct, if operands of one name are one value. -/
theorem Reducible.isSome_reduct? {stands : String → Int64 → Prop} (h : Reducible stands head)
    (hknown : ∀ operand ∈ head.operands, ∀ x, stands operand.name x → known operand = .integer x)
    (hsame : ∀ lhs rhs, head.operands = [lhs, rhs] → lhs.name = rhs.name → lhs = rhs) :
    (reduct? known head).isSome := by
  have hpair {lhs rhs : Value} (hoperands : head.operands = [lhs, rhs]) :
      (∀ x, stands lhs.name x → known lhs = .integer x) ∧ ∀ x, stands rhs.name x →
        known rhs = .integer x :=
    ⟨hknown lhs (hoperands ▸ List.mem_cons_self),
      hknown rhs (hoperands ▸ List.mem_cons_of_mem _ List.mem_cons_self)⟩
  unfold reduct?
  cases h with
  | fold lhs rhs x y hbinary hoperands hlhs hrhs =>
      rw [hoperands]
      exact Reduction.isSome_first.2
        (.inl ⟨hbinary, x, y, (hpair hoperands).1 x hlhs, (hpair hoperands).2 y hrhs⟩)
  | addZero lhs rhs hname hoperands hzero =>
      rw [hoperands]
      have hzero' := hzero.imp ((hpair hoperands).1 0) ((hpair hoperands).2 0)
      exact Reduction.isSome_first.2 (.inr (.inl ⟨hname, hzero'⟩))
  | subZero lhs rhs hname hoperands hzero =>
      rw [hoperands]
      exact Reduction.isSome_first.2
        (.inr (.inr (.inl ⟨hname, .inl ((hpair hoperands).2 0 hzero)⟩)))
  | subSelf lhs rhs hname hoperands hnames =>
      rw [hoperands]
      have hsame' := congrArg known (hsame lhs rhs hoperands hnames)
      exact Reduction.isSome_first.2 (.inr (.inr (.inl ⟨hname, .inr hsame'⟩)))
  | mulOne lhs rhs hname hoperands hone =>
      rw [hoperands]
      have hone' := hone.imp ((hpair hoperands).1 1) ((hpair hoperands).2 1)
      exact Reduction.isSome_first.2 (.inr (.inr (.inr ⟨hname, .inl hone'⟩)))
  | mulZero lhs rhs hname hoperands hzero =>
      rw [hoperands]
      have hzero' := hzero.imp ((hpair hoperands).1 0) ((hpair hoperands).2 0)
      exact Reduction.isSome_first.2 (.inr (.inr (.inr ⟨hname, .inr hzero'⟩)))

/-! ### The first pattern that matches -/

section

variable {definitions : Dict Operation}

/-- The simplifications of an operation, in the order in which they are tried. -/
theorem filter_reductions (name : OpName) : (reductions (σ := σ) name).filter (·.1.appliesTo name)
    = (foldBinary, .fold name) ::
      if name = "arith.addi" then [(addZero, .keep 0)]
      else if name = "arith.subi" then [(subZero, .keepLeft), (subSelf, .cancel)]
      else if name = "arith.muli" then [(mulOne, .keep 1), (mulZero, .absorb)]
      else [] := by
  split_ifs with hadd hsub hmul
  · rw [hadd]
    rfl
  · rw [hsub]
    rfl
  · rw [hmul]
    rfl
  · have hadd' := Ne.symm hadd
    have hsub' := Ne.symm hsub
    have hmul' := Ne.symm hmul
    simp [reductions, Pattern.appliesTo, foldBinary, addZero, subZero, subSelf, mulOne, mulZero,
      hadd', hsub', hmul']

/-- Two values of which the same is known are one value, or both are integers. -/
theorem eq_of_seen_eq {lhs rhs : Value} (h : seen definitions lhs = seen definitions rhs) :
    lhs = rhs ∨ ∃ x, seen definitions lhs = .integer x ∧ seen definitions rhs = .integer x := by
  cases hx : known? definitions lhs with
  | some x => exact .inr ⟨x, seen_of_some hx, h ▸ seen_of_some hx⟩
  | none =>
      cases hy : known? definitions rhs with
      | some y => exact .inr ⟨y, h ▸ seen_of_some hy, seen_of_some hy⟩
      | none =>
          rw [seen_of_none hx, seen_of_none hy] at h
          exact .inl (Finding.value.inj h)

/-- Integers are combined before they are compared. -/
theorem fold_or_cancel (reduction : Reduction) (lhs rhs : Value) :
    ((Reduction.fold "arith.subi").or (reduction.or .cancel)) (seen definitions) lhs rhs
      = ((Reduction.fold "arith.subi").or (reduction.or .same)) (seen definitions) lhs rhs := by
  unfold Reduction.or
  have hsame : Reduction.cancel (seen definitions) lhs rhs
    = Reduction.same (seen definitions) lhs rhs
      ∨ (Reduction.fold "arith.subi" (seen definitions) lhs rhs).isSome := by
    unfold Reduction.cancel Reduction.same
    by_cases h : seen definitions lhs = seen definitions rhs
    · rcases eq_of_seen_eq h with rfl | ⟨x, hlhs, hrhs⟩
      · rw [if_pos rfl, if_pos rfl]
        exact .inl rfl
      · unfold Reduction.fold
        rw [hlhs, hrhs]
        exact .inr rfl
    · rw [if_neg h, if_neg (mt (congrArg (seen definitions)) h)]
      exact .inl rfl
  rcases hsame with hsame | hfold
  · rw [hsame]
  · obtain ⟨reduct, hreduct⟩ := Option.isSome_iff_exists.1 hfold
    rw [hreduct, Option.some_or, Option.some_or]

/-- The simplifications of an operation in the order in which they are tried, each with what it
makes of operands. -/
def trials (known : Value → Finding) (name : OpName) (operands : List Value) :
    List (Pattern σ × Option Reduct) :=
  ((reductions name).filter (·.1.appliesTo name)).map fun pair =>
    (pair.1, pair.2.ofOperands known operands)

theorem findSome?_snd_cons {α β : Type} (pair : α × Option β) (pairs : List (α × Option β)) :
    (pair :: pairs).findSome? Prod.snd = pair.2.or (pairs.findSome? Prod.snd) := by
  obtain ⟨a, _ | b⟩ := pair
  · rfl
  · rfl

/-- **The first simplification to make anything** makes what is found. -/
theorem findSome?_trials (name : OpName) (operands : List Value) :
    (trials (σ := σ) (seen definitions) name operands).findSome? Prod.snd
      = (Reduction.first name).ofOperands (seen definitions) operands := by
  unfold trials
  rw [filter_reductions]
  unfold Reduction.first
  match operands with
  | [lhs, rhs] =>
      rw [List.map_cons, findSome?_snd_cons]
      split_ifs with hadd hsub hmul
      · rw [List.map_cons, List.map_nil, findSome?_snd_cons, List.findSome?_nil, Option.or_none]
        rfl
      · rw [hsub]
        refine Eq.trans ?_ (fold_or_cancel .keepLeft lhs rhs)
        rw [List.map_cons, List.map_cons, List.map_nil, findSome?_snd_cons, findSome?_snd_cons,
          List.findSome?_nil, Option.or_none]
        rfl
      · rw [List.map_cons, List.map_cons, List.map_nil, findSome?_snd_cons, findSome?_snd_cons,
          List.findSome?_nil, Option.or_none]
        rfl
      · rfl
  | [] | [_] | _ :: _ :: _ :: _ =>
      rw [show Reduction.ofOperands _ (seen definitions) _ = none from rfl,
        List.findSome?_eq_none_iff]
      rintro _ hmem
      obtain ⟨_, _, rfl⟩ := List.mem_map.1 hmem
      rfl

end

/-- A match that makes the reduct, or none if there is none to make. -/
def Reduced (op : Operation) : Option Reduct → Option Recording → Prop
  | none, recording? => recording? = none
  | some reduct, recording? =>
      ∃ names recording, recording? = some recording ∧ Leaves op reduct names recording

/-- The error of one of the patterns that make something, for results that it cannot replace. -/
def Refuses (tried : List (Pattern σ × Option Reduct)) (head : Head) (error : Error) : Prop :=
  ∃ pattern reduct, (pattern, some reduct) ∈ tried
    ∧ ∃ cause, Misfit head cause ∧ error = .inPattern pattern.name head.name cause

theorem Refuses.mono {tried more : List (Pattern σ × Option Reduct)} {error : Error}
    (h : Refuses tried head error) (hsub : tried ⊆ more) : Refuses more head error := by
  obtain ⟨pattern, reduct, hmem, hcause⟩ := h
  exact ⟨pattern, reduct, hsub hmem, hcause⟩

variable {s : State σ} {config : Config}

theorem ensures_attempt_of_seeks {pattern : Pattern σ} {reduct? : Option Reduct} (depth : Nat)
    (h : Seeks pattern op s.definitions reduct?) :
    Ensures (attempt depth op pattern) s (fun recording? _ => Reduced op reduct? recording?)
      fun error _ => Refuses [(pattern, reduct?)] op.toHead error := by
  have hdoes := h (s.site op) s.draft rfl rfl rfl
  unfold attempt
  rw [Ensures.modify_bind_iff, Ensures.get_bind_iff, Ensures.set_bind_iff]
  generalize hrun : Rewrite.run _ _ _ = outcome
  obtain ⟨answer, draft⟩ := outcome
  have hrun' : (pattern.rewrite op).run.run (s.site op) s.draft = (answer, draft) := hrun
  unfold Attempt.Does at hdoes
  rw [hrun'] at hdoes
  cases reduct? with
  | none =>
      obtain rfl : answer = .ok false := hdoes
      exact rfl
  | some reduct =>
      rcases answer with cause | answer
      · exact ⟨pattern, reduct, List.mem_singleton.2 rfl, cause, hdoes, rfl⟩
      · obtain ⟨rfl, hleaves⟩ : answer = true ∧ Leaves op reduct _ draft.recording := hdoes
        dsimp only
        rw [if_neg (Bool.eq_false_iff.1 hleaves.isEmpty)]
        exact ⟨_, _, rfl, hleaves⟩

/-- The first reduct that a pattern seeks is made, or refused. -/
theorem ensures_attemptFirst_of_seeks {tried : List (Pattern σ × Option Reduct)} (depth : Nat)
    (h : ∀ pair ∈ tried, Seeks pair.1 op s.definitions pair.2) :
    Ensures (attemptFirst depth op (tried.map Prod.fst)) s
      (fun recording? _ => Reduced op (tried.findSome? Prod.snd) recording?)
      fun error _ => Refuses tried op.toHead error := by
  induction tried generalizing s with
  | nil => exact rfl
  | cons pair tried ih =>
      rw [List.forall_mem_cons] at h
      have htried : Ensures (attempt depth op pair.1) s
        (fun recording? _ => Reduced op pair.2 recording?)
          fun error _ => Refuses (pair :: tried) op.toHead error :=
        (ensures_attempt_of_seeks depth h.1).weaken fun error _ hrefuses => hrefuses.mono (by simp)
      rw [List.map_cons, attemptFirst, findSome?_snd_cons]
      refine htried.bind fun recording? s' hreturns hreduced => ?_
      cases hreduct : pair.2 with
      | none =>
          rw [hreduct] at hreduced
          obtain rfl : recording? = none := hreduced
          have hsame :=
            ((ensures_attempt depth op pair.1 s).of_returns hreturns).similar.definitions
          refine (ih fun pair hpair => hsame ▸ h.2 pair hpair).weaken fun error _ hrefuses =>
            hrefuses.mono ?_
          exact List.subset_cons_self _ _
      | some reduct =>
          rw [hreduct] at hreduced
          obtain ⟨names, recording, rfl, hleaves⟩ := hreduced
          exact ⟨names, recording, rfl, hleaves⟩

/-- **Trying the simplifications** comes to what is found; they fail just if there is not one result
to replace. -/
theorem ensures_applyPatterns_reduced (hlimit : config.maxRewrites = none) (depth : Nat)
    (op : Operation) (s : State σ) :
    Ensures (applyPatterns ⟨simplifications⟩ config depth op) s
      (fun recording? _ => Reduced op (reduct? (seen s.definitions) op.toHead) recording?)
      fun error _ => (reduct? (seen s.definitions) op.toHead).isSome
        ∧ Refuses (σ := σ) (trials (seen s.definitions) op.name op.operands) op.toHead error := by
  have hpatterns : FrozenPatterns.patternsFor ⟨simplifications⟩ op.name
      = (trials (σ := σ) (seen s.definitions) op.name op.operands).map Prod.fst := by
    show ((reductions op.name).map Prod.fst).filter _ = _
    rw [List.filter_map, trials, List.map_map]
    rfl
  have hseeks : ∀ pair ∈ trials (σ := σ) (seen s.definitions) op.name op.operands,
    Seeks pair.1 op s.definitions pair.2 :=
    List.forall_mem_map.2 fun pair hpair => seeks_of_mem
      (List.mem_of_mem_filter hpair) s.definitions
  have hreduct : (trials (σ := σ) (seen s.definitions) op.name op.operands).findSome? Prod.snd
      = reduct? (seen s.definitions) op.toHead := findSome?_trials op.name op.operands
  have htried := ensures_attemptFirst_of_seeks depth hseeks
  rw [hreduct] at htried
  unfold applyPatterns
  rw [Ensures.get_bind_iff, limitReached_of_none hlimit, if_neg Bool.false_ne_true, hpatterns]
  refine htried.weaken fun error _ hrefuses => ⟨?_, hrefuses⟩
  obtain ⟨pattern, reduct, hmem, -⟩ := hrefuses
  rw [← hreduct, List.findSome?_isSome_iff]
  exact ⟨_, hmem, rfl⟩

/-- What is known of a value whose name something may have been found of. -/
def Finding.of (found : String → Option Finding) (value : Value) : Finding :=
  (found value.name).getD (.value value)

/-- What is found of the results of an operation: that they are the integer that it defines, or that
the only one is what the operation is simplified to. -/
def finding? (found : String → Option Finding) (head : Head) : Option Finding :=
  match head.constant?, head.results with
  | some x, _ => some (.integer x)
  | none, [result] => (reduct? (Finding.of found) head).map (·.finding (Finding.of found) result.ty)
  | none, _ => none

/-- What is found behind an operation. -/
def findBehind (found : String → Option Finding) (head : Head) : String → Option Finding :=
  fun name =>
  if name ∈ head.resultNames then finding? found head else found name

/-- What is found of the results of operations in order. -/
def findings (heads : List Head) : String → Option Finding := heads.foldl findBehind fun _ => none

/-- What is found of the results is what the operation tells of them. -/
def Tells (found : String → Option Finding) (head : Head) : Prop :=
  ∀ name ∈ head.resultNames, found name = finding? found head

variable {found found' : String → Option Finding} {heads more : List Head}

theorem finding?_congr (hname : head.name = head'.name)
    (hattributes : head.attributes = head'.attributes) (hresults : head.results = head'.results)
    (hoperands : head.operands.map (Finding.of found) = head'.operands.map (Finding.of found')) :
    finding? found head = finding? found' head' := by
  have hconstant : head.constant? = head'.constant? := by
    unfold Head.constant? Operation.constant?
    rw [hname, hattributes]
  unfold finding?
  rw [hconstant, hresults]
  split
  · rfl
  · exact map_finding_reduct? hname hoperands _
  · rfl

/-- What is found of the result of an operation that is simplified. -/
theorem finding?_of_reduct? {result : Value} {reduct : Reduct} (hresults : head.results = [result])
    (h : reduct? (Finding.of found) head = some reduct) :
    finding? found head = some (reduct.finding (Finding.of found) result.ty) := by
  have hconstant : head.constant? = none := by
    have hbinary := isBinary_of_reduct? h
    refine if_neg fun hname => ?_
    have hnot : ¬ IsBinary "arith.constant" := by decide
    exact hnot (hname ▸ hbinary)
  unfold finding?
  rw [hconstant, hresults, h]
  rfl

theorem telling_findBehind : Telling findBehind where
  elsewhere _ _ _ hname := if_neg hname
  congr found found' head hoperands name hname := by
    unfold findBehind
    rw [if_pos hname, if_pos hname]
    refine finding?_congr rfl rfl rfl (List.map_congr_left fun operand hoperand => ?_)
    unfold Finding.of
    rw [hoperands operand hoperand]

theorem tells_findings (hordered : Ordered [] heads) (hapart : Apart [] heads) :
    ∀ head ∈ heads, Tells (findings heads) head := by
  intro head hhead name hname
  exact (telling_findBehind.foldl_of_mem hordered hapart head hhead name hname).trans (if_pos hname)

theorem findings_append_of_not_mem {name : String} (h : name ∉ more.flatMap Head.resultNames) :
    findings (heads ++ more) name = findings heads name := by
  unfold findings
  rw [List.foldl_append, telling_findBehind.foldl_of_not_mem h]

end Arith

end DialectIR
