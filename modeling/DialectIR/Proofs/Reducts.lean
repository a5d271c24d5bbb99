import DialectIR.Arith
import DialectIR.Proofs.Attempts
import DialectIR.Proofs.DrawnNames

/-! What simplifications put in the place of arithmetic: an operand or a new constant, in view of
what is known of the operands. Each of them does just that, declines, or fails because there is not
one result to replace. -/

namespace DialectIR

namespace Arith

variable {σ : Type} {site : Site} {draft : Draft σ} {op : Operation}

/-- The integer that a value is known to be. -/
def known? (definitions : Dict Operation) (value : Value) : Option Int64 :=
  (definitions.get? value.name).bind (·.constant?)

/-- The operations that take two integers. -/
def IsBinary (name : OpName) : Prop :=
  name = "arith.addi" ∨ name = "arith.subi" ∨ name = "arith.muli"

instance (name : OpName) : Decidable (IsBinary name) :=
  inferInstanceAs (Decidable (name = "arith.addi" ∨ name = "arith.subi" ∨ name = "arith.muli"))

/-- How simplifications fail on an operation that has more or less than one result. -/
inductive Misfit (head : Head) : Error → Prop where
  | noResult (hresults : head.results = []) : Misfit head (.noResult head.name)
  | resultCount (hresults : head.results.length ≠ 1) :
      Misfit head (.refused (.resultCount head.name head.results.length 1))

theorem Misfit.results_ne {head : Head} {error : Error} (h : Misfit head error) :
    head.results.length ≠ 1 := by
  cases h with
  | noResult hresults =>
      rw [hresults]
      decide
  | resultCount hresults => exact hresults

/-- What can be known of a value: an integer, or else only which value it is. -/
inductive Finding where
  | integer (x : Int64)
  | value (value : Value)
  deriving DecidableEq

/-- What is known of a value in view of the definitions. -/
def seen (definitions : Dict Operation) (value : Value) : Finding :=
  match known? definitions value with
  | some x => .integer x
  | none => .value value

theorem seen_of_some {definitions : Dict Operation} {value : Value} {x : Int64}
    (h : known? definitions value = some x) : seen definitions value = .integer x := by
  unfold seen
  rw [h]

theorem seen_of_none {definitions : Dict Operation} {value : Value}
    (h : known? definitions value = none) : seen definitions value = .value value := by
  unfold seen
  rw [h]

theorem seen_eq_integer_iff {definitions : Dict Operation} {value : Value} {x : Int64} :
    seen definitions value = .integer x ↔ known? definitions value = some x := by
  unfold seen
  cases known? definitions value with
  | none => simp
  | some y => simp

/-- What takes the place of an operation: one of its operands, or a new constant. -/
inductive Reduct where
  | operand (value : Value)
  | constant (x : Int64)
  deriving DecidableEq

/-- What takes the place of an operation on two values, if anything. -/
abbrev Reduction := (Value → Finding) → Value → Value → Option Reduct

namespace Reduction

/-- Two integers are combined. -/
def fold (name : OpName) : Reduction := fun known lhs rhs =>
  match known lhs, known rhs with
  | .integer x, .integer y => (fold? name x y).map .constant
  | _, _ => none

/-- One operand is kept if the other is neutral, the left one first. -/
def keep (neutral : Int64) : Reduction := fun known lhs rhs =>
  if known rhs = .integer neutral then some (.operand lhs)
  else if known lhs = .integer neutral then some (.operand rhs)
  else none

/-- The left operand is kept if the right one is zero. -/
def keepLeft : Reduction := fun known lhs rhs =>
  if known rhs = .integer 0 then some (.operand lhs) else none

/-- A value and itself make zero. -/
def cancel : Reduction := fun _ lhs rhs => if lhs = rhs then some (.constant 0) else none

/-- Zero and any value make zero. -/
def absorb : Reduction := fun known lhs rhs =>
  if known lhs = .integer 0 ∨ known rhs = .integer 0 then some (.constant 0) else none

/-- There is no reduct unless there are two operands. -/
def ofOperands (reduction : Reduction) (known : Value → Finding) : List Value → Option Reduct
  | [lhs, rhs] => reduction known lhs rhs
  | _ => none

end Reduction

/-- The simplifications, each with what it puts in the place of an operation. -/
def reductions (name : OpName) : List (Pattern σ × Reduction) :=
  [(foldBinary, .fold name), (addZero, .keep 0), (subZero, .keepLeft), (subSelf, .cancel),
    (mulOne, .keep 1), (mulZero, .absorb)]

theorem exists_reduction {pattern : Pattern σ} (h : pattern ∈ simplifications) (name : OpName) :
    ∃ reduction, (pattern, reduction) ∈ reductions name := by
  have hmap : (reductions name).map Prod.fst = simplifications (σ := σ) := rfl
  rw [← hmap] at h
  obtain ⟨⟨_, reduction⟩, hmem, rfl⟩ := List.mem_map.1 h
  exact ⟨reduction, hmem⟩

/-! ### What attempts record -/

/-- What a match records that makes the reduct of an operation with one result. -/
inductive Leaves (op : Operation) : Reduct → List String → Recording → Prop where
  | operand (value : Value) (hresults : op.results.length = 1) :
      Leaves op (.operand value) [] ⟨[], some (.replace [value])⟩
  | constant (x : Int64) (name : String) (result : Value) (hresults : op.results = [result]) :
      Leaves op (.constant x) [name]
        ⟨[.constant ⟨name, result.ty⟩ x], some (.replace [⟨name, result.ty⟩])⟩

theorem Leaves.isEmpty {reduct : Reduct} {names : List String} {recording : Recording}
    (h : Leaves op reduct names recording) : recording.isEmpty = false := by
  cases h with
  | operand => rfl
  | constant => rfl

theorem Leaves.results_length {reduct : Reduct} {names : List String} {recording : Recording}
    (h : Leaves op reduct names recording) : op.results.length = 1 := by
  cases h with
  | operand _ hresults => exact hresults
  | constant _ _ _ hresults => exact congrArg List.length hresults

/-- What comes of an attempt to make the reduct. -/
def Follows (op : Operation) (reduct? : Option Reduct) (answer : Except Error Bool)
    (names : List String) (draft : Draft σ) : Prop :=
  match reduct?, answer with
  | none, answer => answer = .ok false
  | some reduct, .ok answer => answer = true ∧ Leaves op reduct names draft.recording
  | some _, .error error => Misfit op.toHead error

theorem does_constantValue? (hrecording : draft.recording = {}) {value : Value}
    {post : Except Error (Option Int64) → List String → Draft σ → Prop} :
    Attempt.Does site (constantValue? value) draft post
      ↔ post (.ok (known? site.definitions value)) [] draft := by
  have hdefinition :
      site.definition? draft.recording value.name = site.definitions.get? value.name := by
    rw [hrecording]
    rfl
  unfold constantValue?
  rw [Attempt.does_bind, Attempt.does_definition?, hdefinition]
  rfl

/-- Fresh names have no percent sign to lose. -/
theorem named_fresh (supply : NameSupply) (ty : Ty) :
    Value.named supply.fresh.1 ty = ⟨supply.fresh.1, ty⟩ := by
  obtain ⟨c, cs, hdigits, hdigit, -⟩ := Text.exists_toDigits_eq_cons
    (NameSupply.firstFree supply.reserved supply.reserved.length supply.next).toNat
  have htext : supply.fresh.1.toList = c :: cs := by
    unfold NameSupply.fresh
    dsimp only
    rw [Nat.toString_eq_ofList_toDigits, String.toList_ofList, hdigits]
  unfold Value.named
  split
  next hpercent =>
    rw [htext] at hpercent
    cases hpercent
    cases hdigit
  next => rfl

theorem does_replace (hsite : site.op = op) (hrecording : draft.recording.action = none)
    {values : List Value} {post : Except Error Unit → List String → Draft σ → Prop}
    (hok : values.length = op.results.length → post (.ok ()) []
      { draft with recording := { draft.recording with action := some (.replace values) } })
    (herror : values.length ≠ op.results.length →
      post (.error (.refused (.resultCount op.name op.results.length values.length))) [] draft) :
    Attempt.Does site (Attempt.act (.replace values)) draft post := by
  rw [Attempt.does_act, Recording.act, hsite, Action.mismatch?, hrecording]
  by_cases hlength : values.length = op.results.length
  · rw [if_pos hlength]
    exact hok hlength
  · rw [if_neg hlength]
    exact herror hlength

/-- Keeping an operand. -/
theorem follows_keep (hsite : site.op = op) (hrecording : draft.recording = {}) (value : Value) :
    Attempt.Does site (do
      Attempt.act (.replace [value])
      return true) draft (Follows op (some (.operand value))) := by
  rw [Attempt.does_bind]
  refine does_replace hsite (hrecording ▸ rfl) (fun hlength => ?_) fun hlength =>
    .resultCount (Ne.symm hlength)
  rw [Attempt.does_pure]
  refine ⟨rfl, ?_⟩
  dsimp only
  rw [hrecording]
  exact .operand value hlength.symm

/-- A new constant. -/
theorem follows_constant (hsite : site.op = op) (hrecording : draft.recording = {}) (x : Int64) :
    Attempt.Does site (do
      replaceByConstant op x
      return true) draft (Follows op (some (.constant x))) := by
  unfold replaceByConstant
  split
  next hresults =>
    rw [Attempt.does_bind, Attempt.does_throw]
    exact .noResult hresults
  next result rest hresults =>
    unfold Attempt.replaceWithNew
    simp only [Attempt.does_bind, Attempt.does_freshValue, Attempt.does_insert, named_fresh]
    refine does_replace hsite (hrecording ▸ rfl) (fun hlength => ?_) fun hlength =>
      .resultCount (Ne.symm hlength)
    rw [Attempt.does_pure]
    refine ⟨rfl, ?_⟩
    dsimp only
    rw [hrecording]
    have hone : op.results = [result] := by
      rw [hresults] at hlength ⊢
      rw [List.eq_nil_of_length_eq_zero (Nat.succ.inj hlength).symm]
    exact .constant x draft.names.fresh.1 result hone

theorem follows_onTwoOperands {f : Value → Value → Attempt σ Bool} {reduction : Reduction}
    (h : ∀ lhs rhs, Attempt.Does site (f lhs rhs) draft
      (Follows op (reduction (seen site.definitions) lhs rhs))) :
    Attempt.Does site (onTwoOperands f op) draft
      (Follows op (reduction.ofOperands (seen site.definitions) op.operands)) := by
  unfold onTwoOperands
  rcases op.operands with _ | ⟨lhs, _ | ⟨rhs, _ | ⟨other, rest⟩⟩⟩
  · exact rfl
  · exact rfl
  · exact h lhs rhs
  · exact rfl

variable (hsite : site.op = op) (hrecording : draft.recording = {})

include hsite hrecording

theorem follows_foldBinary : Attempt.Does site (foldBinary.rewrite op) draft
    (Follows op ((Reduction.fold op.name).ofOperands (seen site.definitions) op.operands)) := by
  refine follows_onTwoOperands fun lhs rhs => ?_
  simp only [Attempt.does_bind, does_constantValue? hrecording, Reduction.fold]
  cases hx : known? site.definitions lhs with
  | none =>
      rw [seen_of_none hx]
      rfl
  | some x =>
      rw [seen_of_some hx]
      cases hy : known? site.definitions rhs with
      | none =>
          rw [seen_of_none hy]
          rfl
      | some y =>
          rw [seen_of_some hy]
          dsimp only [List.nil_append]
          cases fold? op.name x y with
          | none => rfl
          | some constant => exact follows_constant hsite hrecording constant

theorem follows_dropNeutral (neutral : Int64) (lhs rhs : Value) :
    Attempt.Does site (dropNeutral neutral lhs rhs) draft
      (Follows op (Reduction.keep neutral (seen site.definitions) lhs rhs)) := by
  unfold dropNeutral Reduction.keep
  simp only [Attempt.does_bind, does_constantValue? hrecording, seen_eq_integer_iff]
  split
  next => exact follows_keep hsite hrecording lhs
  next =>
    rw [Attempt.does_bind, does_constantValue? hrecording]
    dsimp only [List.nil_append]
    split
    next => exact follows_keep hsite hrecording rhs
    next => rfl

theorem follows_subZero : Attempt.Does site (subZero.rewrite op) draft
    (Follows op (Reduction.keepLeft.ofOperands (seen site.definitions) op.operands)) := by
  refine follows_onTwoOperands fun lhs rhs => ?_
  unfold Reduction.keepLeft
  simp only [Attempt.does_bind, does_constantValue? hrecording, seen_eq_integer_iff]
  split
  next => exact follows_keep hsite hrecording lhs
  next => rfl

theorem follows_subSelf : Attempt.Does site (subSelf.rewrite op) draft
    (Follows op (Reduction.cancel.ofOperands (seen site.definitions) op.operands)) := by
  refine follows_onTwoOperands fun lhs rhs => ?_
  unfold Reduction.cancel
  split
  next => exact follows_constant hsite hrecording 0
  next => rfl

theorem follows_mulZero : Attempt.Does site (mulZero.rewrite op) draft
    (Follows op (Reduction.absorb.ofOperands (seen site.definitions) op.operands)) := by
  refine follows_onTwoOperands fun lhs rhs => ?_
  unfold Reduction.absorb
  simp only [Attempt.does_bind, does_constantValue? hrecording, seen_eq_integer_iff,
    List.nil_append, Bool.or_eq_true, decide_eq_true_eq]
  split
  next => exact follows_constant hsite hrecording 0
  next => rfl

omit hsite hrecording

/-- Where the definitions are known, trying the pattern on the operation comes to the reduct. -/
def Seeks (pattern : Pattern σ) (op : Operation) (definitions : Dict Operation)
    (reduct? : Option Reduct) : Prop :=
  ∀ (site : Site) (draft : Draft σ), site.op = op → site.definitions = definitions →
    draft.recording = {} → (pattern.rewrite op).Does site draft (Follows op reduct?)

/-- **What simplifications do**, whatever operation they are tried on. -/
theorem seeks_of_mem {pattern : Pattern σ} {reduction : Reduction}
    (h : (pattern, reduction) ∈ reductions op.name) (definitions : Dict Operation) :
    Seeks pattern op definitions (reduction.ofOperands (seen definitions) op.operands) := by
  rintro site draft hsite rfl hrecording
  simp only [reductions, List.mem_cons, List.not_mem_nil, or_false, Prod.mk.injEq] at h
  rcases h with ⟨rfl, rfl⟩ | ⟨rfl, rfl⟩ | ⟨rfl, rfl⟩ | ⟨rfl, rfl⟩ | ⟨rfl, rfl⟩ | ⟨rfl, rfl⟩
  · exact follows_foldBinary hsite hrecording
  · exact follows_onTwoOperands (follows_dropNeutral hsite hrecording 0)
  · exact follows_subZero hsite hrecording
  · exact follows_subSelf hsite hrecording
  · exact follows_onTwoOperands (follows_dropNeutral hsite hrecording 1)
  · exact follows_mulZero hsite hrecording

theorem exists_seeks {pattern : Pattern σ} (h : pattern ∈ simplifications) (op : Operation)
    (definitions : Dict Operation) : ∃ reduct?, Seeks pattern op definitions reduct? := by
  obtain ⟨reduction, hmem⟩ := exists_reduction h op.name
  exact ⟨_, seeks_of_mem hmem definitions⟩

end Arith

end DialectIR
