import DialectIR.Proofs.Arithmetic
import DialectIR.Proofs.Reducts
import DialectIR.Proofs.Visit

/-! The simplifications of arithmetic: each replaces an operation by an operand or by a new
constant, which has the value that the operation computes. -/

namespace DialectIR

namespace Arith

variable {σ : Type} {site : Site} {draft : Draft σ} {op : Operation}

/-- The environment gives values what they are known to be. -/
def Agrees (definitions : Dict Operation) (env : String → Int) : Prop :=
  ∀ value constant, known? definitions value = some constant → env value.name = constant.toInt

/-- What a simplification draws and records: one of the operands has the value of the result, or a
constant has it. -/
inductive Simplifies (definitions : Dict Operation) (op : Operation) :
    List String → Recording → Prop where
  | keep (value : Value) (hmem : value ∈ op.operands) (hbinary : IsBinary op.name)
      (hresults : op.results.length = 1)
      (hvalue : ∀ env, Agrees definitions env → value? env op.toHead = some (env value.name)) :
      Simplifies definitions op [] ⟨[], some (.replace [value])⟩
  | fold (name : String) (result : Value) (constant : Int64) (hbinary : IsBinary op.name)
      (hresults : op.results = [result])
      (hvalue : ∀ env, Agrees definitions env → ∃ x, value? env op.toHead = some x
        ∧ x.bmod (2 ^ 64) = constant.toInt) :
      Simplifies definitions op [name]
        ⟨[.constant ⟨name, result.ty⟩ constant], some (.replace [⟨name, result.ty⟩])⟩

theorem Simplifies.isEmpty {definitions : Dict Operation} {names : List String}
    {recording : Recording} (h : Simplifies definitions op names recording) :
    recording.isEmpty = false := by
  cases h with
  | keep => rfl
  | fold => rfl

theorem Simplifies.isBinary {definitions : Dict Operation} {names : List String}
    {recording : Recording} (h : Simplifies definitions op names recording) : IsBinary op.name := by
  cases h with
  | keep _ _ hbinary => exact hbinary
  | fold _ _ _ hbinary => exact hbinary

/-- What comes of trying a simplification: an error only if arithmetic on two operands has more or
less than one result. -/
def Outcome (definitions : Dict Operation) (op : Operation) (answer : Except Error Bool)
    (names : List String) (draft : Draft σ) : Prop :=
  match answer with
  | .ok true => Simplifies definitions op names draft.recording
  | .ok false => True
  | .error error => IsBinary op.name ∧ op.operands.length = 2 ∧ Misfit op.toHead error

/-! ### Values of reducts -/

variable {definitions : Dict Operation} {lhs rhs : Value} {reduct : Reduct}

/-- The reduct has the value of the operation. -/
inductive Gives (definitions : Dict Operation) (op : Operation) : Reduct → Prop where
  | operand (value : Value) (hmem : value ∈ op.operands)
      (hvalue : ∀ env, Agrees definitions env → value? env op.toHead = some (env value.name)) :
      Gives definitions op (.operand value)
  | constant (x : Int64) (hvalue : ∀ env, Agrees definitions env →
        ∃ y, value? env op.toHead = some y ∧ y.bmod (2 ^ 64) = x.toInt) :
      Gives definitions op (.constant x)

theorem value?_of_binary (hbinary : IsBinary op.name) (hoperands : op.operands = [lhs, rhs])
    (env : String → Int) :
    value? env op.toHead = combine? op.name (env lhs.name) (env rhs.name) := by
  have hname : op.name ≠ "arith.constant" := by
    intro hconstant
    rw [hconstant] at hbinary
    revert hbinary
    unfold IsBinary
    decide
  unfold value?
  rw [if_neg hname, hoperands]

/-- Folding is arithmetic with wraparound. -/
theorem combine?_of_fold? {name : OpName} {x y constant : Int64}
    (h : fold? name x y = some constant) :
    IsBinary name ∧ ∃ value, combine? name x.toInt y.toInt = some value
      ∧ value.bmod (2 ^ 64) = constant.toInt := by
  unfold fold? at h
  unfold combine? IsBinary
  split at h
  next hname =>
    cases h
    rw [if_pos hname]
    exact ⟨.inl hname, _, rfl, (Int64.toInt_add x y).symm⟩
  next hadd =>
    rw [if_neg hadd]
    split at h
    next hname =>
      cases h
      rw [if_pos hname]
      exact ⟨.inr (.inl hname), _, rfl, (Int64.toInt_sub x y).symm⟩
    next hsub =>
      rw [if_neg hsub]
      split at h
      next hname =>
        cases h
        rw [if_pos hname]
        exact ⟨.inr (.inr hname), _, rfl, (Int64.toInt_mul x y).symm⟩
      next => cases h

theorem gives_fold (hoperands : op.operands = [lhs, rhs])
    (h : Reduction.fold op.name (seen definitions) lhs rhs = some reduct) :
    IsBinary op.name ∧ Gives definitions op reduct := by
  unfold Reduction.fold at h
  split at h
  next x y hx hy =>
    obtain ⟨constant, hfold, rfl⟩ := Option.map_eq_some_iff.1 h
    obtain ⟨hbinary, value, hcombine, hvalue⟩ := combine?_of_fold? hfold
    refine ⟨hbinary, .constant constant fun env hagrees => ⟨value, ?_, hvalue⟩⟩
    have hlhs := hagrees lhs x (seen_eq_integer_iff.1 hx)
    have hrhs := hagrees rhs y (seen_eq_integer_iff.1 hy)
    rw [value?_of_binary hbinary hoperands, hlhs, hrhs, hcombine]
  next => cases h

/-- The other operand has the value of the result. -/
theorem gives_keep (hbinary : IsBinary op.name) (hoperands : op.operands = [lhs, rhs])
    {neutral : Int64} (hright : ∀ x, combine? op.name x neutral.toInt = some x)
    (hleft : ∀ x, combine? op.name neutral.toInt x = some x)
    (h : Reduction.keep neutral (seen definitions) lhs rhs = some reduct) :
    Gives definitions op reduct := by
  unfold Reduction.keep at h
  split at h
  next hneutral =>
    cases h
    refine .operand lhs (hoperands ▸ List.mem_cons_self) fun env hagrees => ?_
    have hrhs := hagrees rhs neutral (seen_eq_integer_iff.1 hneutral)
    rw [value?_of_binary hbinary hoperands, hrhs, hright]
  next =>
    split at h
    next hneutral =>
      cases h
      have hmem : rhs ∈ op.operands := hoperands ▸ List.mem_cons_of_mem _ List.mem_cons_self
      refine .operand rhs hmem fun env hagrees => ?_
      have hlhs := hagrees lhs neutral (seen_eq_integer_iff.1 hneutral)
      rw [value?_of_binary hbinary hoperands, hlhs, hleft]
    next => cases h

theorem gives_keepLeft (hname : op.name = "arith.subi") (hoperands : op.operands = [lhs, rhs])
    (h : Reduction.keepLeft (seen definitions) lhs rhs = some reduct) :
    Gives definitions op reduct := by
  unfold Reduction.keepLeft at h
  split at h
  next hzero =>
    cases h
    refine .operand lhs (hoperands ▸ List.mem_cons_self) fun env hagrees => ?_
    have hrhs := hagrees rhs 0 (seen_eq_integer_iff.1 hzero)
    rw [value?_of_binary (.inr (.inl hname)) hoperands, hrhs, hname]
    exact congrArg some (Int.sub_zero (env lhs.name))
  next => cases h

theorem gives_cancel (hname : op.name = "arith.subi") (hoperands : op.operands = [lhs, rhs])
    (h : Reduction.cancel (seen definitions) lhs rhs = some reduct) :
    Gives definitions op reduct := by
  unfold Reduction.cancel at h
  split at h
  next hsame =>
    cases h
    refine .constant 0 fun env _ => ⟨0, ?_, Int.zero_bmod⟩
    rw [value?_of_binary (.inr (.inl hname)) hoperands, hname, hsame]
    exact congrArg some (Int.sub_self (env rhs.name))
  next => cases h

theorem gives_absorb (hname : op.name = "arith.muli") (hoperands : op.operands = [lhs, rhs])
    (h : Reduction.absorb (seen definitions) lhs rhs = some reduct) :
    Gives definitions op reduct := by
  unfold Reduction.absorb at h
  split at h
  next hzero =>
    cases h
    refine .constant 0 fun env hagrees => ⟨0, ?_, Int.zero_bmod⟩
    rw [value?_of_binary (.inr (.inr hname)) hoperands, hname]
    rcases hzero with hlhs | hrhs
    · rw [hagrees lhs 0 (seen_eq_integer_iff.1 hlhs)]
      exact congrArg some (Int.zero_mul (env rhs.name))
    · rw [hagrees rhs 0 (seen_eq_integer_iff.1 hrhs)]
      exact congrArg some (Int.mul_zero (env lhs.name))
  next => cases h

/-- **What simplifications make has the right value** where they apply. -/
theorem gives_of_mem {pattern : Pattern σ} {reduction : Reduction}
    (h : (pattern, reduction) ∈ reductions op.name) (happlies : pattern.appliesTo op.name = true)
    (hreduct : reduction.ofOperands (seen definitions) op.operands = some reduct) :
    IsBinary op.name ∧ op.operands.length = 2 ∧ Gives definitions op reduct := by
  have hname {name : OpName} (hroot : pattern.root = some name) : op.name = name := by
    rw [Pattern.appliesTo, hroot] at happlies
    exact (of_decide_eq_true happlies).symm
  unfold Reduction.ofOperands at hreduct
  split at hreduct
  next lhs rhs hoperands =>
    have hlength : op.operands.length = 2 := congrArg List.length hoperands
    simp only [reductions, List.mem_cons, List.not_mem_nil, or_false, Prod.mk.injEq] at h
    rcases h with ⟨rfl, rfl⟩ | ⟨rfl, rfl⟩ | ⟨rfl, rfl⟩ | ⟨rfl, rfl⟩ | ⟨rfl, rfl⟩ | ⟨rfl, rfl⟩
    · exact (gives_fold hoperands hreduct).imp_right fun hgives => ⟨hlength, hgives⟩
    · have hadd : op.name = "arith.addi" := hname rfl
      refine ⟨.inl hadd, hlength, gives_keep (.inl hadd) hoperands ?_ ?_ hreduct⟩
      · exact fun x => hadd ▸ congrArg some (Int.add_zero x)
      · exact fun x => hadd ▸ congrArg some (Int.zero_add x)
    · exact ⟨.inr (.inl (hname rfl)), hlength, gives_keepLeft (hname rfl) hoperands hreduct⟩
    · exact ⟨.inr (.inl (hname rfl)), hlength, gives_cancel (hname rfl) hoperands hreduct⟩
    · have hmul : op.name = "arith.muli" := hname rfl
      refine ⟨.inr (.inr hmul), hlength, gives_keep (.inr (.inr hmul)) hoperands ?_ ?_ hreduct⟩
      · exact fun x => hmul ▸ congrArg some (Int.mul_one x)
      · exact fun x => hmul ▸ congrArg some (Int.one_mul x)
    · exact ⟨.inr (.inr (hname rfl)), hlength, gives_absorb (hname rfl) hoperands hreduct⟩
  next => cases hreduct

/-- What a match leaves for a reduct with the value of the operation. -/
theorem Leaves.simplifies {names : List String} {recording : Recording}
    (h : Leaves op reduct names recording) (hbinary : IsBinary op.name)
    (hgives : Gives definitions op reduct) :
    Simplifies definitions op names recording := by
  cases h with
  | operand value hresults =>
      cases hgives with
      | operand _ hmem hvalue => exact .keep value hmem hbinary hresults hvalue
  | constant x name result hresults =>
      cases hgives with
      | constant _ hvalue => exact .fold name result x hbinary hresults hvalue

/-- **What simplifications do** where they apply. -/
theorem does_simplification {pattern : Pattern σ} (hpattern : pattern ∈ simplifications)
    (happlies : pattern.appliesTo op.name = true) (hsite : site.op = op)
    (hrecording : draft.recording = {}) :
    Attempt.Does site (pattern.rewrite op) draft (Outcome site.definitions op) := by
  obtain ⟨reduction, hmem⟩ := exists_reduction hpattern op.name
  have hfollows := seeks_of_mem hmem site.definitions site draft hsite rfl hrecording
  unfold Attempt.Does at hfollows ⊢
  cases hreduct : reduction.ofOperands (seen site.definitions) op.operands with
  | none =>
      rw [hreduct] at hfollows
      unfold Outcome
      rw [show _ = Except.ok false from hfollows]
      trivial
  | some reduct =>
      obtain ⟨hbinary, hoperands, hgives⟩ := gives_of_mem hmem happlies hreduct
      rw [hreduct] at hfollows
      unfold Follows at hfollows
      unfold Outcome
      cases hanswer : ((pattern.rewrite op).run.run site draft).1 with
      | error error =>
          rw [hanswer] at hfollows
          exact ⟨hbinary, hoperands, hfollows⟩
      | ok answer =>
          rw [hanswer] at hfollows
          obtain ⟨rfl, hleaves⟩ := hfollows
          exact hleaves.simplifies hbinary hgives

open Greedy

variable {patterns : FrozenPatterns σ} {config : Config}

theorem mem_simplifications (hpatterns : patterns.patterns ⊆ simplifications) {name : OpName}
    {pattern : Pattern σ} (h : pattern ∈ patterns.patternsFor name) :
    pattern ∈ simplifications ∧ pattern.appliesTo name = true :=
  (List.mem_filter.1 h).imp_left (hpatterns ·)

/-- What simplifications record. -/
theorem simplifies_of_doesOn {pattern : Pattern σ} (hpattern : pattern ∈ simplifications)
    (happlies : pattern.appliesTo op.name = true) {definitions : Dict Operation}
    {names : List String} {recording : Recording}
    (h : pattern.DoesOn op definitions fun answer drawn made => answer = .ok true ∧ drawn = names
      ∧ made = recording) :
    Simplifies definitions op names recording := by
  obtain ⟨site, draft, hsite, rfl, hrecording, hdoes⟩ := h
  have houtcome := does_simplification hpattern happlies hsite hrecording
  unfold Attempt.Does at hdoes houtcome
  obtain ⟨hanswer, hnames, hmade⟩ := hdoes
  rw [hanswer, hnames] at houtcome
  exact hmade ▸ houtcome

/-- How simplifications fail. -/
theorem misfit_of_failsOn {pattern : Pattern σ} (hpattern : pattern ∈ simplifications)
    (happlies : pattern.appliesTo op.name = true) {definitions : Dict Operation} {error : Error}
    (h : pattern.FailsOn op definitions error) : IsBinary op.name ∧ op.operands.length = 2
      ∧ ∃ cause, Misfit op.toHead cause ∧ error = .inPattern pattern.name op.name cause := by
  obtain ⟨site, draft, hsite, -, hrecording, hdoes⟩ := h
  have houtcome := does_simplification hpattern happlies hsite hrecording
  unfold Attempt.Does at hdoes houtcome
  rcases hdoes with ⟨cause, hanswer, rfl⟩ | ⟨hanswer, hempty, -⟩
  · rw [hanswer] at houtcome
    obtain ⟨hbinary, hoperands, hmisfit⟩ := houtcome
    exact ⟨hbinary, hoperands, cause, hmisfit, rfl⟩
  · rw [hanswer] at houtcome
    exact absurd hempty (Bool.eq_false_iff.1 houtcome.isEmpty)

/-- A match of a simplification. -/
theorem simplifies_of_match? (hpatterns : patterns.patterns ⊆ simplifications) {e : Encounter σ}
    {m : Match} (h : e.match? patterns config = some m) :
    m.visible = e.visible ∧ m.op = e.op ∧ Simplifies e.before.definitions e.op m.drawn
      m.recording := by
  obtain ⟨hvisible, hop, pattern, hpattern, hdoes⟩ := exists_of_match? h
  obtain ⟨hmem, happlies⟩ := mem_simplifications hpatterns hpattern
  exact ⟨hvisible, hop, simplifies_of_doesOn hmem happlies hdoes⟩

/-- No simplification fails on arithmetic with one result. -/
theorem ensures_applyPatterns_simplifications (hpatterns : patterns.patterns ⊆ simplifications)
    (depth : Nat) (s : State σ) (hop : IsBinary op.name → op.results.length = 1) :
    Ensures (applyPatterns patterns config depth op) s (fun _ _ => True) fun _ _ => False := by
  apply ensures_applyPatterns_of_forall depth op s
  intro pattern hpattern error hfails
  obtain ⟨hmem, happlies⟩ := mem_simplifications hpatterns hpattern
  obtain ⟨hbinary, -, cause, hmisfit, -⟩ := misfit_of_failsOn hmem happlies hfails
  exact hmisfit.results_ne (hop hbinary)

/-- How many names the simplification of an operation draws at most. -/
def binaryWeight (name : OpName) : Nat := if IsBinary name then 1 else 0

theorem binaryWeight_le_one (name : OpName) : binaryWeight name ≤ 1 := by
  unfold binaryWeight
  split
  · exact Nat.le_refl 1
  · exact Nat.zero_le 1

theorem weight_le_length (heads : List Head) :
    (heads.map fun head => binaryWeight head.name).sum ≤ heads.length := by
  calc (heads.map fun head => binaryWeight head.name).sum
      ≤ (heads.map fun _ => 1).sum := List.sum_le_sum fun head _ => binaryWeight_le_one head.name
    _ = heads.length := by simp

/-- A simplification pays for its name: it takes an operation on two integers away. -/
theorem thrifty_simplifications (hpatterns : patterns.patterns ⊆ simplifications)
    (encounters : List (Encounter σ)) :
    Thrifty patterns config binaryWeight encounters := by
  intro e _ m h
  obtain ⟨-, hop, hsimplifies⟩ := simplifies_of_match? hpatterns h
  obtain ⟨visible, op, drawn, recording⟩ := m
  dsimp only at hop hsimplifies ⊢
  subst hop
  cases hsimplifies with
  | keep => exact Nat.zero_le _
  | fold name result constant hbinary =>
      rw [weight_eq, binaryWeight, if_pos hbinary]
      exact Nat.le_add_right 1 _

/-- The names that a run draws for its simplifications are new, if there are numbers of 64 bits for
all of them. -/
theorem nodup_append_of_accounts {α : Type} {step : Step σ α} {size : α → Nat}
    {encounters : List (Encounter σ)} {root : Operation} {s : State σ}
    (hpatterns : patterns.patterns ⊆ simplifications)
    (haccounts : Accounts patterns config binaryWeight step size (weight binaryWeight root) encounters s)
    (hnames : s.names = namesFor root) (hnodup : root.definedNames.Nodup)
    (hcount : root.definedNames.length + weight binaryWeight root ≤ 2 ^ 64) :
    (root.definedNames ++ drawnIn patterns config encounters).Nodup := by
  obtain ⟨after, hdraws⟩ := haccounts.draws
  rw [hnames] at hdraws
  have hdrawn := haccounts.bounded (thrifty_simplifications hpatterns _)
  exact NameSupply.nodup_append_drawn hdraws hnodup
    (Nat.le_trans (Nat.add_le_add_left hdrawn _) hcount)

/-- Simplifications are valid wherever their operation is scoped. -/
theorem sound_simplifications (hpatterns : patterns.patterns ⊆ simplifications)
    (encounters : List (Encounter σ)) :
    Sound patterns config encounters := by
  intro e _ huses m h
  obtain ⟨-, hop, hsimplifies⟩ := simplifies_of_match? hpatterns h
  obtain ⟨visible, op, drawn, recording⟩ := m
  dsimp only at hop hsimplifies ⊢
  subst hop
  cases hsimplifies with
  | keep value hmem =>
      refine ⟨nofun, .nil, trivial, ?_, nofun⟩
      rintro _ ⟨⟩ other hother
      rw [List.mem_singleton] at hother
      rw [hother]
      exact (Operation.scoped_iff.1 huses).1 value hmem
  | fold name result constant =>
      refine ⟨fun other hother => .inl hother, List.nodup_singleton name,
        ⟨nofun, trivial⟩, ?_, nofun⟩
      rintro _ ⟨⟩ other hother
      rw [List.mem_singleton] at hother
      rw [hother]
      exact List.mem_cons_self

end Arith

end DialectIR
