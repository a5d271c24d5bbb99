import DialectIR.Proofs.Simplification
import DialectIR.Proofs.Stillness

/-! Arithmetic that can be simplified, in view of the integers that names are known to stand for: it
is what one of the simplifications matches. -/

namespace DialectIR

/-- The integer that the operation defines its results to be, if it is a constant of an integer. -/
def Head.constant? (head : Head) : Option Int64 := Operation.constant? ⟨head, none⟩

namespace Arith

open Greedy

/-- A simplification takes the operation away. -/
inductive Reducible (known : String → Int64 → Prop) (head : Head) : Prop where
  | fold (lhs rhs : Value) (x y : Int64) (hbinary : IsBinary head.name)
      (hoperands : head.operands = [lhs, rhs]) (hlhs : known lhs.name x) (hrhs : known rhs.name y)
  | addZero (lhs rhs : Value) (hname : head.name = "arith.addi")
      (hoperands : head.operands = [lhs, rhs]) (hzero : known lhs.name 0 ∨ known rhs.name 0)
  | subZero (lhs rhs : Value) (hname : head.name = "arith.subi")
      (hoperands : head.operands = [lhs, rhs]) (hzero : known rhs.name 0)
  | subSelf (lhs rhs : Value) (hname : head.name = "arith.subi")
      (hoperands : head.operands = [lhs, rhs]) (hsame : lhs.name = rhs.name)
  | mulOne (lhs rhs : Value) (hname : head.name = "arith.muli")
      (hoperands : head.operands = [lhs, rhs]) (hone : known lhs.name 1 ∨ known rhs.name 1)
  | mulZero (lhs rhs : Value) (hname : head.name = "arith.muli")
      (hoperands : head.operands = [lhs, rhs]) (hzero : known lhs.name 0 ∨ known rhs.name 0)

theorem Reducible.isBinary {known : String → Int64 → Prop} {head : Head}
    (h : Reducible known head) : IsBinary head.name := by
  cases h with
  | fold lhs rhs x y hbinary => exact hbinary
  | addZero lhs rhs hname => exact .inl hname
  | subZero lhs rhs hname => exact .inr (.inl hname)
  | subSelf lhs rhs hname => exact .inr (.inl hname)
  | mulOne lhs rhs hname => exact .inr (.inr hname)
  | mulZero lhs rhs hname => exact .inr (.inr hname)

/-- What matters is what is known about the operands. -/
theorem Reducible.mono {known known' : String → Int64 → Prop} {head : Head}
    (h : Reducible known head)
    (hknown : ∀ operand ∈ head.operands, ∀ x, known operand.name x → known' operand.name x) :
    Reducible known' head := by
  have hpair {lhs rhs : Value} (hoperands : head.operands = [lhs, rhs]) :
      (∀ x, known lhs.name x → known' lhs.name x) ∧ ∀ x, known rhs.name x → known' rhs.name x :=
    ⟨hknown lhs (hoperands ▸ List.mem_cons_self),
      hknown rhs (hoperands ▸ List.mem_cons_of_mem _ List.mem_cons_self)⟩
  cases h with
  | fold lhs rhs x y hbinary hoperands hlhs hrhs =>
      exact .fold lhs rhs x y hbinary hoperands ((hpair hoperands).1 x hlhs)
        ((hpair hoperands).2 y hrhs)
  | addZero lhs rhs hname hoperands hzero =>
      exact .addZero lhs rhs hname hoperands
        (hzero.imp ((hpair hoperands).1 0) ((hpair hoperands).2 0))
  | subZero lhs rhs hname hoperands hzero =>
      exact .subZero lhs rhs hname hoperands ((hpair hoperands).2 0 hzero)
  | subSelf lhs rhs hname hoperands hsame => exact .subSelf lhs rhs hname hoperands hsame
  | mulOne lhs rhs hname hoperands hone =>
      exact .mulOne lhs rhs hname hoperands
        (hone.imp ((hpair hoperands).1 1) ((hpair hoperands).2 1))
  | mulZero lhs rhs hname hoperands hzero =>
      exact .mulZero lhs rhs hname hoperands
        (hzero.imp ((hpair hoperands).1 0) ((hpair hoperands).2 0))

/-- What the definitions tell about a name. -/
def Knows (definitions : Dict Operation) (name : String) (x : Int64) : Prop :=
  (definitions.get? name).bind (·.constant?) = some x

variable {σ : Type} {op : Operation}

section

variable {definitions : Dict Operation} {lhs rhs : Value} {reduct : Reduct}

theorem knows_of_seen {x : Int64} (h : seen definitions lhs = .integer x) :
    Knows definitions lhs.name x :=
  seen_eq_integer_iff.1 h

theorem fold?_eq_none_iff {name : OpName} {x y : Int64} :
    fold? name x y = none ↔ ¬ IsBinary name := by
  unfold fold? IsBinary
  split_ifs <;> simp_all

theorem reducible_of_fold (hoperands : op.operands = [lhs, rhs])
    (h : Reduction.fold op.name (seen definitions) lhs rhs = some reduct) :
    Reducible (Knows definitions) op.toHead := by
  unfold Reduction.fold at h
  split at h
  next x y hx hy =>
    obtain ⟨constant, hfold, -⟩ := Option.map_eq_some_iff.1 h
    have hbinary : IsBinary op.name := by
      by_contra hnot
      rw [fold?_eq_none_iff.2 hnot] at hfold
      cases hfold
    exact .fold lhs rhs x y hbinary hoperands (knows_of_seen hx) (knows_of_seen hy)
  next => cases h

theorem known_of_keep {neutral : Int64}
    (h : Reduction.keep neutral (seen definitions) lhs rhs = some reduct) :
    Knows definitions lhs.name neutral ∨ Knows definitions rhs.name neutral := by
  unfold Reduction.keep at h
  split at h
  next hright => exact .inr (knows_of_seen hright)
  next =>
    split at h
    next hleft => exact .inl (knows_of_seen hleft)
    next => cases h

/-- What a simplification makes something of can be simplified. -/
theorem reducible_of_mem {pattern : Pattern σ} {reduction : Reduction}
    (h : (pattern, reduction) ∈ reductions op.name) (happlies : pattern.appliesTo op.name = true)
    (hreduct : reduction.ofOperands (seen definitions) op.operands = some reduct) :
    Reducible (Knows definitions) op.toHead := by
  have hname {name : OpName} (hroot : pattern.root = some name) : op.name = name := by
    rw [Pattern.appliesTo, hroot] at happlies
    exact (of_decide_eq_true happlies).symm
  unfold Reduction.ofOperands at hreduct
  split at hreduct
  next lhs rhs hoperands =>
    simp only [reductions, List.mem_cons, List.not_mem_nil, or_false, Prod.mk.injEq] at h
    rcases h with ⟨rfl, rfl⟩ | ⟨rfl, rfl⟩ | ⟨rfl, rfl⟩ | ⟨rfl, rfl⟩ | ⟨rfl, rfl⟩ | ⟨rfl, rfl⟩
    · exact reducible_of_fold hoperands hreduct
    · exact .addZero lhs rhs (hname rfl) hoperands (known_of_keep hreduct)
    · have hzero := (Option.ite_none_right_eq_some.1 hreduct).1
      exact .subZero lhs rhs (hname rfl) hoperands (knows_of_seen hzero)
    · have hsame := (Option.ite_none_right_eq_some.1 hreduct).1
      exact .subSelf lhs rhs (hname rfl) hoperands (congrArg Value.name hsame)
    · exact .mulOne lhs rhs (hname rfl) hoperands (known_of_keep hreduct)
    · have hzero := (Option.ite_none_right_eq_some.1 hreduct).1
      exact .mulZero lhs rhs (hname rfl) hoperands (hzero.imp knows_of_seen knows_of_seen)
  next => cases hreduct

/-- **No simplification matches what cannot be simplified.** -/
theorem yields_of_not_reducible {pattern : Pattern σ} (hpattern : pattern ∈ simplifications)
    (happlies : pattern.appliesTo op.name = true)
    (hnot : ¬ Reducible (Knows definitions) op.toHead) :
    pattern.Yields op definitions none := by
  obtain ⟨reduction, hmem⟩ := exists_reduction hpattern op.name
  intro site draft hsite hdefinitions hrecording
  have hfollows := seeks_of_mem hmem definitions site draft hsite hdefinitions hrecording
  cases hreduct : reduction.ofOperands (seen definitions) op.operands with
  | none =>
      rw [hreduct] at hfollows
      exact ⟨hfollows, nofun⟩
  | some reduct => exact absurd (reducible_of_mem hmem happlies hreduct) hnot

end

/-- A constant among some operations defines the name to be the integer. -/
def ConstantIn (heads : List Head) (name : String) (x : Int64) : Prop :=
  ∃ head ∈ heads, name ∈ head.resultNames ∧ head.constant? = some x

/-- Nothing that is nested in the tree can be simplified. -/
def Irreducible (root : Operation) : Prop :=
  ∀ head ∈ Operation.headsOfAll root.nested, ¬ Reducible
    (ConstantIn (Operation.headsOfAll root.nested)) head

/-- Taking operations away makes nothing reducible. -/
theorem Irreducible.of_subset {root root' : Operation} (h : Irreducible root)
    (hsub : Operation.headsOfAll root'.nested ⊆ Operation.headsOfAll root.nested) :
    Irreducible root' := by
  intro head hhead hreducible
  refine h head (hsub hhead) (hreducible.mono fun operand _ x hconstant => ?_)
  obtain ⟨other, hother, hdefines⟩ := hconstant
  exact ⟨other, hsub hother, hdefines⟩

/-- In a tree that cannot be simplified all simplifications rest, as long as what they look up is in
the tree. -/
theorem Irreducible.rests {root : Operation} (h : Irreducible root) :
    ∃ Known : Dict Operation → Prop,
    Known .empty ∧ root.EachNested (Rests ⟨simplifications (σ := σ)⟩ Known) := by
  let Known (definitions : Dict Operation) : Prop :=
    ∀ name other, definitions.get? name = some other →
    other.toHead ∈ Operation.headsOfAll root.nested ∧ name ∈ other.resultNames
  refine ⟨Known, nofun, Operation.eachNested_of_heads fun op hop =>
    ⟨fun definitions hknown pattern hpattern => ?_, ?_⟩⟩
  · obtain ⟨hmem, happlies⟩ := List.mem_filter.1 hpattern
    refine yields_of_not_reducible hmem happlies fun hreducible => ?_
    refine h op.toHead hop (hreducible.mono fun operand _ x hx => ?_)
    obtain ⟨other, hother, hconstant⟩ := Option.bind_eq_some_iff.1 hx
    exact ⟨other.toHead, (hknown _ _ hother).1, (hknown _ _ hother).2, hconstant⟩
  · intro s hknown name other hother
    rcases get?_foldl_insert hother with ⟨rfl, hname⟩ | hother
    · exact ⟨hop, hname⟩
    · exact hknown name other hother

end Arith

end DialectIR
