import DialectIR.Operation.Path
import DialectIR.Proofs.Scoping
import Mathlib.Tactic.Tauto

/-! Dominance. What a place in a tree can see was defined by earlier siblings: of the operation at
the place, or of one that holds it. The checker decides this rule: it accepts exactly the trees that
define every name once and in which every operand is a result of such a sibling. -/

namespace DialectIR.Operation

/-- The first path leads to an earlier sibling of the operation that the second leads to, or of one
that holds it. -/
def Precedes (earlier path : List Nat) : Prop :=
  ∃ outer place later inner, place < later ∧ earlier = outer ++ [place]
    ∧ path = outer ++ later :: inner

/-- The root has no siblings. -/
theorem not_precedes_nil (earlier : List Nat) : ¬ Precedes earlier [] := by
  rintro ⟨outer, place, later, inner, -, -, hpath⟩
  exact absurd hpath.symm (List.append_ne_nil_of_right_ne_nil _ (List.cons_ne_nil _ _))

theorem precedes_cons_iff {earlier path : List Nat} {place : Nat} :
    Precedes earlier (place :: path)
      ↔ (∃ before < place, earlier = [before]) ∨ ∃ rest, earlier = place :: rest
        ∧ Precedes rest path := by
  constructor
  · rintro ⟨outer, before, later, inner, hlt, rfl, hpath⟩
    cases outer with
    | nil =>
        obtain ⟨rfl, rfl⟩ := List.cons.inj hpath
        exact .inl ⟨before, hlt, rfl⟩
    | cons first outer =>
        obtain ⟨rfl, rfl⟩ := List.cons.inj hpath
        exact .inr ⟨outer ++ [before], rfl, outer, before, later, inner, hlt, rfl, rfl⟩
  · rintro (⟨before, hlt, rfl⟩ | ⟨rest, rfl, outer, before, later, inner, hlt, rfl, rfl⟩)
    · exact ⟨[], before, place, path, hlt, rfl, rfl⟩
    · exact ⟨place :: outer, before, later, inner, hlt, rfl, rfl⟩

/-- The name is that of a result of an operation that precedes the place. -/
def Dominated (op : Operation) (path : List Nat) (name : String) : Prop :=
  ∃ earlier definer, Precedes earlier path ∧ op.at? earlier = some definer
    ∧ name ∈ definer.resultNames

theorem not_dominated_nil (op : Operation) (name : String) : ¬ op.Dominated [] name :=
  fun ⟨earlier, _, hprecedes, _⟩ => not_precedes_nil earlier hprecedes

/-- What dominates a place in a region: the siblings before the operation that leads there, and what
dominates it in there. -/
theorem dominated_cons_iff {op child : Operation} {place : Nat}
    (hchild : op.nested[place]? = some child) (path : List Nat) (name : String) :
    op.Dominated (place :: path) name
      ↔ name ∈ (op.nested.take place).flatMap (·.resultNames) ∨ child.Dominated path name := by
  have hat (rest : List Nat) : op.at? (place :: rest) = child.at? rest := by
    rw [at?, hchild]
    rfl
  constructor
  · rintro ⟨earlier, definer, hprecedes, hdefiner, hname⟩
    rcases precedes_cons_iff.1 hprecedes with ⟨before, hlt, rfl⟩ | ⟨rest, rfl, hrest⟩
    · obtain ⟨sibling, hsibling, hsame⟩ := Option.bind_eq_some_iff.1 hdefiner
      cases hsame
      have htake : (op.nested.take place)[before]? = some definer :=
        (List.getElem?_take_of_lt hlt).trans hsibling
      exact .inl (List.mem_flatMap.2 ⟨definer, List.mem_of_getElem? htake, hname⟩)
    · exact .inr ⟨rest, definer, hrest, hat rest ▸ hdefiner, hname⟩
  · rintro (hname | ⟨rest, definer, hrest, hdefiner, hname⟩)
    · obtain ⟨sibling, hsibling, hname⟩ := List.mem_flatMap.1 hname
      obtain ⟨before, hbefore⟩ := List.getElem?_of_mem hsibling
      rw [List.getElem?_take, Option.ite_none_right_eq_some] at hbefore
      obtain ⟨hlt, hbefore⟩ := hbefore
      exact ⟨[before], sibling, precedes_cons_iff.2 (.inl ⟨before, hlt, rfl⟩),
        by rw [at?, hbefore]; rfl, hname⟩
    · exact ⟨place :: rest, definer, precedes_cons_iff.2 (.inr ⟨rest, rfl, hrest⟩),
        (hat rest).trans hdefiner, hname⟩

/-- Every operand in the tree is among the visible values or has a definition that precedes its
place. -/
def Resolved (visible : List String) (op : Operation) : Prop :=
  ∀ path user, op.at? path = some user → ∀ operand ∈ user.operands, operand.name ∈ visible
    ∨ op.Dominated path operand.name

/-- The rule, region by region: what is visible to an operation are the results of its siblings, and
what was before. -/
theorem resolved_iff {visible : List String} {op : Operation} :
    op.Resolved visible ↔ (∀ operand ∈ op.operands, operand.name ∈ visible)
      ∧ ∀ (place : Nat) (child : Operation), op.nested[place]? = some child →
        child.Resolved (visibleAfter visible (op.nested.take place)) := by
  have hstep {place : Nat} {child : Operation} (hchild : op.nested[place]? = some child)
    (path : List Nat) (name : String) :
      name ∈ visible ∨ op.Dominated (place :: path) name
        ↔ name ∈ visibleAfter visible (op.nested.take place) ∨ child.Dominated path name := by
    rw [dominated_cons_iff hchild, mem_visibleAfter]
    tauto
  constructor
  · intro h
    refine ⟨fun operand hoperand => (h [] op rfl operand hoperand).resolve_right
      (not_dominated_nil op _), ?_⟩
    intro place child hchild path user huser operand hoperand
    refine (hstep hchild path _).1 (h (place :: path) user ?_ operand hoperand)
    rw [at?, hchild]
    exact huser
  · rintro ⟨hown, hnested⟩ path user huser operand hoperand
    cases path with
    | nil =>
        cases huser
        exact .inl (hown operand hoperand)
    | cons place path =>
        obtain ⟨child, hchild, huser⟩ := Option.bind_eq_some_iff.1 huser
        exact (hstep hchild path _).2 (hnested place child hchild path user huser operand hoperand)

mutual

/-- A tree is scoped if its operands are resolved. -/
theorem scoped_iff_resolved {visible : List String} :
    (op : Operation) → (op.Scoped visible ↔ op.Resolved visible)
  | ⟨head, none⟩ => by
      rw [resolved_iff, Scoped]
      exact (and_iff_left fun place child hchild => nomatch hchild).symm
  | ⟨head, some ops⟩ => by
      rw [resolved_iff, Scoped, scopedAll_iff_resolved ops]
      rfl

theorem scopedAll_iff_resolved {visible : List String} :
    (ops : List Operation) → (ScopedAll visible ops
      ↔ ∀ (place : Nat) (child : Operation), ops[place]? = some child →
        child.Resolved (visibleAfter visible (ops.take place)))
  | [] => iff_of_true trivial fun place child hchild => nomatch hchild
  | op :: ops => by
      rw [ScopedAll, scoped_iff_resolved op, scopedAll_iff_resolved ops]
      constructor
      · rintro ⟨hop, hrest⟩ place child hchild
        cases place with
        | zero =>
            cases hchild
            exact hop
        | succ place => exact hrest place child hchild
      · intro h
        exact ⟨h 0 op rfl, fun place child hchild => h (place + 1) child hchild⟩

end

/-- **The checker decides the rule of single definitions and dominance.** It accepts a tree if and
only if all names of results in it are distinct, and every operand of every operation has the name
of a result of an earlier sibling of the operation, or of an earlier sibling of one that holds
it. -/
theorem verify_eq_ok_iff_dominated (op : Operation) :
    op.verify = .ok () ↔ op.definedNames.Nodup
      ∧ ∀ path user, op.at? path = some user → ∀ operand ∈ user.operands,
        op.Dominated path operand.name := by
  rw [verify_eq_ok_iff, scoped_iff_resolved, Resolved, and_comm]
  simp only [List.not_mem_nil, false_or]

end DialectIR.Operation
