import DialectIR.DeadOps
import DialectIR.Proofs.Scoping
import DialectIR.Proofs.WellFormed
import Mathlib.Data.List.Flatten

/-! Dead operations: removing them keeps the rules of scoping, for nothing that goes is in use. -/

namespace DialectIR

namespace Operation

variable {dead : Head → Bool}

theorem toHead_prune (dead : Head → Bool) (op : Operation) :
    (op.prune dead).toHead = op.toHead := by
  obtain ⟨head, _ | ops⟩ := op <;> rfl

mutual

/-- Pruning only takes operations away. -/
theorem heads_prune (dead : Head → Bool) : (op : Operation) → (op.prune dead).heads.Sublist op.heads
  | ⟨head, none⟩ => List.Sublist.refl _
  | ⟨head, some ops⟩ => by
      rw [prune, heads, heads]
      exact (headsOfAll_pruneAll dead ops).cons_cons head

theorem headsOfAll_pruneAll (dead : Head → Bool) :
    (ops : List Operation) → (headsOfAll (pruneAll dead ops)).Sublist (headsOfAll ops)
  | [] => List.Sublist.refl _
  | op :: ops => by
      rw [pruneAll, headsOfAll]
      split
      · exact List.sublist_append_of_sublist_right (headsOfAll_pruneAll dead ops)
      · exact (heads_prune dead op).append (headsOfAll_pruneAll dead ops)

end

theorem headsOfAll_nested_prune (dead : Head → Bool) (op : Operation) :
    (headsOfAll (op.prune dead).nested).Sublist (headsOfAll op.nested) := by
  obtain ⟨head, _ | ops⟩ := op
  · exact List.Sublist.refl _
  · exact headsOfAll_pruneAll dead ops

theorem definedNames_prune (dead : Head → Bool) (op : Operation) :
    (op.prune dead).definedNames.Sublist op.definedNames :=
  (heads_prune dead op).flatMap Head.resultNames

mutual

/-- Scoping is kept if nothing that is used is removed. -/
theorem Scoped.prune {used visible visible' : List String}
    (hunused : ∀ head, dead head = true → head.isUnused used = true)
    (hvisible : ∀ name ∈ visible, name ∈ used → name ∈ visible') :
    {op : Operation} → op.Scoped visible → op.usedNames ⊆ used → (op.prune dead).Scoped visible'
  | ⟨head, none⟩, h, hused => by
      intro operand hoperand
      refine hvisible operand.name (h operand hoperand) (hused ?_)
      rw [usedNames, heads, List.flatMap_singleton]
      exact List.mem_map_of_mem hoperand
  | ⟨head, some ops⟩, h, hused => by
      rw [usedNames, heads, List.flatMap_cons, List.append_subset] at hused
      refine ⟨fun operand hoperand => ?_, ScopedAll.prune hunused hvisible h.2 hused.2⟩
      exact hvisible operand.name (h.1 operand hoperand) (hused.1 (List.mem_map_of_mem hoperand))

theorem ScopedAll.prune {used visible visible' : List String}
    (hunused : ∀ head, dead head = true → head.isUnused used = true)
    (hvisible : ∀ name ∈ visible, name ∈ used → name ∈ visible') :
    {ops : List Operation} → ScopedAll visible ops →
      ((headsOfAll ops).flatMap fun head => head.operands.map Value.name) ⊆ used →
        ScopedAll visible' (pruneAll dead ops)
  | [], _, _ => trivial
  | op :: ops, h, hused => by
      rw [headsOfAll, List.flatMap_append, List.append_subset] at hused
      rw [pruneAll]
      split
      next hdead =>
        refine ScopedAll.prune hunused (fun name hname hin => ?_) h.2 hused.2
        rcases List.mem_append.1 hname with hown | hname
        · obtain ⟨result, hresult, rfl⟩ := List.mem_map.1 hown
          have hall := hunused op.toHead hdead
          rw [Head.isUnused, Bool.and_eq_true, List.all_eq_true] at hall
          exact absurd hin (of_decide_eq_true (hall.2 result hresult))
        · exact hvisible name hname hin
      next =>
        refine ⟨Scoped.prune hunused hvisible h.1 hused.1, ?_⟩
        rw [Head.resultNames, toHead_prune, ← Head.resultNames]
        refine ScopedAll.prune hunused (fun name hname hin => ?_) h.2 hused.2
        exact List.mem_append.2 ((List.mem_append.1 hname).imp_right fun hname =>
          hvisible name hname hin)

end

theorem scoped_prune {context : Context} {op : Operation} (h : op.Scoped []) :
    (op.prune (context.isDead op.usedNames)).Scoped [] := by
  refine h.prune (fun head hdead => ?_) (fun name hname => absurd hname List.not_mem_nil)
    (List.Subset.refl _)
  rw [Context.isDead, Bool.and_eq_true] at hdead
  exact hdead.1

end Operation

namespace Context

theorem sameDialects_judge (context : Context) (used : List String) (head : Head) :
    context.SameDialects (context.judge used head) := by
  unfold judge
  have hload := sameDialects_load context head.name.dialect
  split
  · dsimp only
    split
    · exact hload.trans ⟨fun _ => rfl, rfl⟩
    · exact hload
  · exact .refl context

theorem sameDialects_foldl_judge (context : Context) (used : List String) (heads : List Head) :
    context.SameDialects (heads.foldl (·.judge used ·) context) := by
  induction heads generalizing context with
  | nil => exact .refl context
  | cons head heads ih => exact (sameDialects_judge context used head).trans (ih _)

end Context

namespace Operation

/-- What every round of pruning keeps is kept when dead operations are removed. -/
theorem removeDeadOps_induction {P : Operation → Prop} (context : Context)
    (hprune : ∀ (op : Operation) (other : Context), context.SameDialects other → P op →
      P (op.prune (other.isDead op.usedNames))) {op : Operation} (h : P op) :
    P (op.removeDeadOps context).op ∧ context.SameDialects (op.removeDeadOps context).context := by
  have hrounds : ∀ (rounds : Nat) (other : Context) (op : Operation),
    context.SameDialects other → P op →
      P (removeDeadRounds rounds other op).op ∧ context.SameDialects
        (removeDeadRounds rounds other op).context := by
    intro rounds
    induction rounds with
    | zero => exact fun other op hsame hop => ⟨hop, hsame⟩
    | succ rounds ih =>
        intro other op hsame hop
        have hjudged := hsame.trans (Context.sameDialects_foldl_judge other op.usedNames
          (op.judged (other.isDead op.usedNames)))
        unfold removeDeadRounds
        dsimp only
        split
        · exact ⟨hop, hjudged⟩
        · exact ih _ _ hjudged (hprune op other hsame hop)
  exact hrounds _ context op (.refl context) h

/-- Removing dead operations only takes operations away. -/
theorem heads_removeDeadOps (context : Context) (op : Operation) :
    ((op.removeDeadOps context).op.heads).Sublist op.heads :=
  (removeDeadOps_induction (P := fun other => other.heads.Sublist op.heads) context
    (fun _ _ _ h => (heads_prune _ _).trans h) (List.Sublist.refl _)).1

theorem heads_nested_removeDeadOps (context : Context) (op : Operation) :
    (headsOfAll (op.removeDeadOps context).op.nested).Sublist (headsOfAll op.nested) :=
  (removeDeadOps_induction (P := fun other =>
    (headsOfAll other.nested).Sublist (headsOfAll op.nested)) context
    (fun _ _ _ h => (headsOfAll_nested_prune _ _).trans h) (List.Sublist.refl _)).1

end Operation

end DialectIR
