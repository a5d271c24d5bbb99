import DialectIR.Proofs.Deletion
import DialectIR.Proofs.Interleaving

/-! What removing dead operations does to those with side effects. Purity is a matter of the name,
and it stands for all that an operation holds: a pure operation goes with its region, whatever is in
there. So the operations with side effects that are lost are those nested in a deleted one, and the
others stay in order. -/

namespace DialectIR

namespace Operation

variable {context : Context}

/-- The operations that may have side effects as far as the context knows, each before those that it
holds. -/
def sideEffects (context : Context) (op : Operation) : List Head :=
  op.heads.filter fun head => !context.isPure head.name

mutual

/-- What is deleted and what is kept are taken from the tree in order. -/
theorem Deletes.interleaved {op op' : Operation} {gone : List Operation} :
    op.Deletes gone op' → Interleaved op'.heads (headsOfAll gone) op.heads
  | .leaf head => .left .nil
  | .node head hops => by
      rw [Operation.heads, Operation.heads]
      exact .left hops.interleaved

theorem DeletesIn.interleaved {ops gone kept : List Operation} :
    DeletesIn ops gone kept → Interleaved (headsOfAll kept) (headsOfAll gone) (headsOfAll ops)
  | .nil => .nil
  | .drop op hops => by
      rw [headsOfAll, headsOfAll]
      exact (Interleaved.none_left op.heads).append hops.interleaved
  | .keep hop hops => by
      rw [headsOfAll, headsOfAll, headsOfAll_append]
      exact hop.interleaved.append hops.interleaved

end

theorem filter_headsOfAll (p : Head → Bool) (ops : List Operation) :
    (headsOfAll ops).filter p = ops.flatMap fun op => op.heads.filter p := by
  induction ops with
  | nil => rfl
  | cons op ops ih => rw [headsOfAll, List.filter_append, List.flatMap_cons, ih]

/-- What has no side effects itself has those of what it holds. -/
theorem sideEffects_of_isPure {op : Operation} (hpure : context.isPure op.name = true) :
    op.sideEffects context = (headsOfAll op.nested).filter fun head =>
      !context.isPure head.name := by
  rw [sideEffects, heads_eq, List.filter_cons_of_neg]
  rw [hpure]
  exact Bool.false_ne_true

/-- A deletion keeps the operations with side effects in order, but for those that go with a deleted
one. -/
theorem Deletes.sideEffects {op op' : Operation} {gone : List Operation} (h : op.Deletes gone op')
    (context : Context) :
    Interleaved (op'.sideEffects context) (gone.flatMap (·.sideEffects context))
      (op.sideEffects context) := by
  have hfilter := h.interleaved.filter fun head => !context.isPure head.name
  rwa [filter_headsOfAll] at hfilter

/-- **Side effects under the removal of dead operations.** For every context and every tree, at any
depth: what goes from the regions that stay is pure, and nothing else goes but what it holds. The
operations with side effects before are, in order, those afterwards and those nested in what goes;
they are the same as before just if nothing that goes holds one. The answers of the context about
purity do not change on the way. -/
theorem sideEffects_removeDeadOps (context : Context) (root : Operation) : ∃ gone,
    root.Deletes gone (root.removeDeadOps context).op
      ∧ (∀ op ∈ gone, context.isPure op.name = true)
      ∧ Interleaved ((root.removeDeadOps context).op.sideEffects context)
        (gone.flatMap (·.sideEffects context)) (root.sideEffects context)
      ∧ ((root.removeDeadOps context).op.sideEffects context = root.sideEffects context
          ↔ ∀ op ∈ gone, op.HoldsNone fun head => !context.isPure head.name)
      ∧ (root.removeDeadOps context).context.isPure = context.isPure := by
  obtain ⟨rounds, hrounds, -⟩ := exists_dwindles_removeDeadRounds root.heads.length (.refl context)
    root (Nat.le_refl _)
  obtain ⟨gone, hdeletes, hdead, -⟩ := hrounds.exists_deletes
  have hpure : ∀ op ∈ gone, context.isPure op.name = true :=
    fun op hop => (isDead_iff.1 (hdead op hop)).1
  have heffects := hdeletes.sideEffects context
  have hsame : context.SameDialects (root.removeDeadOps context).context :=
    (removeDeadOps_induction (P := fun _ => True) context (fun _ _ _ _ => trivial) trivial).2
  refine ⟨gone, hdeletes, hpure, heffects, heffects.eq_iff.trans ?_, funext hsame.isPure⟩
  rw [List.flatMap_eq_nil_iff]
  refine forall₂_congr fun op hop => ?_
  rw [sideEffects_of_isPure (hpure op hop), List.filter_eq_nil_iff]
  exact forall₂_congr fun head _ => iff_of_eq (Bool.not_eq_true _)

/-- An unused constant with a region in which something is called. -/
def callInConstant : Operation :=
  .module [{ (Operation.constant ⟨"a", .int 8⟩ 1) with region := some [{ name := "func.call" }] }]

/-- The constant is pure, so it goes, and the call goes with it. -/
theorem exists_sideEffects_ne : ∃ (context : Context) (root : Operation), root.verify = .ok ()
    ∧ (root.removeDeadOps context).op.sideEffects context ≠ root.sideEffects context := by
  refine ⟨.ofRegistry .standard, callInConstant, rfl, ?_⟩
  have hbefore : (callInConstant.sideEffects (.ofRegistry .standard)).length = 2 := by
    decide +kernel
  have hafter : ((callInConstant.removeDeadOps (.ofRegistry .standard)).op.sideEffects
    (.ofRegistry .standard)).length = 1 := by
    decide +kernel
  intro heq
  rw [heq, hbefore] at hafter
  cases hafter

end Operation

end DialectIR
