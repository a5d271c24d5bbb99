import DialectIR.Proofs.Pruning

/-! The end of pruning: what is left holds no dead operation, and it depends on the answers of the
context about operations only. -/

namespace DialectIR

namespace Operation

variable {dead : Head → Bool} {context other : Context}

mutual

theorem judged_subset (dead : Head → Bool) :
    (op : Operation) → op.judged dead ⊆ headsOfAll op.nested
  | ⟨_, none⟩ => List.nil_subset _
  | ⟨_, some ops⟩ => by
      refine List.append_subset.2 ⟨fun head hhead => ?_, judgedIn_subset dead ops⟩
      obtain ⟨op, hop, rfl⟩ := List.mem_map.1 hhead
      exact toHead_mem_headsOfAll hop

theorem judgedIn_subset (dead : Head → Bool) :
    (ops : List Operation) → judgedIn dead ops ⊆ headsOfAll ops
  | [] => List.nil_subset _
  | op :: ops => by
      rw [judgedIn, headsOfAll, heads_eq]
      refine List.append_subset.2
        ⟨?_, fun head hhead => List.mem_append_right _ (judgedIn_subset dead ops hhead)⟩
      split
      · exact List.nil_subset _
      · exact fun head hhead => List.mem_append_left _
          (List.mem_cons_of_mem _ (judged_subset dead op hhead))

end

mutual

/-- If nothing that is judged is dead, then everything is judged. -/
theorem alive_of_judged : {op : Operation} → (∀ head ∈ op.judged dead, dead head = false) →
    ∀ head ∈ headsOfAll op.nested, dead head = false
  | ⟨_, none⟩, _ => nofun
  | ⟨_, some ops⟩, h => by
      rw [judged, List.forall_mem_append] at h
      refine alive_of_judgedIn (fun op hop => ?_) h.2
      exact h.1 op.toHead (List.mem_map_of_mem hop)

theorem alive_of_judgedIn : {ops : List Operation} → (∀ op ∈ ops, dead op.toHead = false) →
    (∀ head ∈ judgedIn dead ops, dead head = false) → ∀ head ∈ headsOfAll ops, dead head = false
  | [], _, _ => nofun
  | op :: ops, halive, h => by
      rw [List.forall_mem_cons] at halive
      rw [judgedIn, halive.1, List.forall_mem_append] at h
      rw [headsOfAll, heads_eq, List.forall_mem_append, List.forall_mem_cons]
      exact ⟨⟨halive.1, alive_of_judged h.1⟩, alive_of_judgedIn halive.2 h.2⟩

end

mutual

/-- Every dead operation that is judged goes. -/
theorem length_heads_prune (dead : Head → Bool) :
    (op : Operation) → (op.prune dead).heads.length + (op.judged dead).countP dead ≤ op.heads.length
  | ⟨_, none⟩ => Nat.le_refl _
  | ⟨head, some ops⟩ => by
      have hops := length_headsOfAll_pruneAll dead ops
      rw [prune, judged, heads, heads, List.length_cons, List.length_cons, List.countP_append]
      omega

theorem length_headsOfAll_pruneAll (dead : Head → Bool) : (ops : List Operation) →
    (headsOfAll (pruneAll dead ops)).length + (ops.map Operation.toHead).countP dead
      + (judgedIn dead ops).countP dead
      ≤ (headsOfAll ops).length
  | [] => Nat.le_refl _
  | op :: ops => by
      have hop := length_heads_prune dead op
      have hops := length_headsOfAll_pruneAll dead ops
      have hpos : 0 < op.heads.length := by
        rw [heads_eq]
        exact Nat.succ_pos _
      rw [pruneAll, judgedIn, headsOfAll, List.map_cons, List.countP_cons, List.countP_append,
        List.length_append]
      cases hdead : dead op.toHead with
      | true =>
          simp only [if_true, List.countP_nil]
          omega
      | false =>
          simp only [Bool.false_eq_true, if_false, headsOfAll, List.length_append]
          omega

end

theorem isDead_congr (h : context.SameDialects other) (used : List String) :
    other.isDead used = context.isDead used := by
  funext head
  rw [Context.isDead, Context.isDead, h.isPure]

theorem removeDeadRounds_congr (rounds : Nat) (h : context.SameDialects other) (op : Operation) :
    (removeDeadRounds rounds other op).op = (removeDeadRounds rounds context op).op
      ∧ (removeDeadRounds rounds other op).removed
        = (removeDeadRounds rounds context op).removed := by
  induction rounds generalizing context other op with
  | zero => exact ⟨rfl, rfl⟩
  | succ rounds ih =>
      have hjudged (c : Context) : c.SameDialects _ :=
        c.sameDialects_foldl_judge op.usedNames (op.judged (context.isDead op.usedNames))
      obtain ⟨hop, hremoved⟩ := ih ((hjudged context).symm.trans (h.trans (hjudged other)))
        (op.prune (context.isDead op.usedNames))
      rw [removeDeadRounds, removeDeadRounds, isDead_congr h]
      dsimp only
      split
      · exact ⟨rfl, rfl⟩
      · exact ⟨hop, congrArg (_ + ·) hremoved⟩

/-- What is left depends on the answers of the context only. -/
theorem removeDeadOps_congr (h : context.SameDialects other) (op : Operation) :
    (op.removeDeadOps other).op = (op.removeDeadOps context).op
      ∧ (op.removeDeadOps other).removed = (op.removeDeadOps context).removed :=
  removeDeadRounds_congr _ h op

theorem op_eq_of_removed_eq_zero (h : (removeDeadOps context op).removed = 0) :
    (removeDeadOps context op).op = op := by
  revert h
  unfold removeDeadOps
  generalize op.heads.length = rounds
  cases rounds with
  | zero => exact fun _ => rfl
  | succ rounds =>
      rw [removeDeadRounds]
      dsimp only
      split
      · exact fun _ => rfl
      next hremoved => exact fun h => absurd (Nat.eq_zero_of_add_eq_zero_right h) hremoved

/-- Nothing goes where nothing is dead. -/
theorem removeDeadOps_of_alive {op : Operation}
    (h : ∀ head ∈ headsOfAll op.nested, context.isDead op.usedNames head = false) :
    (op.removeDeadOps context).op = op ∧ (op.removeDeadOps context).removed = 0 := by
  have hnone : (op.judged (context.isDead op.usedNames)).countP
    (context.isDead op.usedNames) = 0 := by
    refine List.countP_eq_zero.2 fun head hhead => ?_
    rw [h head (judged_subset _ op hhead)]
    exact Bool.false_ne_true
  unfold removeDeadOps
  cases op.heads.length with
  | zero => exact ⟨rfl, rfl⟩
  | succ rounds =>
      rw [removeDeadRounds]
      dsimp only
      rw [if_pos hnone]
      exact ⟨rfl, rfl⟩

/-- **Pruning comes to an end.** No operation that is left is dead. -/
theorem alive_removeDeadOps (context : Context) (op : Operation) :
    ∀ head ∈ headsOfAll (op.removeDeadOps context).op.nested,
      context.isDead (op.removeDeadOps context).op.usedNames head = false := by
  have hrounds : ∀ (rounds : Nat) (other : Context) (op : Operation), context.SameDialects other →
      op.heads.length ≤ rounds → ∀ head ∈ headsOfAll (removeDeadRounds rounds other op).op.nested,
        context.isDead (removeDeadRounds rounds other op).op.usedNames head = false := by
    intro rounds
    induction rounds with
    | zero =>
        intro other op _ hlength
        rw [heads_eq] at hlength
        cases hlength
    | succ rounds ih =>
        intro other op hsame hlength
        rw [removeDeadRounds, isDead_congr hsame]
        dsimp only
        split
        next hnone =>
          rw [List.countP_eq_zero] at hnone
          exact alive_of_judged fun head hhead => Bool.eq_false_iff.2 (hnone head hhead)
        next hsome =>
          have hless := length_heads_prune (context.isDead op.usedNames) op
          exact ih _ _ (hsame.trans (Context.sameDialects_foldl_judge _ _ _)) (by omega)
  exact hrounds _ context op (.refl context) (Nat.le_refl _)

end Operation

end DialectIR
