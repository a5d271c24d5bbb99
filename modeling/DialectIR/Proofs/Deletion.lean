import DialectIR.Proofs.DeadCode
import DialectIR.Proofs.Loading

/-! What removing dead operations deletes: the operations that are dead in view of what is left,
each with all that it holds. It deletes them in rounds, and the number that it reports counts them
in the round in which they went, also if the region that they went from is deleted later. -/

namespace DialectIR

namespace Operation

variable {context other : Context} {dead : Head → Bool}

mutual

/-- Some nested operations are deleted with all that they hold. The others are kept in order, and so
is the head of each. -/
inductive Deletes : Operation → List Operation → Operation → Prop
  | leaf (head : Head) : Deletes ⟨head, none⟩ [] ⟨head, none⟩
  | node (head : Head) {ops gone kept : List Operation} :
      DeletesIn ops gone kept → Deletes ⟨head, some ops⟩ gone ⟨head, some kept⟩

/-- The same in a list of operations, which may be deleted themselves. -/
inductive DeletesIn : List Operation → List Operation → List Operation → Prop
  | nil : DeletesIn [] [] []
  | drop (op : Operation) {ops gone kept : List Operation} : DeletesIn ops gone kept →
      DeletesIn (op :: ops) (op :: gone) kept
  | keep {op op' : Operation} {gone ops more kept : List Operation} :
      Deletes op gone op' → DeletesIn ops more kept →
        DeletesIn (op :: ops) (gone ++ more) (op' :: kept)

end

theorem Deletes.toHead_eq {op op' : Operation} {gone : List Operation} (h : op.Deletes gone op') :
    op'.toHead = op.toHead := by
  cases h with
  | leaf => rfl
  | node => rfl

theorem DeletesIn.eq_of_none : {ops gone : List Operation} → DeletesIn ops gone [] → gone = ops
  | _, _, .nil => rfl
  | _, _, .drop op hops => congrArg (op :: ·) hops.eq_of_none

/-- Where nothing nested is left, all of it was deleted. -/
theorem Deletes.eq_nested {op op' : Operation} {gone : List Operation} (h : op.Deletes gone op')
    (hnested : op'.nested = []) :
    gone = op.nested := by
  cases h with
  | leaf => rfl
  | node head hops =>
      cases hnested
      exact hops.eq_of_none

mutual

theorem Deletes.refl : (op : Operation) → op.Deletes [] op
  | ⟨head, none⟩ => .leaf head
  | ⟨head, some ops⟩ => .node head (.refl ops)

theorem DeletesIn.refl : (ops : List Operation) → DeletesIn ops [] ops
  | [] => .nil
  | op :: ops => .keep (.refl op) (.refl ops)

end

mutual

/-- Deletion only takes operations away. -/
theorem Deletes.heads {op op' : Operation} {gone : List Operation} :
    op.Deletes gone op' → op'.heads.Sublist op.heads
  | .leaf _ => List.Sublist.refl _
  | .node head hops => by
      rw [Operation.heads, Operation.heads]
      exact hops.heads.cons_cons head

theorem DeletesIn.heads {ops gone kept : List Operation} :
    DeletesIn ops gone kept → (headsOfAll kept).Sublist (headsOfAll ops)
  | .nil => List.Sublist.refl _
  | .drop op hops => by
      rw [headsOfAll]
      exact List.sublist_append_of_sublist_right hops.heads
  | .keep hop hops => by
      rw [headsOfAll, headsOfAll]
      exact hop.heads.append hops.heads

end

theorem Deletes.usedNames {op op' : Operation} {gone : List Operation} (h : op.Deletes gone op') :
    op'.usedNames ⊆ op.usedNames :=
  (h.heads.flatMap _).subset

mutual

theorem Deletes.mem_headsOfAll {op op' : Operation} {gone : List Operation} :
    op.Deletes gone op' → ∀ other ∈ gone, other.toHead ∈ headsOfAll op.nested
  | .leaf _ => nofun
  | .node _ hops => hops.mem_headsOfAll

theorem DeletesIn.mem_headsOfAll {ops gone kept : List Operation} :
    DeletesIn ops gone kept → ∀ other ∈ gone, other.toHead ∈ headsOfAll ops
  | .nil => nofun
  | .drop op hops => by
      rw [headsOfAll, heads_eq]
      exact List.forall_mem_cons.2 ⟨List.mem_append_left _ List.mem_cons_self,
        fun other hother => List.mem_append_right _ (hops.mem_headsOfAll other hother)⟩
  | .keep hop hops => by
      rw [headsOfAll, heads_eq]
      exact List.forall_mem_append.2 ⟨fun other hother =>
        List.mem_append_left _ (List.mem_cons_of_mem _ (hop.mem_headsOfAll other hother)),
        fun other hother => List.mem_append_right _ (hops.mem_headsOfAll other hother)⟩

end

mutual

/-- Where nothing is deleted, all is kept. -/
theorem Deletes.eq_of_nil {op op' : Operation} {gone : List Operation} :
    op.Deletes gone op' → gone = [] → op' = op
  | .leaf _, _ => rfl
  | .node head hops, h => congrArg (fun ops => (⟨head, some ops⟩ : Operation)) (hops.eq_of_nil h)

theorem DeletesIn.eq_of_nil {ops gone kept : List Operation} :
    DeletesIn ops gone kept → gone = [] → kept = ops
  | .nil, _ => rfl
  | .keep hop hops, h => by
      rw [List.append_eq_nil_iff] at h
      rw [hop.eq_of_nil h.1, hops.eq_of_nil h.2]

end

/-- Nothing that the operation holds satisfies the predicate. -/
def HoldsNone (dead : Head → Bool) (op : Operation) : Prop :=
  ∀ head ∈ headsOfAll op.nested, dead head = false

/-- Nothing is deleted from an operation that holds nothing of what is deleted. -/
theorem Deletes.eq_of_holdsNone {op op' : Operation} {gone : List Operation}
    (h : op.Deletes gone op') (hdead : ∀ other ∈ gone, dead other.toHead = true)
    (hnone : op.HoldsNone dead) : gone = [] ∧ op' = op := by
  have hgone : gone = [] := by
    refine List.eq_nil_iff_forall_not_mem.2 fun other hother => ?_
    have halive := hnone other.toHead (h.mem_headsOfAll other hother)
    rw [hdead other hother] at halive
    cases halive
  exact ⟨hgone, h.eq_of_nil hgone⟩

/-- Of the operations that two deletions delete in turn, those that go from the regions that are
there in the end. The second may delete an operation from which the first has deleted others. -/
structure Merges (dead : Head → Bool) (first second both : List Operation) : Prop where
  mem : ∀ op ∈ both, ∃ earlier ∈ first ++ second, earlier.toHead = op.toHead
  length_le : both.length ≤ first.length + second.length
  holdsNone : (∀ op ∈ both, op.HoldsNone dead) → (∀ op ∈ second, op.HoldsNone dead)
    ∧ both.length = first.length + second.length

namespace Merges

variable {first second both first' second' both' : List Operation}

theorem nil : Merges dead [] [] [] := ⟨nofun, Nat.le_refl _, fun _ => ⟨nofun, rfl⟩⟩

theorem append (h : Merges dead first second both) (h' : Merges dead first' second' both') :
    Merges dead (first ++ first') (second ++ second') (both ++ both') where
  mem op hop := by
    rcases List.mem_append.1 hop with hop | hop
    · obtain ⟨earlier, hearlier, hhead⟩ := h.mem op hop
      simp only [List.mem_append] at hearlier ⊢
      exact ⟨earlier, hearlier.imp .inl .inl, hhead⟩
    · obtain ⟨earlier, hearlier, hhead⟩ := h'.mem op hop
      simp only [List.mem_append] at hearlier ⊢
      exact ⟨earlier, hearlier.imp .inr .inr, hhead⟩
  length_le := by
    have hle := h.length_le
    have hle' := h'.length_le
    simp only [List.length_append]
    omega
  holdsNone hboth := by
    rw [List.forall_mem_append] at hboth
    obtain ⟨hsecond, heq⟩ := h.holdsNone hboth.1
    obtain ⟨hsecond', heq'⟩ := h'.holdsNone hboth.2
    refine ⟨List.forall_mem_append.2 ⟨hsecond, hsecond'⟩, ?_⟩
    simp only [List.length_append]
    omega

theorem of_first (op : Operation) : Merges dead [op] [] [op] :=
  ⟨fun _ hother => ⟨_, List.mem_append_left _ hother, rfl⟩, Nat.le_refl _, fun _ => ⟨nofun, rfl⟩⟩

/-- The second deletes what is left of an operation, and with it whatever the first has deleted from
there. -/
theorem of_second {op op' : Operation} {gone : List Operation} (h : op.Deletes gone op')
    (hdead : ∀ other ∈ gone, dead other.toHead = true) : Merges dead gone [op'] [op] where
  mem other hother := ⟨op', List.mem_append_right _ List.mem_cons_self,
    by rw [h.toHead_eq, List.mem_singleton.1 hother]⟩
  length_le := Nat.le_add_left _ _
  holdsNone hnone := by
    obtain ⟨rfl, rfl⟩ := h.eq_of_holdsNone hdead (hnone op List.mem_cons_self)
    exact ⟨hnone, rfl⟩

end Merges

mutual

theorem Deletes.trans {op between kept : Operation} {first second : List Operation} :
    op.Deletes first between → between.Deletes second kept →
      (∀ other ∈ first, dead other.toHead = true) →
      ∃ both, op.Deletes both kept ∧ Merges dead first second both
  | .leaf head, .leaf _, _ => ⟨[], .leaf head, .nil⟩
  | .node head hops, .node _ hops', hdead => by
      obtain ⟨both, hdeletes, hmerges⟩ := hops.trans hops' hdead
      exact ⟨both, .node head hdeletes, hmerges⟩

theorem DeletesIn.trans {ops between kept first second : List Operation} :
    DeletesIn ops first between → DeletesIn between second kept →
      (∀ other ∈ first, dead other.toHead = true) →
      ∃ both, DeletesIn ops both kept ∧ Merges dead first second both
  | .nil, .nil, _ => ⟨[], .nil, .nil⟩
  | .drop op hops, hops', hdead => by
      obtain ⟨both, hdeletes, hmerges⟩ := hops.trans hops' (List.forall_mem_cons.1 hdead).2
      exact ⟨op :: both, .drop op hdeletes, (Merges.of_first op).append hmerges⟩
  | @DeletesIn.keep op _ _ _ _ _ hop hops, .drop _ hops', hdead => by
      rw [List.forall_mem_append] at hdead
      obtain ⟨both, hdeletes, hmerges⟩ := hops.trans hops' hdead.2
      exact ⟨op :: both, .drop op hdeletes, (Merges.of_second hop hdead.1).append hmerges⟩
  | .keep hop hops, .keep hop' hops', hdead => by
      rw [List.forall_mem_append] at hdead
      obtain ⟨gone, hdeletes, hmerges⟩ := hop.trans hop' hdead.1
      obtain ⟨more, hdeletes', hmerges'⟩ := hops.trans hops' hdead.2
      exact ⟨gone ++ more, .keep hdeletes hdeletes', hmerges.append hmerges'⟩

end

mutual

/-- Pruning deletes what it finds dead, and counts it. -/
theorem exists_deletes_prune (dead : Head → Bool) :
    (op : Operation) → ∃ gone, op.Deletes gone (op.prune dead)
    ∧ (∀ other ∈ gone, dead other.toHead = true) ∧ gone.length = (op.judged dead).countP dead
  | ⟨head, none⟩ => ⟨[], .leaf head, nofun, rfl⟩
  | ⟨head, some ops⟩ => by
      obtain ⟨gone, hdeletes, hdead, hlength⟩ := exists_deletesIn_pruneAll dead ops
      refine ⟨gone, .node head hdeletes, hdead, ?_⟩
      rw [judged, List.countP_append, hlength]

theorem exists_deletesIn_pruneAll (dead : Head → Bool) :
    (ops : List Operation) → ∃ gone, DeletesIn ops gone (pruneAll dead ops)
    ∧ (∀ other ∈ gone, dead other.toHead = true)
    ∧ gone.length = (ops.map Operation.toHead).countP dead + (judgedIn dead ops).countP dead
  | [] => ⟨[], .nil, nofun, rfl⟩
  | op :: ops => by
      obtain ⟨more, hmore, hdeadMore, hlengthMore⟩ := exists_deletesIn_pruneAll dead ops
      rw [pruneAll, judgedIn, List.map_cons]
      cases hdead : dead op.toHead with
      | true =>
          refine ⟨op :: more, .drop op hmore, List.forall_mem_cons.2 ⟨hdead, hdeadMore⟩, ?_⟩
          rw [List.countP_cons_of_pos hdead, if_pos rfl, List.nil_append, List.length_cons]
          omega
      | false =>
          obtain ⟨gone, hgone, hdeadGone, hlengthGone⟩ := exists_deletes_prune dead op
          refine ⟨gone ++ more, .keep hgone hmore,
            List.forall_mem_append.2 ⟨hdeadGone, hdeadMore⟩, ?_⟩
          rw [List.countP_cons_of_neg (Bool.eq_false_iff.1 hdead), if_neg Bool.false_ne_true,
            List.countP_append, List.length_append]
          omega

end

mutual

/-- Nothing that was dead is left. -/
theorem alive_prune (dead : Head → Bool) :
    (op : Operation) → ∀ head ∈ headsOfAll (op.prune dead).nested, dead head = false
  | ⟨_, none⟩ => nofun
  | ⟨_, some ops⟩ => alive_pruneAll dead ops

theorem alive_pruneAll (dead : Head → Bool) :
    (ops : List Operation) → ∀ head ∈ headsOfAll (pruneAll dead ops), dead head = false
  | [] => nofun
  | op :: ops => by
      rw [pruneAll]
      split
      next => exact alive_pruneAll dead ops
      next halive =>
        rw [headsOfAll, heads_eq, toHead_prune, List.forall_mem_append, List.forall_mem_cons]
        exact ⟨⟨eq_false_of_ne_true halive, alive_prune dead op⟩, alive_pruneAll dead ops⟩

end

/-- Rounds of deletion. Each deletes from the regions that it leaves what is dead in view of the
tree before it, one operation at least; they end when nothing is dead. -/
inductive Dwindles (context : Context) : Operation → List (List Operation) → Operation → Prop
  | done {op : Operation} (alive : ∀ head ∈ headsOfAll op.nested,
    context.isDead op.usedNames head = false) :
      Dwindles context op [] op
  | round {op between kept : Operation} {gone : List Operation} {rounds : List (List Operation)}
      (deletes : op.Deletes gone between) (some : gone ≠ [])
      (dead : ∀ other ∈ gone, context.isDead op.usedNames other.toHead = true)
      (all : ∀ head ∈ headsOfAll between.nested, context.isDead op.usedNames head = false)
      (rest : Dwindles context between rounds kept) : Dwindles context op (gone :: rounds) kept

theorem Dwindles.alive {op kept : Operation} {rounds : List (List Operation)}
    (h : Dwindles context op rounds kept) :
    ∀ head ∈ headsOfAll kept.nested, context.isDead kept.usedNames head = false := by
  induction h with
  | done halive => exact halive
  | round _ _ _ _ _ ih => exact ih

theorem isDead_iff {used : List String} {head : Head} : context.isDead used head = true
    ↔ context.isPure head.name = true ∧ head.results ≠ [] ∧ ∀ result ∈ head.results,
      result.name ∉ used := by
  simp [Context.isDead, Head.isUnused, and_comm]

/-- What is dead stays dead when fewer names are in use. -/
theorem isDead_of_subset {used fewer : List String} (hsub : fewer ⊆ used) {head : Head}
    (h : context.isDead used head = true) :
    context.isDead fewer head = true := by
  rw [isDead_iff] at h ⊢
  exact ⟨h.1, h.2.1, fun result hresult hused => h.2.2 result hresult (hsub hused)⟩

/-- All rounds together delete operations that are dead in the end. -/
theorem Dwindles.exists_deletes {op kept : Operation} {rounds : List (List Operation)}
    (h : Dwindles context op rounds kept) :
    ∃ gone, op.Deletes gone kept
      ∧ (∀ other ∈ gone, context.isDead kept.usedNames other.toHead = true)
      ∧ gone.length ≤ rounds.flatten.length
      ∧ ((∀ other ∈ gone, other.HoldsNone fun head => context.isPure head.name) →
        gone.length = rounds.flatten.length) := by
  induction h with
  | done => exact ⟨[], .refl _, nofun, Nat.le_refl _, fun _ => rfl⟩
  | @round op between kept first rounds deletes _ dead _ _ ih =>
      obtain ⟨second, hdeletes, hdead, hle, heq⟩ := ih
      obtain ⟨both, hboth, hmerges⟩ := @Deletes.trans (fun head => context.isPure head.name) _ _ _ _
        _ deletes hdeletes
        fun other hother => (isDead_iff.1 (dead other hother)).1
      have hsub : kept.usedNames ⊆ op.usedNames :=
        List.Subset.trans hdeletes.usedNames deletes.usedNames
      refine ⟨both, hboth, fun other hother => ?_, ?_, fun hnone => ?_⟩
      · obtain ⟨earlier, hearlier, hhead⟩ := hmerges.mem other hother
        rw [← hhead]
        rcases List.mem_append.1 hearlier with hearlier | hearlier
        · exact isDead_of_subset hsub (dead earlier hearlier)
        · exact hdead earlier hearlier
      · have hfirst := hmerges.length_le
        rw [List.flatten_cons, List.length_append]
        omega
      · obtain ⟨hsecond, hlength⟩ := hmerges.holdsNone hnone
        rw [List.flatten_cons, List.length_append, hlength, heq hsecond]

theorem exists_dwindles_removeDeadRounds (rounds : Nat) (hsame : context.SameDialects other)
    (op : Operation) (hlength : op.heads.length ≤ rounds) :
    ∃ gone, Dwindles context op gone (removeDeadRounds rounds other op).op
      ∧ (removeDeadRounds rounds other op).removed = gone.flatten.length := by
  induction rounds generalizing other op with
  | zero =>
      rw [heads_eq] at hlength
      cases hlength
  | succ rounds ih =>
      obtain ⟨gone, hdeletes, hdead, hgone⟩ := exists_deletes_prune (context.isDead op.usedNames) op
      rw [removeDeadRounds, isDead_congr hsame]
      dsimp only
      split
      next hnone =>
        rw [List.countP_eq_zero] at hnone
        exact ⟨[], .done (alive_of_judged fun head hhead => Bool.eq_false_iff.2 (hnone head hhead)), rfl⟩
      next hsome =>
        have hless := length_heads_prune (context.isDead op.usedNames) op
        have hjudged := hsame.trans
          (other.sameDialects_foldl_judge op.usedNames (op.judged (context.isDead op.usedNames)))
        obtain ⟨more, hmore, hremoved⟩ :=
          ih hjudged (op.prune (context.isDead op.usedNames)) (by omega)
        refine ⟨gone :: more, .round hdeletes ?_ hdead (alive_prune _ op) hmore, ?_⟩
        · rintro rfl
          exact hsome hgone.symm
        · rw [List.flatten_cons, List.length_append, hgone, hremoved]

/-! ### Again -/

end Operation

namespace Context

variable {context : Context} {used : List String} {heads : List Head}

/-- Judging an unused operation asks for its dialect. -/
theorem met_judge {head : Head} (hunused : head.isUnused used = true) :
    (context.judge used head).Met head.name.dialect := by
  rw [judge, if_pos hunused]
  dsimp only
  split
  · exact met_load context _
  · exact met_load context _

theorem met_foldl_judge : ∀ head ∈ heads, head.isUnused used = true →
    (heads.foldl (·.judge used ·) context).Met head.name.dialect := by
  induction heads generalizing context with
  | nil => exact nofun
  | cons first heads ih =>
      exact List.forall_mem_cons.2
        ⟨fun hunused => ((Loads.refl _).foldl_judge used heads).met (met_judge hunused), ih⟩

/-- Where the dialects of unused operations have been asked for, and nothing is dead, judging
changes nothing. -/
theorem foldl_judge_of_alive
    (hmet : ∀ head ∈ heads, head.isUnused used = true → context.Met head.name.dialect)
    (halive : ∀ head ∈ heads, context.isDead used head = false) :
    heads.foldl (·.judge used ·) context = context := by
  induction heads with
  | nil => rfl
  | cons head heads ih =>
      rw [List.forall_mem_cons] at hmet halive
      have hhead : context.judge used head = context := by
        rw [judge]
        split
        next hunused =>
          have himpure : context.isPure head.name = false := by
            have hdead := halive.1
            rwa [isDead, hunused, Bool.true_and] at hdead
          dsimp only
          rw [load_of_met (hmet.1 hunused), himpure, if_neg Bool.false_ne_true]
        next => rfl
      rw [List.foldl_cons, hhead]
      exact ih hmet.2 halive.2

end Context

namespace Operation

variable {context other : Context}

/-- Removing dead operations once more loads no dialect and notes nothing. -/
theorem removeDeadRounds_again (rounds : Nat) (op : Operation)
    (hlength : op.heads.length ≤ rounds) :
    (removeDeadRounds rounds context op).op.removeDeadOps
      (removeDeadRounds rounds context op).context
      = ⟨(removeDeadRounds rounds context op).op, 0,
        (removeDeadRounds rounds context op).context⟩ := by
  induction rounds generalizing context op with
  | zero =>
      rw [heads_eq] at hlength
      cases hlength
  | succ rounds ih =>
      rw [removeDeadRounds]
      dsimp only
      split
      next hnone =>
        obtain ⟨judged, hjudged⟩ : ∃ judged, op.judged (context.isDead op.usedNames)
          = judged := ⟨_, rfl⟩
        rw [hjudged] at hnone ⊢
        have hsame := context.sameDialects_foldl_judge op.usedNames judged
        have halive : ∀ head ∈ judged, context.isDead op.usedNames head = false := fun head hhead =>
          Bool.eq_false_iff.2 (List.countP_eq_zero.1 hnone head hhead)
        have hstill := Context.foldl_judge_of_alive
          (@Context.met_foldl_judge context op.usedNames judged) (by rwa [isDead_congr hsame])
        unfold removeDeadOps
        cases op.heads.length with
        | zero => rfl
        | succ more =>
            rw [removeDeadRounds, isDead_congr hsame, hjudged, hstill]
            dsimp only
            rw [if_pos hnone]
      next hsome =>
        have hless := length_heads_prune (context.isDead op.usedNames) op
        exact ih _ (by omega)

theorem verify_removeDeadOps {op : Operation} (h : op.verify = .ok ()) :
    (op.removeDeadOps context).op.verify = .ok () := by
  rw [verify_eq_ok_iff] at h ⊢
  exact (removeDeadOps_induction (P := fun op => op.Scoped [] ∧ op.definedNames.Nodup) context
    (fun _ _ _ h => ⟨scoped_prune h.1, (definedNames_prune _ _).nodup h.2⟩) h).1

/-- **What removing dead operations does.** It goes on in rounds until no operation is dead, and
reports how many operations the rounds deleted. All in all some nested operations are deleted with
what they hold, and the others are kept in order with their heads. What is deleted from a region
that is kept is pure, and it has results, none of which is used in what is left; and it is no more
than what is reported: just as much if no pure operation is nested in what is deleted. Nothing that
is left is dead, the rules of scoping are kept, and to do it again changes nothing. -/
theorem removeDeadOps_spec {root : Operation} (hroot : root.verify = .ok ()) : ∃ rounds gone,
    Dwindles context root rounds (root.removeDeadOps context).op
      ∧ (root.removeDeadOps context).removed = rounds.flatten.length
      ∧ root.Deletes gone (root.removeDeadOps context).op
      ∧ (∀ op ∈ gone, context.isPure op.name = true ∧ op.results ≠ []
          ∧ ∀ result ∈ op.results, result.name ∉ (root.removeDeadOps context).op.usedNames)
      ∧ gone.length ≤ (root.removeDeadOps context).removed
      ∧ ((∀ op ∈ gone, op.HoldsNone fun head => context.isPure head.name) →
        gone.length = (root.removeDeadOps context).removed)
      ∧ (∀ head ∈ headsOfAll (root.removeDeadOps context).op.nested,
          ¬ (context.isPure head.name = true ∧ head.results ≠ []
            ∧ ∀ result ∈ head.results, result.name ∉ (root.removeDeadOps context).op.usedNames))
      ∧ (root.removeDeadOps context).op.verify = .ok ()
      ∧ (root.removeDeadOps context).op.removeDeadOps (root.removeDeadOps context).context
        = ⟨(root.removeDeadOps context).op, 0, (root.removeDeadOps context).context⟩ := by
  obtain ⟨rounds, hrounds, hremoved⟩ :=
    exists_dwindles_removeDeadRounds root.heads.length (.refl context) root (Nat.le_refl _)
  obtain ⟨gone, hdeletes, hdead, hle, heq⟩ := hrounds.exists_deletes
  rw [← hremoved] at hle heq
  refine ⟨rounds, gone, hrounds, hremoved, hdeletes, fun op hop => isDead_iff.1 (hdead op hop), hle,
    heq, fun head hhead h => ?_,
    verify_removeDeadOps hroot, removeDeadRounds_again _ root (Nat.le_refl _)⟩
  exact Bool.eq_false_iff.1 (hrounds.alive head hhead) (isDead_iff.2 h)

/-- A sum in a region is all that uses two constants, one of them inside and one outside. -/
def unusedSum : Operation :=
  let a : Value := ⟨"a", .int 8⟩
  let b : Value := ⟨"b", .int 8⟩
  .module
    [.constant a 1,
      { name := "test.hold",
        region := some [.constant b 2,
          { name := "arith.addi", operands := [a, b], results := [⟨"c", .int 8⟩] }] }]

theorem removeDeadOps_spec_sum : unusedSum.verify = .ok () ∧ ∃ rounds gone,
    Dwindles (.ofRegistry .standard) unusedSum rounds
      (unusedSum.removeDeadOps (.ofRegistry .standard)).op
      ∧ rounds.flatten.length = 3 ∧ unusedSum.Deletes gone
        (unusedSum.removeDeadOps (.ofRegistry .standard)).op
      ∧ gone.length ≤ 3 ∧ (unusedSum.removeDeadOps (.ofRegistry .standard)).op.verify = .ok () := by
  have hremoved : (unusedSum.removeDeadOps (.ofRegistry .standard)).removed = 3 := by decide +kernel
  obtain ⟨rounds, gone, hrounds, hlength, hdeletes, -, hle, -, -, hverify, -⟩ :=
    @removeDeadOps_spec (.ofRegistry .standard) unusedSum rfl
  rw [hremoved] at hlength hle
  exact ⟨rfl, rounds, gone, hrounds, hlength.symm, hdeletes, hle, hverify⟩

/-- A constant with a region in which there is another one, and a sum that is all that uses the
first. -/
def nestedConstant : Operation :=
  let a : Value := ⟨"a", .int 8⟩
  .module [{ (Operation.constant a 1) with region := some [.constant ⟨"b", .int 8⟩ 2] },
    { name := "arith.addi", operands := [a, a], results := [⟨"c", .int 8⟩] }]

/-- The inner constant goes first, and then the region that it went from: it is counted all the
same. -/
theorem exists_removed_ne_length : ∃ root : Operation, root.verify = .ok ()
    ∧ ∀ gone, root.Deletes gone (root.removeDeadOps (.ofRegistry .standard)).op →
      (root.removeDeadOps (.ofRegistry .standard)).removed ≠ gone.length := by
  refine ⟨nestedConstant, rfl, fun gone hgone => ?_⟩
  have hremoved : (nestedConstant.removeDeadOps (.ofRegistry .standard)).removed = 3 := by
    decide +kernel
  have hleft : (nestedConstant.removeDeadOps (.ofRegistry .standard)).op.nested.length = 0 := by
    decide +kernel
  rw [hremoved, hgone.eq_nested (List.length_eq_zero_iff.1 hleft)]
  decide

end Operation

end DialectIR
