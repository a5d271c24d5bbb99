import DialectIR.Proofs.Matching
import DialectIR.Proofs.Substitution

/-! Scoping while a sweep goes on. The values that were visible before stand for others that are
visible in the tree as it is now, and no name has two meanings. -/

namespace DialectIR.Greedy

open Operation

variable {σ : Type}

/-- The names of the results erased in this sweep. -/
def State.erasedNames (s : State σ) : List String := s.erased.map Value.name

/-- The states agree on what is replaced and on what is erased. -/
def State.Agrees (s s' : State σ) : Prop := s'.replaced = s.replaced ∧ s'.erased = s.erased

theorem State.Similar.agrees {s s' : State σ} (h : s.Similar s') : s.Agrees s' :=
  ⟨h.replaced, h.erased⟩

theorem State.Agrees.erasedNames {s s' : State σ} (h : s.Agrees s') :
    s'.erasedNames = s.erasedNames :=
  congrArg (List.map Value.name) h.2

/-- What was visible stands for something that is visible now, or was erased, and is not replaced in
turn. -/
structure Linked (old new : List String) (s : State σ) : Prop where
  stands : ∀ name ∈ old, s.replaced.standIn name ∈ new ++ s.erasedNames
  final : ∀ name ∈ new ++ s.erasedNames, s.replaced.get? name = none

/-- The name plays no part so far. -/
structure Unused (old new : List String) (s : State σ) (name : String) : Prop where
  old : name ∉ old
  new : name ∉ new
  erased : name ∉ s.erasedNames
  replaced : s.replaced.get? name = none

/-- The names that some operations define, and those that are drawn for them. -/
def claimed (ops : List Operation) (drawn : List String) : List String :=
  definedNamesOfAll ops ++ drawn

/-- Operations that a sweep comes to, where the values `old` were visible before and `new` are now,
and the names that it will draw for them. -/
structure Entry (old new : List String) (ops : List Operation) (drawn : List String)
    (s : State σ) : Prop where
  uses : ScopedAll old ops
  linked : Linked old new s
  nodup : (claimed ops drawn).Nodup
  unused : ∀ name ∈ claimed ops drawn, Unused old new s name

/-- What stands in the place of the operations when the sweep is through with them. -/
structure Exit (old new : List String) (ops : List Operation) (drawn : List String) (s : State σ)
    (out : List Operation) (s' : State σ) : Prop where
  uses : ScopedAll (new ++ s'.erasedNames) out
  nodup : (definedNamesOfAll out).Nodup
  names : definedNamesOfAll out ⊆ claimed ops drawn
  final : ∀ name ∈ definedNamesOfAll out, s'.replaced.get? name = none ∧ name ∉ s'.erasedNames
  linked : Linked (visibleAfter old ops) (visibleAfter new out) s'
  erased : s.erasedNames ⊆ s'.erasedNames
  erasedOnly : s'.erasedNames ⊆ s.erasedNames ++ claimed ops drawn
  elsewhere : ∀ name ∉ claimed ops drawn, s'.replaced.get? name = s.replaced.get? name

variable {old new drawn drawn' : List String} {op : Operation} {ops more out rest : List Operation}
  {s s' s'' : State σ}

/-! ### Names -/

theorem claimed_append (ops more : List Operation) (drawn drawn' : List String) :
    (claimed (ops ++ more) (drawn ++ drawn')).Perm (claimed ops drawn ++ claimed more drawn') := by
  unfold claimed
  rw [definedNamesOfAll_append, List.append_assoc, List.append_assoc]
  apply List.Perm.append_left _
  rw [← List.append_assoc, ← List.append_assoc]
  exact List.Perm.append_right _ List.perm_append_comm

theorem mem_claimed {name : String} :
    name ∈ claimed ops drawn ↔ name ∈ definedNamesOfAll ops ∨ name ∈ drawn :=
  List.mem_append

theorem resultNames_subset_claimed (ops : List Operation) (drawn : List String) :
    ops.flatMap (·.resultNames) ⊆ claimed ops drawn :=
  fun _ hname => List.mem_append_left _ (resultNames_subset_definedNamesOfAll ops hname)

theorem claimed_nested (op : Operation) (drawn : List String) :
    claimed [op] drawn = op.resultNames ++ claimed op.nested drawn := by
  unfold claimed
  rw [definedNamesOfAll_singleton, List.append_assoc]

theorem Linked.of_forall {names : List String}
    (h : ∀ name ∈ new ++ s.erasedNames, s.replaced.get? name = none)
    (hnames : names ⊆ new ++ s.erasedNames) : Linked names new s where
  stands name hname := by
    rw [Replacements.standIn_of_none (h name (hnames hname))]
    exact hnames hname
  final := h

theorem Linked.mono {names : List String} (h : Linked old new s) (hnames : names ⊆ old) :
    Linked names new s :=
  ⟨fun name hname => h.stands name (hnames hname), h.final⟩

namespace Entry

/-- Operations among those that a sweep comes to. -/
theorem of_sublist (h : Entry old new ops drawn s)
    (hclaimed : (claimed more drawn').Sublist (claimed ops drawn)) (huses : ScopedAll old more) :
    Entry old new more drawn' s where
  uses := huses
  linked := h.linked
  nodup := h.nodup.sublist hclaimed
  unused name hname := h.unused name (hclaimed.subset hname)

theorem left (h : Entry old new (ops ++ more) (drawn ++ drawn') s) : Entry old new ops drawn s := by
  refine h.of_sublist ?_ (scopedAll_append.1 h.uses).1
  unfold claimed
  rw [definedNamesOfAll_append]
  exact (List.sublist_append_left _ _).append (List.sublist_append_left _ _)

/-- Names that are drawn for the operations first. -/
theorem fewer (h : Entry old new ops (drawn ++ drawn') s) : Entry old new ops drawn s :=
  h.of_sublist ((List.Sublist.refl _).append (List.sublist_append_left _ _)) h.uses

theorem nested (h : Entry old new [op] drawn s) : Entry old new op.nested drawn s := by
  refine h.of_sublist ?_ (scoped_iff.1 (scopedAll_singleton.1 h.uses)).2
  rw [claimed_nested]
  exact List.sublist_append_right _ _

theorem disjoint (h : Entry old new (ops ++ more) (drawn ++ drawn') s) {name : String}
    (hname : name ∈ claimed more drawn') : name ∉ claimed ops drawn := by
  intro hother
  have hnodup := (claimed_append ops more drawn drawn').nodup_iff.1 h.nodup
  exact (List.nodup_append.1 hnodup).2.2 name hother name hname rfl

theorem right (h : Entry old new (ops ++ more) (drawn ++ drawn') s)
    (hexit : Exit old new ops drawn s out s') :
    Entry (visibleAfter old ops) (visibleAfter new out) more drawn' s' := by
  refine ⟨(scopedAll_append.1 h.uses).2, hexit.linked,
    (List.nodup_append.1 ((claimed_append ops more drawn drawn').nodup_iff.1 h.nodup)).2.1,
    fun name hname => ?_⟩
  have hunused :=
    h.unused name ((claimed_append ops more drawn drawn').mem_iff.2 (List.mem_append_right _ hname))
  have hother := h.disjoint hname
  refine ⟨fun hmem => ?_, fun hmem => ?_, fun hmem => ?_, ?_⟩
  · rcases mem_visibleAfter.1 hmem with hresult | hold
    · exact hother (resultNames_subset_claimed ops drawn hresult)
    · exact hunused.old hold
  · rcases mem_visibleAfter.1 hmem with hresult | hnew
    · exact hother (hexit.names (resultNames_subset_definedNamesOfAll out hresult))
    · exact hunused.new hnew
  · rcases List.mem_append.1 (hexit.erasedOnly hmem) with hbefore | hinside
    · exact hunused.erased hbefore
    · exact hother hinside
  · rw [hexit.elsewhere name hother]
    exact hunused.replaced

theorem congr (h : Entry old new ops drawn s) (hs : s.Agrees s') : Entry old new ops drawn s' := by
  obtain ⟨hreplaced, herased⟩ := hs
  refine ⟨h.uses, ⟨?_, ?_⟩, h.nodup, fun name hname => ?_⟩
  · rw [hreplaced, State.erasedNames, herased]
    exact h.linked.stands
  · rw [hreplaced, State.erasedNames, herased]
    exact h.linked.final
  · obtain ⟨hold, hnew, hout, hnone⟩ := h.unused name hname
    refine ⟨hold, hnew, ?_, ?_⟩
    · rw [State.erasedNames, herased]
      exact hout
    · rw [hreplaced]
      exact hnone

end Entry

namespace Exit

theorem congr {t t' : State σ} (h : Exit old new ops drawn s out s') (hs : t.Agrees s)
    (hs' : s'.Agrees t') :
    Exit old new ops drawn t out t' := by
  obtain ⟨hreplaced, herased⟩ := hs
  obtain ⟨hreplaced', herased'⟩ := hs'
  have hnames : s.erasedNames = t.erasedNames := congrArg (List.map Value.name) herased
  have hnames' : t'.erasedNames = s'.erasedNames := congrArg (List.map Value.name) herased'
  refine ⟨?_, h.nodup, h.names, ?_, ⟨?_, ?_⟩, ?_, ?_, ?_⟩
  · rw [hnames']
    exact h.uses
  · rw [hnames', hreplaced']
    exact h.final
  · rw [hnames', hreplaced']
    exact h.linked.stands
  · rw [hnames', hreplaced']
    exact h.linked.final
  · rw [hnames', ← hnames]
    exact h.erased
  · rw [hnames', ← hnames]
    exact h.erasedOnly
  · rw [hreplaced', ← hreplaced]
    exact h.elsewhere

theorem nil (h : Linked old new s) : Exit old new [] drawn s [] s where
  uses := trivial
  nodup := .nil
  names := List.nil_subset _
  final := nofun
  linked := h
  erased := List.Subset.refl _
  erasedOnly := List.subset_append_left _ _
  elsewhere _ _ := rfl

/-- Operations that are left alone. -/
theorem refl (h : Entry (new ++ s.erasedNames) new ops drawn s) :
    Exit (new ++ s.erasedNames) new ops drawn s ops s where
  uses := h.uses
  nodup := (List.nodup_append.1 h.nodup).1
  names := List.subset_append_left _ _
  final name hname :=
    have hunused := h.unused name (List.mem_append_left _ hname)
    ⟨hunused.replaced, hunused.erased⟩
  linked := by
    refine Linked.of_forall (fun name hname => ?_) fun name hname => ?_
    · rcases List.mem_append.1 hname with hvisible | herased
      · rcases mem_visibleAfter.1 hvisible with hresult | hnew
        · exact (h.unused name (resultNames_subset_claimed ops drawn hresult)).replaced
        · exact h.linked.final name (List.mem_append_left _ hnew)
      · exact h.linked.final name (List.mem_append_right _ herased)
    · rw [List.mem_append, mem_visibleAfter, or_assoc, ← List.mem_append]
      exact mem_visibleAfter.1 hname
  erased := List.Subset.refl _
  erasedOnly := List.subset_append_left _ _
  elsewhere _ _ := rfl

/-- One list of operations after the other. -/
theorem append (h : Entry old new (ops ++ more) (drawn ++ drawn') s)
    (hfirst : Exit old new ops drawn s out s')
    (hrest : Exit (visibleAfter old ops) (visibleAfter new out) more drawn' s' rest s'') :
    Exit old new (ops ++ more) (drawn ++ drawn') s (out ++ rest) s'' := by
  have hperm := claimed_append ops more drawn drawn'
  have hapart : ∀ name ∈ claimed ops drawn, name ∉ claimed more drawn' :=
    fun name hname hlater => h.disjoint hlater hname
  refine ⟨?_, ?_, fun name hname => ?_, fun name hname => ?_, ?_,
    List.Subset.trans hfirst.erased hrest.erased, fun name hname => ?_, fun name hname => ?_⟩
  · refine scopedAll_append.2 ⟨hfirst.uses.mono fun name hname => ?_,
      hrest.uses.mono fun name hname => ?_⟩
    · exact (List.mem_append.1 hname).elim (List.mem_append_left _) fun herased =>
        List.mem_append_right _ (hrest.erased herased)
    · rw [List.mem_append, mem_visibleAfter, or_assoc, ← List.mem_append] at hname
      exact mem_visibleAfter.2 hname
  · rw [definedNamesOfAll_append]
    refine List.nodup_append.2 ⟨hfirst.nodup, hrest.nodup, fun name hname other hother heq => ?_⟩
    exact hapart name (hfirst.names hname) (heq ▸ hrest.names hother)
  · rw [hperm.mem_iff, List.mem_append]
    rw [definedNamesOfAll_append] at hname
    exact (List.mem_append.1 hname).imp (hfirst.names ·) (hrest.names ·)
  · rw [definedNamesOfAll_append] at hname
    rcases List.mem_append.1 hname with hname | hname
    · have hother := hapart name (hfirst.names hname)
      rw [hrest.elsewhere name hother]
      refine ⟨(hfirst.final name hname).1, fun herased => ?_⟩
      rcases List.mem_append.1 (hrest.erasedOnly herased) with hbefore | hlater
      · exact (hfirst.final name hname).2 hbefore
      · exact hother hlater
    · exact hrest.final name hname
  · rw [visibleAfter_append, visibleAfter_append]
    exact hrest.linked
  · rw [List.mem_append, hperm.mem_iff, List.mem_append]
    rcases List.mem_append.1 (hrest.erasedOnly hname) with hbefore | hlater
    · rw [← or_assoc]
      exact .inl (List.mem_append.1 (hfirst.erasedOnly hbefore))
    · exact .inr (.inr hlater)
  · rw [hperm.mem_iff, List.mem_append, not_or] at hname
    rw [hrest.elsewhere name hname.2, hfirst.elsewhere name hname.1]

/-- An operation that keeps its head when the sweep is through with what it holds. -/
theorem node {op' : Operation} (h : Entry (new ++ s.erasedNames) new [op] drawn s)
    (hhead : op'.toHead = op.toHead)
    (hnested : Exit (new ++ s.erasedNames) new op.nested drawn s op'.nested s') :
    Exit (new ++ s.erasedNames) new [op] drawn s [op'] s' := by
  have hresults : op'.resultNames = op.resultNames := congrArg Head.resultNames hhead
  have hclaimed := claimed_nested op drawn
  have hsplit := List.nodup_append.1 (hclaimed ▸ h.nodup)
  have hown : ∀ name ∈ op.resultNames, name ∉ claimed op.nested drawn :=
    fun name hname hinside => hsplit.2.2 name hname name hinside rfl
  have hresult : ∀ name ∈ op.resultNames, s'.replaced.get? name = none ∧ name ∉ s'.erasedNames := by
    intro name hname
    have hunused := h.unused name (hclaimed ▸ List.mem_append_left _ hname)
    rw [hnested.elsewhere name (hown name hname)]
    refine ⟨hunused.replaced, fun herased => ?_⟩
    rcases List.mem_append.1 (hnested.erasedOnly herased) with hbefore | hinside
    · exact hunused.erased hbefore
    · exact hown name hname hinside
  have hfinal : ∀ name ∈ new ++ s'.erasedNames, s'.replaced.get? name = none := by
    intro name hname
    apply hnested.linked.final name
    rw [List.mem_append, mem_visibleAfter]
    exact (List.mem_append.1 hname).imp_left .inr
  refine ⟨scopedAll_singleton.2 (scoped_iff.2 ⟨fun operand hoperand => ?_, hnested.uses⟩), ?_,
    fun name hname => ?_,
    fun name hname => ?_, Linked.of_forall (fun name hname => ?_) fun name hname => ?_,
    hnested.erased, fun name hname => ?_, fun name hname => ?_⟩
  · rw [hhead] at hoperand
    refine (List.mem_append.1 ((scoped_iff.1 (scopedAll_singleton.1 h.uses)).1 operand hoperand)).elim
      (List.mem_append_left _) fun herased => ?_
    exact List.mem_append_right _ (hnested.erased herased)
  · rw [definedNamesOfAll_singleton, hresults]
    refine List.nodup_append.2 ⟨hsplit.1, hnested.nodup, fun name hname other hother heq => ?_⟩
    exact hown name hname (heq ▸ hnested.names hother)
  · rw [hclaimed, List.mem_append]
    rw [definedNamesOfAll_singleton, hresults] at hname
    exact (List.mem_append.1 hname).imp_right (hnested.names ·)
  · rw [definedNamesOfAll_singleton, hresults] at hname
    exact (List.mem_append.1 hname).elim (hresult name) (hnested.final name)
  · rw [List.mem_append, mem_visibleAfter, List.flatMap_singleton, hresults, or_assoc,
      ← List.mem_append] at hname
    exact hname.elim (fun hname => (hresult name hname).1) (hfinal name)
  · rw [mem_visibleAfter, List.flatMap_singleton, List.mem_append] at hname
    rw [List.mem_append, mem_visibleAfter, List.flatMap_singleton, hresults]
    rcases hname with hname | hnew | herased
    · exact .inl (.inl hname)
    · exact .inl (.inr hnew)
    · exact .inr (hnested.erased herased)
  · rw [hclaimed]
    apply (List.mem_append.1 (hnested.erasedOnly hname)).elim (List.mem_append_left _)
    intro hinside
    exact List.mem_append_right _ (List.mem_append_right _ hinside)
  · rw [hclaimed, List.mem_append, not_or] at hname
    exact hnested.elsewhere name hname.2

/-- What stands there now can be visited again. -/
theorem again (h : Entry old new ops (drawn ++ drawn') s)
    (hexit : Exit old new ops drawn s out s') :
    Entry (new ++ s'.erasedNames) new out drawn' s' := by
  have hentry : Entry old new (ops ++ []) (drawn ++ drawn') s := by
    rw [List.append_nil]
    exact h
  have hright := hentry.right hexit
  have hfinal : ∀ name ∈ new ++ s'.erasedNames, s'.replaced.get? name = none := by
    intro name hname
    apply hexit.linked.final name
    rw [List.mem_append, mem_visibleAfter]
    exact (List.mem_append.1 hname).imp_left .inr
  refine ⟨hexit.uses, .of_forall hfinal (List.Subset.refl _), ?_, fun name hname => ?_⟩
  · refine List.nodup_append.2 ⟨hexit.nodup, hright.nodup, fun name hname other hother heq => ?_⟩
    exact hentry.disjoint hother (heq ▸ hexit.names hname)
  · rcases List.mem_append.1 hname with hname | hname
    · have hclaimed : name ∈ claimed (ops ++ []) (drawn ++ drawn') :=
        (claimed_append ops [] drawn drawn').mem_iff.2 (List.mem_append_left _ (hexit.names hname))
      have hunused := hentry.unused name hclaimed
      obtain ⟨hreplaced, herased⟩ := hexit.final name hname
      exact ⟨fun hmem => (List.mem_append.1 hmem).elim hunused.new herased, hunused.new,
        herased, hreplaced⟩
    · have hunused := hright.unused name hname
      have hnew : name ∉ new := fun hnew => hunused.new (mem_visibleAfter.2 (.inr hnew))
      exact ⟨fun hmem => (List.mem_append.1 hmem).elim hnew hunused.erased, hnew, hunused.erased,
        hunused.replaced⟩

/-- What the operations were before the last steps does not matter, as long as they had these
results. -/
theorem trans {mid : List Operation} (hfirst : Exit old new ops drawn s mid s')
    (hrest : Exit (new ++ s'.erasedNames) new mid drawn' s' out s'')
    (hresults : ops.flatMap (·.resultNames) ⊆ mid.flatMap (·.resultNames))
    (h : old ⊆ new ++ s.erasedNames) :
    Exit old new ops (drawn ++ drawn') s out s'' := by
  have hclaimed : claimed mid drawn' ⊆ claimed ops (drawn ++ drawn') := by
    intro name hname
    rw [mem_claimed, List.mem_append, ← or_assoc, ← mem_claimed]
    exact (mem_claimed.1 hname).imp_left (hfirst.names ·)
  have hless : claimed ops drawn ⊆ claimed ops (drawn ++ drawn') := by
    intro name hname
    rw [mem_claimed, List.mem_append, ← or_assoc, ← mem_claimed]
    exact .inl hname
  refine ⟨hrest.uses, hrest.nodup, List.Subset.trans hrest.names hclaimed, hrest.final,
    hrest.linked.mono fun name hname => ?_, List.Subset.trans hfirst.erased hrest.erased,
    fun name hname => ?_, fun name hname => ?_⟩
  · rw [mem_visibleAfter] at hname ⊢
    rcases hname with hname | hname
    · exact .inl (hresults hname)
    · refine .inr ((List.mem_append.1 (h hname)).elim (List.mem_append_left _) fun herased => ?_)
      exact List.mem_append_right _ (hfirst.erased herased)
  · rcases List.mem_append.1 (hrest.erasedOnly hname) with hbefore | hlater
    · exact (List.mem_append.1 (hfirst.erasedOnly hbefore)).elim (List.mem_append_left _)
        fun hinside =>
        List.mem_append_right _ (hless hinside)
    · exact List.mem_append_right _ (hclaimed hlater)
  · rw [hrest.elsewhere name fun hlater => hname (hclaimed hlater),
      hfirst.elsewhere name fun hinside => hname (hless hinside)]

/-- Fewer results in view, more names claimed. -/
theorem weaken (h : Exit old new ops drawn s out s')
    (hclaimed : claimed ops drawn ⊆ claimed more drawn')
    (hresults : more.flatMap (·.resultNames) ⊆ ops.flatMap (·.resultNames)) :
    Exit old new more drawn' s out s' where
  uses := h.uses
  nodup := h.nodup
  names := List.Subset.trans h.names hclaimed
  final := h.final
  linked := h.linked.mono fun _ hname => mem_visibleAfter.2
    ((mem_visibleAfter.1 hname).imp_left (hresults ·))
  erased := h.erased
  erasedOnly _ hname := (List.mem_append.1 (h.erasedOnly hname)).elim (List.mem_append_left _)
    fun hinside =>
    List.mem_append_right _ (hclaimed hinside)
  elsewhere name hname := h.elsewhere name fun hinside => hname (hclaimed hinside)

/-- What was visible before is linked as it was, for no name in view is claimed. -/
theorem relink (h : Entry old new ops drawn s)
    (hexit : Exit (new ++ s.erasedNames) new ops drawn s out s') :
    Exit old new ops drawn s out s' := by
  refine ⟨hexit.uses, hexit.nodup, hexit.names, hexit.final,
    ⟨fun name hname => ?_, hexit.linked.final⟩, hexit.erased, hexit.erasedOnly, hexit.elsewhere⟩
  rcases mem_visibleAfter.1 hname with hresult | hold
  · exact hexit.linked.stands name (mem_visibleAfter.2 (.inl hresult))
  · have hapart : name ∉ claimed ops drawn := fun hclaimed => (h.unused name hclaimed).old hold
    have hstands := h.linked.stands name hold
    rw [Replacements.standIn, hexit.elsewhere name hapart, ← Replacements.standIn, List.mem_append,
      mem_visibleAfter]
    exact (List.mem_append.1 hstands).imp .inr (hexit.erased ·)

/-- What stands there now uses no value that is replaced. -/
theorem get?_of_operand (h : Exit old new ops drawn s out s') {head : Head}
    (hhead : head ∈ headsOfAll out) {operand : Value} (hoperand : operand ∈ head.operands) :
    s'.replaced.get? operand.name = none := by
  rcases h.uses.mem_of_operand operand (List.mem_flatMap.2 ⟨head, hhead, hoperand⟩) with hvisible
    | hdefined
  · apply h.linked.final operand.name
    rw [List.mem_append, mem_visibleAfter]
    exact (List.mem_append.1 hvisible).imp_left .inr
  · exact (h.final operand.name hdefined).1

end Exit

theorem Entry.standIn_eq (h : Entry old new ops drawn s) {name : String}
    (hname : name ∈ definedNamesOfAll ops) :
    s.replaced.get? name = none := (h.unused name (List.mem_append_left _ hname)).replaced

/-- Every operand that comes up stands for a value that is not replaced in turn. -/
theorem Linked.resolve? (h : Linked old new s) (operand : Value)
    (hoperand : operand.name ∈ old ∨ s.replaced.get? operand.name = none) :
    ∃ value, s.replaced.resolve? operand = some value
      ∧ value.name = s.replaced.standIn operand.name := by
  cases hget : s.replaced.get? operand.name with
  | none =>
      refine ⟨operand, Replacements.resolve?_of_none hget, ?_⟩
      rw [Replacements.standIn_of_none hget]
  | some value =>
      rw [hget] at hoperand
      have hstands := h.stands operand.name (hoperand.resolve_right nofun)
      rw [Replacements.standIn_of_some hget] at hstands ⊢
      exact ⟨value, Replacements.resolve?_of_some hget (h.final value.name hstands), rfl⟩

/-- The operation that a visit goes on with when the operands are substituted. -/
structure Substituted (new : List String) (op : Operation) (drawn : List String) (s : State σ)
    (op' : Operation) : Prop where
  entry : Entry (new ++ s.erasedNames) new [op'] drawn s
  results : op'.results = op.results
  names : op'.definedNames = op.definedNames
  height : op'.height = op.height

/-- What then stands in the place of the operation stands in the place of the original. -/
theorem Substituted.exit {op' : Operation} (h : Entry old new [op] drawn s)
    (hsubstituted : Substituted new op drawn s op')
    (hexit : Exit (new ++ s.erasedNames) new [op'] drawn s out s') :
    Exit old new [op] drawn s out s' := by
  have hresults : op'.resultNames = op.resultNames :=
    congrArg (List.map Value.name) hsubstituted.results
  refine Exit.relink h (hexit.weaken ?_ ?_)
  · unfold claimed
    rw [definedNamesOfAll_cons, definedNamesOfAll_cons, hsubstituted.names]
    exact List.Subset.refl _
  · rw [List.flatMap_singleton, List.flatMap_singleton, hresults]
    exact List.Subset.refl _

theorem ensures_substitute (h : Entry old new [op] drawn s) (fails : Error → State σ → Prop) :
    Ensures (substitute op) s (fun op' s' => s' = s ∧ Substituted new op drawn s op') fails := by
  have huses := scopedAll_singleton.1 h.uses
  have hown : ∀ name ∈ op.definedNames, s.replaced.get? name = none :=
    fun name hname => h.standIn_eq (by simpa using hname)
  have hresolve : ∀ operand ∈ op.heads.flatMap (·.operands),
      ∃ value, s.replaced.resolve? operand = some value
        ∧ value.name = s.replaced.standIn operand.name := by
    intro operand hoperand
    refine h.linked.resolve? operand
      ((huses.mem_of_operand operand hoperand).imp_right fun hnested => ?_)
    apply hown operand.name
    rw [definedNames_eq]
    exact List.mem_append_right _ hnested
  have hentry : ∀ op' : Operation, op'.Scoped (new ++ s.erasedNames) →
    op'.definedNames = op.definedNames → Entry (new ++ s.erasedNames) new [op'] drawn s := by
    intro op' hscoped hnames
    have hsame : claimed [op'] drawn = claimed [op] drawn := by
      unfold claimed
      rw [definedNamesOfAll_cons, definedNamesOfAll_cons, hnames]
    refine ⟨scopedAll_singleton.2 hscoped, .of_forall h.linked.final (List.Subset.refl _),
      hsame ▸ h.nodup, fun name hname => ?_⟩
    have hunused := h.unused name (hsame ▸ hname)
    exact ⟨fun hmem => (List.mem_append.1 hmem).elim hunused.new hunused.erased, hunused.new,
      hunused.erased, hunused.replaced⟩
  unfold substitute
  rw [Ensures.get_bind_iff]
  dsimp only
  split
  next hempty =>
    have hnone := Dict.get?_of_isEmpty hempty
    have hscoped : op.Scoped (new ++ s.erasedNames) := by
      apply huses.mono
      intro name hname
      rw [← Replacements.standIn_of_none (hnone name)]
      exact h.linked.stands name hname
    exact ⟨rfl, hentry op hscoped rfl, rfl, rfl, rfl⟩
  next =>
    have hendless : s.replaced.endless? op = none := by
      rw [Replacements.endless?, List.find?_eq_none]
      intro operand hoperand
      obtain ⟨value, hvalue, -⟩ := hresolve operand hoperand
      simp [hvalue]
    rw [hendless]
    have hnames := definedNames_mapOperands
      (fun operand => (s.replaced.resolve? operand).getD operand) op
    refine ⟨rfl, hentry _ (huses.mapOperands (fun operand hoperand => ?_) fun operand hoperand =>
      ?_) hnames, ?_, hnames, ?_⟩
    · obtain ⟨value, hvalue, hname⟩ := h.linked.resolve? operand (.inl hoperand)
      rw [hvalue, Option.getD_some, hname]
      exact h.linked.stands operand.name hoperand
    · have hkept : s.replaced.get? operand.name = none := by
        apply hown operand.name
        rw [definedNames_eq]
        exact List.mem_append_right _ hoperand
      rw [Replacements.resolve?_of_none hkept, Option.getD_some]
    · rw [Replacements.applyTo, mapOperands, toHead_mapHeads]
      rfl
    · exact height_mapHeads _ op

end DialectIR.Greedy
