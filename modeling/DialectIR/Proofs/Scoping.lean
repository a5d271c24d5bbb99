import DialectIR.Operation.Scoping

/-! Scoping without a checker: the names that a tree defines are distinct, and every operand is
visible where it stands. The checker accepts exactly the trees with both properties. -/

namespace DialectIR

namespace Operation

/-- The names of all results in a tree. -/
def definedNames (op : Operation) : List String := op.heads.flatMap Head.resultNames

/-- The names of all results in a list of trees. -/
def definedNamesOfAll (ops : List Operation) : List String :=
  (headsOfAll ops).flatMap Head.resultNames

mutual

/-- Every operand in the tree is among the visible values or is defined where it can be seen. -/
def Scoped (visible : List String) : Operation → Prop
  | ⟨head, none⟩ => ∀ operand ∈ head.operands, operand.name ∈ visible
  | ⟨head, some ops⟩ => (∀ operand ∈ head.operands, operand.name ∈ visible) ∧ ScopedAll visible ops

/-- The operations of a list are scoped, each in view of the results of those before it. -/
def ScopedAll (visible : List String) : List Operation → Prop
  | [] => True
  | op :: ops => Scoped visible op ∧ ScopedAll (op.resultNames ++ visible) ops

end

mutual

def decScoped (visible : List String) : (op : Operation) → Decidable (op.Scoped visible)
  | ⟨head, none⟩ => inferInstanceAs (Decidable (∀ operand ∈ head.operands, operand.name ∈ visible))
  | ⟨head, some ops⟩ =>
      have := decScopedAll visible ops
      inferInstanceAs
        (Decidable ((∀ operand ∈ head.operands, operand.name ∈ visible) ∧ ScopedAll visible ops))

def decScopedAll (visible : List String) :
    (ops : List Operation) → Decidable (ScopedAll visible ops)
  | [] => isTrue trivial
  | op :: ops =>
      have := decScoped visible op
      have := decScopedAll (op.resultNames ++ visible) ops
      inferInstanceAs (Decidable (op.Scoped visible ∧ ScopedAll (op.resultNames ++ visible) ops))

end

instance (visible : List String) (ops : List Operation) : Decidable (ScopedAll visible ops) :=
  decScopedAll visible ops

theorem definedNames_leaf (head : Head) : definedNames ⟨head, none⟩ = head.resultNames := by
  simp [definedNames, heads]

theorem definedNames_node (head : Head) (ops : List Operation) :
    definedNames ⟨head, some ops⟩ = head.resultNames ++ definedNamesOfAll ops := by
  simp [definedNames, definedNamesOfAll, heads]

/-- The heads of a tree, whether it has a region or not. -/
theorem height_pos (op : Operation) : 0 < op.height := by
  obtain ⟨head, _ | ops⟩ := op
  · exact Nat.one_pos
  · exact Nat.succ_pos _

theorem heads_eq (op : Operation) : op.heads = op.toHead :: headsOfAll op.nested := by
  obtain ⟨head, _ | ops⟩ := op <;> rfl

theorem toHead_mem_headsOfAll {op : Operation} :
    {ops : List Operation} → op ∈ ops → op.toHead ∈ headsOfAll ops
  | first :: ops, h => by
      rw [headsOfAll]
      rcases List.mem_cons.1 h with rfl | h
      · rw [heads_eq]
        exact List.mem_append_left _ List.mem_cons_self
      · exact List.mem_append_right _ (toHead_mem_headsOfAll h)

theorem headsOfAll_append (ops more : List Operation) :
    headsOfAll (ops ++ more) = headsOfAll ops ++ headsOfAll more := by
  induction ops with
  | nil => rfl
  | cons op ops ih => rw [List.cons_append, headsOfAll, ih, headsOfAll, List.append_assoc]

theorem headsOfAll_singleton (op : Operation) : headsOfAll [op] = op.heads := List.append_nil _

theorem definedNames_eq (op : Operation) :
    op.definedNames = op.resultNames ++ definedNamesOfAll op.nested := by
  rw [definedNames, heads_eq, List.flatMap_cons]
  rfl

theorem scoped_iff {visible : List String} {op : Operation} :
    op.Scoped visible ↔ (∀ operand ∈ op.operands, operand.name ∈ visible)
      ∧ ScopedAll visible op.nested := by
  obtain ⟨head, _ | ops⟩ := op
  · simp [Scoped, nested, ScopedAll]
  · simp [Scoped, nested]

@[simp] theorem definedNamesOfAll_nil : definedNamesOfAll [] = [] := rfl

@[simp] theorem definedNamesOfAll_cons (op : Operation) (ops : List Operation) :
    definedNamesOfAll (op :: ops) = op.definedNames ++ definedNamesOfAll ops := by
  simp [definedNames, definedNamesOfAll, headsOfAll]

theorem definedNamesOfAll_append (ops more : List Operation) :
    definedNamesOfAll (ops ++ more) = definedNamesOfAll ops ++ definedNamesOfAll more := by
  rw [definedNamesOfAll, headsOfAll_append, List.flatMap_append]
  rfl

theorem definedNamesOfAll_singleton (op : Operation) :
    definedNamesOfAll [op] = op.resultNames ++ definedNamesOfAll op.nested := by
  rw [definedNamesOfAll_cons, definedNamesOfAll_nil, List.append_nil, definedNames_eq]

@[simp] theorem scopedAll_singleton {visible : List String} {op : Operation} :
    ScopedAll visible [op] ↔ op.Scoped visible := by
  simp [ScopedAll]

theorem resultNames_subset_definedNames (op : Operation) : op.resultNames ⊆ op.definedNames := by
  rw [definedNames_eq]
  exact List.subset_append_left _ _

theorem resultNames_subset_definedNamesOfAll (ops : List Operation) :
    ops.flatMap (·.resultNames) ⊆ definedNamesOfAll ops := by
  induction ops with
  | nil => exact List.nil_subset _
  | cons op ops ih =>
      rw [List.flatMap_cons, definedNamesOfAll_cons]
      refine List.append_subset.2 ⟨?_, ?_⟩
      · exact List.Subset.trans (resultNames_subset_definedNames op) (List.subset_append_left _ _)
      · exact List.Subset.trans ih (List.subset_append_right _ _)

/-- What is visible behind some operations. -/
def visibleAfter (visible : List String) : List Operation → List String
  | [] => visible
  | op :: ops => visibleAfter (op.resultNames ++ visible) ops

theorem mem_visibleAfter {visible : List String} {ops : List Operation} {name : String} :
    name ∈ visibleAfter visible ops ↔ name ∈ ops.flatMap (·.resultNames) ∨ name ∈ visible := by
  induction ops generalizing visible with
  | nil => simp [visibleAfter]
  | cons op ops ih => simp [visibleAfter, ih, or_assoc, or_left_comm]

theorem visibleAfter_append (visible : List String) (ops more : List Operation) :
    visibleAfter visible (ops ++ more) = visibleAfter (visibleAfter visible ops) more := by
  induction ops generalizing visible with
  | nil => rfl
  | cons op ops ih => exact ih _

theorem visibleAfter_append_left (visible more : List String) (ops : List Operation) :
    visibleAfter (visible ++ more) ops = visibleAfter visible ops ++ more := by
  induction ops generalizing visible with
  | nil => rfl
  | cons op ops ih => rw [visibleAfter, visibleAfter, ← List.append_assoc, ih]

theorem scopedAll_append {visible : List String} {ops more : List Operation} :
    ScopedAll visible (ops ++ more) ↔ ScopedAll visible ops
      ∧ ScopedAll (visibleAfter visible ops) more := by
  induction ops generalizing visible with
  | nil => simp [ScopedAll, visibleAfter]
  | cons op ops ih => simp [ScopedAll, visibleAfter, ih, and_assoc]

mutual

/-- More visible values do no harm. -/
theorem Scoped.mono {visible more : List String} (hsub : visible ⊆ more) :
    {op : Operation} → op.Scoped visible → op.Scoped more
  | ⟨_, none⟩, h => fun operand hoperand => hsub (h operand hoperand)
  | ⟨_, some _⟩, h => ⟨fun operand hoperand => hsub (h.1 operand hoperand), ScopedAll.mono hsub h.2⟩

theorem ScopedAll.mono {visible more : List String} (hsub : visible ⊆ more) :
    {ops : List Operation} → ScopedAll visible ops → ScopedAll more ops
  | [], _ => trivial
  | _ :: _, h =>
      ⟨Scoped.mono hsub h.1, ScopedAll.mono
        (fun _ hname => List.mem_append.2 ((List.mem_append.1 hname).imp_right (hsub ·))) h.2⟩

end

/-! ### The checker -/

/-- Some new, distinct names are added to those defined so far. -/
structure Extends (defined names result : List String) : Prop where
  nodup : names.Nodup
  new : ∀ name ∈ names, name ∉ defined
  mem_iff : ∀ name, name ∈ result ↔ name ∈ names ∨ name ∈ defined

theorem Extends.nil (defined : List String) : Extends defined [] defined :=
  ⟨.nil, by simp, by simp⟩

theorem Extends.trans {defined names between names' result : List String}
    (h : Extends defined names between) (h' : Extends between names' result) :
    Extends defined (names ++ names') result where
  nodup := List.nodup_append.2 ⟨h.nodup, h'.nodup, fun name hname name' hname' heq =>
    h'.new name' hname' ((h.mem_iff name').2 (.inl (heq ▸ hname)))⟩
  new name hname := by
    rcases List.mem_append.1 hname with hname | hname
    · exact h.new name hname
    · intro hdefined
      exact h'.new name hname ((h.mem_iff name).2 (.inr hdefined))
  mem_iff name := by
    rw [h'.mem_iff, h.mem_iff, List.mem_append, or_left_comm, or_assoc]

/-- The order of the names does not matter. -/
theorem Extends.perm {defined names names' result : List String} (h : Extends defined names result)
    (hperm : names.Perm names') : Extends defined names' result where
  nodup := hperm.nodup_iff.1 h.nodup
  new name hname := h.new name (hperm.mem_iff.2 hname)
  mem_iff name := by rw [h.mem_iff, hperm.mem_iff]

theorem defineResults_eq_ok {defined result : List String} {values : List Value}
    (h : defineResults defined values = .ok result) :
    Extends defined (values.map Value.name) result := by
  induction values generalizing defined with
  | nil =>
      cases h
      exact .nil _
  | cons value values ih =>
      rw [defineResults] at h
      split at h
      next => cases h
      next hnew =>
        have hone : Extends defined [value.name] (value.name :: defined) :=
          ⟨by simp, by simpa using hnew, by simp⟩
        exact hone.trans (ih h)

theorem exists_defineResults {defined : List String} {values : List Value}
    (hnodup : (values.map Value.name).Nodup) (hnew : ∀ value ∈ values, value.name ∉ defined) :
    ∃ result, defineResults defined values = .ok result := by
  induction values generalizing defined with
  | nil => exact ⟨defined, rfl⟩
  | cons value values ih =>
      rw [List.map_cons, List.nodup_cons] at hnodup
      rw [defineResults, if_neg (hnew value List.mem_cons_self)]
      apply ih hnodup.2
      intro other hother
      rw [List.mem_cons, not_or]
      exact ⟨fun heq => hnodup.1 (heq ▸ List.mem_map_of_mem hother),
        hnew other (List.mem_cons_of_mem _ hother)⟩

theorem hiddenOperand?_eq_none_iff {visible : List String} {head : Head} :
    hiddenOperand? visible head = none ↔ ∀ operand ∈ head.operands, operand.name ∈ visible := by
  simp [hiddenOperand?]

mutual

/-- What the checker accepts is scoped, and defines distinct names that were new. -/
theorem checkScoping_eq_ok {visible defined result : List String} :
    {op : Operation} → op.checkScoping visible defined = .ok result →
      op.Scoped visible ∧ Extends defined op.definedNames result
  | ⟨head, none⟩, h => by
      rw [checkScoping] at h
      split at h
      next => cases h
      next hvisible =>
        rw [definedNames_leaf]
        exact ⟨hiddenOperand?_eq_none_iff.1 hvisible, defineResults_eq_ok h⟩
  | ⟨head, some ops⟩, h => by
      rw [checkScoping] at h
      split at h
      next => cases h
      next hvisible =>
        split at h
        next between hnested =>
          obtain ⟨hscoped, hextends⟩ := checkScopingOfAll_eq_ok hnested
          rw [definedNames_node]
          exact ⟨⟨hiddenOperand?_eq_none_iff.1 hvisible, hscoped⟩,
            (hextends.trans (defineResults_eq_ok h)).perm List.perm_append_comm⟩
        next => cases h

theorem checkScopingOfAll_eq_ok {visible defined result : List String} :
    {ops : List Operation} → checkScopingOfAll visible defined ops = .ok result →
      ScopedAll visible ops ∧ Extends defined (definedNamesOfAll ops) result
  | [], h => by
      cases h
      exact ⟨trivial, .nil defined⟩
  | op :: ops, h => by
      rw [checkScopingOfAll] at h
      split at h
      next between hfirst =>
        obtain ⟨hscoped, hextends⟩ := checkScoping_eq_ok hfirst
        obtain ⟨hrest, hmore⟩ := checkScopingOfAll_eq_ok h
        rw [definedNamesOfAll_cons]
        exact ⟨⟨hscoped, hrest⟩, hextends.trans hmore⟩
      next => cases h

end

mutual

/-- The checker accepts what is scoped and defines distinct new names. -/
theorem exists_checkScoping {visible defined : List String} :
    {op : Operation} → op.Scoped visible → op.definedNames.Nodup →
      (∀ name ∈ op.definedNames, name ∉ defined) → ∃ result,
        op.checkScoping visible defined = .ok result
  | ⟨head, none⟩, hscoped, hnodup, hnew => by
      rw [definedNames_leaf] at hnodup hnew
      rw [checkScoping, hiddenOperand?_eq_none_iff.2 hscoped]
      exact exists_defineResults hnodup fun value hvalue => hnew _ (List.mem_map_of_mem hvalue)
  | ⟨head, some ops⟩, hscoped, hnodup, hnew => by
      rw [definedNames_node] at hnodup hnew
      obtain ⟨hnodupHead, hnodupNested, hdisjoint⟩ := List.nodup_append.1 hnodup
      obtain ⟨between, hnested⟩ := exists_checkScopingOfAll hscoped.2 hnodupNested
        fun name hname => hnew name (List.mem_append_right _ hname)
      have hextends := (checkScopingOfAll_eq_ok hnested).2
      rw [checkScoping, hiddenOperand?_eq_none_iff.2 hscoped.1]
      simp only [hnested]
      apply exists_defineResults hnodupHead
      intro value hvalue
      have hmem : value.name ∈ head.resultNames := List.mem_map_of_mem hvalue
      rw [hextends.mem_iff, not_or]
      exact ⟨fun hname => hdisjoint _ hmem _ hname rfl, hnew _ (List.mem_append_left _ hmem)⟩

theorem exists_checkScopingOfAll {visible defined : List String} :
    {ops : List Operation} → ScopedAll visible ops → (definedNamesOfAll ops).Nodup →
      (∀ name ∈ definedNamesOfAll ops, name ∉ defined) →
      ∃ result, checkScopingOfAll visible defined ops = .ok result
  | [], _, _, _ => ⟨defined, rfl⟩
  | op :: ops, hscoped, hnodup, hnew => by
      rw [definedNamesOfAll_cons] at hnodup hnew
      obtain ⟨hnodupFirst, hnodupRest, hdisjoint⟩ := List.nodup_append.1 hnodup
      obtain ⟨between, hfirst⟩ := exists_checkScoping hscoped.1 hnodupFirst
        fun name hname => hnew name (List.mem_append_left _ hname)
      have hextends := (checkScoping_eq_ok hfirst).2
      simp only [checkScopingOfAll, hfirst]
      apply exists_checkScopingOfAll hscoped.2 hnodupRest
      intro name hname
      rw [hextends.mem_iff, not_or]
      exact ⟨fun hname' => hdisjoint _ hname' _ hname rfl, hnew _ (List.mem_append_right _ hname)⟩

end

/-- The checker accepts exactly the trees that are scoped and define distinct names. -/
theorem verify_eq_ok_iff {op : Operation} :
    op.verify = .ok () ↔ op.Scoped [] ∧ op.definedNames.Nodup := by
  constructor
  · intro h
    rw [verify] at h
    split at h
    next hok =>
      obtain ⟨hscoped, hextends⟩ := checkScoping_eq_ok hok
      exact ⟨hscoped, hextends.nodup⟩
    next => cases h
  · intro ⟨hscoped, hnodup⟩
    obtain ⟨result, hok⟩ := exists_checkScoping hscoped hnodup fun name _ =>
      List.not_mem_nil (a := name)
    simp only [verify, hok]

end Operation

end DialectIR
