import DialectIR.Greedy
import DialectIR.Proofs.Scoping

/-! Operands replaced one by one: what that does to the names of a tree and to its scoping, and what
the values recorded in a sweep stand for. -/

namespace DialectIR

theorem Head.mapOperands_of_forall {f : Value → Value} {head : Head}
    (h : ∀ operand ∈ head.operands, f operand = operand) :
    head.mapOperands f = head := by
  rw [Head.mapOperands, List.map_congr_left h, List.map_id']

namespace Operation

theorem toHead_mapHeads (f : Head → Head) (op : Operation) :
    (op.mapHeads f).toHead = f op.toHead := by
  obtain ⟨head, _ | ops⟩ := op <;> rfl

mutual

theorem heads_mapHeads (f : Head → Head) : (op : Operation) → (op.mapHeads f).heads = op.heads.map f
  | ⟨head, none⟩ => rfl
  | ⟨head, some ops⟩ =>
      by rw [mapHeads, heads, heads, List.map_cons, headsOfAll_mapHeadsOfAll f ops]

theorem headsOfAll_mapHeadsOfAll (f : Head → Head) :
    (ops : List Operation) → headsOfAll (mapHeadsOfAll f ops) = (headsOfAll ops).map f
  | [] => rfl
  | op :: ops => by
      rw [mapHeadsOfAll, headsOfAll, headsOfAll, List.map_append, heads_mapHeads f op,
        headsOfAll_mapHeadsOfAll f ops]

end

mutual

theorem height_mapHeads (f : Head → Head) : (op : Operation) → (op.mapHeads f).height = op.height
  | ⟨head, none⟩ => rfl
  | ⟨head, some ops⟩ => by rw [mapHeads, height, height, heightOfAll_mapHeadsOfAll f ops]

theorem heightOfAll_mapHeadsOfAll (f : Head → Head) :
    (ops : List Operation) → heightOfAll (mapHeadsOfAll f ops) = heightOfAll ops
  | [] => rfl
  | op :: ops => by
      rw [mapHeadsOfAll, heightOfAll, heightOfAll, height_mapHeads f op,
        heightOfAll_mapHeadsOfAll f ops]

end

mutual

/-- A tree whose heads stay as they are stays as it is. -/
theorem mapHeads_of_forall {f : Head → Head} :
    {op : Operation} → (∀ head ∈ op.heads, f head = head) → op.mapHeads f = op
  | ⟨head, none⟩, h => by rw [mapHeads, h head List.mem_cons_self]
  | ⟨head, some ops⟩, h => by
      rw [heads, List.forall_mem_cons] at h
      rw [mapHeads, h.1, mapHeadsOfAll_of_forall h.2]

theorem mapHeadsOfAll_of_forall {f : Head → Head} :
    {ops : List Operation} → (∀ head ∈ headsOfAll ops, f head = head) → mapHeadsOfAll f ops = ops
  | [], _ => rfl
  | op :: ops, h => by
      rw [headsOfAll, List.forall_mem_append] at h
      rw [mapHeadsOfAll, mapHeads_of_forall h.1, mapHeadsOfAll_of_forall h.2]

end

theorem nested_mapHeads (f : Head → Head) (op : Operation) :
    (op.mapHeads f).nested = mapHeadsOfAll f op.nested := by
  obtain ⟨head, _ | ops⟩ := op <;> rfl

variable {f : Value → Value}

theorem resultNames_mapOperands (f : Value → Value) (op : Operation) :
    (op.mapOperands f).resultNames = op.resultNames := by
  rw [mapOperands, toHead_mapHeads]
  rfl

theorem definedNames_mapOperands (f : Value → Value) (op : Operation) :
    (op.mapOperands f).definedNames = op.definedNames := by
  rw [definedNames, mapOperands, heads_mapHeads, List.flatMap_map]
  rfl

mutual

/-- The operands of a tree are visible, or are defined within it. -/
theorem Scoped.mem_of_operand {visible : List String} : {op : Operation} → op.Scoped visible →
    ∀ operand ∈ op.heads.flatMap (·.operands), operand.name ∈ visible
      ∨ operand.name ∈ definedNamesOfAll op.nested
  | ⟨head, none⟩, h, operand, hoperand => by
      rw [heads, List.flatMap_singleton] at hoperand
      exact .inl (h operand hoperand)
  | ⟨head, some ops⟩, h, operand, hoperand => by
      rw [heads, List.flatMap_cons, List.mem_append] at hoperand
      rcases hoperand with hoperand | hoperand
      · exact .inl (h.1 operand hoperand)
      · exact ScopedAll.mem_of_operand h.2 operand hoperand

theorem ScopedAll.mem_of_operand {visible : List String} :
    {ops : List Operation} → ScopedAll visible ops →
    ∀ operand ∈ (headsOfAll ops).flatMap (·.operands),
      operand.name ∈ visible ∨ operand.name ∈ definedNamesOfAll ops
  | [], _, operand, hoperand => by cases hoperand
  | op :: ops, h, operand, hoperand => by
      rw [headsOfAll, List.flatMap_append, List.mem_append] at hoperand
      rw [definedNamesOfAll_cons, List.mem_append]
      rcases hoperand with hoperand | hoperand
      · rcases Scoped.mem_of_operand h.1 operand hoperand with hvisible | hnested
        · exact .inl hvisible
        · rw [definedNames_eq]
          exact .inr (.inl (List.mem_append_right _ hnested))
      · rcases ScopedAll.mem_of_operand h.2 operand hoperand with hvisible | hlater
        · rcases List.mem_append.1 hvisible with hown | hvisible
          · exact .inr (.inl (resultNames_subset_definedNames op hown))
          · exact .inl hvisible
        · exact .inr (.inr hlater)

end

mutual

/-- Scoping is kept if operands are replaced by values that can be seen, and nothing is replaced
that the tree defines by itself. -/
theorem Scoped.mapOperands {visible visible' : List String}
    (hvisible : ∀ operand : Value, operand.name ∈ visible → (f operand).name ∈ visible') :
    {op : Operation} → op.Scoped visible →
      (∀ operand : Value, operand.name ∈ definedNamesOfAll op.nested →
        (f operand).name = operand.name) →
      (op.mapOperands f).Scoped visible'
  | ⟨head, none⟩, h, _ => by
      intro operand hoperand
      obtain ⟨old, hold, rfl⟩ := List.mem_map.1 hoperand
      exact hvisible old (h old hold)
  | ⟨head, some ops⟩, h, hown => by
      refine ⟨fun operand hoperand => ?_, ScopedAll.mapOperands hvisible h.2 hown⟩
      obtain ⟨old, hold, rfl⟩ := List.mem_map.1 hoperand
      exact hvisible old (h.1 old hold)

theorem ScopedAll.mapOperands {visible visible' : List String}
    (hvisible : ∀ operand : Value, operand.name ∈ visible → (f operand).name ∈ visible') :
    {ops : List Operation} → ScopedAll visible ops →
      (∀ operand : Value, operand.name ∈ definedNamesOfAll ops → (f operand).name = operand.name) →
      ScopedAll visible' (mapHeadsOfAll (Head.mapOperands f) ops)
  | [], _, _ => trivial
  | op :: ops, h, hown => by
      have hopNames : ∀ operand : Value, operand.name ∈ op.definedNames →
        (f operand).name = operand.name := by
        intro operand hoperand
        apply hown operand
        rw [definedNamesOfAll_cons]
        exact List.mem_append_left _ hoperand
      have hnames : (op.mapHeads (Head.mapOperands f)).resultNames = op.resultNames :=
        resultNames_mapOperands f op
      refine ⟨Scoped.mapOperands hvisible h.1 fun operand hoperand => hopNames operand ?_, ?_⟩
      · rw [definedNames_eq]
        exact List.mem_append_right _ hoperand
      · rw [hnames]
        refine ScopedAll.mapOperands (fun operand hoperand => ?_) h.2 fun operand hoperand =>
          hown operand ?_
        · rcases List.mem_append.1 hoperand with hown' | hold
          · rw [hopNames operand (resultNames_subset_definedNames op hown')]
            exact List.mem_append_left _ hown'
          · exact List.mem_append_right _ (hvisible operand hold)
        · rw [definedNamesOfAll_cons]
          exact List.mem_append_right _ hoperand

end

end Operation

namespace Replacements

/-- What a value of the given name stands for. -/
def standIn (replaced : Replacements) (name : String) : String :=
  ((replaced.get? name).map Value.name).getD name

theorem standIn_of_none {replaced : Replacements} {name : String} (h : replaced.get? name = none) :
    replaced.standIn name = name := by
  rw [standIn, h]
  rfl

theorem standIn_of_some {replaced : Replacements} {name : String} {value : Value}
    (h : replaced.get? name = some value) :
    replaced.standIn name = value.name := by
  rw [standIn, h]
  rfl

theorem resolve?_of_none {replaced : Replacements} {value : Value}
    (h : replaced.get? value.name = none) :
    replaced.resolve? value = some value := by
  unfold resolve? follow?
  rw [h]

theorem size_pos {replaced : Replacements} {name : String} {value : Value}
    (h : replaced.get? name = some value) :
    0 < replaced.size := by
  apply List.length_pos_iff.2
  intro hnil
  rw [Dict.get?, hnil] at h
  cases h

/-- A replacement that is not replaced in turn is followed by one step. -/
theorem resolve?_of_some {replaced : Replacements} {value next : Value}
    (h : replaced.get? value.name = some next) (hfinal : replaced.get? next.name = none) :
    replaced.resolve? value = some next := by
  obtain ⟨steps, hsteps⟩ := Nat.exists_eq_add_one.2 (size_pos h)
  unfold resolve?
  rw [hsteps]
  unfold follow?
  rw [h]
  unfold follow?
  dsimp only
  rw [hfinal]

/-- Where no operand is replaced, nothing changes. -/
theorem heads_nested_applyTo {replaced : Replacements} {op : Operation}
    (h : ∀ head ∈ Operation.headsOfAll op.nested,
    ∀ operand ∈ head.operands, replaced.get? operand.name = none) :
    Operation.headsOfAll (replaced.applyTo op).nested = Operation.headsOfAll op.nested := by
  have hheads : (replaced.applyTo op).heads = op.heads.map _ := Operation.heads_mapHeads _ op
  rw [Operation.heads_eq, Operation.heads_eq op, List.map_cons] at hheads
  rw [(List.cons.inj hheads).2]
  refine (List.map_congr_left fun head hhead => ?_).trans (List.map_id _)
  refine Head.mapOperands_of_forall fun operand hoperand => ?_
  rw [resolve?_of_none (h head hhead operand hoperand)]
  rfl

end Replacements

end DialectIR
