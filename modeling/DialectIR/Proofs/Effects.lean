import DialectIR.Proofs.Arithmetic
import DialectIR.Proofs.Pruning
import DialectIR.Proofs.Substitution

/-! The effects of a tree: what is left of it when the operations without side effects are taken out
and operands are replaced by their values. Effects stay the same when operands are replaced by
values that mean the same, and when operations without side effects go. -/

namespace DialectIR

/-- An operation with side effects, given the values of its operands. -/
inductive Effect where
  | of (name : OpName) (operands : List Int) (results : List Value) (attributes : Attributes)
    (region : Option (List Effect))

namespace Operation

variable (quiet : OpName → Bool) (env : String → Int)

/-- The effect of an operation, apart from those of the operations within. -/
def effectOf (head : Head) (region : Option (List Effect)) : Effect :=
  .of head.name (head.operands.map fun operand => env operand.name) head.results
    head.attributes region

mutual

/-- The effects in a tree. What a quiet operation holds counts in its place. -/
def effects : Operation → List Effect
  | ⟨head, none⟩ => if quiet head.name then [] else [effectOf env head none]
  | ⟨head, some ops⟩ =>
      if quiet head.name then effectsOfAll ops else [effectOf env head (some (effectsOfAll ops))]

def effectsOfAll : List Operation → List Effect
  | [] => []
  | op :: ops => effects op ++ effectsOfAll ops

end

variable {quiet : OpName → Bool} {env env' : String → Int}

theorem effectsOfAll_cons (op : Operation) (ops : List Operation) :
    effectsOfAll quiet env (op :: ops) = effects quiet env op ++ effectsOfAll quiet env ops := rfl

theorem effectsOfAll_append (ops more : List Operation) :
    effectsOfAll quiet env (ops ++ more) = effectsOfAll quiet env ops
      ++ effectsOfAll quiet env more := by
  induction ops with
  | nil => rfl
  | cons op ops ih =>
      rw [List.cons_append, effectsOfAll_cons, ih, effectsOfAll_cons, List.append_assoc]

theorem effectsOfAll_singleton (op : Operation) :
    effectsOfAll quiet env [op] = effects quiet env op := List.append_nil _

theorem effectOf_congr {head : Head} {region : Option (List Effect)}
    (h : ∀ operand ∈ head.operands, env operand.name = env' operand.name) :
    effectOf env head region = effectOf env' head region := by
  unfold effectOf
  rw [List.map_congr_left h]

mutual

/-- Effects depend on the values of the names in use only. -/
theorem effects_congr : {op : Operation} → (∀ name ∈ op.usedNames, env name = env' name) →
    effects quiet env op = effects quiet env' op
  | ⟨head, none⟩, h => by
      rw [usedNames, heads, List.flatMap_singleton] at h
      unfold effects
      rw [effectOf_congr fun operand hoperand => h operand.name (List.mem_map_of_mem hoperand)]
  | ⟨head, some ops⟩, h => by
      rw [usedNames, heads, List.flatMap_cons] at h
      unfold effects
      rw [effectsOfAll_congr fun name hname => h name (List.mem_append_right _ hname),
        effectOf_congr fun operand hoperand => h operand.name
          (List.mem_append_left _ (List.mem_map_of_mem hoperand))]

theorem effectsOfAll_congr : {ops : List Operation} →
    (∀ name ∈ (headsOfAll ops).flatMap fun head => head.operands.map Value.name,
      env name = env' name) →
    effectsOfAll quiet env ops = effectsOfAll quiet env' ops
  | [], _ => rfl
  | op :: ops, h => by
      rw [headsOfAll, List.flatMap_append] at h
      rw [effectsOfAll_cons, effectsOfAll_cons, effects_congr fun name hname =>
        h name (List.mem_append_left _ hname),
        effectsOfAll_congr fun name hname => h name (List.mem_append_right _ hname)]

end

end Operation

namespace Operation

mutual

/-- Quiet operations hold no others. -/
def QuietLeaves (quiet : OpName → Bool) : Operation → Prop
  | ⟨_, none⟩ => True
  | ⟨head, some ops⟩ => quiet head.name = false ∧ QuietLeavesOfAll quiet ops

def QuietLeavesOfAll (quiet : OpName → Bool) : List Operation → Prop
  | [] => True
  | op :: ops => QuietLeaves quiet op ∧ QuietLeavesOfAll quiet ops

end

end Operation

/-! ### Meanings -/

namespace Arith

/-- The types and the values of all names, those of fresh ones included. -/
structure Meaning where
  ty : String → Ty
  value : String → Int
  ranged : ∀ name, (ty name).wrap (value name) = value name

namespace Meaning

variable (meaning : Meaning)

/-- The operation is right about the types and the values of its operands and results. -/
structure Holds (given : String → Int) (head : Head) : Prop where
  operands : ∀ operand ∈ head.operands, operand.ty = meaning.ty operand.name
  results : ∀ result ∈ head.results, result.ty = meaning.ty result.name
  wellFormed : WellFormed head
  satisfies : Satisfies given meaning.value head

/-- The second value can stand for the first. -/
structure StandsFor (old new : Value) : Prop where
  value : meaning.value new.name = meaning.value old.name
  ty : new.ty = old.ty
  known : new.ty = meaning.ty new.name

mutual

/-- Every operation in the tree is right, and quiet ones hold no others. -/
def Good (quiet : OpName → Bool) (given : String → Int) : Operation → Prop
  | ⟨head, none⟩ => meaning.Holds given head
  | ⟨head, some ops⟩ => meaning.Holds given head ∧ quiet head.name = false ∧ GoodAll quiet given ops

def GoodAll (quiet : OpName → Bool) (given : String → Int) : List Operation → Prop
  | [] => True
  | op :: ops => Good quiet given op ∧ GoodAll quiet given ops

end

variable {meaning} {quiet : OpName → Bool} {given : String → Int} {f : Value → Value}
  {dead : Head → Bool}

theorem Good.holds {op : Operation} (h : meaning.Good quiet given op) :
    meaning.Holds given op.toHead := by
  obtain ⟨head, _ | ops⟩ := op
  · exact h
  · exact h.1

mutual

theorem good_iff : {op : Operation} →
    (meaning.Good quiet given op ↔ (∀ head ∈ op.heads, meaning.Holds given head)
      ∧ op.QuietLeaves quiet)
  | ⟨head, none⟩ => by simp [Good, Operation.heads, Operation.QuietLeaves]
  | ⟨head, some ops⟩ => by
      rw [Good, goodAll_iff, Operation.heads, Operation.QuietLeaves,
        List.forall_mem_cons, and_assoc]
      exact and_congr_right fun _ => and_left_comm

theorem goodAll_iff : {ops : List Operation} → (meaning.GoodAll quiet given ops
    ↔ (∀ head ∈ Operation.headsOfAll ops, meaning.Holds given head)
      ∧ Operation.QuietLeavesOfAll quiet ops)
  | [] => by simp [GoodAll, Operation.headsOfAll, Operation.QuietLeavesOfAll]
  | op :: ops => by
      rw [GoodAll, good_iff, goodAll_iff, Operation.headsOfAll, Operation.QuietLeavesOfAll,
        List.forall_mem_append]
      exact and_and_and_comm

end

theorem GoodAll.append {ops more : List Operation} :
    meaning.GoodAll quiet given (ops ++ more) ↔ meaning.GoodAll quiet given ops
      ∧ meaning.GoodAll quiet given more := by
  induction ops with
  | nil => simp [GoodAll]
  | cons op ops ih => simp [GoodAll, ih, and_assoc]

theorem goodAll_singleton {op : Operation} :
    meaning.GoodAll quiet given [op] ↔ meaning.Good quiet given op := by
  simp [GoodAll]

/-- A quiet operation has no effects, and none within. -/
theorem Good.effects_eq_nil {op : Operation} (h : meaning.Good quiet given op)
    (hquiet : quiet op.name = true) (env : String → Int) : op.effects quiet env = [] := by
  obtain ⟨head, _ | ops⟩ := op
  · unfold Operation.effects
    rw [if_pos hquiet]
  · rw [h.2.1] at hquiet
    cases hquiet

theorem value?_mapOperands {head : Head} {env : String → Int}
    (h : ∀ operand ∈ head.operands, env (f operand).name = env operand.name) :
    value? env (head.mapOperands f) = value? env head := by
  unfold value? Head.mapOperands
  dsimp only
  split
  · rfl
  · rcases hoperands : head.operands with _ | ⟨lhs, _ | ⟨rhs, _ | _⟩⟩
    · rfl
    · rfl
    · rw [hoperands] at h
      dsimp only [List.map]
      rw [h lhs List.mem_cons_self, h rhs (List.mem_cons_of_mem _ List.mem_cons_self)]
    · rfl

theorem Holds.mapOperands {head : Head} (h : meaning.Holds given head)
    (hf : ∀ operand ∈ head.operands, meaning.StandsFor operand (f operand)) :
    meaning.Holds given (head.mapOperands f) := by
  refine ⟨fun operand hoperand => ?_, h.results, ⟨fun hname => ?_, fun hname => ?_⟩,
    fun result hresult => ?_⟩
  · obtain ⟨old, hold, rfl⟩ := List.mem_map.1 hoperand
    exact (hf old hold).known
  · obtain ⟨hnone, hconstant⟩ := h.wellFormed.constant hname
    refine ⟨?_, hconstant⟩
    rw [Head.mapOperands, hnone, List.map_nil]
  · obtain ⟨lhs, rhs, result, hoperands, hresults, hword, hlhs, hrhs⟩ := h.wellFormed.binary hname
    rw [hoperands] at hf
    refine ⟨f lhs, f rhs, result, ?_, hresults, hword, ?_, ?_⟩
    · rw [Head.mapOperands, hoperands]
      rfl
    · exact (hf lhs List.mem_cons_self).ty.trans hlhs
    · exact (hf rhs (List.mem_cons_of_mem _ List.mem_cons_self)).ty.trans hrhs
  · rw [value?_mapOperands fun operand hoperand => (hf operand hoperand).value]
    exact h.satisfies result hresult

theorem Holds.effectOf_mapOperands {head : Head} {region : Option (List Effect)}
    (hf : ∀ operand ∈ head.operands, meaning.StandsFor operand (f operand)) :
    Operation.effectOf meaning.value (head.mapOperands f) region
      = Operation.effectOf meaning.value head region := by
  unfold Operation.effectOf Head.mapOperands
  rw [List.map_map]
  congr 1
  apply List.map_congr_left
  intro operand hoperand
  exact (hf operand hoperand).value

mutual

/-- Replacing operands by others that stand for them changes neither the truth nor the effects. -/
theorem Good.mapOperands
    (hf : ∀ operand : Value, operand.ty = meaning.ty operand.name →
      meaning.StandsFor operand (f operand)) :
    {op : Operation} → meaning.Good quiet given op →
      meaning.Good quiet given (op.mapHeads (Head.mapOperands f))
      ∧ (op.mapHeads (Head.mapOperands f)).effects quiet meaning.value
        = op.effects quiet meaning.value
  | ⟨head, none⟩, h => by
      have hoperands : ∀ operand ∈ head.operands, meaning.StandsFor operand (f operand) :=
        fun operand hoperand => hf operand (Holds.operands h operand hoperand)
      refine ⟨Holds.mapOperands h hoperands, ?_⟩
      unfold Operation.mapHeads Operation.effects
      rw [Holds.effectOf_mapOperands hoperands]
      rfl
  | ⟨head, some ops⟩, h => by
      have hoperands : ∀ operand ∈ head.operands, meaning.StandsFor operand (f operand) :=
        fun operand hoperand => hf operand (h.1.operands operand hoperand)
      obtain ⟨hgood, heffects⟩ := GoodAll.mapOperands hf h.2.2
      refine ⟨⟨h.1.mapOperands hoperands, h.2.1, hgood⟩, ?_⟩
      unfold Operation.mapHeads Operation.effects
      rw [Holds.effectOf_mapOperands hoperands, heffects]
      rfl

theorem GoodAll.mapOperands
    (hf : ∀ operand : Value, operand.ty = meaning.ty operand.name →
      meaning.StandsFor operand (f operand)) :
    {ops : List Operation} → meaning.GoodAll quiet given ops →
      meaning.GoodAll quiet given (Operation.mapHeadsOfAll (Head.mapOperands f) ops)
      ∧ Operation.effectsOfAll quiet meaning.value
        (Operation.mapHeadsOfAll (Head.mapOperands f) ops)
        = Operation.effectsOfAll quiet meaning.value ops
  | [], _ => ⟨trivial, rfl⟩
  | op :: ops, h => by
      obtain ⟨hfirst, heffects⟩ := Good.mapOperands hf h.1
      obtain ⟨hrest, hmore⟩ := GoodAll.mapOperands hf h.2
      refine ⟨⟨hfirst, hrest⟩, ?_⟩
      rw [Operation.mapHeadsOfAll, Operation.effectsOfAll_cons, heffects, hmore,
        Operation.effectsOfAll_cons]

end

mutual

/-- Taking quiet operations away changes neither the truth nor the effects. -/
theorem Good.prune (hdead : ∀ head, dead head = true → quiet head.name = true) :
    {op : Operation} → meaning.Good quiet given op → meaning.Good quiet given (op.prune dead)
      ∧ (op.prune dead).effects quiet meaning.value = op.effects quiet meaning.value
  | ⟨_, none⟩, h => ⟨h, rfl⟩
  | ⟨head, some ops⟩, h => by
      obtain ⟨hgood, heffects⟩ := GoodAll.prune hdead h.2.2
      refine ⟨⟨h.1, h.2.1, hgood⟩, ?_⟩
      unfold Operation.prune Operation.effects
      rw [heffects]

theorem GoodAll.prune (hdead : ∀ head, dead head = true → quiet head.name = true) :
    {ops : List Operation} → meaning.GoodAll quiet given ops →
      meaning.GoodAll quiet given (Operation.pruneAll dead ops)
      ∧ Operation.effectsOfAll quiet meaning.value (Operation.pruneAll dead ops)
        = Operation.effectsOfAll quiet meaning.value ops
  | [], _ => ⟨trivial, rfl⟩
  | op :: ops, h => by
      obtain ⟨hrest, hmore⟩ := GoodAll.prune hdead h.2
      rw [Operation.pruneAll, Operation.effectsOfAll_cons]
      split
      next hgone =>
        rw [h.1.effects_eq_nil (hdead op.toHead hgone)]
        exact ⟨hrest, hmore⟩
      next =>
        obtain ⟨hfirst, heffects⟩ := Good.prune hdead h.1
        refine ⟨⟨hfirst, hrest⟩, ?_⟩
        rw [Operation.effectsOfAll_cons, heffects, hmore]

end

end Meaning

end Arith

end DialectIR
