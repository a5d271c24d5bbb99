import DialectIR.Context

/-! Dead operations: those without side effects that have results, none of which is used. Removing
them can make others dead, so it goes on until no dead operation is left. -/

namespace DialectIR

namespace Head

/-- Whether the operation has results, none of them among the used names. -/
def isUnused (used : List String) (head : Head) : Bool :=
  !head.results.isEmpty && head.results.all fun result => result.name ∉ used

end Head

namespace Operation

/-- The names that are used as operands anywhere in the tree. -/
def usedNames (op : Operation) : List String :=
  op.heads.flatMap fun head => head.operands.map Value.name

mutual

/-- The tree without the nested operations that satisfy a predicate, and without what they hold. -/
def prune (dead : Head → Bool) : Operation → Operation
  | ⟨head, none⟩ => ⟨head, none⟩
  | ⟨head, some ops⟩ => ⟨head, some (pruneAll dead ops)⟩

/-- The operations of a list that do not satisfy the predicate, pruned. -/
def pruneAll (dead : Head → Bool) : List Operation → List Operation
  | [] => []
  | op :: ops => if dead op.toHead then pruneAll dead ops else prune dead op :: pruneAll dead ops

end

mutual

/-- The nested operations that pruning judges, in the order in which it does: those of a region
before those that they hold. -/
def judged (dead : Head → Bool) : Operation → List Head
  | ⟨_, none⟩ => []
  | ⟨_, some ops⟩ => ops.map Operation.toHead ++ judgedIn dead ops

/-- The operations that are judged within those of a list. -/
def judgedIn (dead : Head → Bool) : List Operation → List Head
  | [] => []
  | op :: ops => (if dead op.toHead then [] else judged dead op) ++ judgedIn dead ops

end

end Operation

namespace Context

/-- Whether an operation is dead, given the names in use. -/
def isDead (context : Context) (used : List String) (head : Head) : Bool :=
  head.isUnused used && context.isPure head.name

/-- What judging an operation does to the context: to know whether an unused operation has side
effects, its dialect is loaded. -/
def judge (context : Context) (used : List String) (head : Head) : Context :=
  if head.isUnused used then
    let context := context.load head.name.dialect
    if context.isPure head.name then context.note (.removing head.name.text) else context
  else context

end Context

/-- What is left of a tree. -/
structure Pruned where
  op : Operation
  /-- The number of dead operations that were removed, without those that they held. -/
  removed : Nat
  context : Context

namespace Operation

/-- Removes dead operations, in a bounded number of rounds. -/
def removeDeadRounds : Nat → Context → Operation → Pruned
  | 0, context, op => ⟨op, 0, context⟩
  | rounds + 1, context, op =>
      let used := op.usedNames
      let dead := context.isDead used
      let judged := op.judged dead
      let judgedContext := judged.foldl (·.judge used ·) context
      let removed := judged.countP dead
      if removed = 0 then ⟨op, 0, judgedContext⟩
      else
        let rest := removeDeadRounds rounds judgedContext (op.prune dead)
        { rest with removed := removed + rest.removed }

/-- Removes the dead operations nested in an operation. Every round but the last removes one at
least, so that there are no more rounds than operations. -/
def removeDeadOps (context : Context) (op : Operation) : Pruned :=
  op.removeDeadRounds op.heads.length context

end Operation

end DialectIR
