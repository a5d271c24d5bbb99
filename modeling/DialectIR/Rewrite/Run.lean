import DialectIR.NameSupply
import DialectIR.Rewrite

/-! Running the program of a pattern on a matched operation. A request that is refused leaves
everything that was recorded as it was. -/

namespace DialectIR

/-- What a match has recorded. -/
structure Recording where
  /-- The operations to be inserted before the matched one, in order. -/
  inserted : List Operation := []
  /-- What becomes of the matched operation, if anything does. -/
  action : Option Action := none

/-- Where a pattern is tried. -/
structure Site where
  context : Context
  /-- The operation that is matched. -/
  op : Operation
  /-- The operations met before, by the names of their results. -/
  definitions : Dict Operation

/-- The state of a match. -/
structure Draft (σ : Type) where
  names : NameSupply
  memory : σ
  recording : Recording := {}

/-- Whether the operation has a result of the given name. -/
def Operation.defines (op : Operation) (name : String) : Bool := op.results.any (·.name = name)

namespace Recording

/-- Whether nothing is recorded. -/
def isEmpty (recording : Recording) : Bool := recording.inserted.isEmpty && recording.action.isNone

def insert (recording : Recording) (op : Operation) : Recording :=
  { recording with inserted := recording.inserted ++ [op] }

/-- The latest insertion that defines a name. -/
def definition? (recording : Recording) (name : String) : Option Operation :=
  recording.inserted.reverse.find? (·.defines name)

end Recording

/-- Why the action does not suit the operation. -/
def Action.mismatch? (op : Operation) : Action → Option Refusal
  | .replace values =>
      if values.length = op.results.length then none
      else some (.resultCount op.name op.results.length values.length)
  | .erase => none
  | .update new => if new.results = op.results then none else some (.changedResults op.name)

/-- Records an action on an operation: the first that suits it. -/
def Recording.act (recording : Recording) (op : Operation) (action : Action) :
    Except Refusal Recording :=
  match action.mismatch? op with
  | some refusal => .error refusal
  | none =>
      if recording.action.isSome then .error (.alreadyRewritten op.name)
      else .ok { recording with action := some action }

/-- What defines a name at the site: the latest insertion, or else an operation met before. -/
def Site.definition? (site : Site) (recording : Recording) (name : String) : Option Operation :=
  (recording.definition? name).or (site.definitions.get? name)

/-- Runs a program at a site. -/
def Rewrite.run {σ α : Type} (site : Site) : Rewrite σ α → Draft σ → α × Draft σ
  | .done result, draft => (result, draft)
  | .definingOp value next, draft =>
      (next (site.definition? draft.recording value.name)).run site draft
  | .freshName next, draft =>
      (next draft.names.fresh.1).run site { draft with names := draft.names.fresh.2 }
  | .create op next, draft => next.run site { draft with recording := draft.recording.insert op }
  | .act action next, draft =>
      match draft.recording.act site.op action with
      | .ok recording => (next (.ok ())).run site { draft with recording }
      | .error refusal => (next (.error refusal)).run site draft
  | .context next, draft => (next site.context).run site draft
  | .readMemory next, draft => (next draft.memory).run site draft
  | .writeMemory memory next, draft => next.run site { draft with memory }

end DialectIR
