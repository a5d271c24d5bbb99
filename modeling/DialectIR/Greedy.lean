import DialectIR.DeadOps
import DialectIR.Greedy.Replacement
import DialectIR.Pattern
import DialectIR.Rewrite.Run

/-! Greedy rewriting. A sweep visits every operation below a root once, in order, and applies to
each the first pattern that has something to do there. Operations that a pattern inserts wait for
the next sweep. Sweeps are repeated until one changes nothing or a limit is reached. -/

namespace DialectIR

namespace Greedy

/-- How far rewriting goes, and in which order. -/
structure Config where
  /-- The number of sweeps at most. -/
  maxIterations : Nat := 10
  /-- The number of matches at most, if it is limited. -/
  maxRewrites : Option Nat := none
  /-- Whether an operation is visited before the operations nested in it. -/
  topDown : Bool := false
  /-- Whether dead operations are removed after each sweep. -/
  removeDeadOps : Bool := true
deriving DecidableEq

/-- How a run ended. -/
structure Outcome where
  changed : Bool
  /-- Whether the last sweep found nothing to change. -/
  converged : Bool
  /-- The number of matches. -/
  rewrites : Nat
deriving DecidableEq

/-- The state of a run. -/
structure State (σ : Type) where
  context : Context
  memory : σ
  names : NameSupply := {}
  rewrites : Nat := 0
  /-- The operations met in this sweep, by the names of their results. -/
  definitions : Dict Operation := .empty
  /-- The results replaced in this sweep. -/
  replaced : Replacements := .empty
  /-- The results erased in this sweep. -/
  erased : List Value := []

/-- Steps of a run. An error leaves the state that it was raised in. -/
abbrev Step (σ : Type) := ExceptT Error (StateM (State σ))

variable {σ : Type}

namespace State

def note (state : State σ) (event : Event) : State σ :=
  { state with context := state.context.note event }

/-- Whether no more matches are allowed. -/
def limitReached (config : Config) (state : State σ) : Bool :=
  config.maxRewrites.any (· ≤ state.rewrites)

/-- Makes an operation known as the definition of its results. -/
def register (state : State σ) (op : Operation) : State σ :=
  { state with
    definitions := op.results.foldl (fun known result =>
      known.insert result.name op) state.definitions }

/-- Forgets the definitions of some results. -/
def forget (state : State σ) (results : List Value) : State σ :=
  { state with definitions := results.foldl (fun known result =>
    known.erase result.name) state.definitions }

/-- Replaces results by values, one by one. A result that keeps its name stays as it is. -/
def replace (state : State σ) (results values : List Value) : State σ :=
  let pairs := (results.zip values).filter fun pair => pair.1.name ≠ pair.2.name
  { state.forget (pairs.map Prod.fst) with
    replaced := pairs.foldl (fun replaced pair =>
      replaced.insert pair.1.name pair.2) state.replaced }

/-- Erases the results of an operation; this is checked when the sweep is over. -/
def erase (state : State σ) (results : List Value) : State σ :=
  { state.forget results with erased := state.erased ++ results }

end State

/-- Tries a pattern on an operation. -/
def attempt (depth : Nat) (op : Operation) (pattern : Pattern σ) : Step σ (Option Recording) := do
  modify (·.note (.matching depth op.name.text pattern.name))
  let state ← get
  let site : Site := ⟨state.context.withoutJournal, op, state.definitions⟩
  let (answer, draft) := (pattern.rewrite op).run.run site
    { names := state.names, memory := state.memory }
  set { state with names := draft.names, memory := draft.memory }
  match answer with
  | .error cause => throw (.inPattern pattern.name op.name cause)
  | .ok false =>
      modify fun after => { after with names := after.names.rollback state.names.next }
      return none
  | .ok true =>
      if draft.recording.isEmpty then throw (.unchanged pattern.name op.name)
      modify (·.note (.success depth))
      modify fun after => { after with rewrites := after.rewrites + 1 }
      return some draft.recording

/-- Tries patterns on an operation up to the first that matches. -/
def attemptFirst (depth : Nat) (op : Operation) : List (Pattern σ) → Step σ (Option Recording)
  | [] => return none
  | pattern :: rest => do
      match ← attempt depth op pattern with
      | some recording => return some recording
      | none => attemptFirst depth op rest

variable (patterns : FrozenPatterns σ) (config : Config)

/-- Applies the first pattern that matches an operation, if another match is allowed. -/
def applyPatterns (depth : Nat) (op : Operation) : Step σ (Option Recording) := do
  if (← get).limitReached config then return none
  else attemptFirst depth op (patterns.patternsFor op.name)

/-- Gives the operands of an operation and of all that it holds what they stand for. -/
def substitute (op : Operation) : Step σ Operation := do
  let replaced := (← get).replaced
  if replaced.isEmpty then return op
  match replaced.endless? op with
  | some value => throw (.endlessReplacement value)
  | none => return replaced.applyTo op

/-- Visits an operation: the answer is what stands in its place. What it holds is visited by
`within`. -/
def visit (within : Operation → Step σ Operation) (depth : Nat) (op : Operation) :
    Step σ (List Operation) := do
  let op ← substitute op
  let op ← if config.topDown then pure op else within op
  match ← applyPatterns patterns config depth op with
  | none => settle [] op
  | some recording =>
      modify fun state => recording.inserted.foldl State.register state
      match recording.action with
      | some (.replace values) =>
          modify (·.replace op.results values)
          return recording.inserted
      | some .erase =>
          modify (·.erase op.results)
          return recording.inserted
      | some (.update new) => settle recording.inserted new
      | none => settle recording.inserted op
where
  /-- Ends the visit of an operation that stays, behind what was inserted before it. -/
  settle (inserted : List Operation) (op : Operation) : Step σ (List Operation) := do
    let op ← if config.topDown then within op else pure op
    modify (·.register op)
    return inserted ++ [op]

/-- Visits the operations of a list in order. -/
def visitAll (within : Operation → Step σ Operation) (depth : Nat) :
    List Operation → Step σ (List Operation)
  | [] => return []
  | op :: ops => do
      let first ← visit patterns config within depth op
      return first ++ (← visitAll within depth ops)

/-- Visits all that an operation holds, through a number of levels at most. -/
def visitRegion : Nat → Nat → Operation → Step σ Operation
  | levels, depth, op =>
      match op.region, levels with
      | none, _ => return op
      | some _, 0 => throw .nestedTooDeeply
      | some ops, levels + 1 => do
          let ops ← visitAll patterns config (visitRegion levels (depth + 1)) depth ops
          return { op with region := some ops }

/-- How many levels the rewriting of a tree may add to it during a sweep: more than any memory
holds. -/
def spareLevels : Nat := 1000000000

/-- Ends a sweep over a tree: what is left to be replaced is replaced, and what was erased must not
be in use. -/
def finish (root : Operation) : Step σ Operation := do
  let root ← substitute root
  modify fun state => { state with replaced := .empty }
  let erased := (← get).erased
  modify fun state => { state with erased := [] }
  match erased.find? fun result => 0 < root.usesOf result with
  | some result => throw (.erasedInUse result)
  | none => return root

/-- A sweep over all that is nested in an operation. -/
def sweep (root : Operation) : Step σ Operation := do
  modify fun state => { state with definitions := .empty }
  finish (← visitRegion patterns config (root.height + spareLevels) 0 root)

/-- Removes dead operations if the configuration asks for it; the answer holds their number. -/
def removeDead (root : Operation) : Step σ (Operation × Nat) := do
  if config.removeDeadOps then
    let pruned := root.removeDeadOps (← get).context
    modify fun state => { state with context := pruned.context }
    return (pruned.op, pruned.removed)
  else return (root, 0)

/-- A tree, and what is known about the sweeps over it. -/
structure Progress where
  root : Operation
  changed : Bool := false
  converged : Bool := false

/-- Repeats sweeps for a number of times at most, counting them from `iteration` on. -/
def iterate : Nat → Nat → Progress → Step σ Progress
  | 0, _, progress => return progress
  | remaining + 1, iteration, progress => do
      if (← get).limitReached config then return progress
      modify (·.note (.iteration iteration progress.root.name.text))
      let before := (← get).rewrites
      let root ← sweep patterns config progress.root
      let (root, removed) ← removeDead config root
      if (← get).rewrites = before && removed = 0 then
        return { progress with root, converged := true }
      else iterate remaining (iteration + 1) { root, changed := true }

/-- The supply of names for a tree: no result in it is named twice. -/
def namesFor (root : Operation) : NameSupply :=
  (root.heads.flatMap (·.results)).foldl (fun supply result => supply.reserve result.name) {}

/-- Rewrites all that is nested in an operation. -/
def rewrite (root : Operation) : Step σ (Outcome × Operation) := do
  let progress ← iterate patterns config config.maxIterations 0 { root }
  let rewrites := (← get).rewrites
  unless progress.converged do
    modify (·.note (.notConverged root.name.text rewrites config.maxIterations))
  return (⟨progress.changed, progress.converged, rewrites⟩,
    if progress.changed then progress.root else root)

end Greedy

/-- What a run of greedy rewriting leaves. -/
structure Rewritten (σ : Type) where
  /-- How the run ended. -/
  result : Except Error Greedy.Outcome
  /-- The tree that the run made, or the tree as it was if the run failed. -/
  op : Operation
  context : Context
  memory : σ

/-- Applies patterns to all that is nested in an operation until none of them matches. -/
def applyGreedily {σ : Type} (patterns : FrozenPatterns σ) (config : Greedy.Config)
    (root : Operation) (context : Context) (memory : σ) : Rewritten σ :=
  match (Greedy.rewrite patterns config root).run.run
    { context, memory, names := Greedy.namesFor root } with
  | (.ok (outcome, op), state) => ⟨.ok outcome, op, state.context, state.memory⟩
  | (.error error, state) => ⟨.error error, root, state.context, state.memory⟩

end DialectIR
