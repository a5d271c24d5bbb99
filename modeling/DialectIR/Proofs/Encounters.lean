import DialectIR.Greedy
import DialectIR.Proofs.Returns
import DialectIR.Proofs.Scoping

/-! The places at which a run of greedy rewriting tries patterns, and the matches that it commits. A
run does not keep them, so they are listed beside it, by the same recursion. -/

namespace DialectIR

variable {σ α β : Type}

namespace Operation

mutual

/-- Trees are compared part by part. -/
def decEq : (op op' : Operation) → Decidable (op = op')
  | ⟨head, none⟩, ⟨head', none⟩ => decidable_of_iff (head = head') (by simp)
  | ⟨head, some ops⟩, ⟨head', some ops'⟩ =>
      have := decEqAll ops ops'
      decidable_of_iff (head = head' ∧ ops = ops') (by simp)
  | ⟨_, none⟩, ⟨_, some _⟩ => isFalse (by simp)
  | ⟨_, some _⟩, ⟨_, none⟩ => isFalse (by simp)

def decEqAll : (ops ops' : List Operation) → Decidable (ops = ops')
  | [], [] => isTrue rfl
  | op :: ops, op' :: ops' =>
      have := decEq op op'
      have := decEqAll ops ops'
      decidable_of_iff (op = op' ∧ ops = ops') (by simp)
  | [], _ :: _ => isFalse nofun
  | _ :: _, [] => isFalse nofun

end

instance : DecidableEq Operation := decEq

end Operation

/-- The names that a program asks for, in order. -/
def Rewrite.drawn (site : Site) : Rewrite σ α → Draft σ → List String
  | .done _, _ => []
  | .definingOp value next, draft =>
      (next (site.definition? draft.recording value.name)).drawn site draft
  | .freshName next, draft =>
      draft.names.fresh.1 :: (next draft.names.fresh.1).drawn site
        { draft with names := draft.names.fresh.2 }
  | .create op next, draft => next.drawn site { draft with recording := draft.recording.insert op }
  | .act action next, draft =>
      match draft.recording.act site.op action with
      | .ok recording => (next (.ok ())).drawn site { draft with recording }
      | .error refusal => (next (.error refusal)).drawn site draft
  | .context next, draft => (next site.context).drawn site draft
  | .readMemory next, draft => (next draft.memory).drawn site draft
  | .writeMemory memory next, draft => next.drawn site { draft with memory }

namespace Greedy

/-- What is listed behind a step, if the step ends with a result. -/
def afterwards (step : Step σ α) (next : α → State σ → List β) (before : State σ) : List β :=
  match runFrom step before with
  | (.ok a, after) => next a after
  | (.error _, _) => []

/-- What a pattern that is tried on an operation can see. -/
def State.site (state : State σ) (op : Operation) : Site :=
  ⟨state.context.withoutJournal, op, state.definitions⟩

/-- What a match starts from. -/
def State.draft (state : State σ) : Draft σ := { names := state.names, memory := state.memory }

/-- The names that the first pattern to match asks for. -/
def drawnBy (depth : Nat) (op : Operation) : List (Pattern σ) → State σ → List String
  | [], _ => []
  | pattern :: rest, state =>
      match runFrom (attempt depth op pattern) state with
      | (.ok (some _), _) => (pattern.rewrite op).run.drawn (state.site op) state.draft
      | (.ok none, after) => drawnBy depth op rest after
      | (.error _, _) => []

/-- An operation at which patterns are tried, with the names that it sees in the tree as it is
then. -/
structure Encounter (σ : Type) where
  visible : List String
  depth : Nat
  op : Operation
  before : State σ

/-- A match whose changes are made. -/
structure Match where
  visible : List String
  op : Operation
  drawn : List String
  recording : Recording

/-- What stays of a matched operation, behind what is inserted before it. -/
def stays? (op : Operation) (recording : Recording) : Option Operation :=
  match recording.action with
  | some (.replace _) | some .erase => none
  | some (.update new) => some new
  | none => some op

variable (patterns : FrozenPatterns σ) (config : Config)

/-- The match at an encounter, if there is one. -/
def Encounter.match? (encounter : Encounter σ) : Option Match :=
  match runFrom (applyPatterns patterns config encounter.depth encounter.op) encounter.before with
  | (.ok (some recording), _) =>
      some ⟨encounter.visible, encounter.op,
        drawnBy encounter.depth encounter.op (patterns.patternsFor encounter.op.name)
          encounter.before, recording⟩
  | _ => none

/-- The encounters of a visit; those within the operation are listed by `inside`. -/
def visitEncounters (within : Operation → Step σ Operation)
    (inside : List String → Operation → State σ → List (Encounter σ)) (depth : Nat)
    (visible : List String) (op : Operation) : State σ → List (Encounter σ) :=
  afterwards (substitute op) fun op state =>
    if config.topDown then
      ⟨visible, depth, op, state⟩ :: afterwards (applyPatterns patterns config depth op)
        (fun recording? after =>
        let recording := recording?.getD {}
        match stays? op recording with
        | some op =>
            inside (Operation.visibleAfter visible recording.inserted) op
              (recording.inserted.foldl State.register after)
        | none => []) state
    else inside visible op state ++ afterwards (within op)
      (fun op after => [⟨visible, depth, op, after⟩]) state

/-- The encounters in a list of operations. -/
def visitAllEncounters (within : Operation → Step σ Operation)
    (inside : List String → Operation → State σ → List (Encounter σ)) (depth : Nat)
    (visible : List String) :
    List Operation → State σ → List (Encounter σ)
  | [], _ => []
  | op :: ops, state =>
      visitEncounters patterns config within inside depth visible op state
        ++ afterwards (visit patterns config within depth op)
          (fun first => visitAllEncounters within inside depth
            (Operation.visibleAfter visible first) ops) state

/-- The encounters in what an operation holds. -/
def regionEncounters : Nat → Nat → List String → Operation → State σ → List (Encounter σ)
  | levels, depth, visible, op =>
      match op.region, levels with
      | none, _ | some _, 0 => fun _ => []
      | some ops, levels + 1 =>
          visitAllEncounters patterns config (visitRegion patterns config levels (depth + 1))
            (regionEncounters levels (depth + 1)) depth visible ops

/-- The encounters of a sweep. -/
def sweepEncounters (root : Operation) (state : State σ) : List (Encounter σ) :=
  regionEncounters patterns config (root.height + spareLevels) 0 [] root
    { state with definitions := .empty }

/-- The encounters of repeated sweeps. -/
def iterateEncounters : Nat → Nat → Operation → State σ → List (Encounter σ)
  | 0, _, _, _ => []
  | remaining + 1, iteration, root, state =>
      if state.limitReached config then []
      else
        let noted := state.note (.iteration iteration root.name.text)
        sweepEncounters patterns config root noted
          ++ afterwards (sweep patterns config root >>= removeDead config)
            (fun (root, removed) after =>
            if after.rewrites = state.rewrites && removed = 0 then []
            else iterateEncounters remaining (iteration + 1) root after) noted

end Greedy

open Greedy in
/-- The matches that a run commits, in order. -/
def committed (patterns : FrozenPatterns σ) (config : Greedy.Config) (root : Operation)
    (context : Context) (memory : σ) : List Match :=
  (iterateEncounters patterns config config.maxIterations 0 root
    { context, memory, names := Greedy.namesFor root }).filterMap (Encounter.match? patterns config)

namespace Greedy.Match

/-- The match replaces a result by a value of the same name. -/
def KeepsName (m : Match) (name : String) : Prop :=
  ∃ values, m.recording.action = some (.replace values)
    ∧ ∃ pair ∈ m.op.results.zip values, pair.1.name = name ∧ pair.2.name = name

/-- The match inserts flat operations that define distinct names, drawn in the match or kept from
the matched operation, and uses only values that are visible or inserted before. An update keeps the
region. -/
structure ValidIn (m : Match) (visible : List String) : Prop where
  flat : ∀ op ∈ m.recording.inserted, op.region = none
  named : ∀ op ∈ m.recording.inserted, ∀ name ∈ op.resultNames, name ∈ m.drawn ∨ m.KeepsName name
  nodup : (m.recording.inserted.flatMap (·.resultNames)).Nodup
  uses : Operation.ScopedAll visible m.recording.inserted
  values : ∀ values, m.recording.action = some (.replace values) →
    ∀ value ∈ values, value.name ∈ Operation.visibleAfter visible m.recording.inserted
  update : ∀ new, m.recording.action = some (.update new) → new.region = m.op.region
    ∧ ∀ operand ∈ new.operands, operand.name ∈ Operation.visibleAfter visible m.recording.inserted

/-- The match is valid in view of what the matched operation sees. -/
def LocallyValid (m : Match) : Prop := m.ValidIn m.visible

instance (m : Match) (name : String) : Decidable (m.KeepsName name) :=
  match haction : m.recording.action with
  | some (.replace values) =>
      decidable_of_iff (∃ pair ∈ m.op.results.zip values, pair.1.name = name ∧ pair.2.name = name)
        (by simp [KeepsName, haction])
  | some .erase | some (.update _) | none => isFalse (by simp [KeepsName, haction])

instance (m : Match) (visible : List String) : Decidable (m.ValidIn visible) :=
  have : Decidable (∀ values, m.recording.action = some (.replace values) →
      ∀ value ∈ values, value.name ∈ Operation.visibleAfter visible m.recording.inserted) :=
    match haction : m.recording.action with
    | some (.replace values) =>
        decidable_of_iff (∀ value ∈ values, value.name
          ∈ Operation.visibleAfter visible m.recording.inserted) (by simp)
    | some .erase | some (.update _) | none => isTrue (by simp)
  have : Decidable (∀ new, m.recording.action = some (.update new) → new.region = m.op.region
      ∧ ∀ operand ∈ new.operands, operand.name ∈ Operation.visibleAfter visible
        m.recording.inserted) :=
    match haction : m.recording.action with
    | some (.update new) =>
        decidable_of_iff (new.region = m.op.region
          ∧ ∀ operand ∈ new.operands, operand.name ∈ Operation.visibleAfter visible
            m.recording.inserted) (by simp)
    | some .erase | some (.replace _) | none => isTrue (by simp)
  decidable_of_iff ((∀ op ∈ m.recording.inserted, op.region = none)
      ∧ (∀ op ∈ m.recording.inserted, ∀ name ∈ op.resultNames, name ∈ m.drawn ∨ m.KeepsName name)
      ∧ (m.recording.inserted.flatMap (·.resultNames)).Nodup
      ∧ Operation.ScopedAll visible m.recording.inserted ∧ _ ∧ _)
    ⟨fun ⟨hflat, hnamed, hnodup, huses, hvalues, hupdate⟩ =>
      ⟨hflat, hnamed, hnodup, huses, hvalues, hupdate⟩,
      fun ⟨hflat, hnamed, hnodup, huses, hvalues, hupdate⟩ =>
        ⟨hflat, hnamed, hnodup, huses, hvalues, hupdate⟩⟩

instance (m : Match) : Decidable m.LocallyValid := inferInstanceAs (Decidable (m.ValidIn m.visible))

end Greedy.Match

end DialectIR
