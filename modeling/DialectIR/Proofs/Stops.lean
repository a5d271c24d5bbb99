import DialectIR.Proofs.Matching
import DialectIR.Proofs.Steps

/-! Where a run is in the tree. A sweep stops at the operations that patterns are tried on, and at
the ends of the regions that it leaves. What stands around a stop is listed beside the run, by the
same recursion: the operations before it, which the sweep is through with, and those behind it,
which it has not come to. -/

namespace DialectIR

open Operation

variable {σ α β γ : Type}

/-- A region around a place: the head of the operation that holds it, the operations before the
place and those behind it. -/
structure Level where
  head : Head
  earlier : List Operation
  later : List Operation

/-- A place in a tree: the regions around it, the innermost first. -/
abbrev Place := List Level

/-- The place behind some operations that are put there. -/
def Level.behind (level : Level) (ops : List Operation) : Level :=
  { level with earlier := level.earlier ++ ops }

namespace Place

/-- The tree with some operations at a place. -/
def fill : Place → List Operation → List Operation
  | [], ops => ops
  | level :: place, ops => fill place [⟨level.head, some (level.earlier ++ ops ++ level.later)⟩]

/-- The operations in view from a place: those before it, and those before the operations that hold
it. -/
def inView (place : Place) : List Operation := place.flatMap (·.earlier)

/-- The names that are visible at a place. -/
def visible : Place → List String
  | [] => []
  | level :: place => visibleAfter (visible place) level.earlier

/-- The names of all results around a place. -/
def names (place : Place) : List String :=
  place.flatMap fun level => level.head.resultNames
    ++ (definedNamesOfAll level.earlier ++ definedNamesOfAll level.later)

@[simp] theorem inView_cons (level : Level) (place : Place) :
    inView (level :: place) = level.earlier ++ inView place := rfl

/-- What is visible are the results of the operations in view. -/
theorem mem_visible {place : Place} {name : String} :
    name ∈ place.visible ↔ ∃ op ∈ place.inView, name ∈ op.resultNames := by
  induction place with
  | nil => exact ⟨nofun, nofun⟩
  | cons level place ih =>
      rw [visible, mem_visibleAfter, ih, List.mem_flatMap, inView_cons]
      simp only [List.mem_append, or_and_right, exists_or]

theorem visible_behind (level : Level) (ops : List Operation) (place : Place) :
    visible (level.behind ops :: place) = visibleAfter (visible (level :: place)) ops := by
  rw [visible, visible, Level.behind, visibleAfter_append]

theorem mem_definedNamesOfAll_fill {place : Place} {ops : List Operation} {name : String} :
    name ∈ definedNamesOfAll (place.fill ops) ↔ name ∈ place.names
      ∨ name ∈ definedNamesOfAll ops := by
  induction place generalizing ops with
  | nil => exact ⟨.inr, fun h => h.resolve_left nofun⟩
  | cons level place ih =>
      rw [fill, ih, definedNamesOfAll_singleton]
      simp only [nested, Option.getD_some, names, definedNamesOfAll_append, List.flatMap_cons,
        List.mem_append]
      grind

end Place

namespace Greedy

/-- A point of a sweep at which patterns are tried on an operation. -/
structure Point (σ : Type) where
  place : Place
  depth : Nat
  op : Operation
  before : State σ

/-- The tree as it is at the point. -/
def Point.tree (p : Point σ) : List Operation := p.place.fill [p.op]

def Point.encounter (p : Point σ) : Encounter σ := ⟨p.place.visible, p.depth, p.op, p.before⟩

/-- A stop of a sweep. -/
inductive Stop (σ : Type) where
  | tries (point : Point σ)
  /-- The sweep is through with a region, and these are the operations in it. -/
  | leaves (region : List Operation)

namespace Stop

def point? : Stop σ → Option (Point σ)
  | .tries p => some p
  | .leaves _ => none

def encounter? (stop : Stop σ) : Option (Encounter σ) := stop.point?.map Point.encounter

def region : Stop σ → List Operation
  | .tries _ => []
  | .leaves region => region

end Stop

/-- The operations of the regions that were left at some stops. -/
def leftIn (stops : List (Stop σ)) : List Operation := stops.flatMap Stop.region

@[simp] theorem leftIn_append (stops more : List (Stop σ)) :
    leftIn (stops ++ more) = leftIn stops ++ leftIn more :=
  List.flatMap_append

/-- The points among some stops. -/
def pointsAt (stops : List (Stop σ)) : List (Point σ) := stops.filterMap Stop.point?

theorem exists_of_mem_pointsAt {p : Point σ} {stops : List (Stop σ)} (h : p ∈ pointsAt stops) :
    ∃ before after, stops = before ++ .tries p :: after := by
  obtain ⟨stop, hstop, hpoint⟩ := List.mem_filterMap.1 h
  cases stop with
  | tries q =>
      cases hpoint
      exact List.append_of_mem hstop
  | leaves region => cases hpoint

/-- The encounters at some stops. -/
def encountersAt (stops : List (Stop σ)) : List (Encounter σ) := stops.filterMap Stop.encounter?

@[simp] theorem encountersAt_append (stops more : List (Stop σ)) :
    encountersAt (stops ++ more) = encountersAt stops ++ encountersAt more := List.filterMap_append

variable (patterns : FrozenPatterns σ) (config : Config)

/-- The stops within what a match leaves. -/
def innerStops (inside : Place → Operation → State σ → List (Stop σ)) (outer : Place)
    (level : Level) (op : Operation) (recording : Recording) (s : State σ) : List (Stop σ) :=
  match stays? op recording with
  | some op =>
      if config.topDown then inside (level.behind recording.inserted :: outer) op
        (recording.inserted.foldl State.register s)
      else []
  | none => []

/-- The stops from the one at an operation on, whose operands and nested operations are done. -/
def stopsFrom (inside : Place → Operation → State σ → List (Stop σ)) (depth : Nat) (outer : Place)
    (level : Level) (op : Operation) (s : State σ) : List (Stop σ) :=
  .tries ⟨level :: outer, depth, op, s⟩ :: afterwards (applyPatterns patterns config depth op)
    (fun recording? s => innerStops config inside outer level op (recording?.getD {}) s) s

/-- The stops of a visit; those within the operation are listed by `inside`. -/
def visitStops (within : Operation → Step σ Operation)
    (inside : Place → Operation → State σ → List (Stop σ)) (depth : Nat) (outer : Place)
    (level : Level) (op : Operation) : State σ → List (Stop σ) :=
  afterwards (substitute op) fun op s =>
    (if !config.topDown then inside (level :: outer) op s else [])
    ++ afterwards (if !config.topDown then within op else pure op)
      (stopsFrom patterns config inside depth outer level) s

/-- The stops in a list of operations, in view of those before them in the region. -/
def visitAllStops (within : Operation → Step σ Operation)
    (inside : Place → Operation → State σ → List (Stop σ)) (depth : Nat) (outer : Place)
    (head : Head) : List Operation → List Operation → State σ → List (Stop σ)
  | _, [], _ => []
  | earlier, op :: ops, s =>
      visitStops patterns config within inside depth outer ⟨head, earlier, ops⟩ op s
        ++ afterwards (visit patterns config within depth op)
          (fun first => visitAllStops within inside depth outer head (earlier ++ first) ops) s

/-- The stops in what an operation holds, and the one at its end. -/
def regionStops : Nat → Nat → Place → Operation → State σ → List (Stop σ)
  | levels, depth, place, op =>
      match op.region, levels with
      | none, _ | some _, 0 => fun _ => []
      | some ops, levels + 1 => fun s =>
          visitAllStops patterns config (visitRegion patterns config levels (depth + 1))
            (regionStops levels (depth + 1)) depth place op.toHead [] ops s
            ++ afterwards
              (visitAll patterns config (visitRegion patterns config levels (depth + 1)) depth ops)
              (fun region _ => [.leaves region]) s

/-- The stops of a sweep. -/
def sweepStops (root : Operation) (s : State σ) : List (Stop σ) :=
  regionStops patterns config (root.height + spareLevels) 0 [] root { s with definitions := .empty }

/-- The sweeps of a run: the tree and the state that each starts from. -/
def sweepStarts : Nat → Nat → Operation → State σ → List (Operation × State σ)
  | 0, _, _, _ => []
  | remaining + 1, iteration, root, s =>
      if s.limitReached config then []
      else
        let noted := s.note (.iteration iteration root.name.text)
        (root, noted) :: afterwards (sweep patterns config root >>= removeDead config)
          (fun (root, removed) after =>
          if after.rewrites = s.rewrites && removed = 0 then []
          else sweepStarts remaining (iteration + 1) root after) noted

/-- An attempt to match: the pattern that is tried, and the state that it starts from. -/
structure Attempted (σ : Type) where
  pattern : Pattern σ
  before : State σ

/-- The attempts that are made until a pattern matches. -/
def attemptsOn (depth : Nat) (op : Operation) : List (Pattern σ) → State σ → List (Attempted σ)
  | [], _ => []
  | pattern :: rest, s =>
      ⟨pattern, s⟩ :: afterwards (attempt depth op pattern)
        (fun recording? s => if recording?.isSome then [] else attemptsOn depth op rest s) s

/-- The attempts at a point. -/
def Point.attempts (p : Point σ) : List (Attempted σ) :=
  if p.before.limitReached config then [] else attemptsOn p.depth p.op
    (patterns.patternsFor p.op.name) p.before

end Greedy

open Greedy in
/-- The sweeps of a run of rewriting. -/
def sweepsOf (patterns : FrozenPatterns σ) (config : Greedy.Config) (root : Operation)
    (context : Context) (memory : σ) :
    List (Operation × State σ) :=
  sweepStarts patterns config config.maxIterations 0 root
    { context, memory, names := Greedy.namesFor root }

open Greedy in
/-- The stops of all sweeps of a run of rewriting. -/
def stopsOf (patterns : FrozenPatterns σ) (config : Greedy.Config) (root : Operation)
    (context : Context) (memory : σ) :
    List (Stop σ) :=
  (sweepsOf patterns config root context memory).flatMap fun start =>
    sweepStops patterns config start.1 start.2

namespace Greedy

/-! ### Stops and encounters -/

theorem encountersAt_tries (p : Point σ) (stops : List (Stop σ)) :
    encountersAt (.tries p :: stops) = p.encounter :: encountersAt stops := rfl

theorem encountersAt_afterwards (step : Step σ α) (next : α → State σ → List (Stop σ))
    (s : State σ) :
    encountersAt (afterwards step next s) = afterwards step
      (fun a s => encountersAt (next a s)) s := by
  unfold afterwards
  split <;> rfl

theorem flatMap_afterwards (step : Step σ α) (next : α → State σ → List β) (f : β → List γ)
    (s : State σ) :
    (afterwards step next s).flatMap f = afterwards step (fun a s => (next a s).flatMap f) s := by
  unfold afterwards
  split <;> rfl

theorem exists_returns_of_mem {step : Step σ α} {next : α → State σ → List β} {s : State σ} {b : β}
    (h : b ∈ afterwards step next s) : ∃ a s', Returns step s a s' ∧ b ∈ next a s' := by
  unfold afterwards at h
  split at h
  next a s' hrun => exact ⟨a, s', hrun, h⟩
  next => cases h

variable {patterns : FrozenPatterns σ} {config : Config} {within : Operation → Step σ Operation}
  {inside : List String → Operation → State σ → List (Encounter σ)}
  {stopsInside : Place → Operation → State σ → List (Stop σ)}

theorem encountersAt_innerStops
    (hinside : ∀ place op s, encountersAt (stopsInside place op s) = inside place.visible op s)
    (outer : Place) (level : Level) (op : Operation) (recording : Recording) (s : State σ) :
    encountersAt (innerStops config stopsInside outer level op recording s)
      = innerEncounters config inside (Place.visible (level :: outer)) op recording s := by
  unfold innerStops innerEncounters
  cases stays? op recording with
  | none => rfl
  | some op =>
      dsimp only
      rw [← Place.visible_behind, ← hinside]
      split
      · rfl
      · rfl

theorem encountersAt_stopsFrom
    (hinside : ∀ place op s, encountersAt (stopsInside place op s) = inside place.visible op s)
    (depth : Nat) (outer : Place) (level : Level) (op : Operation) (s : State σ) :
    encountersAt (stopsFrom patterns config stopsInside depth outer level op s)
      = encountersFrom patterns config inside depth (Place.visible (level :: outer)) op s := by
  unfold stopsFrom encountersFrom
  rw [encountersAt_tries, encountersAt_afterwards]
  congr 2
  funext recording? s
  exact encountersAt_innerStops hinside outer level op _ s

theorem encountersAt_visitStops
    (hinside : ∀ place op s, encountersAt (stopsInside place op s) = inside place.visible op s)
    (depth : Nat) (outer : Place) (level : Level) (op : Operation) (s : State σ) :
    encountersAt (visitStops patterns config within stopsInside depth outer level op s)
      = visitEncounters patterns config within inside depth
        (Place.visible (level :: outer)) op s := by
  rw [visitEncounters_eq]
  unfold visitStops
  rw [encountersAt_afterwards]
  congr 1
  funext op s
  rw [encountersAt_append, encountersAt_afterwards]
  congr 1
  · split
    · exact hinside _ op s
    · rfl
  · congr 1
    funext op s
    exact encountersAt_stopsFrom hinside depth outer level op s

theorem encountersAt_visitAllStops
    (hinside : ∀ place op s, encountersAt (stopsInside place op s) = inside place.visible op s)
    (depth : Nat) (outer : Place) (head : Head) (earlier ops : List Operation) (s : State σ) :
    encountersAt (visitAllStops patterns config within stopsInside depth outer head earlier ops s)
      = visitAllEncounters patterns config within inside depth
        (visibleAfter outer.visible earlier) ops s := by
  induction ops generalizing earlier s with
  | nil => rfl
  | cons op ops ih =>
      rw [visitAllStops, visitAllEncounters, encountersAt_append, encountersAt_visitStops hinside,
        encountersAt_afterwards]
      congr 2
      funext first s
      rw [← visibleAfter_append]
      exact ih (earlier ++ first) s

theorem encountersAt_regionStops (levels depth : Nat) (place : Place) (op : Operation)
    (s : State σ) :
    encountersAt (regionStops patterns config levels depth place op s)
      = regionEncounters patterns config levels depth place.visible op s := by
  induction levels generalizing depth place op s with
  | zero =>
      unfold regionStops regionEncounters
      cases op.region with
      | none => rfl
      | some ops => rfl
  | succ levels ih =>
      unfold regionStops regionEncounters
      cases op.region with
      | none => rfl
      | some ops =>
          dsimp only
          rw [encountersAt_append, encountersAt_visitAllStops fun place op s =>
            ih (depth + 1) place op s, encountersAt_afterwards]
          have hend := afterwards_nil (β := Encounter σ)
            (visitAll patterns config (visitRegion patterns config levels (depth + 1)) depth ops) s
          exact (congrArg (_ ++ ·) hend).trans (List.append_nil _)

/-- The encounters of a sweep are those at its stops. -/
theorem encountersAt_sweepStops (root : Operation) (s : State σ) :
    encountersAt (sweepStops patterns config root s) = sweepEncounters patterns config root s :=
  encountersAt_regionStops _ 0 [] root _

/-- The encounters of a run are those of its sweeps. -/
theorem iterateEncounters_eq (remaining iteration : Nat) (root : Operation) (s : State σ) :
    iterateEncounters patterns config remaining iteration root s
      = (sweepStarts patterns config remaining iteration root s).flatMap fun start =>
        sweepEncounters patterns config start.1 start.2 := by
  induction remaining generalizing iteration root s with
  | zero => rfl
  | succ remaining ih =>
      rw [iterateEncounters, sweepStarts]
      split
      · rfl
      · dsimp only
        rw [List.flatMap_cons, flatMap_afterwards]
        congr 2
        funext ⟨root, removed⟩ after
        dsimp only
        split
        · rfl
        · exact ih (iteration + 1) root after

/-- The matches of a run are those at its stops. -/
theorem committed_eq (root : Operation) (context : Context) (memory : σ) :
    committed patterns config root context memory
    = matchesIn patterns config (encountersAt (stopsOf patterns config root context memory)) := by
  have hflatMap (starts : List (Operation × State σ)) :
      encountersAt (starts.flatMap fun start => sweepStops patterns config start.1 start.2)
        = starts.flatMap fun start => sweepEncounters patterns config start.1 start.2 := by
    induction starts with
    | nil => rfl
    | cons start starts ih =>
        rw [List.flatMap_cons, encountersAt_append, encountersAt_sweepStops, ih, List.flatMap_cons]
  rw [committed, iterateEncounters_eq, stopsOf, hflatMap]
  rfl

/-- An attempt finds what the first one found: those before it have declined. -/
theorem similar_of_mem_attemptsOn {depth : Nat} {op : Operation} {tried : List (Pattern σ)}
    {s : State σ} {a : Attempted σ} (h : a ∈ attemptsOn depth op tried s) :
    s.Similar a.before ∧ a.before.names = s.names := by
  induction tried generalizing s with
  | nil => cases h
  | cons pattern rest ih =>
      rcases List.mem_cons.1 h with rfl | h
      · exact ⟨.refl s, rfl⟩
      · obtain ⟨recording?, s', hreturns, h⟩ := exists_returns_of_mem h
        have htried := (ensures_attempt depth op pattern s).of_returns hreturns
        cases recording? with
        | some recording => cases h
        | none =>
            obtain ⟨hsimilar, hnames⟩ := ih h
            exact ⟨htried.similar.trans hsimilar, hnames.trans htried.draws⟩

theorem similar_of_mem_attempts {p : Point σ} {a : Attempted σ}
    (h : a ∈ p.attempts patterns config) :
    p.before.Similar a.before ∧ a.before.names = p.before.names := by
  unfold Point.attempts at h
  split at h
  · cases h
  · exact similar_of_mem_attemptsOn h

/-- At each point something holds of it and of the stops before it. -/
def AtEach (P : List (Stop σ) → Point σ → Prop) (stops : List (Stop σ)) : Prop :=
  ∀ before p after, stops = before ++ .tries p :: after → P before p

namespace AtEach

variable {P Q : List (Stop σ) → Point σ → Prop} {stops more : List (Stop σ)}

theorem nil : AtEach P [] := by
  rintro before p after heq
  cases before with
  | nil => cases heq
  | cons stop before => cases heq

theorem leaves (region : List Operation) : AtEach P [.leaves region] := by
  rintro before p after heq
  cases before with
  | nil => cases heq
  | cons stop before =>
      cases before with
      | nil => cases heq
      | cons stop before => cases heq

theorem tries {p : Point σ} (h : P [] p) : AtEach P [.tries p] := by
  rintro before q after heq
  cases before with
  | nil =>
      cases heq
      exact h
  | cons stop before =>
      cases before with
      | nil => cases heq
      | cons stop before => cases heq

theorem append (h : AtEach P stops) (h' : AtEach (fun before => P (stops ++ before)) more) :
    AtEach P (stops ++ more) := by
  rintro before p after heq
  rcases List.append_eq_append_iff.1 heq with ⟨between, rfl, hmore⟩ | ⟨between, rfl, hrest⟩
  · exact h' between p after hmore
  · cases between with
    | nil =>
        have hfirst := h' [] p after hrest.symm
        rwa [List.append_nil, List.append_nil] at hfirst
    | cons stop between =>
        cases hrest
        exact h before p between rfl

theorem mono (h : AtEach P stops) (hmono : ∀ before p, P before p → Q before p) : AtEach Q stops :=
  fun before p after heq => hmono before p (h before p after heq)

/-- What comes behind a step is of interest only if the step ends with a result. -/
theorem afterwards {step : Step σ α} {next : α → State σ → List (Stop σ)} {s : State σ}
    (h : ∀ a s', Returns step s a s' → AtEach P (next a s')) :
    AtEach P (afterwards step next s) := by
  unfold Greedy.afterwards
  split
  next a s' hrun => exact h a s' hrun
  next => exact .nil

end AtEach

/-- At each point of a step something holds of it and of the stops before it, and something holds of
what the step ends with. -/
structure Along (P : List (Stop σ) → Point σ → Prop) (stops : List (Stop σ))
    (step : Step σ α) (s : State σ)
    (post : α → State σ → Prop) : Prop where
  points : AtEach P stops
  result : ∀ a s', Returns step s a s' → post a s'

namespace Along

variable {P Q : List (Stop σ) → Point σ → Prop} {stops : List (Stop σ)} {step : Step σ α}
  {next : α → Step σ β} {later : α → State σ → List (Stop σ)} {post : α → State σ → Prop}
  {post' : β → State σ → Prop} {s : State σ}

theorem mono (h : Along P stops step s post) (hmono : ∀ before p, P before p → Q before p) :
    Along Q stops step s post :=
  ⟨h.points.mono hmono, h.result⟩

/-- One step after the other: behind the first, its stops come before. -/
theorem bind (h : Along P stops step s post) (hnext : ∀ a s', Returns step s a s' → post a s' →
      Along (fun before => P (stops ++ before)) (later a s') (next a) s' post') :
    Along P (stops ++ Greedy.afterwards step later s) (step >>= next) s post' where
  points := h.points.append (.afterwards fun a s' hreturns =>
    (hnext a s' hreturns (h.result a s' hreturns)).points)
  result b s'' hreturns := by
    obtain ⟨a, s', hreturns, hreturns'⟩ := Returns.bind_iff.1 hreturns
    exact (hnext a s' hreturns (h.result a s' hreturns)).result b s'' hreturns'

end Along

end Greedy

end DialectIR
